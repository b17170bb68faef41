import Mathlib.Data.List.Basic

/-!
# Futures and their wakers

A future lives in a world that others change as well. A poll looks at the world, and either
returns a value or leaves the waker it was given somewhere in the world, where somebody will find
it; and whoever changes the world invokes wakers.

A task that has been told to wait looks again only when its waker is invoked. So what it needs is
that the waker waits for it: as long as nobody invokes it, another poll would return nothing
either, unless the world still owes the invocation (`Pluvio.Future.Keeps`). Whether a future keeps
this contract depends on what the others do, and what a poll does to the world is something the
others rely on. From the contract it follows that no wakeup is lost along a run
(`Pluvio.Future.Keeps.run`), and it holds in one half of a world if it holds of the half
(`Pluvio.Future.Keeps.fst`, `Pluvio.Future.Keeps.snd`).
-/

namespace Pluvio

/-- What a poll leaves: what it returns, the future, the world, and the wakers invoked. -/
structure Future.Polled (F E W α : Type*) where
  result : Option α
  future : F
  world : E
  woken : List W

/-- **A future**, the state of which is in `F`, in a world `E` with wakers in `W`. -/
structure Future (F E W α : Type*) where
  poll : F → E → W → Future.Polled F E W α
  /-- It is dropped: the world afterwards, and the wakers invoked. -/
  drop : F → E → E × List W

/-- The world changes, step by step, and wakers are invoked. -/
inductive Moves {E W : Type*} (R : E → E → List W → Prop) : E → E → List W → Prop
  | refl (e : E) : Moves R e e []
  | tail {e e' e'' : E} {l l' : List W} : Moves R e e' l → R e' e'' l' → Moves R e e'' (l ++ l')

namespace Moves

variable {E W : Type*} {R S : E → E → List W → Prop} {e e' e'' : E} {l l' : List W}

theorem single (h : R e e' l) : Moves R e e' l := (Moves.refl e).tail h

theorem trans (h : Moves R e e' l) (h' : Moves R e' e'' l') : Moves R e e'' (l ++ l') := by
  induction h' with
  | refl => simpa using h
  | tail _ hr ih =>
    rw [← List.append_assoc]
    exact ih.tail hr

theorem mono (hRS : ∀ e e' l, R e e' l → S e e' l) (h : Moves R e e' l) : Moves S e e' l := by
  induction h with
  | refl => exact .refl e
  | tail _ hr ih => exact ih.tail (hRS _ _ _ hr)

/-- A relation of worlds that is kept. -/
theorem map {E' : Type*} {S : E' → E' → List W → Prop} {f : E → E'}
    (hf : ∀ e e' l, R e e' l → S (f e) (f e') l) (h : Moves R e e' l) :
    Moves S (f e) (f e') l := by
  induction h with
  | refl => exact .refl (f e)
  | tail _ hr ih => exact ih.tail (hf _ _ _ hr)

end Moves

namespace Future

variable {F E W α : Type*}

/-! ### The contract -/

/-- **A poll in order**: the world has changed by `own` steps, and if nothing is returned, the
waker has been invoked already, or waits. -/
structure Polled.Ok (p : Polled F E W α) (own : E → E → List W → Prop) (w : W)
    (inv waits : F → E → Prop) (e : E) : Prop where
  moves : Moves own e p.world p.woken
  inv : inv p.future p.world
  waits : p.result = none → w ∈ p.woken ∨ waits p.future p.world

/-- **The contract of a future** that is polled with the waker `w`. It changes the world by `own`
steps, and relies on the others making `others` steps. Where it `waits`, the waker is left; and
the world may owe its invocation. -/
structure Keeps (fut : Future F E W α) (own : E → E → List W → Prop)
    (others : F → E → E → List W → Prop) (owes : F → E → Prop) (w : W)
    (inv waits : F → E → Prop) : Prop where
  others : ∀ f e e' l, inv f e → others f e e' l →
    inv f e' ∧ (waits f e → w ∈ l ∨ waits f e')
  poll : ∀ f e, inv f e → (fut.poll f e w).Ok own w inv waits e
  again : ∀ f e, inv f e → waits f e →
    owes f e ∨ ∃ f', fut.poll f e w = ⟨none, f', e, []⟩
  drop : ∀ f e, inv f e → Moves own e (fut.drop f e).1 (fut.drop f e).2

section Contract

variable {fut : Future F E W α} {own : E → E → List W → Prop}
  {others : F → E → E → List W → Prop} {owes : F → E → Prop} {w : W} {inv waits : F → E → Prop}
  {f : F} {e e' : E} {l : List W}

/-- Moves of the others keep the invariant, and the wakeup that is owed, unless they deliver it. -/
theorem Keeps.moves (h : fut.Keeps own others owes w inv waits) (hinv : inv f e)
    (hm : Moves (others f) e e' l) : inv f e' ∧ (waits f e → w ∈ l ∨ waits f e') := by
  induction hm with
  | refl => exact ⟨hinv, .inr⟩
  | tail _ hr ih =>
    obtain ⟨hinv', hwaits⟩ := h.others _ _ _ _ ih.1 hr
    refine ⟨hinv', fun hw => ?_⟩
    rcases ih.2 hw with hmem | hw
    · exact .inl (List.mem_append_left _ hmem)
    · exact (hwaits hw).imp_left (List.mem_append_right _)

/-! ### Runs -/

/-- A future and its world; and the wakers invoked since the last poll, while that one has
returned nothing. -/
structure Watched (F E W : Type*) where
  future : F
  world : E
  since : Option (List W)

/-- **A run**: the future is polled with the waker, and the others make steps. -/
inductive Run (fut : Future F E W α) (others : F → E → E → List W → Prop) (w : W) :
    Watched F E W → Watched F E W → Prop
  | refl (s : Watched F E W) : Run fut others w s s
  | poll {s s' : Watched F E W} {p : Polled F E W α} : Run fut others w s s' →
      fut.poll s'.future s'.world w = p →
      Run fut others w s ⟨p.future, p.world, if p.result.isNone then some p.woken else none⟩
  | others {s s' : Watched F E W} {e : E} {l : List W} : Run fut others w s s' →
      others s'.future s'.world e l →
      Run fut others w s ⟨s'.future, e, s'.since.map (· ++ l)⟩

/-- What holds in every state of a run. -/
structure WatchedInv (w : W) (inv waits : F → E → Prop) (s : Watched F E W) : Prop where
  inv : inv s.future s.world
  since : ∀ l, s.since = some l → w ∈ l ∨ waits s.future s.world

/-- **The run**: since the last poll the waker has been invoked, or it is still left. -/
theorem Keeps.watched (h : fut.Keeps own others owes w inv waits) {s s' : Watched F E W}
    (hs : WatchedInv w inv waits s) (hrun : Run fut others w s s') : WatchedInv w inv waits s' := by
  induction hrun with
  | refl => exact hs
  | poll _ hp ih =>
    have hok := h.poll _ _ ih.inv
    rw [hp] at hok
    refine ⟨hok.inv, fun l hl => ?_⟩
    obtain ⟨hnone, hl⟩ := Option.ite_none_right_eq_some.mp hl
    obtain rfl := Option.some.inj hl
    exact hok.waits (Option.isNone_iff_eq_none.mp hnone)
  | others _ hr ih =>
    obtain ⟨hinv, hwaits⟩ := h.others _ _ _ _ ih.inv hr
    refine ⟨hinv, fun l' hl' => ?_⟩
    obtain ⟨l₀, hl₀, rfl⟩ := Option.map_eq_some_iff.mp hl'
    rcases ih.since l₀ hl₀ with hmem | hw
    · exact .inl (List.mem_append_left _ hmem)
    · exact (hwaits hw).imp_left (List.mem_append_right _)

/-- **No wakeup is lost**: after a poll that has returned nothing, either the waker has been
invoked, or its invocation is owed, or another poll would return nothing. -/
theorem Keeps.run (h : fut.Keeps own others owes w inv waits) {s s' : Watched F E W}
    (hs : WatchedInv w inv waits s) (hrun : Run fut others w s s') (hl : s'.since = some l) :
    w ∈ l ∨ owes s'.future s'.world ∨ (fut.poll s'.future s'.world w).result = none := by
  obtain ⟨hinv, hsince⟩ := h.watched hs hrun
  refine (hsince l hl).imp_right fun hw => (h.again _ _ hinv hw).imp_right ?_
  rintro ⟨f', hpoll⟩
  rw [hpoll]

end Contract

/-! ### What is done with a future -/

/-- What is done with a future. -/
inductive Use (α : Type*)
  | polled (result : Option α)
  | dropped

/-- The future, with a log in its world of what is done with it. -/
def logged {γ : Type*} (fut : Future F E W α) (tag : Use α → γ) :
    Future F (E × List γ) W α where
  poll f e w :=
    let p := fut.poll f e.1 w
    ⟨p.result, p.future, (p.world, e.2 ++ [tag (.polled p.result)]), p.woken⟩
  drop f e :=
    let d := fut.drop f e.1
    ((d.1, e.2 ++ [tag .dropped]), d.2)

/-! ### One half of a world -/

section Halves

variable {E' : Type*}

/-- The future lives in the first half. -/
def fst (fut : Future F E W α) : Future F (E × E') W α where
  poll f e w :=
    let p := fut.poll f e.1 w
    ⟨p.result, p.future, (p.world, e.2), p.woken⟩
  drop f e :=
    let d := fut.drop f e.1
    ((d.1, e.2), d.2)

/-- The future lives in the second half. -/
def snd (fut : Future F E W α) : Future F (E' × E) W α where
  poll f e w :=
    let p := fut.poll f e.2 w
    ⟨p.result, p.future, (e.1, p.world), p.woken⟩
  drop f e :=
    let d := fut.drop f e.2
    ((e.1, d.1), d.2)

variable {fut : Future F E W α} {own : E → E → List W → Prop}
  {others : F → E → E → List W → Prop} {owes : F → E → Prop} {w : W} {inv waits : F → E → Prop}

/-- **A future in the first half**: the second half is nothing to it. -/
theorem Keeps.fst (h : fut.Keeps own others owes w inv waits) :
    (fut.fst : Future F (E × E') W α).Keeps (fun e e' l => own e.1 e'.1 l ∧ e'.2 = e.2)
      (fun f e e' l => e'.1 = e.1 ∨ others f e.1 e'.1 l) (fun f e => owes f e.1) w
      (fun f e => inv f e.1) (fun f e => waits f e.1) where
  others f e e' l hinv hr := by
    rcases hr with heq | hr
    · rw [heq]
      exact ⟨hinv, .inr⟩
    · exact h.others f _ _ l hinv hr
  poll f e hinv := by
    have hok := h.poll f e.1 hinv
    exact ⟨hok.moves.map (f := fun x => (x, e.2)) fun _ _ _ hr => ⟨hr, rfl⟩, hok.inv, hok.waits⟩
  again f e hinv hw := by
    refine (h.again f e.1 hinv hw).imp_right ?_
    rintro ⟨f', hpoll⟩
    exact ⟨f', by simp only [Future.fst, hpoll]⟩
  drop f e hinv := (h.drop f e.1 hinv).map (f := fun x => (x, e.2)) fun _ _ _ hr => ⟨hr, rfl⟩

/-- **A future in the second half.** -/
theorem Keeps.snd (h : fut.Keeps own others owes w inv waits) :
    (fut.snd : Future F (E' × E) W α).Keeps (fun e e' l => own e.2 e'.2 l ∧ e'.1 = e.1)
      (fun f e e' l => e'.2 = e.2 ∨ others f e.2 e'.2 l) (fun f e => owes f e.2) w
      (fun f e => inv f e.2) (fun f e => waits f e.2) where
  others f e e' l hinv hr := by
    rcases hr with heq | hr
    · rw [heq]
      exact ⟨hinv, .inr⟩
    · exact h.others f _ _ l hinv hr
  poll f e hinv := by
    have hok := h.poll f e.2 hinv
    exact ⟨hok.moves.map (f := fun x => (e.1, x)) fun _ _ _ hr => ⟨hr, rfl⟩, hok.inv, hok.waits⟩
  again f e hinv hw := by
    refine (h.again f e.2 hinv hw).imp_right ?_
    rintro ⟨f', hpoll⟩
    exact ⟨f', by simp only [Future.snd, hpoll]⟩
  drop f e hinv := (h.drop f e.2 hinv).map (f := fun x => (e.1, x)) fun _ _ _ hr => ⟨hr, rfl⟩

end Halves

end Future

end Pluvio
