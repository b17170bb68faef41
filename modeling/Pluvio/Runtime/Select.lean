import Pluvio.Future
import Pluvio.Runtime.Join

/-!
# The first of two futures

`select` polls two futures, the first one first, and returns what the one that is ready returns;
the other one is dropped. It is a future itself, so there are two things to say about it, whatever
the futures are.

What it does with them is a protocol (`Pluvio.Executor.select_protocol`): the polls alternate, none
follows a poll that was ready or a drop, and both futures are dropped once. And what a task may
rely on is the contract of the two (`Pluvio.Executor.Select2.keeps`), as long as neither disturbs
the other: the waker it leaves with both is invoked (`Pluvio.Executor.select_wakes`).
-/

namespace Pluvio

namespace Executor

/-! ### The future -/

/-- `Either`. -/
inductive Either (α β : Type*)
  | left (v : α)
  | right (v : β)
  deriving DecidableEq

/-- `Select2`. -/
structure Select2 (F₁ F₂ : Type*) where
  future1 : Option F₁
  future2 : Option F₂

/-- An `Option` of a future is dropped, or is overwritten. -/
def dropOption {F E W α : Type*} (fut : Future F E W α) (f : Option F) (e : E) : E × List W :=
  match f with
  | some f => fut.drop f e
  | none => (e, [])

namespace Select2

variable {F₁ F₂ E W α β : Type*} (fut₁ : Future F₁ E W α) (fut₂ : Future F₂ E W β)

/-- `Select2::new`. -/
def new (future1 : F₁) (future2 : F₂) : Select2 F₁ F₂ := ⟨some future1, some future2⟩

/-- The fields are dropped in their order: by the drop of the whole, and when one of the futures
is ready. -/
def dropFields (s : Select2 F₁ F₂) (e : E) : E × List W :=
  let d₁ := dropOption fut₁ s.future1 e
  let d₂ := dropOption fut₂ s.future2 d₁.1
  (d₂.1, d₁.2 ++ d₂.2)

/-- The second half of `Select2::poll`. -/
def pollFuture2 (s : Select2 F₁ F₂) (e : E) (w : W) :
    Future.Polled (Select2 F₁ F₂) E W (Either α β) :=
  match s.future2 with
  | none => ⟨none, s, e, []⟩
  | some f2 =>
    let p := fut₂.poll f2 e w
    let s := { s with future2 := some p.future }
    match p.result with
    | some result =>
      let d := s.dropFields fut₁ fut₂ p.world
      ⟨some (.right result), ⟨none, none⟩, d.1, p.woken ++ d.2⟩
    | none => ⟨none, s, p.world, p.woken⟩

/-- `Select2::poll`. -/
def poll (s : Select2 F₁ F₂) (e : E) (w : W) :
    Future.Polled (Select2 F₁ F₂) E W (Either α β) :=
  match s.future1 with
  | none => s.pollFuture2 fut₁ fut₂ e w
  | some f1 =>
    let p := fut₁.poll f1 e w
    let s := { s with future1 := some p.future }
    match p.result with
    | some result =>
      let d := s.dropFields fut₁ fut₂ p.world
      ⟨some (.left result), ⟨none, none⟩, d.1, p.woken ++ d.2⟩
    | none =>
      let q := s.pollFuture2 fut₁ fut₂ p.world w
      { q with woken := p.woken ++ q.woken }

end Select2

/-- `select`. -/
def select {F₁ F₂ E W α β : Type*} (fut₁ : Future F₁ E W α) (fut₂ : Future F₂ E W β) :
    Future (Select2 F₁ F₂) E W (Either α β) where
  poll := Select2.poll fut₁ fut₂
  drop := Select2.dropFields fut₁ fut₂

/-! ### Handles -/

section Handles

variable {ρ : Type*}

/-- A `JoinHandle<T>` of the task whose cell is `g`. -/
def JoinHandle.future (T g : ℕ) :
    Future Unit (ℕ → SharedState ρ) ℕ (Except String ρ) where
  poll _ shared w :=
    let polled := JoinHandle.poll T (shared g) w
    ⟨polled.1, (), Function.update shared g polled.2, []⟩
  drop _ shared := (shared, [])

/-- What a poll of the handle may change: the shared state of its task. -/
def OwnCell (g : ℕ) (shared shared' : ℕ → SharedState ρ) (l : List ℕ) : Prop :=
  (∀ h, h ≠ g → shared' h = shared h) ∧ l = []

/-- Nothing happens to the cell, or the task ends and invokes the waker that it finds there. -/
def OthersOfCell (g : ℕ) (shared shared' : ℕ → SharedState ρ) (l : List ℕ) : Prop :=
  shared' g = shared g ∨
    ∃ v, shared' g = ((shared g).complete v).2 ∧ ∀ w ∈ ((shared g).complete v).1, w ∈ l

/-- The waker is in the cell, and nothing else. -/
structure InCell (g w : ℕ) (shared : ℕ → SharedState ρ) : Prop where
  waker : (shared g).waker = some w
  result : (shared g).result = none

/-- **A handle keeps the contract.** -/
theorem JoinHandle.keeps (T g w : ℕ) :
    (JoinHandle.future T g : Future Unit (ℕ → SharedState ρ) ℕ (Except String ρ)).Keeps
      (OwnCell g) (fun _ => OthersOfCell g) (fun _ _ => False) w (fun _ _ => True)
      (fun _ => InCell g w) where
  others f e e' l _ hr := by
    refine ⟨trivial, fun hw => ?_⟩
    rcases hr with heq | ⟨v, -, hwoken⟩
    · exact .inr ⟨by rw [heq, hw.waker], by rw [heq, hw.result]⟩
    · exact .inl (hwoken w hw.waker)
  poll f e _ := by
    refine ⟨.single ⟨fun h hne => Function.update_of_ne hne .., rfl⟩, trivial, fun hnone => .inr ?_⟩
    have hcell : Function.update e g ((e g).poll w).2 g = ((e g).poll w).2 :=
      Function.update_self ..
    have hempty : ((e g).poll w).1 = none := Option.map_eq_none_iff.mp hnone
    refine ⟨?_, ?_⟩
    · exact (congrArg Oneshot.waker hcell).trans (Oneshot.waker_poll hempty)
    · exact (congrArg Oneshot.result hcell).trans (Oneshot.result_poll w)
  again f e _ hw := by
    have hpoll := Oneshot.poll_eq_self hw.waker hw.result
    exact .inr ⟨(), by simp [JoinHandle.future, JoinHandle.poll, hpoll]⟩
  drop f e _ := .refl e

/-- The wakers that an event of the executor finds in a cell and invokes. -/
def Joins.invoked (s : Joins ρ) : JoinEvent ρ → List ℕ
  | .ready _ => s.runtime.running.elim [] fun f => (s.shared f).waker.toList
  | _ => []

/-- **What the executor does** is such a step, but for a poll of the handle itself: the wakers that
are found in the cell are invoked. -/
theorem others_of_joinStep {cfg : SchedulingConfig} {typeOf : ℕ → ℕ} {s s' : Joins ρ}
    {e : JoinEvent ρ} {g : ℕ} (he : e ≠ .join g) (hs : joinStep cfg typeOf s e = some s') :
    OthersOfCell g s.shared s'.shared (s.invoked e) ∧
      ∀ w ∈ s.invoked e, ∃ rt, step cfg s.runtime (.wake w) = some rt := by
  cases e with
  | runtime e =>
    obtain ⟨-, rt, -, rfl⟩ := joinStep_runtime hs
    exact ⟨.inl rfl, by simp [Joins.invoked]⟩
  | ready res =>
    obtain ⟨f, rt₁, rt, hf, hwoken, -, rfl⟩ := joinStep_ready hs
    have hinvoked : s.invoked (.ready res) = (s.shared f).waker.toList := by
      rw [Joins.invoked, hf]
      rfl
    rw [hinvoked]
    refine ⟨?_, fun w hw => ?_⟩
    · by_cases hfg : f = g
      · subst hfg
        exact .inr ⟨_, Function.update_self .., fun w hw => Option.mem_toList.mpr hw⟩
      · exact .inl (Function.update_of_ne (Ne.symm hfg) ..)
    · have hw : (s.shared f).waker = some w := Option.mem_toList.mp hw
      rcases hwoken with ⟨hnone, -⟩ | ⟨w', hw', hwake⟩
      · cases hnone.symm.trans hw
      · obtain rfl := Option.some.inj (hw'.symm.trans hw)
        exact ⟨rt₁, hwake⟩
  | join h =>
    obtain ⟨f, -, -, polled, -, rfl⟩ := joinStep_join hs
    have hne : g ≠ h := fun heq => he (congrArg JoinEvent.join heq.symm)
    exact ⟨.inl (Function.update_of_ne hne ..), by simp [Joins.invoked]⟩
  | dropHandle h =>
    obtain rfl := joinStep_dropHandle hs
    exact ⟨.inl rfl, by simp [Joins.invoked]⟩

/-- Two handles do not disturb each other. -/
theorem others_of_ownCell {g h : ℕ} (hne : h ≠ g) {e e' : ℕ → SharedState ρ} {l : List ℕ}
    (hown : OwnCell g e e' l) : OthersOfCell h e e' l := .inl (hown.1 h hne)

end Handles

/-! ### The contract -/

namespace Select2

section Contract

variable {F₁ F₂ E W α β : Type*} {fut₁ : Future F₁ E W α} {fut₂ : Future F₂ E W β}
  {own₁ own₂ : E → E → List W → Prop} {others₁ : F₁ → E → E → List W → Prop}
  {others₂ : F₂ → E → E → List W → Prop} {owes₁ : F₁ → E → Prop} {owes₂ : F₂ → E → Prop} {w : W}
  {inv₁ waits₁ : F₁ → E → Prop} {inv₂ waits₂ : F₂ → E → Prop} {s : Select2 F₁ F₂} {e e' : E}
  {l : List W}

/-- What holds of a future that is there, and of the other one if it is. -/
structure Both (p₁ : F₁ → E → Prop) (p₂ : F₂ → E → Prop) (s : Select2 F₁ F₂) (e : E) : Prop where
  first : ∀ f ∈ s.future1, p₁ f e
  second : ∀ f ∈ s.future2, p₂ f e

/-- A step of one of the two. -/
def Own (own₁ own₂ : E → E → List W → Prop) (e e' : E) (l : List W) : Prop :=
  own₁ e e' l ∨ own₂ e e' l

/-- A step that both can bear. -/
def Others (others₁ : F₁ → E → E → List W → Prop) (others₂ : F₂ → E → E → List W → Prop)
    (s : Select2 F₁ F₂) (e e' : E) (l : List W) : Prop :=
  (∀ f ∈ s.future1, others₁ f e e' l) ∧ ∀ f ∈ s.future2, others₂ f e e' l

/-- The world owes an invocation to one of the two. -/
def Owes (owes₁ : F₁ → E → Prop) (owes₂ : F₂ → E → Prop) (s : Select2 F₁ F₂) (e : E) : Prop :=
  (∃ f ∈ s.future1, owes₁ f e) ∨ ∃ f ∈ s.future2, owes₂ f e

/-- Both are there no more. -/
theorem both_none {p₁ : F₁ → E → Prop} {p₂ : F₂ → E → Prop} (e : E) :
    Both p₁ p₂ ⟨none, none⟩ e := ⟨by simp, by simp⟩

/-- **Another poll** of the second one, whatever the first one is. -/
theorem pollFuture2_again (fut₁ : Future F₁ E W α)
    (h₂ : fut₂.Keeps own₂ others₂ owes₂ w inv₂ waits₂) {f2 : Option F₂}
    (hinv : ∀ f ∈ f2, inv₂ f e) (hw : ∀ f ∈ f2, waits₂ f e) (f1 : Option F₁) :
    (∃ f ∈ f2, owes₂ f e) ∨ ∃ s', pollFuture2 fut₁ fut₂ ⟨f1, f2⟩ e w = ⟨none, s', e, []⟩ := by
  cases f2 with
  | none => exact .inr ⟨_, rfl⟩
  | some f2 =>
    rcases h₂.again f2 e (hinv f2 rfl) (hw f2 rfl) with howes | ⟨f2', hp⟩
    · exact .inl ⟨f2, rfl, howes⟩
    · exact .inr ⟨⟨f1, some f2'⟩, by simp only [pollFuture2, hp]⟩

variable (h₁ : fut₁.Keeps own₁ others₁ owes₁ w inv₁ waits₁)
  (h₂ : fut₂.Keeps own₂ others₂ owes₂ w inv₂ waits₂)
  (h₁₂ : ∀ f e e' l, own₁ e e' l → others₂ f e e' l)
  (h₂₁ : ∀ f e e' l, own₂ e e' l → others₁ f e e' l)

include h₁ h₂ h₁₂

/-- Dropping the two futures is a move of their own. -/
theorem moves_dropFields (hinv : Both inv₁ inv₂ s e) :
    Moves (Own own₁ own₂) e (s.dropFields fut₁ fut₂ e).1 (s.dropFields fut₁ fut₂ e).2 := by
  obtain ⟨f1, f2⟩ := s
  have hfirst : Moves own₁ e (dropOption fut₁ f1 e).1 (dropOption fut₁ f1 e).2 := by
    cases f1 with
    | none => exact .refl e
    | some f => exact h₁.drop f e (hinv.first f rfl)
  refine (hfirst.mono fun _ _ _ => .inl).trans ?_
  cases f2 with
  | none => exact .refl _
  | some f =>
    refine (h₂.drop f _ ?_).mono fun _ _ _ => .inr
    exact (h₂.moves (hinv.second f rfl) (hfirst.mono (h₁₂ f))).1

include h₂₁

/-- **The second half of a poll.** -/
theorem pollFuture2_ok (hinv : Both inv₁ inv₂ s e) :
    (s.pollFuture2 fut₁ fut₂ e w).Ok (Own own₁ own₂) w (Both inv₁ inv₂)
      (fun s' e' => (∀ f ∈ s.future1, waits₁ f e) → Both waits₁ waits₂ s' e') e := by
  obtain ⟨f1, _ | f2⟩ := s
  · exact ⟨.refl e, hinv, fun _ => .inr fun hw => ⟨hw, by simp [pollFuture2]⟩⟩
  · have hok := h₂.poll f2 e (hinv.second f2 rfl)
    rcases hp : fut₂.poll f2 e w with ⟨result, f2', e', l⟩
    rw [hp] at hok
    have hkept : ∀ f ∈ f1, inv₁ f e' ∧ (waits₁ f e → w ∈ l ∨ waits₁ f e') := fun f hf =>
      h₁.moves (hinv.first f hf) (hok.moves.mono (h₂₁ f))
    have hboth : Both inv₁ inv₂ ⟨f1, some f2'⟩ e' :=
      ⟨fun f hf => (hkept f hf).1, by simpa using hok.inv⟩
    have hmoves : Moves (Own own₁ own₂) e e' l := hok.moves.mono fun _ _ _ => .inr
    cases result with
    | some v =>
      simp only [pollFuture2, hp]
      exact ⟨hmoves.trans (moves_dropFields h₁ h₂ h₁₂ hboth), both_none _, by simp⟩
    | none =>
      simp only [pollFuture2, hp]
      refine ⟨hmoves, hboth, fun _ => or_iff_not_imp_left.mpr fun hmem hw => ?_⟩
      have hw₂ := (hok.waits rfl).resolve_left hmem
      exact ⟨fun f hf => ((hkept f hf).2 (hw f hf)).resolve_left hmem, by simpa using hw₂⟩

/-- **`select` keeps the contract** of the two futures. -/
theorem keeps : (select fut₁ fut₂).Keeps (Own own₁ own₂) (Others others₁ others₂)
    (Owes owes₁ owes₂) w (Both inv₁ inv₂) (Both waits₁ waits₂) where
  others s e e' l hinv hr := by
    refine ⟨⟨fun f hf => ?_, fun f hf => ?_⟩, fun hw => ?_⟩
    · exact (h₁.others f e e' l (hinv.first f hf) (hr.1 f hf)).1
    · exact (h₂.others f e e' l (hinv.second f hf) (hr.2 f hf)).1
    · by_cases hmem : w ∈ l
      · exact .inl hmem
      · refine .inr ⟨fun f hf => ?_, fun f hf => ?_⟩
        · exact ((h₁.others f e e' l (hinv.first f hf) (hr.1 f hf)).2
            (hw.first f hf)).resolve_left hmem
        · exact ((h₂.others f e e' l (hinv.second f hf) (hr.2 f hf)).2
            (hw.second f hf)).resolve_left hmem
  poll s e hinv := by
    obtain ⟨_ | f1, f2⟩ := s
    · -- the first future is gone
      have hok := pollFuture2_ok h₁ h₂ h₁₂ h₂₁ hinv
      exact ⟨hok.moves, hok.inv, fun hnone => (hok.waits hnone).imp_right fun hw => hw (by simp)⟩
    · have hok := h₁.poll f1 e (hinv.first f1 rfl)
      rcases hp : fut₁.poll f1 e w with ⟨result, f1', e', l⟩
      rw [hp] at hok
      have hboth : Both inv₁ inv₂ ⟨some f1', f2⟩ e' := by
        refine ⟨by simpa using hok.inv, fun f hf => ?_⟩
        exact (h₂.moves (hinv.second f hf) (hok.moves.mono (h₁₂ f))).1
      have hmoves : Moves (Own own₁ own₂) e e' l := hok.moves.mono fun _ _ _ => .inl
      cases result with
      | some v =>
        -- the first future is ready, and both are dropped
        simp only [select, Select2.poll, hp]
        exact ⟨hmoves.trans (moves_dropFields h₁ h₂ h₁₂ hboth), both_none _, by simp⟩
      | none =>
        -- it is not, and the second one is polled after it
        have hok₂ := pollFuture2_ok h₁ h₂ h₁₂ h₂₁ hboth
        simp only [select, Select2.poll, hp]
        refine ⟨hmoves.trans hok₂.moves, hok₂.inv, fun hnone => ?_⟩
        rcases hok.waits rfl with hmem | hw
        · exact .inl (List.mem_append_left _ hmem)
        · refine (hok₂.waits hnone).imp (List.mem_append_right _) fun hboth => hboth ?_
          simpa using hw
  again s e hinv hw := by
    obtain ⟨_ | f1, f2⟩ := s
    · exact (pollFuture2_again fut₁ h₂ hinv.second hw.second none).imp_left .inr
    · rcases h₁.again f1 e (hinv.first f1 rfl) (hw.first f1 rfl) with howes | ⟨f1', hp⟩
      · exact .inl (.inl ⟨f1, rfl, howes⟩)
      · rcases pollFuture2_again fut₁ h₂ hinv.second hw.second (some f1') with howes | ⟨s', hp₂⟩
        · exact .inl (.inr howes)
        · exact .inr ⟨s', by simp only [select, Select2.poll, hp, hp₂, List.append_nil]⟩
  drop s e hinv := moves_dropFields h₁ h₂ h₁₂ hinv

end Contract

end Select2

section Wakes

variable {F₁ F₂ E W α β : Type*} {fut₁ : Future F₁ E W α} {fut₂ : Future F₂ E W β}
  {own₁ own₂ : E → E → List W → Prop} {others₁ : F₁ → E → E → List W → Prop}
  {others₂ : F₂ → E → E → List W → Prop} {owes₁ : F₁ → E → Prop} {owes₂ : F₂ → E → Prop} {w : W}
  {inv₁ waits₁ : F₁ → E → Prop} {inv₂ waits₂ : F₂ → E → Prop}

/-- **A task that selects does not miss the first**: of two futures that keep the contract and do
not disturb each other, and while the others go on as they like, after a poll of `select` that has
returned `Pending` either the waker has been invoked, or its invocation is owed to one of the two,
or another poll would return `Pending`. -/
theorem select_wakes (h₁ : fut₁.Keeps own₁ others₁ owes₁ w inv₁ waits₁)
    (h₂ : fut₂.Keeps own₂ others₂ owes₂ w inv₂ waits₂)
    (h₁₂ : ∀ f e e' l, own₁ e e' l → others₂ f e e' l)
    (h₂₁ : ∀ f e e' l, own₂ e e' l → others₁ f e e' l) {f1 : F₁} {f2 : F₂} {e : E}
    (hinv₁ : inv₁ f1 e) (hinv₂ : inv₂ f2 e) {s : Future.Watched (Select2 F₁ F₂) E W}
    (hrun : Future.Run (select fut₁ fut₂) (Select2.Others others₁ others₂) w
      ⟨.new f1 f2, e, none⟩ s) {l : List W} (hl : s.since = some l) :
    w ∈ l ∨ Select2.Owes owes₁ owes₂ s.future s.world ∨
      ((select fut₁ fut₂).poll s.future s.world w).result = none := by
  refine (Select2.keeps h₁ h₂ h₁₂ h₂₁).run ⟨⟨?_, ?_⟩, by simp⟩ hrun hl
  · simpa [Select2.new] using hinv₁
  · simpa [Select2.new] using hinv₂

/-- Task 0 waits for two others, and the second one ends: it is woken. -/
theorem select_wakes_second :
    ∃ (s : Future.Watched (Select2 Unit Unit) (ℕ → SharedState ℕ) ℕ) (l : List ℕ),
      Future.Run (select (JoinHandle.future 5 1) (JoinHandle.future 5 2))
        (Select2.Others (fun _ => OthersOfCell 1) fun _ => OthersOfCell 2) 0
        ⟨.new () (), fun _ => .new, none⟩ s ∧
      s.since = some l ∧ 0 ∈ l := by
  let cells : ℕ → SharedState ℕ := fun g => if g = 1 ∨ g = 2 then ⟨some 0, none⟩ else .new
  let ended : ℕ → SharedState ℕ := Function.update cells 2 ⟨none, some (.ok ⟨5, 7⟩)⟩
  have hpoll : (select (JoinHandle.future 5 1) (JoinHandle.future 5 2)).poll (.new () ())
      (fun _ => .new) 0 = ⟨none, .new () (), cells, []⟩ := by
    have hcells : Function.update (Function.update (fun _ => .new) 1 ⟨some 0, none⟩) 2
        ⟨some 0, none⟩ = cells := by
      funext g
      grind
    rw [← hcells]
    rfl
  have hrun : Future.Run (select (JoinHandle.future 5 1) (JoinHandle.future 5 2))
      (Select2.Others (fun _ => OthersOfCell 1) fun _ => OthersOfCell 2) 0
      ⟨.new () (), fun _ => .new, none⟩ ⟨.new () (), cells, some []⟩ :=
    Future.Run.poll (p := ⟨none, Select2.new () (), cells, []⟩) (.refl _) hpoll
  have hended : Select2.Others (fun _ => OthersOfCell 1) (fun _ => OthersOfCell 2)
      (.new () ()) cells ended [0] := by
    refine ⟨fun _ _ => .inl ?_, fun _ _ => .inr ⟨.ok ⟨5, 7⟩, ?_, ?_⟩⟩
    · exact Function.update_of_ne (by decide) ..
    · exact Function.update_self ..
    · rintro w hw
      exact List.mem_singleton.mpr (Option.some.inj hw).symm
  refine ⟨_, _, hrun.others hended, rfl, ?_⟩
  have hwakes := select_wakes (JoinHandle.keeps 5 1 0) (JoinHandle.keeps 5 2 0)
    (fun _ _ _ _ => others_of_ownCell (by decide)) (fun _ _ _ _ => others_of_ownCell (by decide))
    trivial trivial (hrun.others hended) rfl
  refine hwakes.resolve_right ?_
  rintro ((⟨_, _, hf⟩ | ⟨_, _, hf⟩) | hnone)
  · exact hf
  · exact hf
  · cases hnone

end Wakes

/-! ### Two handles in the executor -/

section SelectHandles

variable {ρ : Type*}

/-- The executor, and a task that selects between the handles of two others; and the wakers that
have been invoked since it was told to wait. -/
structure SelectingHandles (ρ : Type*) where
  joins : Joins ρ
  select : Select2 Unit Unit
  since : Option (List ℕ)

variable (cfg : SchedulingConfig) (typeOf : ℕ → ℕ) (g₁ g₂ w : ℕ)

/-- The `Select2` of the two handles. -/
def selectHandles : Future (Select2 Unit Unit) (ℕ → SharedState ρ) ℕ
    (Either (Except String ρ) (Except String ρ)) :=
  select (JoinHandle.future (typeOf g₁) g₁) (JoinHandle.future (typeOf g₂) g₂)

/-- The body of task `w` polls the `Select2`, or an event of the executor happens. -/
def selectHandlesStep (s : SelectingHandles ρ) : Option (JoinEvent ρ) → Option (SelectingHandles ρ)
  | none =>
    if s.joins.runtime.running = some w then
      let p := (selectHandles typeOf g₁ g₂).poll s.select s.joins.shared w
      some ⟨{ s.joins with shared := p.world }, p.future,
        if p.result.isNone then some p.woken else none⟩
    else none
  | some e => (joinStep cfg typeOf s.joins e).map fun joins =>
      ⟨joins, s.select, s.since.map (· ++ s.joins.invoked e)⟩

/-- Nobody else polls the two handles. -/
def OwnsHandles (_ : SelectingHandles ρ) (e : Option (JoinEvent ρ)) : Prop :=
  e ≠ some (.join g₁) ∧ e ≠ some (.join g₂)

/-- **No wakeup is lost**: the task has been woken since it was told to wait, or it would be told
to wait again. -/
def SelectAwake (s : SelectingHandles ρ) : Prop :=
  ∀ l, s.since = some l →
    w ∈ l ∨ ((selectHandles typeOf g₁ g₂).poll s.select s.joins.shared w).result = none

variable {cfg typeOf g₁ g₂ w} {s s' : SelectingHandles ρ}

/-- A step is one of a run of the `Select2`, in which the executor is the others. -/
theorem run_of_selectHandlesStep {joins : Joins ρ} {e : Option (JoinEvent ρ)}
    (hrun : Future.Run (selectHandles typeOf g₁ g₂)
      (Select2.Others (fun _ => OthersOfCell g₁) fun _ => OthersOfCell g₂) w
      ⟨.new () (), joins.shared, none⟩ ⟨s.select, s.joins.shared, s.since⟩)
    (hown : OwnsHandles g₁ g₂ s e) (hs : selectHandlesStep cfg typeOf g₁ g₂ w s e = some s') :
    Future.Run (selectHandles typeOf g₁ g₂)
      (Select2.Others (fun _ => OthersOfCell g₁) fun _ => OthersOfCell g₂) w
      ⟨.new () (), joins.shared, none⟩ ⟨s'.select, s'.joins.shared, s'.since⟩ := by
  cases e with
  | none =>
    obtain ⟨-, hs⟩ := Option.ite_none_right_eq_some.mp hs
    obtain rfl := Option.some.inj hs
    exact hrun.poll rfl
  | some e =>
    obtain ⟨joins', hjoins, rfl⟩ := Option.map_eq_some_iff.mp hs
    have hother : ∀ g, some e ≠ some (JoinEvent.join g) →
        OthersOfCell g s.joins.shared joins'.shared (s.joins.invoked e) := fun g hne =>
      (others_of_joinStep (fun heq => hne (congrArg some heq)) hjoins).1
    exact hrun.others ⟨fun _ _ => hother g₁ hown.1, fun _ _ => hother g₂ hown.2⟩

/-- **A task that selects between two tasks is woken** when either ends: the handles keep the
contract, the executor makes the steps of the others, and so no wakeup is lost in any run in which
nobody else polls the handles. -/
theorem select_handles_wake (hne : g₁ ≠ g₂) (joins : Joins ρ) {es : List (Option (JoinEvent ρ))}
    (hown : EachStep (selectHandlesStep cfg typeOf g₁ g₂ w) (OwnsHandles g₁ g₂)
      ⟨joins, .new () (), none⟩ es) :
    Always (selectHandlesStep cfg typeOf g₁ g₂ w) (SelectAwake typeOf g₁ g₂ w)
      ⟨joins, .new () (), none⟩ es := by
  refine always_of_invariant (fun s hrun l hl => ?_)
    (fun s e s' hrun hown hs => run_of_selectHandlesStep hrun hown hs)
    (.refl _) hown
  have hkeeps := Select2.keeps (JoinHandle.keeps (ρ := ρ) (typeOf g₁) g₁ w)
    (JoinHandle.keeps (typeOf g₂) g₂ w) (fun _ _ _ _ => others_of_ownCell hne.symm)
    (fun _ _ _ _ => others_of_ownCell hne)
  refine (hkeeps.run ⟨⟨?_, ?_⟩, by simp⟩ hrun hl).imp_right fun h => h.resolve_left ?_
  · simp
  · simp
  · rintro (⟨_, _, hf⟩ | ⟨_, _, hf⟩)
    · exact hf
    · exact hf

end SelectHandles

/-! ### The protocol -/

section Protocol

variable {F₁ F₂ E W α β : Type*}

/-- A `Select2`, until it is dropped, and what its polls have returned. The world holds the log of
what it does with its futures. -/
structure Selecting (F₁ F₂ E α β : Type*) where
  select : Option (Select2 F₁ F₂)
  world : E × List (Future.Use α ⊕ Future.Use β)
  returned : List (Option (Either α β))

/-- What happens to a `Select2`: polls, the drop, and moves of the others in between. -/
inductive SelectEvent (E W : Type*)
  | poll (w : W)
  | drop
  /-- The world changes, in any way. -/
  | world (e : E)

/-- `select` of two futures. -/
def selectStart (future1 : F₁) (future2 : F₂) (e : E) : Selecting F₁ F₂ E α β :=
  ⟨some (.new future1 future2), (e, []), []⟩

variable (fut₁ : Future F₁ E W α) (fut₂ : Future F₂ E W β)

/-- The state after an event; nothing is polled once the `Select2` is dropped. -/
def selectStep (s : Selecting F₁ F₂ E α β) : SelectEvent E W → Option (Selecting F₁ F₂ E α β)
  | .poll w => s.select.map fun sel =>
    let p := (select (fut₁.logged .inl) (fut₂.logged .inr)).poll sel s.world w
    ⟨some p.future, p.world, s.returned ++ [p.result]⟩
  | .drop => s.select.map fun sel =>
    let d := (select (fut₁.logged .inl) (fut₂.logged .inr)).drop sel s.world
    ⟨none, d.1, s.returned⟩
  | .world e => some { s with world := (e, s.world.2) }

/-- Both futures are polled, so often, and neither is ready. -/
def rounds (n : ℕ) : List (Future.Use α ⊕ Future.Use β) :=
  (List.replicate n [.inl (.polled none), .inr (.polled none)]).flatten

/-- The drops of the two futures, in the order of the fields. -/
def bothDropped : List (Future.Use α ⊕ Future.Use β) := [.inl .dropped, .inr .dropped]

/-- How the two futures have been used so far, by the state the `Select2` is in. -/
inductive Protocol (s : Selecting F₁ F₂ E α β) : Prop
  | waiting (n : ℕ) (f1 : F₁) (f2 : F₂) (select : s.select = some ⟨some f1, some f2⟩)
      (log : s.world.2 = rounds n) (returned : s.returned = List.replicate n none)
  | left (n m : ℕ) (v : α) (select : s.select = none ∨ s.select = some ⟨none, none⟩)
      (log : s.world.2 = rounds n ++ .inl (.polled (some v)) :: bothDropped)
      (returned : s.returned = List.replicate n none ++ some (.left v) :: List.replicate m none)
  | right (n m : ℕ) (v : β) (select : s.select = none ∨ s.select = some ⟨none, none⟩)
      (log : s.world.2 =
        rounds n ++ .inl (.polled none) :: .inr (.polled (some v)) :: bothDropped)
      (returned : s.returned = List.replicate n none ++ some (.right v) :: List.replicate m none)
  | dropped (n : ℕ) (select : s.select = none) (log : s.world.2 = rounds n ++ bothDropped)
      (returned : s.returned = List.replicate n none)

variable {fut₁ fut₂} {s s' : Selecting F₁ F₂ E α β} {e : SelectEvent E W}

theorem rounds_succ (n : ℕ) : (rounds (n + 1) : List (Future.Use α ⊕ Future.Use β)) =
    rounds n ++ [.inl (.polled none), .inr (.polled none)] := by
  simp [rounds, List.replicate_succ']

/-- After its end a `Select2` returns `Pending`, and does nothing. -/
theorem selectStep_ended (hselect : s.select = none ∨ s.select = some ⟨none, none⟩)
    (hs : selectStep fut₁ fut₂ s e = some s') :
    s'.world.2 = s.world.2 ∧ (s'.select = none ∨ s'.select = some ⟨none, none⟩) ∧
      (s'.returned = s.returned ∨ s'.returned = s.returned ++ [none] ∧ s.select ≠ none) := by
  rcases hselect with hselect | hselect
  · cases e with
    | world e =>
      obtain rfl := Option.some.inj hs
      simp [hselect]
    | _ =>
      rw [selectStep, hselect] at hs
      cases hs
  · cases e with
    | world e =>
      obtain rfl := Option.some.inj hs
      simp [hselect]
    | _ =>
      rw [selectStep, hselect] at hs
      cases hs
      simp [select, Select2.poll, Select2.pollFuture2, Select2.dropFields, dropOption, hselect]

/-- **A poll of both**: the first one is ready, or the second one, or none. -/
theorem selectStep_poll {f1 : F₁} {f2 : F₂} {w : W} (hselect : s.select = some ⟨some f1, some f2⟩)
    (hs : selectStep fut₁ fut₂ s (.poll w) = some s') :
    (∃ v, s'.select = some ⟨none, none⟩ ∧ s'.returned = s.returned ++ [some (.left v)] ∧
      s'.world.2 = s.world.2 ++ .inl (.polled (some v)) :: bothDropped) ∨
    (∃ v, s'.select = some ⟨none, none⟩ ∧ s'.returned = s.returned ++ [some (.right v)] ∧
      s'.world.2 = s.world.2 ++ .inl (.polled none) :: .inr (.polled (some v)) :: bothDropped) ∨
    (∃ f1' f2', s'.select = some ⟨some f1', some f2'⟩ ∧ s'.returned = s.returned ++ [none] ∧
      s'.world.2 = s.world.2 ++ [.inl (.polled none), .inr (.polled none)]) := by
  rw [selectStep, hselect] at hs
  obtain rfl := Option.some.inj hs
  rcases hp : fut₁.poll f1 s.world.1 w with ⟨_ | v, f1', e', l⟩
  · rcases hp₂ : fut₂.poll f2 e' w with ⟨_ | v, f2', e'', l'⟩
    · refine .inr (.inr ⟨f1', f2', ?_⟩)
      simp [select, Select2.poll, Select2.pollFuture2, Future.logged, hp, hp₂]
    · refine .inr (.inl ⟨v, ?_⟩)
      simp [select, Select2.poll, Select2.pollFuture2, Select2.dropFields, dropOption, bothDropped,
        Future.logged, hp, hp₂]
  · refine .inl ⟨v, ?_⟩
    simp [select, Select2.poll, Select2.dropFields, dropOption, bothDropped, Future.logged, hp]

/-- Every event is one that the protocol allows next. -/
theorem Protocol.step (h : Protocol s) (hs : selectStep fut₁ fut₂ s e = some s') :
    Protocol s' := by
  cases h with
  | waiting n f1 f2 select log returned =>
    cases e with
    | poll w =>
      rcases selectStep_poll select hs with ⟨v, hselect, hreturned, hlog⟩ |
        ⟨v, hselect, hreturned, hlog⟩ | ⟨f1', f2', hselect, hreturned, hlog⟩
      · exact .left n 0 v (.inr hselect) (hlog.trans (by rw [log]))
          (hreturned.trans (by rw [returned]; rfl))
      · exact .right n 0 v (.inr hselect) (hlog.trans (by rw [log]))
          (hreturned.trans (by rw [returned]; rfl))
      · refine .waiting (n + 1) f1' f2' hselect ?_ ?_
        · rw [hlog, log, rounds_succ]
        · rw [hreturned, returned, List.replicate_succ']
    | drop =>
      rw [selectStep, select] at hs
      obtain rfl := Option.some.inj hs
      refine .dropped n rfl ?_ returned
      simp [Executor.select, Select2.dropFields, dropOption, bothDropped, Future.logged, log]
    | world e =>
      obtain rfl := Option.some.inj hs
      exact .waiting n f1 f2 select log returned
  | left n m v select log returned =>
    obtain ⟨hlog, hselect, hreturned | ⟨hreturned, -⟩⟩ := selectStep_ended select hs
    · exact .left n m v hselect (hlog.trans log) (hreturned.trans returned)
    · refine .left n (m + 1) v hselect (hlog.trans log) ?_
      rw [hreturned, returned, List.append_assoc, List.cons_append, ← List.replicate_succ']
  | right n m v select log returned =>
    obtain ⟨hlog, hselect, hreturned | ⟨hreturned, -⟩⟩ := selectStep_ended select hs
    · exact .right n m v hselect (hlog.trans log) (hreturned.trans returned)
    · refine .right n (m + 1) v hselect (hlog.trans log) ?_
      rw [hreturned, returned, List.append_assoc, List.cons_append, ← List.replicate_succ']
  | dropped n select log returned =>
    obtain ⟨hlog, -, hreturned | ⟨-, hne⟩⟩ := selectStep_ended (.inl select) hs
    · cases e with
      | world e =>
        obtain rfl := Option.some.inj hs
        exact .dropped n select log returned
      | _ =>
        rw [selectStep, select] at hs
        cases hs
    · exact absurd select hne

/-- **What `select` does with its futures**, in any world and whatever the futures are: the polls
alternate, the first one first, and a poll of `select` returns what the future returns that is the
first to be ready, once; then, or when it is dropped, it drops both, once each, and does nothing
more. -/
theorem select_protocol (fut₁ : Future F₁ E W α) (fut₂ : Future F₂ E W β) (future1 : F₁)
    (future2 : F₂) (e : E) (es : List (SelectEvent E W)) :
    Always (selectStep fut₁ fut₂) Protocol (selectStart future1 future2 e) es :=
  always_of_invariant (fun _ h => h) (fun _ _ _ h _ hs => h.step hs)
    (.waiting 0 future1 future2 rfl rfl rfl) (eachStep_true es)

end Protocol

end Executor

end Pluvio
