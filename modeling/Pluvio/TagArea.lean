import Pluvio.TagNet

/-!
# A program among others

Several programs over tags can run on the ranks at a time, over one memory and one set of
wires. Each has an area of its own (`Pluvio.TagNet.Area`), which is cells of the memory and
tags. As it sees no more than that, what it does among others it does alone
(`Pluvio.TagNet.step_rel`), and outside the area nothing changes
(`Pluvio.TagNet.Area.Keeps`).
-/

namespace Pluvio

namespace TagNet

variable {R τ α : Type*}

/-- **What a program has to itself.** -/
structure Area (R τ : Type*) where
  /-- The cells of its buffers. -/
  own : R → ℕ → Prop
  tags : τ → Prop

/-- An instruction that stays in the area. -/
structure Instr.Within (A : Area R τ) (i : Instr R τ α) : Prop where
  tag : A.tags i.tag
  recvTag : A.tags i.recvTag
  view : i.view.Within A.own
  target : i.target.Within A.own
  after : Heap.LocalTo A.own i.after

namespace Area

variable (A : Area R τ)

/-- **A rank that runs several programs looks, to one of them, like one that runs one.** -/
structure RankSees (r u : Rank R α) : Prop where
  pc : r.pc = u.pc
  await : r.await = u.await
  heap : Heap.AgreeOn A.own r.heap u.heap

/-- **A state of several programs looks, to one of them, like a state of its own.** -/
structure Sees (s t : State R τ α) : Prop where
  rank : ∀ p, A.RankSees (s.rank p) (t.rank p)
  wire : ∀ p q x, A.tags x → s.wire p q x = t.wire p q x

/-- **Outside the area nothing changes.** -/
structure Keeps (s s' : State R τ α) : Prop where
  heap : ∀ p, Heap.AgreeOn (fun r i => ¬A.own r i) (s'.rank p).heap (s.rank p).heap
  wire : ∀ p q x, ¬A.tags x → s'.wire p q x = s.wire p q x

variable {A} {s t : State R τ α} {p : ℕ} {r u : Rank R α}

theorem RankSees.update {f g : ℕ → Rank R α} (h : ∀ p, A.RankSees (f p) (g p))
    (hr : A.RankSees r u) (p' : ℕ) :
    A.RankSees (Function.update f p r p') (Function.update g p u p') := by
  rcases eq_or_ne p' p with rfl | hne
  · rw [Function.update_self, Function.update_self]
    exact hr
  · rw [Function.update_of_ne hne, Function.update_of_ne hne]
    exact h p'

theorem keeps_update {f : ℕ → Rank R α} {F : R → ℕ → Prop} (hr : Heap.AgreeOn F r.heap (f p).heap)
    (p' : ℕ) : Heap.AgreeOn F (Function.update f p r p').heap (f p').heap := by
  rcases eq_or_ne p' p with rfl | hne
  · rw [Function.update_self]
    exact hr
  · rw [Function.update_of_ne hne]
    exact .refl F _

variable [DecidableEq τ] {q : ℕ} {x : τ} {ms : List (Message α)}

/-- A wire of the area replaced. -/
theorem Sees.setWire (h : A.Sees s t) (p' q' : ℕ) {x' : τ} (hx' : A.tags x') :
    s.setWire p q x ms p' q' x' = t.setWire p q x ms p' q' x' := by
  unfold State.setWire
  split
  · rfl
  · exact h.wire p' q' x' hx'

theorem setWire_of_not (s : State R τ α) (hx : A.tags x) (p' q' : ℕ) {x' : τ} (hx' : ¬A.tags x') :
    s.setWire p q x ms p' q' x' = s.wire p' q' x' :=
  if_neg fun (h : p' = p ∧ q' = q ∧ x' = x) => hx' (h.2.2 ▸ hx)

end Area

variable [DecidableEq R] [DecidableEq τ] {A : Area R τ} {net : Net R τ α} {s t : State R τ α}

/-- **What a program does among others, it does alone**, and the other way round. -/
theorem step_rel (hnet : ∀ p, ∀ i ∈ net.prog p, i.Within A) (hs : A.Sees s t) (e : Event) :
    Option.Rel (fun s' t' => A.Sees s' t' ∧ A.Keeps s s') (step net s e) (step net t e) := by
  have hcurrent : ∀ p, net.current s p = net.current t p := fun p => by
    rw [Net.current, Net.current, (hs.rank p).pc]
  have hwithin : ∀ {p i}, net.current t p = some i → i.Within A := by
    intro p i hcur
    rw [Net.current] at hcur
    split at hcur
    · exact hnet p i (List.mem_of_getElem? hcur)
    · cases hcur
  cases e with
  | poll p =>
    have hr := hs.rank p
    rw [step, step, hcurrent]
    refine rel_bind fun i hcur => ?_
    have hi := hwithin hcur
    dsimp only
    rw [hr.await]
    rcases (t.rank p).await with - | ⟨_ | _, _ | _⟩
    · -- a first poll: the message goes on a wire of the area
      refine .some ⟨⟨.update hs.rank ⟨hr.pc, rfl, hr.heap⟩, fun p' q' x hx => ?_⟩,
        ⟨Area.keeps_update (.refl _ _), fun p' q' x hx => Area.setWire_of_not s hi.tag p' q' hx⟩⟩
      dsimp only
      rw [hs.wire p _ _ hi.tag, hr.pc, hr.heap.read_eq hi.view]
      exact hs.setWire p' q' hx
    · exact .none
    · exact .none
    · exact .none
    · -- a last poll: what is computed is read in the area and written there
      exact .some ⟨⟨.update hs.rank ⟨congrArg (· + 1) hr.pc, rfl, hi.after.congr _ _ hr.heap⟩,
        hs.wire⟩, ⟨Area.keeps_update (hi.after.frame _), fun _ _ _ _ => rfl⟩⟩
  | sent p =>
    have hr := hs.rank p
    rw [step, step, hcurrent]
    refine rel_bind fun i hcur => ?_
    have hi := hwithin hcur
    dsimp only
    rw [hr.await]
    rcases (t.rank p).await with - | ⟨_ | _, received⟩
    · exact .none
    · refine rel_ite (by rw [hr.pc, hs.wire p _ _ hi.tag]) fun _ => .some ⟨⟨.update hs.rank
        ⟨hr.pc, rfl, hr.heap⟩, hs.wire⟩, ⟨Area.keeps_update (.refl _ _), fun _ _ _ _ => rfl⟩⟩
    · exact .none
  | recv p q =>
    have hr := hs.rank q
    rw [step, step, hcurrent]
    refine rel_bind fun i hcur => ?_
    have hi := hwithin hcur
    dsimp only
    rw [hr.await, hs.wire p q _ hi.recvTag]
    rcases (t.rank q).await with - | ⟨sent, _ | _⟩ <;>
      rcases t.wire p q i.recvTag with - | ⟨msg, ms⟩
    · exact .none
    · exact .none
    · exact .none
    · refine .some ⟨⟨.update hs.rank ⟨hr.pc, rfl, hr.heap.copyInto _ _⟩, fun p' q' x hx =>
        hs.setWire p' q' hx⟩, ⟨Area.keeps_update (Heap.agreeOn_copyInto _ fun r k hc hk =>
          hk (hi.target r k hc)), fun p' q' x hx => Area.setWire_of_not s hi.recvTag p' q' hx⟩⟩
    · exact .none
    · exact .none

end TagNet

end Pluvio
