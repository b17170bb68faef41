import Mathlib.Data.Finset.Card
import Mathlib.Data.Finset.Range
import Mathlib.Data.List.Count
import Mathlib.Logic.Function.Basic
import Mathlib.Tactic.Common

/-!
# Reference-counted cells

A heap of cells, each with a value and a count of the references to it. A clone adds one to
the count, a drop takes one away, and the drop of the last reference frees the cell and hands
its value to the destructor. Nothing keeps a program from touching a cell that has been freed,
or from adding and dropping references that it does not hold; the operations then fail.

The law (`Pluvio.Rc.Counted`) is that the count of every cell is the number of references
that there are, and an operation on a reference that there is does not fail.
-/

namespace Pluvio

namespace Rc

/-- A heap. A cell is its count and its value. -/
structure Heap (α : Type*) where
  box : ℕ → Option (ℕ × α)
  /-- How many cells have been allocated. -/
  next : ℕ

variable {α : Type*}

namespace Heap

/-- A heap on which nothing has been allocated. -/
def empty : Heap α := ⟨fun _ => none, 0⟩

/-- `Rc::new`: the cell, and the heap afterwards. -/
def alloc (h : Heap α) (v : α) : ℕ × Heap α :=
  (h.next, ⟨Function.update h.box h.next (some (1, v)), h.next + 1⟩)

/-- `Rc::deref`. -/
def get (h : Heap α) (p : ℕ) : Option α := (h.box p).map Prod.snd

/-- `Rc::clone`. -/
def clone (h : Heap α) (p : ℕ) : Option (Heap α) :=
  (h.box p).map fun cell => { h with box := Function.update h.box p (some (cell.1 + 1, cell.2)) }

/-- `Rc::drop`: the value, if this was the last reference, and the heap afterwards. -/
def drop (h : Heap α) (p : ℕ) : Option (Option α × Heap α) :=
  (h.box p).map fun cell =>
    if cell.1 ≤ 1 then (some cell.2, { h with box := Function.update h.box p none })
    else (none, { h with box := Function.update h.box p (some (cell.1 - 1, cell.2)) })

/-- `Rc::strong_count`; a cell that has been freed has none. -/
def strong (h : Heap α) (p : ℕ) : ℕ := ((h.box p).map Prod.fst).getD 0

/-- How many cells there are. -/
def live (h : Heap α) : ℕ := ((Finset.range h.next).filter fun p => (h.box p).isSome).card

end Heap

/-- **The counts are right**: every cell counts the references to it, and is freed when there
is none. -/
structure Counted (h : Heap α) (refs : List ℕ) : Prop where
  strong : ∀ p, h.strong p = refs.count p
  pos : ∀ p cell, h.box p = some cell → 0 < cell.1
  lt_next : ∀ p cell, h.box p = some cell → p < h.next

variable {h : Heap α} {refs : List ℕ} {p : ℕ}

theorem counted_empty : Counted (Heap.empty : Heap α) [] where
  strong := fun _ => rfl
  pos := fun _ _ hp => by cases hp
  lt_next := fun _ _ hp => by cases hp

/-- A change of one cell that stays leaves as many. -/
theorem live_update {cell cell' : ℕ × α} (hp : h.box p = some cell) :
    ({ h with box := Function.update h.box p (some cell') } : Heap α).live = h.live := by
  refine congrArg Finset.card (Finset.filter_congr fun q _ => ?_)
  show (Function.update h.box p (some cell') q).isSome = true ↔ _
  by_cases hq : q = p
  · rw [hq, hp, Function.update_self]
    exact iff_of_true rfl rfl
  · rw [Function.update_of_ne hq]

/-- A cell that is freed is the one there is less. -/
theorem live_free {cell : ℕ × α} (hp : h.box p = some cell) (hlt : p < h.next) :
    h.live = ({ h with box := Function.update h.box p none } : Heap α).live + 1 := by
  have hmem : p ∈ (Finset.range h.next).filter fun p => (h.box p).isSome :=
    Finset.mem_filter.mpr ⟨Finset.mem_range.mpr hlt, by rw [hp]; rfl⟩
  rw [Heap.live, ← Finset.card_erase_add_one hmem]
  refine congrArg (· + 1) (congrArg Finset.card (Finset.ext fun q => ?_))
  rw [Finset.mem_erase, Finset.mem_filter, Finset.mem_filter]
  show _ ↔ _ ∧ (Function.update h.box p none q).isSome = true
  by_cases hq : q = p
  · rw [hq, Function.update_self]
    simp
  · rw [Function.update_of_ne hq]
    simp [hq]

/-- A cell to which there is a reference is there. -/
theorem Counted.exists_box (hc : Counted h refs) (hp : p ∈ refs) :
    ∃ v, h.box p = some (refs.count p, v) := by
  have hstrong := hc.strong p
  have hpos := List.count_pos_iff.mpr hp
  rw [Heap.strong] at hstrong
  rcases hbox : h.box p with - | ⟨n, v⟩
  · rw [hbox, Option.map_none, Option.getD_none] at hstrong
    omega
  · rw [hbox] at hstrong
    obtain rfl : n = refs.count p := hstrong
    exact ⟨v, rfl⟩

/-- **A change of one cell** keeps the counts right, if it does so for its own. -/
theorem Counted.update (hc : Counted h refs) {refs' : List ℕ} {cell : Option (ℕ × α)} {next : ℕ}
    (hle : h.next ≤ next) (hlt : p < next) (hother : ∀ q, q ≠ p → refs'.count q = refs.count q)
    (hcell : (cell.map Prod.fst).getD 0 = refs'.count p) (hpos : ∀ c, cell = some c → 0 < c.1) :
    Counted ⟨Function.update h.box p cell, next⟩ refs' := by
  have hself : Function.update h.box p cell p = cell := Function.update_self ..
  have hbox : ∀ q, q ≠ p → Function.update h.box p cell q = h.box q := fun q hq =>
    Function.update_of_ne hq ..
  refine ⟨fun q => ?_, fun q c hq => ?_, fun q c hq => ?_⟩
  · by_cases hqp : q = p
    · subst hqp
      exact (congrArg (fun cell => (Option.map Prod.fst cell).getD 0) hself).trans hcell
    · rw [hother q hqp, ← hc.strong q]
      exact congrArg (fun cell => (Option.map Prod.fst cell).getD 0) (hbox q hqp)
  · by_cases hqp : q = p
    · subst hqp
      exact hpos c (hself.symm.trans hq)
    · exact hc.pos q c ((hbox q hqp).symm.trans hq)
  · by_cases hqp : q = p
    · exact hqp ▸ hlt
    · exact (hc.lt_next q c ((hbox q hqp).symm.trans hq)).trans_le hle

/-- **A new cell** has the one reference that is returned. -/
theorem Counted.alloc (hc : Counted h refs) (v : α) :
    Counted (h.alloc v).2 ((h.alloc v).1 :: refs) ∧ (h.alloc v).2.live = h.live + 1 := by
  have hnone : h.box h.next = none := by
    by_contra hne
    obtain ⟨cell, hcell⟩ := Option.ne_none_iff_exists'.mp hne
    exact Nat.lt_irrefl _ (hc.lt_next _ _ hcell)
  have hzero : refs.count h.next = 0 := by
    rw [← hc.strong, Heap.strong, hnone]
    rfl
  refine ⟨hc.update (Nat.le_succ _) (Nat.lt_succ_self _)
    (fun q hq => List.count_cons_of_ne (Ne.symm hq)) ?_ fun c hcell => ?_, ?_⟩
  · rw [Heap.alloc, List.count_cons_self, hzero]
    rfl
  · obtain rfl := Option.some.inj hcell
    exact Nat.one_pos
  · have hfree := live_free (h := (h.alloc v).2) (p := h.next) (Function.update_self ..)
      (Nat.lt_succ_self _)
    rw [hfree]
    refine congrArg (· + 1) (congrArg Finset.card (Finset.ext fun q => ?_))
    rw [Finset.mem_filter, Finset.mem_filter, Finset.mem_range, Finset.mem_range]
    show _ ∧ (Function.update (Function.update h.box h.next _) h.next none q).isSome = true ↔ _
    by_cases hq : q = h.next
    · rw [hq, Function.update_self]
      simp
    · rw [Function.update_of_ne hq, Function.update_of_ne hq]
      show q < h.next + 1 ∧ _ ↔ _
      exact and_congr_left fun _ => by omega

/-- A clone counts one reference more, to a cell that is there. -/
theorem Counted.clone (hc : Counted h refs) (hp : p ∈ refs) :
    ∃ h', h.clone p = some h' ∧ Counted h' (p :: refs) ∧ h'.live = h.live := by
  obtain ⟨v, hbox⟩ := hc.exists_box hp
  refine ⟨_, by rw [Heap.clone, hbox, Option.map_some], hc.update le_rfl (hc.lt_next p _ hbox)
    (fun q hq => List.count_cons_of_ne (Ne.symm hq)) ?_ fun c hcell => ?_, live_update hbox⟩
  · rw [List.count_cons_self]
    rfl
  · obtain rfl := Option.some.inj hcell
    exact Nat.succ_pos _

/-- **A reference is dropped**: the cell is freed if it was the last one. -/
theorem Counted.drop (hc : Counted h refs) (hp : p ∈ refs) :
    ∃ freed h', h.drop p = some (freed, h') ∧ Counted h' (refs.erase p) ∧
      h.live = h'.live + freed.toList.length := by
  obtain ⟨v, hbox⟩ := hc.exists_box hp
  have hlt := hc.lt_next p _ hbox
  have hother : ∀ q, q ≠ p → (refs.erase p).count q = refs.count q := fun q hq =>
    List.count_erase_of_ne hq
  have hcount : (refs.erase p).count p = refs.count p - 1 := List.count_erase_self
  by_cases hlast : refs.count p ≤ 1
  · refine ⟨some v, _, by rw [Heap.drop, hbox, Option.map_some, if_pos hlast],
      hc.update le_rfl hlt hother ?_ fun c hcell => ?_, live_free hbox hlt⟩
    · rw [hcount, Nat.sub_eq_zero_of_le hlast]
      rfl
    · cases hcell
  · refine ⟨none, _, by rw [Heap.drop, hbox, Option.map_some, if_neg hlast],
      hc.update le_rfl hlt hother ?_ fun c hcell => ?_, (live_update hbox).symm⟩
    · rw [hcount]
      rfl
    · obtain rfl := Option.some.inj hcell
      exact Nat.sub_pos_of_lt (Nat.lt_of_not_le hlast)

end Rc

end Pluvio
