import Mathlib.Data.List.Basic
import Mathlib.Data.List.GetD
import Mathlib.Logic.Function.Basic

/-!
# Memory and slices

A memory is a family of regions, each an unbounded row of cells, and a slice is
what a pointer and a length amount to: a region, an offset and a length. Reading
a slice gives the list of its cells; `Pluvio.Heap.copyInto` is the copy of a list
of values into a slice that stops at the shorter of the two, which is how a
receiver copies a message of any length into its target.

Which cells a thread may touch is a set of addresses: `Pluvio.Heap.AgreeOn` says
that two memories agree on such a set, and the lemmas about it are the frame
rules. A slice outside the set can be written without the set noticing
(`Pluvio.Heap.agreeOn_copyInto`), and a slice inside it reads the same in
both memories (`Pluvio.Heap.AgreeOn.read_eq`). Work that stays inside such a set is
`Pluvio.Heap.LocalTo`.

The same work may be done on regions under other names, `Pluvio.Heap.Renamed`: in a larger
memory, of which `Pluvio.Heap.comap` is the part that has these names.
-/

namespace Pluvio

/-- A memory: the value of every cell of every region. -/
abbrev Heap (R α : Type*) := R → ℕ → α

/-- A pointer and a length. -/
structure Slice (R : Type*) where
  region : R
  /-- The first cell of the slice. -/
  off : ℕ
  /-- How many cells the slice has. -/
  len : ℕ
  deriving DecidableEq

variable {R α : Type*}

/-- Cell `i` of region `r` lies in the slice. -/
def Slice.Has (s : Slice R) (r : R) (i : ℕ) : Prop :=
  r = s.region ∧ s.off ≤ i ∧ i < s.off + s.len

/-- All cells of the slice are cells of `F`. -/
def Slice.Within (s : Slice R) (F : R → ℕ → Prop) : Prop := ∀ r i, s.Has r i → F r i

/-- A cell of a chunk lies in no other chunk of that size. -/
theorem Slice.not_has_chunk {r r' : R} {c k size j : ℕ} (hj : j < size) (hc : c ≠ k) :
    ¬Slice.Has ⟨r, k * size, size⟩ r' (c * size + j) := by
  rintro ⟨-, hlo, hhi⟩
  dsimp only at hlo hhi
  rcases Nat.lt_or_gt_of_ne hc with hlt | hgt
  · have := Nat.mul_le_mul_right size hlt
    rw [Nat.succ_mul] at this
    omega
  · have := Nat.mul_le_mul_right size hgt
    rw [Nat.succ_mul] at this
    omega

namespace Heap

/-- The cells of a slice. -/
def read (h : Heap R α) (s : Slice R) : List α :=
  (List.range s.len).map fun i => h s.region (s.off + i)

/-- Copy values into a slice, as many as there are and as fit. -/
def copyInto [DecidableEq R] (h : Heap R α) (s : Slice R) (vs : List α) : Heap R α := fun r i =>
  if r = s.region ∧ s.off ≤ i ∧ i < s.off + min vs.length s.len
  then vs.getD (i - s.off) (h r i) else h r i

@[simp] theorem length_read (h : Heap R α) (s : Slice R) : (h.read s).length = s.len := by
  rw [read, List.length_map, List.length_range]

theorem getElem?_read (h : Heap R α) (s : Slice R) {i : ℕ} (hi : i < s.len) :
    (h.read s)[i]? = some (h s.region (s.off + i)) := by
  rw [read, List.getElem?_map, List.getElem?_range hi, Option.map_some]

section Copy

variable [DecidableEq R]

/-- A cell outside the slice is not written. -/
theorem copyInto_of_not_has (h : Heap R α) {s : Slice R} (vs : List α) {r : R} {i : ℕ}
    (hs : ¬s.Has r i) : h.copyInto s vs r i = h r i := by
  refine if_neg ?_
  rintro ⟨hr, hlo, hhi⟩
  exact hs ⟨hr, hlo, by omega⟩

/-- A cell of the slice holds the value at its position. -/
theorem copyInto_of_has (h : Heap R α) {s : Slice R} {vs : List α} {i : ℕ} {v : α}
    (hi : i < s.len) (hv : vs[i]? = some v) : h.copyInto s vs s.region (s.off + i) = v := by
  have hlt : i < vs.length := (List.getElem?_eq_some_iff.mp hv).1
  rw [copyInto, if_pos ⟨rfl, by omega, by omega⟩, Nat.add_sub_cancel_left,
    List.getD_eq_getElem?_getD, hv, Option.getD_some]

/-- A cell of a slice that another one is copied into. -/
theorem copyInto_read (h h' : Heap R α) {s t : Slice R} (hlen : s.len = t.len) {i : ℕ}
    (hi : i < t.len) : h.copyInto t (h'.read s) t.region (t.off + i) = h' s.region (s.off + i) :=
  copyInto_of_has h hi (getElem?_read h' s (hlen ▸ hi))

/-- **A slice filled by as many values as it has cells** reads back as these
values. -/
theorem read_copyInto (h : Heap R α) {s : Slice R} {vs : List α} (hlen : vs.length = s.len) :
    (h.copyInto s vs).read s = vs := by
  refine List.ext_getElem? fun i => ?_
  rcases Nat.lt_or_ge i s.len with hi | hi
  · rw [getElem?_read _ _ hi, List.getElem?_eq_getElem (by omega)]
    exact congrArg some (copyInto_of_has h hi (List.getElem?_eq_getElem (by omega)))
  · rw [List.getElem?_eq_none (by rw [length_read]; omega), List.getElem?_eq_none (by omega)]

/-- A slice that values are copied into holds as many of them as both have. -/
theorem take_read_copyInto (h : Heap R α) (s : Slice R) (vs : List α) :
    ((h.copyInto s vs).read s).take vs.length = vs.take s.len := by
  refine List.ext_getElem? fun i => ?_
  by_cases hi : i < vs.length ∧ i < s.len
  · rw [List.getElem?_take_of_lt hi.1, List.getElem?_take_of_lt hi.2, getElem?_read _ _ hi.2,
      List.getElem?_eq_getElem hi.1]
    exact congrArg some (copyInto_of_has h hi.2 (List.getElem?_eq_getElem hi.1))
  · rw [List.getElem?_eq_none, List.getElem?_eq_none] <;>
      simp only [List.length_take, length_read] <;> omega

end Copy

/-! ### Agreement on a set of cells -/

/-- The two memories agree on the cells of `F`. -/
def AgreeOn (F : R → ℕ → Prop) (h h' : Heap R α) : Prop := ∀ r i, F r i → h r i = h' r i

section Agree

variable {F : R → ℕ → Prop} {h h' : Heap R α}

theorem AgreeOn.refl (F : R → ℕ → Prop) (h : Heap R α) : AgreeOn F h h := fun _ _ _ => rfl

theorem AgreeOn.symm (hag : AgreeOn F h h') : AgreeOn F h' h := fun r i hF => (hag r i hF).symm

theorem AgreeOn.trans {h'' : Heap R α} (hag : AgreeOn F h h') (hag' : AgreeOn F h' h'') :
    AgreeOn F h h'' := fun r i hF => (hag r i hF).trans (hag' r i hF)

/-- A slice inside the set reads the same. -/
theorem AgreeOn.read_eq (hag : AgreeOn F h h') {s : Slice R} (hs : ∀ r i, s.Has r i → F r i) :
    h.read s = h'.read s := by
  refine List.map_congr_left fun i hi => hag _ _ (hs _ _ ⟨rfl, by omega, ?_⟩)
  have := List.mem_range.mp hi
  omega

variable [DecidableEq R]

/-- **The frame rule**: writing a slice outside the set is not noticed in it. -/
theorem agreeOn_copyInto {s : Slice R} (vs : List α) (hs : ∀ r i, s.Has r i → ¬F r i) :
    AgreeOn F (h.copyInto s vs) h := fun r i hF =>
  copyInto_of_not_has h vs fun hc => hs r i hc hF

/-- The same values copied to the same place leave two memories in agreement. -/
theorem AgreeOn.copyInto (hag : AgreeOn F h h') (s : Slice R) (vs : List α) :
    AgreeOn F (h.copyInto s vs) (h'.copyInto s vs) := fun r i hF => by
  rw [Heap.copyInto, Heap.copyInto, hag r i hF]

end Agree

/-! ### Work on a set of cells -/

/-- **Work on the cells of `F`**: it reads no others and writes no others. -/
structure LocalTo (F : R → ℕ → Prop) (f : Heap R α → Heap R α) : Prop where
  congr : ∀ h h', AgreeOn F h h' → AgreeOn F (f h) (f h')
  frame : ∀ h, AgreeOn (fun r i => ¬F r i) (f h) h

section Local

variable {F : R → ℕ → Prop} {f g : Heap R α → Heap R α}

theorem LocalTo.id (F : R → ℕ → Prop) : LocalTo (α := α) F id := ⟨fun _ _ hag => hag, .refl _⟩

/-- One piece of work after another. -/
theorem LocalTo.comp (hg : LocalTo F g) (hf : LocalTo F f) : LocalTo F fun h => g (f h) :=
  ⟨fun h h' hag => hg.congr _ _ (hf.congr h h' hag), fun h => (hg.frame _).trans (hf.frame h)⟩

/-- A loop whose body is local is local. -/
theorem LocalTo.foldl {β : Type*} {step : Heap R α → β → Heap R α}
    (hstep : ∀ b, LocalTo F fun h => step h b) (bs : List β) :
    LocalTo F fun h => bs.foldl step h := by
  induction bs with
  | nil => exact .id F
  | cons b bs ih => exact ih.comp (hstep b)

/-- What is read inside the set is copied inside the set. -/
theorem LocalTo.copyInto [DecidableEq R] {s : Slice R} (hs : s.Within F)
    {vs : Heap R α → List α} (hvs : ∀ h h', AgreeOn F h h' → vs h = vs h') :
    LocalTo F fun h => h.copyInto s (vs h) where
  congr h h' hag := by
    rw [hvs h h' hag]
    exact hag.copyInto s _
  frame h := agreeOn_copyInto _ fun r i hc hF => hF (hs r i hc)

end Local

/-! ### Regions under other names -/

/-- A memory whose regions are known by the names `e`. -/
def comap {R' : Type*} (e : R → R') (h : Heap R' α) : Heap R α := fun r => h (e r)

end Heap

/-- A slice of a region that is known by another name. -/
def Slice.map {R' : Type*} (e : R → R') (s : Slice R) : Slice R' := ⟨e s.region, s.off, s.len⟩

namespace Heap

section Names

variable {R' : Type*} {e : R → R'} (h : Heap R' α)

@[simp] theorem read_map (s : Slice R) : h.read (s.map e) = (h.comap e).read s := rfl

variable [DecidableEq R']

/-- **A copy** is the same under both names. -/
theorem comap_copyInto [DecidableEq R] (he : Function.Injective e) (s : Slice R) (vs : List α) :
    (h.copyInto (s.map e) vs).comap e = (h.comap e).copyInto s vs := by
  funext r i
  simp only [comap, copyInto, Slice.map, he.eq_iff]

/-- And writes to no region without such a name. -/
theorem copyInto_map_of_ne (s : Slice R) (vs : List α) {r : R'} (hr : ∀ r', e r' ≠ r) :
    h.copyInto (s.map e) vs r = h r :=
  funext fun _ => copyInto_of_not_has h vs fun hhas => hr s.region hhas.1.symm

end Names

/-- **The same work** on regions that are known by other names, which leaves all others
alone. -/
structure Renamed {R' : Type*} (e : R → R') (f : Heap R α → Heap R α)
    (f' : Heap R' α → Heap R' α) : Prop where
  comap : ∀ h, (f' h).comap e = f (h.comap e)
  frame : ∀ h r', (∀ r, e r ≠ r') → f' h r' = h r'

namespace Renamed

variable {R' : Type*} {e : R → R'} {f g : Heap R α → Heap R α} {f' g' : Heap R' α → Heap R' α}

theorem id (e : R → R') : Renamed (α := α) e id id := ⟨fun _ => rfl, fun _ _ _ => rfl⟩

/-- One piece of work after another. -/
theorem comp (hg : Renamed e g g') (hf : Renamed e f f') :
    Renamed e (fun h => g (f h)) fun h => g' (f' h) where
  comap h := by rw [hg.comap, hf.comap]
  frame h r' hr := by rw [hg.frame _ _ hr, hf.frame _ _ hr]

/-- A loop whose body is renamed is renamed. -/
theorem foldl {β : Type*} {step : Heap R α → β → Heap R α} {step' : Heap R' α → β → Heap R' α}
    (hstep : ∀ b, Renamed e (fun h => step h b) fun h => step' h b) (bs : List β) :
    Renamed e (fun h => bs.foldl step h) fun h => bs.foldl step' h := by
  induction bs with
  | nil => exact id e
  | cons b bs ih => exact ih.comp (hstep b)

/-- A copy, of what is found under these names. -/
theorem copyInto [DecidableEq R] [DecidableEq R'] (he : Function.Injective e) (s : Slice R)
    {vs : Heap R α → List α} {vs' : Heap R' α → List α} (hvs : ∀ h, vs' h = vs (h.comap e)) :
    Renamed e (fun h => h.copyInto s (vs h)) fun h => h.copyInto (s.map e) (vs' h) where
  comap h := by rw [comap_copyInto h he, hvs]
  frame h _ hr := copyInto_map_of_ne h s _ hr

end Renamed

end Heap

end Pluvio
