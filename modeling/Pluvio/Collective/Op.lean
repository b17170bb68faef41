import Mathlib.Data.Int.Notation
import Mathlib.Data.List.Perm.Basic
import Pluvio.Heap

/-!
# Reduction operators

An operator is its `apply`, about which nothing is assumed, and
`Pluvio.Op.reduceInPlace` is the bulk reduction every allreduce uses: lanes of
eight elements, and then the remainders of the two slices. On slices of one
length it is the reduction element by element
(`Pluvio.Op.reduceInPlace_eq_zipWith`).

`Pluvio.Op.reduceAll` is the reduction of a whole list, from the left. For an
associative and commutative operator the order of the list does not matter
(`Pluvio.Op.reduceAll_perm`).

`Pluvio.Op.max` and `Pluvio.Op.min` are those of floats. They are associative on
numbers, and return the second operand where neither is above the other.
-/

namespace Pluvio

/-- An operator of a reduction. -/
structure Op (α : Type*) where
  apply : α → α → α

namespace Op

variable {α : Type*} (op : Op α)

/-! ### The bulk reduction -/

/-- `LANES`. -/
def lanes : ℕ := 8

/-- The elements of `dst` that have one in `src` are reduced with it. -/
def zipInPlace : List α → List α → List α
  | d :: ds, s :: ss => op.apply d s :: zipInPlace ds ss
  | ds, _ => ds

/-- The chunks of the two slices, as many as both have. -/
def reduceChunks : ℕ → List α → List α → List α
  | 0, dst, _ => dst
  | k + 1, dst, src =>
    op.zipInPlace (dst.take lanes) (src.take lanes) ++
      reduceChunks k (dst.drop lanes) (src.drop lanes)

/-- `reduce_in_place`: the exact chunks, and then the two remainders. -/
def reduceInPlace (dst src : List α) : List α :=
  let kd := dst.length / lanes
  let ks := src.length / lanes
  op.reduceChunks (min kd ks) (dst.take (kd * lanes)) (src.take (ks * lanes)) ++
    op.zipInPlace (dst.drop (kd * lanes)) (src.drop (ks * lanes))

/-- On lists of one length, every element has its own. -/
theorem zipInPlace_eq_zipWith {ds ss : List α} (h : ds.length = ss.length) :
    op.zipInPlace ds ss = List.zipWith op.apply ds ss := by
  induction ds generalizing ss with
  | nil => rfl
  | cons d ds ih =>
    obtain - | ⟨s, ss⟩ := ss
    · cases h
    · exact congrArg _ (ih (Nat.succ.inj h))

/-- The chunks of two slices of one length. -/
theorem reduceChunks_eq_zipWith (k : ℕ) {ds ss : List α} (h : ds.length = ss.length)
    (hk : ds.length = k * lanes) :
    op.reduceChunks k ds ss = List.zipWith op.apply ds ss := by
  induction k generalizing ds ss with
  | zero =>
    rw [Nat.zero_mul] at hk
    rw [List.eq_nil_of_length_eq_zero hk]
    rfl
  | succ k ih =>
    have hlen : ds.length - lanes = k * lanes := by rw [hk, Nat.succ_mul, Nat.add_sub_cancel]
    rw [reduceChunks, op.zipInPlace_eq_zipWith (by rw [List.length_take, List.length_take, h]),
      ih (by rw [List.length_drop, List.length_drop, h]) (by rw [List.length_drop, hlen]),
      ← List.zipWith_append (by rw [List.length_take, List.length_take, h]),
      List.take_append_drop, List.take_append_drop]

/-- **The lanes do not show**: on slices of one length, the bulk reduction is the
reduction element by element. -/
theorem reduceInPlace_eq_zipWith {dst src : List α} (h : dst.length = src.length) :
    op.reduceInPlace dst src = List.zipWith op.apply dst src := by
  have hle := Nat.div_mul_le_self src.length lanes
  rw [reduceInPlace, h, Nat.min_self]
  have hlen : (dst.take (src.length / lanes * lanes)).length = src.length / lanes * lanes := by
    rw [List.length_take, h, Nat.min_eq_left hle]
  have hlen' : (src.take (src.length / lanes * lanes)).length = src.length / lanes * lanes := by
    rw [List.length_take, Nat.min_eq_left hle]
  rw [op.reduceChunks_eq_zipWith _ (hlen.trans hlen'.symm) hlen,
    op.zipInPlace_eq_zipWith (by rw [List.length_drop, List.length_drop, h]),
    ← List.zipWith_append (hlen.trans hlen'.symm), List.take_append_drop, List.take_append_drop]

/-! ### The bulk reduction of two slices of a memory -/

section Slices

variable {R : Type*} [DecidableEq R]

/-- `reduce_in_place` on slices. -/
def reduceSlice (h : Heap R α) (dst src : Slice R) : Heap R α :=
  h.copyInto dst (op.reduceInPlace (h.read dst) (h.read src))

/-- An element of the destination is reduced with its counterpart. -/
theorem reduceSlice_of_has (h : Heap R α) {dst src : Slice R} (hlen : dst.len = src.len) {i : ℕ}
    (hi : i < dst.len) : op.reduceSlice h dst src dst.region (dst.off + i) =
      op.apply (h dst.region (dst.off + i)) (h src.region (src.off + i)) := by
  refine Heap.copyInto_of_has h hi ?_
  rw [op.reduceInPlace_eq_zipWith (by rw [Heap.length_read, Heap.length_read, hlen]),
    List.getElem?_zipWith, Heap.getElem?_read _ _ hi, Heap.getElem?_read _ _ (hlen ▸ hi)]

/-- Nothing is written outside of the destination. -/
theorem reduceSlice_of_not_has (h : Heap R α) {dst src : Slice R} {r : R} {i : ℕ}
    (hi : ¬dst.Has r i) : op.reduceSlice h dst src r i = h r i :=
  Heap.copyInto_of_not_has h _ hi

/-- It works on its two slices. -/
theorem localTo_reduceSlice {F : R → ℕ → Prop} {dst src : Slice R} (hdst : dst.Within F)
    (hsrc : src.Within F) : Heap.LocalTo F fun h => op.reduceSlice h dst src :=
  .copyInto hdst fun h h' hag => by rw [hag.read_eq hdst, hag.read_eq hsrc]

end Slices

/-! ### Floats -/

/-- An `f32` that is a number: its sign, and its other bits, which are at most those of
infinity. -/
structure F32 where
  negative : Bool
  magnitude : ℕ
  le_infinity : magnitude ≤ 0x7f800000
  deriving DecidableEq, Repr

/-- What a comparison sees of a number: the two zeros are equal. -/
def F32.value (a : F32) : ℤ := if a.negative then -(a.magnitude : ℤ) else a.magnitude

/-- `Max`. -/
protected def max : Op F32 where
  apply a b := if a.value > b.value then a else b

/-- `Min`. -/
protected def min : Op F32 where
  apply a b := if a.value < b.value then a else b

theorem max_assoc (a b c : F32) :
    Op.max.apply (Op.max.apply a b) c = Op.max.apply a (Op.max.apply b c) := by
  simp only [Op.max]
  split_ifs <;> first | rfl | omega

theorem min_assoc (a b c : F32) :
    Op.min.apply (Op.min.apply a b) c = Op.min.apply a (Op.min.apply b c) := by
  simp only [Op.min]
  split_ifs <;> first | rfl | omega

/-! ### The reduction of a list -/

/-- The reduction of a list, from the left. -/
def reduceAll : List α → Option α
  | [] => none
  | a :: l => some (l.foldl op.apply a)

variable {op}

/-- **For an associative operator**, a list is reduced part by part. -/
theorem reduceAll_append (hassoc : ∀ a b c, op.apply (op.apply a b) c = op.apply a (op.apply b c))
    {l l' : List α} {a b : α} (ha : op.reduceAll l = some a) (hb : op.reduceAll l' = some b) :
    op.reduceAll (l ++ l') = some (op.apply a b) := by
  obtain - | ⟨x, l⟩ := l
  · cases ha
  obtain - | ⟨y, l'⟩ := l'
  · cases hb
  cases ha
  cases hb
  have key : ∀ (m : List α) (u v : α),
      m.foldl op.apply (op.apply u v) = op.apply u (m.foldl op.apply v) := by
    intro m
    induction m with
    | nil => intro u v; rfl
    | cons z m ih =>
      intro u v
      rw [List.foldl_cons, List.foldl_cons, hassoc, ih]
  rw [List.cons_append, reduceAll, List.foldl_append, List.foldl_cons, key]

/-- **For an associative and commutative operator**, the order of the list does
not matter. -/
theorem reduceAll_perm (hassoc : ∀ a b c, op.apply (op.apply a b) c = op.apply a (op.apply b c))
    (hcomm : ∀ a b, op.apply a b = op.apply b a) {l l' : List α} (h : l.Perm l') :
    op.reduceAll l = op.reduceAll l' := by
  have : RightCommutative op.apply := ⟨fun a b c => by rw [hassoc, hcomm b, ← hassoc]⟩
  induction h with
  | nil => rfl
  | cons a h => exact congrArg some (h.foldl_eq a)
  | swap a b l =>
    rw [reduceAll, reduceAll, List.foldl_cons, List.foldl_cons, hcomm]
  | trans _ _ ih ih' => exact ih.trans ih'

end Op

end Pluvio
