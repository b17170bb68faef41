import Pluvio.Chunks
import Pluvio.Collective.Op

/-!
# The bulk reduction, element by element

`reduce_in_place` on two slices of a memory, step by step: the exact chunks of both through
one loop, in each of them a loop over the lanes, and then a loop over the two remainders. The
run keeps the memory, and every pair of cells `apply` has been called on
(`Pluvio.Bulk.combine`).

The two slices are a `&mut` and a `&`, so they have no cell in common. After `k` elements the
run is `Pluvio.Bulk.upTo`, and every call of `apply` is a step from `k` to `k + 1`
(`Pluvio.Bulk.combine_upTo`); so that it comes out at the length of the slices
(`Pluvio.Bulk.reduceInPlace_eq_ok`), and is the bulk reduction the allreduces use
(`Pluvio.Bulk.heap_upTo_len`).
-/

namespace Pluvio

open Checked

variable {R α : Type} [DecidableEq R] (op : Op α)

/-- A reduction that is under way. -/
structure Bulk (R α : Type) where
  heap : Heap R α
  /-- The pairs of cells `apply` has been called on. -/
  combined : List ((R × ℕ) × (R × ℕ))

namespace Bulk

/-- `d = apply(d, s)`, for two cells. -/
def combine (m : Bulk R α) (d s : R × ℕ) : Bulk R α where
  heap r i :=
    if r = d.1 ∧ i = d.2 then op.apply (m.heap d.1 d.2) (m.heap s.1 s.2) else m.heap r i
  combined := m.combined ++ [(d, s)]

/-- The loop over the lanes. -/
def reduceLanes (m : Bulk R α) (d s : Slice R) : Checked (Bulk R α) :=
  (List.range Op.lanes).foldlM (fun m i => do
    return m.combine op (d.cell (← index d.len i)) (s.cell (← index s.len i))) m

/-- The loop over the two remainders, as far as both go. -/
def reduceRemainder (m : Bulk R α) (rd rs : Slice R) : Checked (Bulk R α) :=
  (List.range (min rd.len rs.len)).foldlM
    (fun m i => return m.combine op (rd.cell i) (rs.cell i)) m

/-- The assertion that the lengths agree, which is there in a debug build only. -/
def debugAssertLen (debug : Bool) (dst src : Slice R) : Checked Unit :=
  if debug then sameLen dst src else .ok ()

/-- `reduce_in_place`. -/
def reduceInPlace (debug : Bool) (h : Heap R α) (dst src : Slice R) : Checked (Bulk R α) := do
  debugAssertLen debug dst src
  let (m, chunksDst, chunksSrc) ← forZip (reduceLanes op) ⟨h, []⟩
    (dst.chunksExact Op.lanes (by decide)) (src.chunksExact Op.lanes (by decide))
  reduceRemainder op m chunksDst.remainder chunksSrc.remainder

/-! ### The first elements -/

/-- The first `k` elements of `dst` are reduced with those of `src`, each in its turn. -/
def upTo (h : Heap R α) (dst src : Slice R) (k : ℕ) : Bulk R α where
  heap r i :=
    if r = dst.region ∧ dst.off ≤ i ∧ i < dst.off + k
    then op.apply (h r i) (h src.region (src.off + (i - dst.off))) else h r i
  combined := (List.range k).map fun i => (dst.cell i, src.cell i)

variable {op} {h : Heap R α} {dst src : Slice R}

@[simp] theorem upTo_zero : upTo op h dst src 0 = ⟨h, []⟩ := by
  refine congrArg (Bulk.mk · []) (funext fun r => funext fun i => if_neg ?_)
  omega

theorem heap_upTo_of_lt {k i : ℕ} (hi : i < k) :
    (upTo op h dst src k).heap dst.region (dst.off + i) =
      op.apply (h dst.region (dst.off + i)) (h src.region (src.off + i)) := by
  refine (if_pos ⟨rfl, by omega, by omega⟩).trans ?_
  rw [Nat.add_sub_cancel_left]

/-- What is behind the first `k` elements is as before. -/
theorem heap_upTo_of_not_has {k : ℕ} {r : R} {i : ℕ} (hi : ¬(dst.part 0 k).Has r i) :
    (upTo op h dst src k).heap r i = h r i := if_neg hi

/-- Nothing outside the destination is written. -/
theorem heap_upTo_of_not_dst {k : ℕ} (hk : k ≤ dst.len) {r : R} {i : ℕ} (hi : ¬dst.Has r i) :
    (upTo op h dst src k).heap r i = h r i := by
  refine heap_upTo_of_not_has fun hin => hi ?_
  obtain ⟨hr, hlo, hhi⟩ := hin
  exact ⟨hr, hlo, by dsimp only [Slice.part] at hhi; omega⟩

/-- **One element more**: the two cells still hold what they held before the reduction. -/
theorem combine_upTo (hdisj : ∀ r i, dst.Has r i → ¬src.Has r i) (hlen : dst.len = src.len)
    {k : ℕ} (hk : k < dst.len) :
    (upTo op h dst src k).combine op (dst.cell k) (src.cell k) = upTo op h dst src (k + 1) := by
  have hd : (upTo op h dst src k).heap dst.region (dst.off + k) = h dst.region (dst.off + k) :=
    heap_upTo_of_not_has fun hin => Nat.lt_irrefl _ hin.2.2
  have hs : (upTo op h dst src k).heap src.region (src.off + k) = h src.region (src.off + k) :=
    heap_upTo_of_not_dst (Nat.le_of_lt hk) fun hin =>
      hdisj _ _ hin ⟨rfl, Nat.le_add_right .., by omega⟩
  refine congrArg₂ Bulk.mk (funext fun r => funext fun i => ?_) ?_
  · by_cases hi : r = dst.region ∧ i = dst.off + k
    · obtain ⟨rfl, rfl⟩ := hi
      rw [if_pos ⟨rfl, rfl⟩]
      exact (congrArg₂ op.apply hd hs).trans (heap_upTo_of_lt (Nat.lt_succ_self k)).symm
    · refine (if_neg hi).trans (if_congr ?_ rfl rfl)
      constructor
      · rintro ⟨hr, hlo, hhi⟩
        exact ⟨hr, hlo, by omega⟩
      · rintro ⟨hr, hlo, hhi⟩
        have hne : i ≠ dst.off + k := fun he => hi ⟨hr, he⟩
        exact ⟨hr, hlo, by omega⟩
  · rw [List.range_succ, List.map_append]
    rfl

/-- **The lanes of a chunk** that starts at element `k`. -/
theorem reduceLanes_upTo (hdisj : ∀ r i, dst.Has r i → ¬src.Has r i) (hlen : dst.len = src.len)
    {k : ℕ} (hk : k + Op.lanes ≤ dst.len) :
    reduceLanes op (upTo op h dst src k) (dst.part k Op.lanes) (src.part k Op.lanes) =
      .ok (upTo op h dst src (k + Op.lanes)) := by
  refine foldlM_range_eq_ok (fun i => upTo op h dst src (k + i)) fun i hi => ?_
  rw [Slice.part_len, Slice.part_len, index_of_lt hi, ok_bind, ok_bind, Slice.cell_part,
    Slice.cell_part, combine_upTo hdisj hlen (by omega)]
  rfl

/-- **The remainders**, from element `k` to the end. -/
theorem reduceRemainder_upTo (hdisj : ∀ r i, dst.Has r i → ¬src.Has r i)
    (hlen : dst.len = src.len) {k l : ℕ} (hk : k + l = dst.len) :
    reduceRemainder op (upTo op h dst src k) (dst.part k l) (src.part k l) =
      .ok (upTo op h dst src dst.len) := by
  rw [reduceRemainder, Slice.part_len, Slice.part_len, Nat.min_self, ← hk]
  refine foldlM_range_eq_ok (fun i => upTo op h dst src (k + i)) fun i hi => ?_
  rw [Slice.cell_part, Slice.cell_part, combine_upTo hdisj hlen (by omega)]
  rfl

omit [DecidableEq R] in
theorem debugAssertLen_of_eq (debug : Bool) (hlen : dst.len = src.len) :
    debugAssertLen debug dst src = .ok () := by
  cases debug with
  | false => rfl
  | true => exact if_pos hlen

/-- **The whole reduction**: the chunks, and then the remainders, reach the end. -/
theorem reduceInPlace_eq_ok (debug : Bool) (hdisj : ∀ r i, dst.Has r i → ¬src.Has r i)
    (hlen : dst.len = src.len) :
    reduceInPlace op debug h dst src = .ok (upTo op h dst src dst.len) := by
  have hchunks : forZip (reduceLanes op) (upTo op h dst src 0)
      (dst.chunksExact Op.lanes (by decide)) (src.chunksExact Op.lanes (by decide)) =
        .ok (upTo op h dst src (dst.len / Op.lanes * Op.lanes),
          .after dst Op.lanes (by decide) (dst.len / Op.lanes),
          .after src Op.lanes (by decide) (dst.len / Op.lanes)) := by
    have hround : ∀ c < dst.len / Op.lanes, reduceLanes op (upTo op h dst src (c * Op.lanes))
        (dst.part (c * Op.lanes) Op.lanes) (src.part (c * Op.lanes) Op.lanes) =
          .ok (upTo op h dst src ((c + 1) * Op.lanes)) := by
      intro c hc
      have hle : (c + 1) * Op.lanes ≤ dst.len :=
        Nat.le_trans (Nat.mul_le_mul_right _ hc) (Nat.div_mul_le_self ..)
      rw [Nat.succ_mul] at hle ⊢
      exact reduceLanes_upTo hdisj hlen hle
    have hall := forZip_eq_ok (fun c => upTo op h dst src (c * Op.lanes)) hlen (by decide) hround
    rwa [Nat.zero_mul] at hall
  have hend : dst.len / Op.lanes * Op.lanes + dst.len % Op.lanes = dst.len :=
    Nat.div_add_mod' ..
  have hzero : (⟨h, []⟩ : Bulk R α) = upTo op h dst src 0 := upTo_zero.symm
  rw [reduceInPlace, debugAssertLen_of_eq debug hlen, ok_bind, hzero, hchunks, ok_bind]
  dsimp only [ChunksExact.after]
  rw [← hlen]
  exact reduceRemainder_upTo hdisj hlen hend

/-- What it leaves in the memory is what the allreduces take from it. -/
theorem heap_upTo_len (hlen : dst.len = src.len) :
    (upTo op h dst src dst.len).heap = op.reduceSlice h dst src := by
  funext r i
  by_cases hi : dst.Has r i
  · obtain ⟨rfl, hlo, hhi⟩ := hi
    obtain ⟨j, rfl⟩ := Nat.exists_eq_add_of_le hlo
    have hj : j < dst.len := Nat.lt_of_add_lt_add_left hhi
    rw [heap_upTo_of_lt hj, op.reduceSlice_of_has h hlen hj]
  · rw [heap_upTo_of_not_dst (Nat.le_refl _) hi, op.reduceSlice_of_not_has h hi]

/-- The source is not written. -/
theorem read_upTo_src (hdisj : ∀ r i, dst.Has r i → ¬src.Has r i) {k : ℕ} (hk : k ≤ dst.len) :
    (upTo op h dst src k).heap.read src = h.read src := by
  have hag : Heap.AgreeOn src.Has (upTo op h dst src k).heap h := fun r i hi =>
    heap_upTo_of_not_dst hk fun hd => hdisj r i hd hi
  exact hag.read_eq fun _ _ hi => hi

/-- **The bulk reduction on a memory is the one on lists**, for slices of one length without
a common cell. -/
theorem reduceInPlace_refines (debug : Bool) (hdisj : ∀ r i, dst.Has r i → ¬src.Has r i)
    (hlen : dst.len = src.len) :
    (reduceInPlace op debug h dst src).map heap = .ok (op.reduceSlice h dst src) := by
  rw [reduceInPlace_eq_ok debug hdisj hlen, ← heap_upTo_len hlen]
  rfl

variable (op) in
/-- **The bulk reduction is the reduction element by element**: of two slices of one length,
whatever it is, every element of the destination is reduced once, and with its counterpart;
the source is as it was, and so is everything else. -/
theorem reduceInPlace_elementwise (debug : Bool) (h : Heap R α) {dst src : Slice R}
    (hdisj : ∀ r i, dst.Has r i → ¬src.Has r i) (hlen : dst.len = src.len) :
    ∃ m, reduceInPlace op debug h dst src = .ok m ∧
      (∀ i < dst.len, m.heap dst.region (dst.off + i) =
        op.apply (h dst.region (dst.off + i)) (h src.region (src.off + i))) ∧
      m.combined = (List.range dst.len).map (fun i => (dst.cell i, src.cell i)) ∧
      m.heap.read src = h.read src ∧ ∀ r i, ¬dst.Has r i → m.heap r i = h r i :=
  ⟨upTo op h dst src dst.len, reduceInPlace_eq_ok debug hdisj hlen,
    fun _ hi => heap_upTo_of_lt hi, rfl, read_upTo_src hdisj (Nat.le_refl _),
    fun _ _ hi => heap_upTo_of_not_dst (Nat.le_refl _) hi⟩

/-- Eleven elements: a chunk, and a remainder of three. -/
theorem reduceInPlace_elementwise_eleven :
    ∃ m, reduceInPlace ⟨Nat.sub⟩ true (fun r i => bif r then i else 100 + i)
        (⟨false, 2, 11⟩ : Slice Bool) ⟨true, 0, 11⟩ = .ok m ∧
      (∀ i < 11, m.heap false (2 + i) = (100 + (2 + i)).sub (0 + i)) ∧
      m.combined = (List.range 11).map (fun i => ((false, 2 + i), (true, 0 + i))) ∧
      m.heap true 3 = 3 := by
  have hdisj : ∀ r i, (⟨false, 2, 11⟩ : Slice Bool).Has r i → ¬Slice.Has ⟨true, 0, 11⟩ r i :=
    fun _ _ hd hs => Bool.noConfusion (hd.1.symm.trans hs.1)
  obtain ⟨m, hm, hdst, hcombined, -, helse⟩ :=
    reduceInPlace_elementwise ⟨Nat.sub⟩ true (fun r i => bif r then i else 100 + i) hdisj rfl
  exact ⟨m, hm, hdst, hcombined, helse true 3 fun hd => Bool.noConfusion hd.1⟩

end Bulk

end Pluvio
