import Pluvio.Collective.Agreement

/-!
# What an allreduce computes

The trait `Op` asks of an operator that it is associative, so that a reduction is known by the
order of its inputs. This module finds the order for each algorithm
(`Pluvio.AllreduceAlgo.order`): in a ring a chunk starts from the rank of its number and each
rank puts its own input on the left, so that the inputs stand against the direction in which
the chunk has travelled; by recursive doubling every rank has an order of its own.

An order names every rank once, so that for an operator which also commutes all of them give
what is expected of an allreduce: the reduction over the ranks
(`Pluvio.AllreduceAlgo.allreduce_in_order`).
-/

namespace Pluvio

variable {α : Type*} {op : Op α} {n : ℕ}

/-- **The order of a ring** for the chunk `c`: the last rank on the way of the chunk first, and
the rank it started from last. -/
def ringOrder (n c : ℕ) : List ℕ := ((List.range n).map fun e => (c + e) % n).reverse

/-- It names every rank once. -/
theorem perm_ringOrder {c : ℕ} (hc : c < n) : (ringOrder n c).Perm (List.range n) :=
  (List.reverse_perm _).trans (perm_range_add_mod hc)

/-- **On its way** a chunk is the reduction of what it has met, the latest first. -/
theorem some_ringValue_order
    (hassoc : ∀ a b c, op.apply (op.apply a b) c = op.apply a (op.apply b c)) (x : ℕ → α) {c : ℕ}
    (hc : c < n) (d : ℕ) : some (ringValue op n x c d) =
      op.reduceAll ((((List.range (d + 1)).map fun e => (c + e) % n).reverse).map x) := by
  induction d with
  | zero =>
    show some (x c) = some (x ((c + 0) % n))
    rw [Nat.add_zero, Nat.mod_eq_of_lt hc]
  | succ d ih =>
    have hone : op.reduceAll ([(c + (d + 1)) % n].map x) = some (x ((c + d + 1) % n)) := rfl
    rw [List.range_succ, List.map_append, List.reverse_append, List.map_append, List.map_singleton,
      List.reverse_singleton, Op.reduceAll_append hassoc hone ih.symm, ringValue]

/-- And at the end it has met all ranks. -/
theorem some_ringValue_last
    (hassoc : ∀ a b c, op.apply (op.apply a b) c = op.apply a (op.apply b c)) (x : ℕ → α) {c : ℕ}
    (hc : c < n) : some (ringValue op n x c (n - 1)) = op.reduceAll ((ringOrder n c).map x) := by
  rw [some_ringValue_order hassoc x hc, Nat.sub_add_cancel (Nat.zero_lt_of_lt hc), ringOrder]

/-- **The order of recursive doubling** names every rank once, too. -/
theorem perm_rankOrder {k p : ℕ} (hp : p < 2 ^ k) :
    (rankOrder (2 ^ k) p).Perm (List.range (2 ^ k)) := by
  have hnodup : (rankOrder (2 ^ k) p).Nodup :=
    List.nodup_range.map fun a b hab => Nat.xor_right_injective hab
  refine (List.perm_ext_iff_of_nodup hnodup List.nodup_range).mpr fun q => ?_
  rw [rankOrder, List.mem_map, List.mem_range]
  constructor
  · rintro ⟨i, hi, rfl⟩
    exact Nat.xor_lt_two_pow hp (List.mem_range.mp hi)
  · intro hq
    exact ⟨p ^^^ q, List.mem_range.mpr (Nat.xor_lt_two_pow hp hq), by simp⟩

namespace AllreduceAlgo

/-- **The order in which rank `p` ends up with the inputs** for its cell `j`. -/
def order (n len p j : ℕ) : AllreduceAlgo → List ℕ
  | plainRing | pipelinedRing _ => ringOrder n (j / (len / n))
  | recursiveDoubling =>
    if ∃ k < 64, n = 2 ^ k then rankOrder n p else ringOrder n (j / (len / n))

/-- **A reduction in an order**: every rank counts once. -/
structure ReducesIn (op : Op α) (n : ℕ) (x : ℕ → α) (order : List ℕ) (a : α) : Prop where
  perm : order.Perm (List.range n)
  value : some a = op.reduceAll (order.map x)

/-- If the operator commutes, the order is of no importance. -/
theorem ReducesIn.all {x : ℕ → α} {order : List ℕ} {a : α} (h : ReducesIn op n x order a)
    (hassoc : ∀ a b c, op.apply (op.apply a b) c = op.apply a (op.apply b c))
    (hcomm : ∀ a b, op.apply a b = op.apply b a) :
    some a = op.reduceAll ((List.range n).map x) :=
  h.value.trans (Op.reduceAll_perm hassoc hcomm (h.perm.map x))

variable {len : ℕ} {heap out : ℕ → Heap Region α} {p j : ℕ}

/-- A cell of a ring is reduced in the order of the ring from the rank of its chunk on. -/
theorem reducesIn_ring (hassoc : ∀ a b c, op.apply (op.apply a b) c = op.apply a (op.apply b c))
    (hn : 2 ≤ n) (hdvd : n ∣ len) (hj : j < len) :
    ReducesIn op n (fun r => heap r (0, .buf) j) (ringOrder n (j / (len / n)))
      (ringLeft op n len heap j) := by
  obtain ⟨c, hc, x, hx, rfl⟩ := exists_chunk (by omega) hdvd hj
  have hchunk : (c * (len / n) + x) / (len / n) = c := by
    rw [Nat.mul_comm, Nat.mul_add_div (by omega), Nat.div_eq_of_lt hx, Nat.add_zero]
  rw [hchunk, ringLeft_chunk hx]
  exact ⟨perm_ringOrder hc, some_ringValue_last hassoc _ hc⟩

/-- **By recursive doubling**, of a power of two or not. -/
theorem reducesIn_recursiveDoubling
    (hassoc : ∀ a b c, op.apply (op.apply a b) c = op.apply a (op.apply b c)) (hn : 2 ≤ n)
    (hacc : recursiveDoubling.Accepts op n len) (hout : recursiveDoubling.Leaves op n len heap out)
    (hp : p < n) (hj : j < len) :
    ReducesIn op n (fun r => heap r (0, .buf) j) (recursiveDoubling.order n len p j)
      (out p (0, .buf) j) := by
  by_cases hpow : ∃ k < 64, n = 2 ^ k
  · rw [order, if_pos hpow]
    obtain ⟨k, hk', rfl⟩ := hpow
    have hk : 1 ≤ k := by
      by_contra hk
      rw [show k = 0 by omega] at hn
      omega
    rw [leaves_recursiveDoubling hk hk' hout hp hj]
    exact ⟨perm_rankOrder hp, some_rdValue_order hassoc ..⟩
  · have hdvd := ((accepts_recursiveDoubling_iff hn).mp hacc).resolve_left hpow
    have hring : plainRing.Leaves op n len heap out := by
      rwa [Leaves, rdProgram_eq_ring hn hpow] at hout
    rw [order, if_neg hpow, leaves_plainRing hn hdvd hring hp hj]
    exact reducesIn_ring hassoc hn hdvd hj

/-- A rank on its own. -/
theorem reducesIn_one (algo : AllreduceAlgo) (hout : algo.Leaves op 1 len heap out) (hp : p < 1) :
    ReducesIn op 1 (fun r => heap r (0, .buf) j) (algo.order 1 len p j) (out p (0, .buf) j) := by
  obtain rfl : p = 0 := by omega
  have horder : algo.order 1 len 0 j = [0] := by
    have hring : ∀ c, ringOrder 1 c = [0] := fun c => by simp [ringOrder, Nat.mod_one]
    cases algo with
    | plainRing => exact hring _
    | pipelinedRing config => exact hring _
    | recursiveDoubling =>
      rw [order, if_pos ⟨0, by decide, rfl⟩]
      rfl
  rw [horder, leaves_of_le_one le_rfl hout]
  exact ⟨List.Perm.refl _, rfl⟩

/-- **What an allreduce computes**: in every run of every algorithm that returns `Ok` on all
ranks, a rank ends up with the reduction of the inputs in its order, for an operator that is
associative; and with the reduction over the ranks, if it also commutes. -/
theorem allreduce_in_order
    (hassoc : ∀ a b c, op.apply (op.apply a b) c = op.apply a (op.apply b c)) (hn : 1 ≤ n)
    {algo : AllreduceAlgo} (hacc : algo.Accepts op n len) (hout : algo.Leaves op n len heap out)
    (hp : p < n) (hj : j < len) :
    ReducesIn op n (fun r => heap r (0, .buf) j) (algo.order n len p j) (out p (0, .buf) j) ∧
      ((∀ a b, op.apply a b = op.apply b a) →
        some (out p (0, .buf) j) =
          op.reduceAll ((List.range n).map fun r => heap r (0, .buf) j)) := by
  have hreduces : ReducesIn op n (fun r => heap r (0, .buf) j) (algo.order n len p j)
      (out p (0, .buf) j) := by
    rcases hn.eq_or_lt with rfl | hn
    · exact reducesIn_one algo hout hp
    · cases algo with
      | plainRing =>
        have hdvd := (accepts_plainRing_iff hn).mp hacc
        rw [leaves_plainRing hn hdvd hout hp hj]
        exact reducesIn_ring hassoc hn hdvd hj
      | pipelinedRing config =>
        have hsh := (accepts_pipelinedRing_iff hn).mp hacc
        rw [leaves_pipelinedRing hn hsh hout hp hj]
        exact reducesIn_ring hassoc hn hsh.len_dvd hj
      | recursiveDoubling => exact reducesIn_recursiveDoubling hassoc hn hacc hout hp hj
  exact ⟨hreduces, fun hcomm => hreduces.all hassoc hcomm⟩

/-- An operator that shows the order. -/
def concat : Op (List ℕ) := ⟨List.append⟩

/-- Four ranks, each of which contributes its number: the second one ends up with the order
`1, 0, 3, 2`. -/
theorem allreduce_in_order_four : ∃ out,
    recursiveDoubling.Leaves concat 4 1 (fun r _ _ => [r]) out ∧
      out 1 (0, .buf) 0 = [1, 0, 3, 2] := by
  have hends : recursiveDoubling.Ends concat 4 1 fun r _ _ => [r] :=
    ends_recursiveDoubling (k := 2) (by decide) (by decide) _
  have hacc : recursiveDoubling.Accepts concat 4 1 :=
    (accepts_recursiveDoubling_iff (by decide)).mpr (.inl ⟨2, by decide, rfl⟩)
  obtain ⟨out, hout⟩ := hends.exists_leaves
  refine ⟨out, hout, Option.some.inj ?_⟩
  refine (allreduce_in_order List.append_assoc (by decide) hacc hout (by decide)
    Nat.one_pos).1.value.trans ?_
  decide

end AllreduceAlgo

end Pluvio
