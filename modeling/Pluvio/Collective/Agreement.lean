import Pluvio.Collective.Allreduce

/-!
# What the ranks agree on when the operator does not commute

`Pluvio.Op` asks of an operator that it is associative, and no more. In the ring one
rank computes a chunk and the others are sent it, so that the order of the reduction is
the same for all of them. In recursive doubling each rank merges for itself, its own
part first: it reduces the inputs in an order of its own
(`Pluvio.rankOrder`, `Pluvio.some_rdValue_order`), and for all ranks to end with one
buffer the operator must not see the difference (`Pluvio.OrderBlind`). At all sizes and
inputs that is commutativity.

`Max` and `Min` of floats are associative on numbers and do not commute: of the two
zeros, neither is above the other, and the second operand is returned.
-/

namespace Pluvio

variable {α : Type*} {op : Op α}

/-! ### The order of a rank -/

/-- **The order in which rank `p` reduces** the inputs of `n` ranks by recursive
doubling. -/
def rankOrder (n p : ℕ) : List ℕ := (List.range n).map (p ^^^ ·)

/-- The upper half of an order is the lower half of the partner's. -/
theorem xor_two_pow_add (p : ℕ) {r i : ℕ} (hi : i < 2 ^ r) :
    p ^^^ (2 ^ r + i) = p ^^^ 2 ^ r ^^^ i := by
  have hdiv : (2 ^ r ^^^ i) / 2 ^ r = 1 := by
    rw [Nat.xor_div_two_pow, Nat.div_self (Nat.two_pow_pos r), Nat.div_eq_of_lt hi, Nat.xor_zero]
  have hmod : (2 ^ r ^^^ i) % 2 ^ r = i := by
    rw [Nat.xor_mod_two_pow, Nat.mod_self, Nat.mod_eq_of_lt hi, Nat.zero_xor]
  have hadd := Nat.div_add_mod (2 ^ r ^^^ i) (2 ^ r)
  rw [hdiv, hmod, Nat.mul_one] at hadd
  rw [hadd, Nat.xor_assoc]

/-- An order is made of a rank's own half and of its partner's. -/
theorem rankOrder_succ (r p : ℕ) :
    rankOrder (2 ^ (r + 1)) p = rankOrder (2 ^ r) p ++ rankOrder (2 ^ r) (p ^^^ 2 ^ r) := by
  rw [rankOrder, pow_succ, Nat.mul_two, List.range_add, List.map_append, List.map_map]
  refine congrArg _ (List.map_congr_left fun i hi => ?_)
  exact xor_two_pow_add p (List.mem_range.mp hi)

/-- **What a rank holds** is the reduction in its own order. -/
theorem some_rdValue_order
    (hassoc : ∀ a b c, op.apply (op.apply a b) c = op.apply a (op.apply b c)) (x : ℕ → α)
    (r p : ℕ) : some (rdValue op x r p) = op.reduceAll ((rankOrder (2 ^ r) p).map x) := by
  induction r generalizing p with
  | zero => simp [rankOrder, rdValue, Op.reduceAll]
  | succ r ih =>
    rw [rankOrder_succ, List.map_append, rdValue,
      Op.reduceAll_append hassoc (ih p).symm (ih (p ^^^ 2 ^ r)).symm]

/-- The order of the first rank is that of the ranks. -/
theorem rankOrder_zero (n : ℕ) : rankOrder n 0 = List.range n := by
  simp [rankOrder]

/-- **The operator does not see the order of the ranks** on these inputs. -/
def OrderBlind (op : Op α) (n : ℕ) (x : ℕ → α) : Prop :=
  ∀ p < n, op.reduceAll ((rankOrder n p).map x) = op.reduceAll ((List.range n).map x)

/-- Two ranks reduce two inputs one way and the other. -/
theorem orderBlind_two_iff {x : ℕ → α} :
    OrderBlind op 2 x ↔ op.apply (x 1) (x 0) = op.apply (x 0) (x 1) := by
  constructor
  · intro h
    exact Option.some.inj (h 1 (by decide))
  · intro h p hp
    obtain rfl | rfl : p = 0 ∨ p = 1 := by omega
    · rw [rankOrder_zero]
    · exact congrArg some h

namespace AllreduceAlgo

/-! ### Agreement -/

/-- **Agreement**: where the call returns `Ok` on every rank, all ranks hold the same
buffer in the end. -/
def Agrees (op : Op α) (n len : ℕ) (heap : ℕ → Heap Region α) (algo : AllreduceAlgo) : Prop :=
  algo.Accepts op n len → ∀ out, algo.Leaves op n len heap out →
    ∀ p < n, ∀ q < n, ∀ j < len, out p (0, .buf) j = out q (0, .buf) j

variable {n len : ℕ} {heap : ℕ → Heap Region α} {config : PipelineConfig}

/-- **In a ring** the ranks agree, whatever the operator is. -/
theorem agrees_plainRing (hn : 2 ≤ n) : plainRing.Agrees op n len heap := by
  intro hacc out hout p hp q hq j hj
  have hdvd := (accepts_plainRing_iff hn).mp hacc
  rw [leaves_plainRing hn hdvd hout hp hj, leaves_plainRing hn hdvd hout hq hj]

/-- And in a pipelined one. -/
theorem agrees_pipelinedRing (hn : 2 ≤ n) : (pipelinedRing config).Agrees op n len heap := by
  intro hacc out hout p hp q hq j hj
  have hsh := (accepts_pipelinedRing_iff hn).mp hacc
  rw [leaves_pipelinedRing hn hsh hout hp hj, leaves_pipelinedRing hn hsh hout hq hj]

/-- Without a power of two, recursive doubling is a ring. -/
theorem agrees_recursiveDoubling_of_not_pow (hn : 2 ≤ n) (hpow : ¬∃ k < 64, n = 2 ^ k) :
    recursiveDoubling.Agrees op n len heap := by
  intro hacc out hout
  have hdvd := ((accepts_recursiveDoubling_iff hn).mp hacc).resolve_left hpow
  have hring : plainRing.Agrees op n len heap := agrees_plainRing hn
  rw [Leaves, rdProgram_eq_ring hn hpow] at hout
  exact hring ((accepts_plainRing_iff hn).mpr hdvd) out hout

/-- **With a power of two**, the ranks agree if and only if the operator does not see
their orders. -/
theorem agrees_recursiveDoubling_iff
    (hassoc : ∀ a b c, op.apply (op.apply a b) c = op.apply a (op.apply b c)) {k : ℕ}
    (hk : 1 ≤ k) (hk' : k < 64) : recursiveDoubling.Agrees op (2 ^ k) len heap ↔
      ∀ j < len, OrderBlind op (2 ^ k) fun r => heap r (0, .buf) j := by
  have hn : 2 ≤ 2 ^ k := Nat.one_lt_two_pow (by omega)
  have hleft : ∀ {out p j}, recursiveDoubling.Leaves op (2 ^ k) len heap out → p < 2 ^ k →
      j < len → some (out p (0, .buf) j) =
        op.reduceAll ((rankOrder (2 ^ k) p).map fun r => heap r (0, .buf) j) :=
    fun hout hp hj => by
      rw [leaves_recursiveDoubling hk hk' hout hp hj, some_rdValue_order hassoc]
  constructor
  · intro h j hj p hp
    have hacc : recursiveDoubling.Accepts op (2 ^ k) len :=
      (accepts_recursiveDoubling_iff hn).mpr (.inl ⟨k, hk', rfl⟩)
    have hends : recursiveDoubling.Ends op (2 ^ k) len heap := ends_recursiveDoubling hk hk' heap
    obtain ⟨out, hout⟩ := hends.exists_leaves
    rw [← hleft hout hp hj, ← rankOrder_zero, ← hleft hout (Nat.two_pow_pos k) hj,
      h hacc out hout p hp 0 (Nat.two_pow_pos k) j hj]
  · intro h _ out hout p hp q hq j hj
    refine Option.some.inj ?_
    rw [hleft hout hp hj, hleft hout hq hj, h j hj p hp, h j hj q hq]

/-- A commutative operator does not see an order. -/
theorem orderBlind_of_comm
    (hassoc : ∀ a b c, op.apply (op.apply a b) c = op.apply a (op.apply b c))
    (hcomm : ∀ a b, op.apply a b = op.apply b a) (k : ℕ) (x : ℕ → α) :
    OrderBlind op (2 ^ k) x := by
  intro p hp
  rw [← some_rdValue_order hassoc, some_rdValue_all hassoc hcomm x hp]

/-- **The ranks agree** on the result of an associative operator, in every run of every
allreduce that returns on all of them, unless recursive doubling runs over a power of two
and the operator sees on these inputs the order in which a rank reduces them. That they
agree at all sizes and inputs is that the operator commutes. -/
theorem agreement_iff
    (hassoc : ∀ a b c, op.apply (op.apply a b) c = op.apply a (op.apply b c)) :
    (∀ n, 2 ≤ n → ∀ len heap algo, Agrees op n len heap algo ↔
      (algo = recursiveDoubling → (∃ k < 64, n = 2 ^ k) →
        ∀ j < len, OrderBlind op n fun r => heap r (0, .buf) j)) ∧
    ((∀ n, 2 ≤ n → ∀ len heap algo, Agrees op n len heap algo) ↔
      ∀ a b, op.apply a b = op.apply b a) := by
  have hiff : ∀ n, 2 ≤ n → ∀ len heap algo, Agrees op n len heap algo ↔
      (algo = recursiveDoubling → (∃ k < 64, n = 2 ^ k) →
        ∀ j < len, OrderBlind op n fun r => heap r (0, .buf) j) := by
    intro n hn len heap algo
    cases algo with
    | plainRing => exact iff_of_true (agrees_plainRing hn) nofun
    | pipelinedRing config => exact iff_of_true (agrees_pipelinedRing hn) nofun
    | recursiveDoubling =>
      by_cases hpow : ∃ k < 64, n = 2 ^ k
      · obtain ⟨k, hk', rfl⟩ := hpow
        have hk : 1 ≤ k := by
          by_contra hk
          rw [show k = 0 by omega] at hn
          omega
        rw [agrees_recursiveDoubling_iff hassoc hk hk']
        exact ⟨fun h _ _ => h, fun h => h rfl ⟨k, hk', rfl⟩⟩
      · exact iff_of_true (agrees_recursiveDoubling_of_not_pow hn hpow) fun _ h => absurd h hpow
  refine ⟨hiff, fun h a b => ?_, fun hcomm n hn len heap algo => ?_⟩
  · -- two ranks, with one element each
    have hblind := (hiff 2 (Nat.le_refl 2) 1 (fun r _ _ => if r = 0 then b else a)
      recursiveDoubling).mp (h 2 (Nat.le_refl 2) 1 _ _) rfl ⟨1, by decide, rfl⟩ 0 Nat.one_pos
    exact orderBlind_two_iff.mp hblind
  · refine (hiff n hn len heap algo).mpr fun _ hpow j _ => ?_
    obtain ⟨k, -, rfl⟩ := hpow
    exact orderBlind_of_comm hassoc hcomm k _

/-- Four ranks that take the maximum of four numbers. -/
theorem agreement_iff_four : Agrees Op.max 4 1 (fun p _ _ => ⟨false, min p 4, by omega⟩)
    recursiveDoubling :=
  ((agreement_iff Op.max_assoc).1 4 (by decide) 1 _ recursiveDoubling).mpr fun _ _ _ _ => by
    unfold OrderBlind
    decide

/-- Two ranks with one element each, of which the first is `-0.0` and the second `0.0`. -/
def zeros (p : ℕ) : Heap Region Op.F32 := fun _ _ => ⟨p == 0, 0, by decide⟩

/-- **The two zeros**: `Max` and `Min` are associative, and of two ranks that reduce two
zeros by recursive doubling, each ends with the other's. -/
theorem zeros_disagree :
    (∀ op ∈ [Op.max, Op.min], ∀ a b c, op.apply (op.apply a b) c = op.apply a (op.apply b c)) ∧
      ∀ op ∈ [Op.max, Op.min], ¬recursiveDoubling.Agrees op 2 1 zeros := by
  have hassoc : ∀ op ∈ [Op.max, Op.min], ∀ a b c,
      op.apply (op.apply a b) c = op.apply a (op.apply b c) := by
    intro op hop
    obtain rfl | rfl : op = Op.max ∨ op = Op.min := by simpa using hop
    · exact Op.max_assoc
    · exact Op.min_assoc
  refine ⟨hassoc, fun op hop h => ?_⟩
  have hblind := (agrees_recursiveDoubling_iff (hassoc op hop) (Nat.le_refl 1) (by decide)).mp h 0
    Nat.one_pos
  have hswap := orderBlind_two_iff.mp hblind
  obtain rfl | rfl : op = Op.max ∨ op = Op.min := by simpa using hop
  · revert hswap
    decide
  · revert hswap
    decide

end AllreduceAlgo

end Pluvio
