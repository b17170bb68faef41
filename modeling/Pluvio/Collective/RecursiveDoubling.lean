import Mathlib.Data.Nat.Bitwise
import Pluvio.Collective.Ring

/-!
# Recursive doubling

`log₂ n` rounds. In round `r` rank `p` exchanges its whole buffer with the rank
that differs from it in bit `r`, and reduces what it gets into its buffer. So after
`r` rounds a rank holds a reduction over its block of `2 ^ r` ranks
(`Pluvio.rdValue`), whose shape and operand order are the rank's own.

A commutative operator does not see the difference between the two ranks of an
exchange, so all ranks of a block hold the same value
(`Pluvio.rdValue_eq_of_block`); for an operator that is associative too this is the
reduction over the block (`Pluvio.some_rdValue`).
-/

namespace Pluvio

open TagNet

variable {α : Type*}

section Source

/-- `PHASE_RD`. -/
def phaseRd : UInt8 := 3

/-- `usize::trailing_zeros`. -/
def trailingZeros (n : ℕ) : ℕ := ((List.range 64).takeWhile fun i => !n.testBit i).length

variable (op : Op α) (comm : UcxCommunicator) (call len : ℕ)

/-- The exchange of round `r`, and the reduction after it. -/
def recursiveDoublingStep (peer peerEp r : ℕ) : Instr Region UInt64 α where
  dst := peerEp
  tag := encodeTag comm.rank (UInt16.ofNat r) phaseRd 0
  view := ⟨(call, .buf), 0, len⟩
  recvTag := encodeTag peer (UInt16.ofNat r) phaseRd 0
  target := ⟨(call, .tmp 0), 0, len⟩
  after := fun h => op.reduceSlice h ⟨(call, .buf), 0, len⟩ ⟨(call, .tmp 0), 0, len⟩

/-- The rounds of the loop, which ends early if an endpoint is missing. -/
def recursiveDoublingRounds : List ℕ → Call (Instr Region UInt64 α)
  | [] => ⟨[], .ok ()⟩
  | r :: rs =>
    let peer := comm.rank ^^^ (1 <<< r)
    match comm.endpoint peer with
    | none => ⟨[], .error (.protocol "rd: missing endpoint to peer")⟩
    | some peerEp =>
      ⟨recursiveDoublingStep op comm call len peer peerEp r :: (recursiveDoublingRounds rs).steps,
        (recursiveDoublingRounds rs).result⟩

/-- `recursive_doubling` on a buffer of `len` elements: the ring, when the size is
not a power of two. -/
def recursiveDoubling : Call (Instr Region UInt64 α) :=
  let n := comm.size
  if n ≤ 1 then ⟨[], .ok ()⟩
  else if ¬∃ k < 64, n = 2 ^ k then ringAllreduce op comm call len
  else recursiveDoublingRounds op comm call len (List.range (trailingZeros n))

end Source

/-! ### Exchanges -/

section Exchange

variable {p r k : ℕ}

theorem exchange_lt (hp : p < 2 ^ k) (hr : r < k) : p ^^^ 2 ^ r < 2 ^ k :=
  Nat.xor_lt_two_pow hp (Nat.pow_lt_pow_right (by omega) hr)

theorem exchange_exchange (p r : ℕ) : (p ^^^ 2 ^ r) ^^^ 2 ^ r = p := Nat.xor_xor_cancel_right ..

theorem exchange_ne (p r : ℕ) : p ^^^ 2 ^ r ≠ p := by
  intro h
  have := congrArg (Nat.testBit · r) h
  simp only [Nat.testBit_xor, Nat.testBit_two_pow_self, Bool.xor_true] at this
  cases hb : p.testBit r <;> simp [hb] at this

/-- **The two blocks of an exchange** are the halves of one block. -/
theorem exchange_block (p r : ℕ) :
    (p ^^^ 2 ^ r) / 2 ^ r = if p / 2 ^ r % 2 = 0 then p / 2 ^ r + 1 else p / 2 ^ r - 1 := by
  rw [Nat.xor_div_two_pow, Nat.div_self (Nat.two_pow_pos r)]
  generalize p / 2 ^ r = m
  have hdiv : (m ^^^ 1) / 2 = m / 2 := by rw [Nat.xor_div_two]; simp
  have hmod : (m ^^^ 1) % 2 = (m + 1) % 2 := Nat.xor_mod_two_eq
  split <;> omega

theorem block_succ (p r : ℕ) : p / 2 ^ (r + 1) = p / 2 ^ r / 2 := by
  rw [pow_succ, Nat.div_div_eq_div_mul]

theorem trailingZeros_two_pow (hk : k < 64) : trailingZeros (2 ^ k) = k := by
  obtain ⟨m, hm⟩ : ∃ m, 64 = k + (m + 1) := ⟨63 - k, by omega⟩
  rw [trailingZeros, hm, List.range_add, List.range_succ_eq_map, List.map_cons,
    List.takeWhile_append_of_pos, List.takeWhile_cons_of_neg, List.append_nil, List.length_range]
  · simp
  · intro i hi
    have := List.mem_range.mp hi
    rw [Nat.testBit_two_pow_of_ne (by omega)]
    rfl

end Exchange

/-! ### The programs are in lockstep -/

/-- The step of a rank in round `r`. -/
def rdInstr (op : Op α) (n len p r : ℕ) : Instr Region UInt64 α :=
  recursiveDoublingStep op (.connected n p) 0 len (p ^^^ 2 ^ r) (p ^^^ 2 ^ r) r

variable {op : Op α} {k : ℕ}

theorem recursiveDoublingRounds_eq {p len : ℕ} (hp : p < 2 ^ k) (rs : List ℕ)
    (hrs : ∀ r ∈ rs, r < k) : recursiveDoublingRounds op (.connected (2 ^ k) p) 0 len rs =
      ⟨rs.map (rdInstr op (2 ^ k) len p), .ok ()⟩ := by
  induction rs with
  | nil => rfl
  | cons r rs ih =>
    have hpeer : (UcxCommunicator.connected (2 ^ k) p).endpoint (p ^^^ 2 ^ r) =
        some (p ^^^ 2 ^ r) :=
      UcxCommunicator.endpoint_connected (exchange_lt hp (hrs r List.mem_cons_self))
        (exchange_ne p r)
    have hrank : (UcxCommunicator.connected (2 ^ k) p).rank = p := rfl
    simp only [recursiveDoublingRounds, hrank, Nat.one_shiftLeft, hpeer,
      ih fun r hr => hrs r (List.mem_cons_of_mem _ hr)]
    rfl

/-- **For a power of two**, a call goes through `log₂ n` rounds. -/
theorem recursiveDoubling_eq (hk : 1 ≤ k) (hk' : k < 64) {p len : ℕ} (hp : p < 2 ^ k) :
    recursiveDoubling op (.connected (2 ^ k) p) 0 len =
      ⟨(List.range k).map (rdInstr op (2 ^ k) len p), .ok ()⟩ := by
  have hn : ¬2 ^ k ≤ 1 := Nat.not_le.mpr (Nat.one_lt_two_pow (by omega))
  have hsize : (UcxCommunicator.connected (2 ^ k) p).size = 2 ^ k := rfl
  rw [recursiveDoubling, hsize, if_neg hn, if_neg (not_not.mpr ⟨k, hk', rfl⟩),
    trailingZeros_two_pow hk', recursiveDoublingRounds_eq hp _ fun r => List.mem_range.mp]

/-- Two tags of this phase with the same step are for the same round. -/
theorem round_eq_of_tag {p q r l : ℕ} (hr : r < 64) (hl : l < 64)
    (h : encodeTag p (UInt16.ofNat r) phaseRd 0 = encodeTag q (UInt16.ofNat l) phaseRd 0) :
    r = l := by
  have hnat := congrArg UInt64.toNat h
  rw [encodeTag_toNat, encodeTag_toNat, UInt16.toNat_ofNat', UInt16.toNat_ofNat'] at hnat
  generalize phaseRd.toNat = a at hnat
  generalize (0 : UInt8).toNat = b at hnat
  omega

/-- The rounds of all ranks, in lockstep. -/
def rdLockstep (op : Op α) (hk : 1 ≤ k) (hk' : k < 64) (len : ℕ) :
    Lockstep (2 ^ k) fun p => (recursiveDoubling op (.connected (2 ^ k) p) 0 len).steps where
  len := k
  instr p r := rdInstr op (2 ^ k) len p r
  prog_eq p hp := by rw [recursiveDoubling_eq hk hk' hp]
  src q r := q ^^^ 2 ^ r
  src_lt q hq r hr := exchange_lt hq hr
  dst_src q _ r _ := exchange_exchange q r
  tag_src q _ r _ := rfl
  dst_lt p hp r hr := exchange_lt hp hr
  src_dst p _ r _ := exchange_exchange p r
  unambiguous p _ r hr q _ l hl hd ht := by
    obtain rfl := round_eq_of_tag (by omega) (by omega) ht
    replace hd : p ^^^ 2 ^ r = q := hd
    rw [← hd, exchange_exchange]

/-! ### What a rank holds -/

/-- **What rank `p` holds after `r` rounds.** -/
def rdValue (op : Op α) (x : ℕ → α) : ℕ → ℕ → α
  | 0, p => x p
  | r + 1, p => op.apply (rdValue op x r p) (rdValue op x r (p ^^^ 2 ^ r))

/-- Two different halves of one block. -/
theorem other_half {a b : ℕ} (h : a / 2 = b / 2) (hne : a ≠ b) :
    (if a % 2 = 0 then a + 1 else a - 1) = b := by
  split <;> omega

/-- **A commutative operator** gives the same value at all ranks of a block. -/
theorem rdValue_eq_of_block (hcomm : ∀ a b, op.apply a b = op.apply b a) (x : ℕ → α) (r : ℕ)
    {p q : ℕ} (h : p / 2 ^ r = q / 2 ^ r) : rdValue op x r p = rdValue op x r q := by
  induction r generalizing p q with
  | zero =>
    rw [pow_zero, Nat.div_one, Nat.div_one] at h
    rw [h]
  | succ r ih =>
    rw [block_succ, block_succ] at h
    have hp := exchange_block p r
    have hq := exchange_block q r
    by_cases hpq : p / 2 ^ r = q / 2 ^ r
    · rw [rdValue, rdValue, ih hpq, ih (p := p ^^^ 2 ^ r) (q := q ^^^ 2 ^ r) (by rw [hp, hq, hpq])]
    · -- the two ranks are in the two halves, each in the half of the other's partner
      rw [rdValue, rdValue, hcomm, ih (p := p ^^^ 2 ^ r) (q := q), ih (p := p)
        (q := q ^^^ 2 ^ r)]
      · rw [hq, other_half h.symm (Ne.symm hpq)]
      · rw [hp, other_half h hpq]

/-- The ranks of block `b` of size `2 ^ r`. -/
def blockRanks (b r : ℕ) : List ℕ := List.range' (b * 2 ^ r) (2 ^ r)

/-- A block is made of its two halves. -/
theorem blockRanks_succ (b r : ℕ) :
    blockRanks b (r + 1) = blockRanks (2 * b) r ++ blockRanks (2 * b + 1) r := by
  have h1 : b * 2 ^ (r + 1) = 2 * b * 2 ^ r := by rw [pow_succ, Nat.mul_comm 2 b, Nat.mul_assoc,
    Nat.mul_comm 2]
  have h2 : (2 * b + 1) * 2 ^ r = 2 * b * 2 ^ r + 2 ^ r := by rw [Nat.succ_mul]
  have h3 : 2 ^ (r + 1) = 2 ^ r + 2 ^ r := by rw [pow_succ, Nat.mul_two]
  rw [blockRanks, blockRanks, blockRanks, h1, h2, h3]
  simp

/-- **An associative and commutative operator** gives the reduction over the block. -/
theorem some_rdValue (hassoc : ∀ a b c, op.apply (op.apply a b) c = op.apply a (op.apply b c))
    (hcomm : ∀ a b, op.apply a b = op.apply b a) (x : ℕ → α) (r p : ℕ) :
    some (rdValue op x r p) = op.reduceAll ((blockRanks (p / 2 ^ r) r).map x) := by
  induction r generalizing p with
  | zero => simp [blockRanks, rdValue, Op.reduceAll]
  | succ r ih =>
    have hp := exchange_block p r
    have hi := ih p
    have hi' := ih (p ^^^ 2 ^ r)
    rw [block_succ, blockRanks_succ, List.map_append, rdValue]
    rw [hp] at hi'
    generalize p / 2 ^ r = b at hi hi'
    by_cases heven : b % 2 = 0
    · rw [if_pos heven] at hi'
      rw [show 2 * (b / 2) = b by omega, Op.reduceAll_append hassoc hi.symm hi'.symm]
    · rw [if_neg heven] at hi'
      rw [show 2 * (b / 2) = b - 1 by omega, show b - 1 + 1 = b by omega,
        Op.reduceAll_append hassoc hi'.symm hi.symm, hcomm]

/-- At the end the block is all ranks. -/
theorem some_rdValue_all
    (hassoc : ∀ a b c, op.apply (op.apply a b) c = op.apply a (op.apply b c))
    (hcomm : ∀ a b, op.apply a b = op.apply b a) (x : ℕ → α) {r p : ℕ} (hp : p < 2 ^ r) :
    some (rdValue op x r p) = op.reduceAll ((List.range (2 ^ r)).map x) := by
  rw [some_rdValue hassoc hcomm, Nat.div_eq_of_lt hp, blockRanks, Nat.zero_mul,
    List.range_eq_range']

/-- **What the buffers hold in the synchronous run.** -/
theorem rd_sync (heap : ℕ → Heap Region α) (hk : 1 ≤ k) (hk' : k < 64) (len r : ℕ) {p j : ℕ}
    (hj : j < len) : (rdLockstep op hk hk' len).sync heap r p (0, .buf) j =
      rdValue op (fun q => heap q (0, .buf) j) r p := by
  induction r generalizing p with
  | zero => rfl
  | succ r ih =>
    show op.reduceSlice (((rdLockstep op hk hk' len).sync heap r p).copyInto
      ⟨(0, .tmp 0), 0, len⟩ (((rdLockstep op hk hk' len).sync heap r (p ^^^ 2 ^ r)).read
        ⟨(0, .buf), 0, len⟩)) ⟨(0, .buf), 0, len⟩ ⟨(0, .tmp 0), 0, len⟩ (0, .buf) j = _
    rw [rdValue, ← ih (p := p), ← ih (p := p ^^^ 2 ^ r)]
    generalize (rdLockstep op hk hk' len).sync heap r p = h
    generalize (rdLockstep op hk hk' len).sync heap r (p ^^^ 2 ^ r) = h'
    have htmp : h.copyInto ⟨(0, .tmp 0), 0, len⟩ (h'.read ⟨(0, .buf), 0, len⟩) (0, .tmp 0) (0 + j) =
        h' (0, .buf) (0 + j) := Heap.copyInto_read h h' (by rfl) hj
    have hbuf : h.copyInto ⟨(0, .tmp 0), 0, len⟩ (h'.read ⟨(0, .buf), 0, len⟩) (0, .buf) (0 + j) =
        h (0, .buf) (0 + j) := Heap.copyInto_of_not_has _ _ fun hc => by cases hc.1
    have hreduce : op.reduceSlice (h.copyInto ⟨(0, .tmp 0), 0, len⟩
          (h'.read ⟨(0, .buf), 0, len⟩)) ⟨(0, .buf), 0, len⟩ ⟨(0, .tmp 0), 0, len⟩
          (0, .buf) (0 + j) =
        op.apply _ _ := op.reduceSlice_of_has _ (by rfl) hj
    rw [htmp, hbuf, Nat.zero_add] at hreduce
    exact hreduce

/-! ### Every run -/

/-- The program of a rank that makes one call on `len` elements. -/
def rdProgram (op : Op α) (n len p : ℕ) : List (Instr Region UInt64 α) :=
  (recursiveDoubling op (.connected n p) 0 len).steps

/-- The call has returned on rank `p`. -/
def RdReturned (op : Op α) (n len : ℕ) (s : State Region UInt64 α) (p : ℕ) : Prop :=
  (rdProgram op n len p).length ≤ (s.rank p).pc

/-- What the buffers hold where the call has returned. -/
structure RdResult (op : Op α) (n len : ℕ) (heap : ℕ → Heap Region α)
    (s : State Region UInt64 α) : Prop where
  /-- For a commutative operator all ranks hold the same. -/
  same : (∀ a b, op.apply a b = op.apply b a) → ∀ p < n, ∀ q < n, RdReturned op n len s p →
    RdReturned op n len s q → ∀ j < len, (s.rank p).heap (0, .buf) j = (s.rank q).heap (0, .buf) j
  /-- For one that is associative too, the reduction over all ranks. -/
  reduction : (∀ a b c, op.apply (op.apply a b) c = op.apply a (op.apply b c)) →
    (∀ a b, op.apply a b = op.apply b a) → ∀ p < n, RdReturned op n len s p → ∀ j < len,
      some ((s.rank p).heap (0, .buf) j) =
        op.reduceAll ((List.range n).map fun r => heap r (0, .buf) j)
  /-- And so the same as any run of the ring, where it accepts the shape. -/
  ring : (∀ a b c, op.apply (op.apply a b) c = op.apply a (op.apply b c)) →
    (∀ a b, op.apply a b = op.apply b a) → n ∣ len → ∀ eager' s',
      Reaches (step ⟨n, ringProgram op n 1 fun _ => len, eager'⟩) (start heap) s' →
        ∀ p < n, ∀ q < n, RdReturned op n len s p → RingReturned op n (fun _ => len) s' 0 q →
          ∀ j < len, (s.rank p).heap (0, .buf) j = (s'.rank q).heap (0, .buf) j

section Correct

variable {heap : ℕ → Heap Region α} {len : ℕ} {eager : ℕ → ℕ → Bool}
  {s : State Region UInt64 α}

/-- **Where the call has returned**, the buffer is what the synchronous run leaves in
it. -/
theorem heap_of_rdReturned (hk : 1 ≤ k) (hk' : k < 64)
    (hs : Reaches (step ⟨2 ^ k, rdProgram op (2 ^ k) len, eager⟩) (start heap) s) {p j : ℕ}
    (hp : p < 2 ^ k) (hr : RdReturned op (2 ^ k) len s p) (hj : j < len) :
    (s.rank p).heap (0, .buf) j = rdValue op (fun q => heap q (0, .buf) j) k p := by
  have hinv : (rdLockstep op hk hk' len).Inv heap s := (rdLockstep op hk hk' len).inv_of_reaches hs
  have hlen : (rdProgram op (2 ^ k) len p).length = k := by
    rw [rdProgram, recursiveDoubling_eq hk hk' hp, List.length_map, List.length_range]
  rw [RdReturned, hlen] at hr
  have hissued : (s.rank p).issued ≤ k := hinv.issued_le p hp
  -- the rank is at its end and waits for nothing
  have hpc : (s.rank p).pc = k := by
    rw [Rank.issued] at hissued
    omega
  have htaken : (s.rank p).taken = (s.rank p).pc := by
    rw [Rank.issued, hpc] at hissued
    rcases hawait : (s.rank p).await with - | a
    · simp [Rank.taken, hawait]
    · rw [hawait] at hissued
      simp only [Option.isSome_some, if_true] at hissued
      omega
  rw [hinv.heap_eq p hp, if_pos htaken, hpc, rd_sync heap hk hk' len k hj]

/-- **Recursive doubling is correct under every schedule.** In every state that can
be reached some rank can go on unless all have returned, and a call that has
returned has returned `Ok` and left its result in the buffer. -/
theorem recursive_doubling_correct (op : Op α) {k : ℕ} (hk : 1 ≤ k) (hk' : k < 64) (len : ℕ)
    (eager : ℕ → ℕ → Bool) (heap : ℕ → Heap Region α) {s : State Region UInt64 α}
    (hs : Reaches (step ⟨2 ^ k, rdProgram op (2 ^ k) len, eager⟩) (start heap) s) :
    (¬Final ⟨2 ^ k, rdProgram op (2 ^ k) len, eager⟩ s →
        ¬Stuck (step ⟨2 ^ k, rdProgram op (2 ^ k) len, eager⟩) s) ∧
      (∀ p < 2 ^ k, (recursiveDoubling op (.connected (2 ^ k) p) 0 len).result = .ok ()) ∧
      RdResult op (2 ^ k) len heap s := by
  refine ⟨(rdLockstep op hk hk' len).not_stuck hs, fun p hp => ?_, ?_⟩
  · rw [recursiveDoubling_eq hk hk' hp]
  have hreduce : (∀ a b c, op.apply (op.apply a b) c = op.apply a (op.apply b c)) →
      (∀ a b, op.apply a b = op.apply b a) → ∀ p < 2 ^ k, RdReturned op (2 ^ k) len s p →
        ∀ j < len, some ((s.rank p).heap (0, .buf) j) =
          op.reduceAll ((List.range (2 ^ k)).map fun r => heap r (0, .buf) j) := by
    intro hassoc hcomm p hp hr j hj
    rw [heap_of_rdReturned hk hk' hs hp hr hj, some_rdValue_all hassoc hcomm _ hp]
  constructor
  · intro hcomm p hp q hq hrp hrq j hj
    rw [heap_of_rdReturned hk hk' hs hp hrp hj, heap_of_rdReturned hk hk' hs hq hrq hj]
    exact rdValue_eq_of_block hcomm _ k (by rw [Nat.div_eq_of_lt hp, Nat.div_eq_of_lt hq])
  · exact hreduce
  · intro hassoc hcomm hdvd eager' s' hs' p hp q hq hrp hrq j hj
    have hn : 2 ≤ 2 ^ k := Nat.one_lt_two_pow (by omega)
    have hring := ringResult_of_reaches hn (fun _ _ => hdvd) hs' Nat.one_pos
    refine Option.some.inj ?_
    rw [hreduce hassoc hcomm p hp hrp j hj, hring.reduction hassoc hcomm q hq hrq j hj]

/-- Four ranks that add, on three elements: some run ends, and all have the sums. -/
theorem recursive_doubling_correct_four : ∃ s,
    Reaches (step ⟨2 ^ 2, rdProgram ⟨Nat.add⟩ (2 ^ 2) 3, fun _ _ => false⟩)
      (start fun p _ i => 2 * p + i) s ∧
        ∀ p < 2 ^ 2, ∀ j < 3, (s.rank p).heap (0, .buf) j = 12 + 4 * j := by
  have hterm : Terminates (step ⟨2 ^ 2, _, fun _ _ => false⟩) _ _ :=
    (rdLockstep ⟨Nat.add⟩ (by decide) (by decide) 3).terminates fun p _ i => 2 * p + i
  obtain ⟨s, hs, hfinal⟩ := hterm.exists_good
  refine ⟨s, hs, fun p hp j hj => ?_⟩
  have hresult := (recursive_doubling_correct ⟨Nat.add⟩ (by decide) (by decide) 3
    (fun _ _ => false) (fun p _ i => 2 * p + i) hs).2.2
  have hsum := hresult.reduction Nat.add_assoc Nat.add_comm p hp (hfinal p hp).ge j hj
  refine Option.some.inj (hsum.trans (congrArg some ?_))
  show 0 + j + (2 + j) + (4 + j) + (6 + j) = 12 + 4 * j
  omega

end Correct

end Pluvio
