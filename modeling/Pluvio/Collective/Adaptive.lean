import Pluvio.Collective.Allreduce

/-!
# The adaptive allreduce

`Pluvio.AdaptivePolicy.chooseAllreduce` picks one of the three algorithms by the number of
bytes and the number of ranks, so that the ranks of a call pick the same one. Recursive
doubling is picked for small messages where it runs, and the ring in the middle. The
pipelined ring is picked for all large messages, and asks more than a ring does: a chunk
must be cut into equal micro-chunks, and beyond 65537 ranks its keys repeat.

So the adaptive allreduce stands in for the ring (`Pluvio.AdaptivePolicy.Transparent`)
where the message is not large, and where it is, on the buffers that the pipelined ring
can take (`Pluvio.AdaptivePolicy.transparent_iff`).
-/

namespace Pluvio

variable {α : Type*}

/-- The configurations that a call can be given: all others are refused. -/
structure PipelineConfig.Valid (config : PipelineConfig) : Prop where
  microChunks_pos : 1 ≤ config.microChunks
  microChunks_le : config.microChunks ≤ 255
  maxInFlight_pos : 1 ≤ config.maxInFlight

/-- `AdaptivePolicy`. -/
structure AdaptivePolicy where
  smallThreshold : ℕ
  largeThreshold : ℕ
  pipelineConfig : PipelineConfig
  deriving DecidableEq, Repr

namespace AdaptivePolicy

/-- `AdaptivePolicy::default`. -/
def default : AdaptivePolicy where
  smallThreshold := 2 * 1024
  largeThreshold := 64 * 1024
  pipelineConfig := .default

/-- `choose_allreduce`. -/
def chooseAllreduce (policy : AdaptivePolicy) (msgBytes n : ℕ) : AllreduceAlgo :=
  if msgBytes < policy.smallThreshold ∧ (∃ k < 64, n = 2 ^ k) ∧ n ≥ 2 then .recursiveDoubling
  else if msgBytes ≥ policy.largeThreshold then .pipelinedRing policy.pipelineConfig
  else .plainRing

end AdaptivePolicy

/-- `AdaptiveCommunicator`. -/
structure AdaptiveCommunicator where
  inner : UcxCommunicator
  policy : AdaptivePolicy

namespace AdaptiveCommunicator

/-- `chosen_algo`, for elements of `size` bytes. -/
def chosenAlgo (comm : AdaptiveCommunicator) (size len : ℕ) : AllreduceAlgo :=
  comm.policy.chooseAllreduce (len * size) comm.inner.size

/-- What `allreduce` returns, if it returns. -/
def allreduce (op : Op α) (comm : AdaptiveCommunicator) (size len : ℕ) :
    Except CollectiveError Unit :=
  (comm.chosenAlgo size len).result op len comm.inner

end AdaptiveCommunicator

/-- An algorithm leaves every rank the buffer that the ring leaves it. -/
def AllreduceAlgo.LeavesAsRing (op : Op α) (n len : ℕ) (heap : ℕ → Heap Region α)
    (algo : AllreduceAlgo) : Prop :=
  ∀ out out', algo.Leaves op n len heap out → plainRing.Leaves op n len heap out' →
    ∀ p < n, ∀ j < len, out p (0, .buf) j = out' p (0, .buf) j

namespace AdaptivePolicy

open AllreduceAlgo

/-- **The adaptive allreduce stands in for the ring** on these buffers: the ranks run one
algorithm, and if the ring returns `Ok` on all of them, then so does the adaptive
allreduce, its runs end, and they leave the buffers that the ring leaves. -/
def Transparent (op : Op α) (policy : AdaptivePolicy) (n size len : ℕ)
    (heap : ℕ → Heap Region α) : Prop :=
  ∃ algo : AllreduceAlgo,
    (∀ p < n, AdaptiveCommunicator.chosenAlgo ⟨.connected n p, policy⟩ size len = algo) ∧
    (plainRing.Accepts op n len →
      (∀ p < n, AdaptiveCommunicator.allreduce op ⟨.connected n p, policy⟩ size len = .ok ()) ∧
        algo.Ends op n len heap ∧ algo.LeavesAsRing op n len heap)

variable {op : Op α} {policy : AdaptivePolicy} {n size len : ℕ} {heap : ℕ → Heap Region α}

/-- The ranks run the algorithm that is chosen for their number. -/
theorem transparent_def (hn : 1 ≤ n) {algo : AllreduceAlgo}
    (halgo : policy.chooseAllreduce (len * size) n = algo) :
    Transparent op policy n size len heap ↔ (plainRing.Accepts op n len →
      algo.Accepts op n len ∧ algo.Ends op n len heap ∧ algo.LeavesAsRing op n len heap) := by
  have hchosen : ∀ p,
      AdaptiveCommunicator.chosenAlgo ⟨.connected n p, policy⟩ size len = algo := fun _ => halgo
  have haccepts : (∀ p < n, AdaptiveCommunicator.allreduce op ⟨.connected n p, policy⟩ size len =
      .ok ()) ↔ algo.Accepts op n len :=
    forall₂_congr fun p _ => by rw [AdaptiveCommunicator.allreduce, hchosen]
  constructor
  · rintro ⟨algo', hchosen', h⟩ hring
    obtain rfl : algo = algo' := (hchosen 0).symm.trans (hchosen' 0 hn)
    exact ⟨haccepts.mp (h hring).1, (h hring).2⟩
  · intro h
    exact ⟨algo, fun p _ => hchosen p, fun hring => ⟨haccepts.mpr (h hring).1, (h hring).2⟩⟩

/-! ### What each choice gives -/

/-- On one rank nothing is to be done. -/
theorem transparent_of_le_one (hn : n = 1) : Transparent op policy n size len heap := by
  have hle : n ≤ 1 := hn.le
  refine (transparent_def hn.ge rfl).mpr fun _ =>
    ⟨accepts_of_le_one hle _, ends_of_le_one hle _ heap, fun out out' h h' p _ j _ => ?_⟩
  rw [leaves_of_le_one hle h, leaves_of_le_one hle h']

/-- The ring stands in for itself. -/
theorem transparent_of_plainRing (hn : 2 ≤ n)
    (halgo : policy.chooseAllreduce (len * size) n = .plainRing) :
    Transparent op policy n size len heap := by
  refine (transparent_def (by omega) halgo).mpr fun hring => ?_
  have hdvd := (accepts_plainRing_iff hn).mp hring
  refine ⟨hring, ends_plainRing hn hdvd heap, fun out out' h h' p hp j hj => ?_⟩
  rw [leaves_plainRing hn hdvd h hp hj, leaves_plainRing hn hdvd h' hp hj]

/-- **Recursive doubling** stands in for the ring, for an associative and commutative
operator. -/
theorem transparent_of_recursiveDoubling
    (hassoc : ∀ a b c, op.apply (op.apply a b) c = op.apply a (op.apply b c))
    (hcomm : ∀ a b, op.apply a b = op.apply b a) {k : ℕ} (hk : 1 ≤ k) (hk' : k < 64)
    (halgo : policy.chooseAllreduce (len * size) (2 ^ k) = .recursiveDoubling) :
    Transparent op policy (2 ^ k) size len heap := by
  have hn : 2 ≤ 2 ^ k := Nat.one_lt_two_pow (by omega)
  refine (transparent_def (by omega) halgo).mpr fun hring => ?_
  have hdvd := (accepts_plainRing_iff hn).mp hring
  refine ⟨(accepts_recursiveDoubling_iff hn).mpr (.inr hdvd), ends_recursiveDoubling hk hk' heap,
    fun out out' h h' p hp j hj => Option.some.inj ?_⟩
  have hchunk : j / (len / 2 ^ k) < 2 ^ k := by
    rw [Nat.div_lt_iff_lt_mul (Nat.div_pos (Nat.le_of_dvd (by omega) hdvd) (by omega)),
      Nat.mul_div_cancel' hdvd]
    exact hj
  rw [leaves_recursiveDoubling hk hk' h hp hj, some_rdValue_all hassoc hcomm _ hp,
    leaves_plainRing hn hdvd h' hp hj, ringLeft, some_ringValue hassoc hcomm _ hchunk]

/-- **The pipelined ring** does where it runs. -/
theorem transparent_iff_of_pipelinedRing (hn : 2 ≤ n) (hvalid : policy.pipelineConfig.Valid)
    (halgo : policy.chooseAllreduce (len * size) n = .pipelinedRing policy.pipelineConfig) :
    Transparent op policy n size len heap ↔
      (n ∣ len → policy.pipelineConfig.microChunks ∣ len / n ∧ n ≤ 65537) := by
  rw [transparent_def (by omega) halgo, accepts_plainRing_iff hn, accepts_pipelinedRing_iff hn]
  constructor
  · intro h hdvd
    obtain ⟨hsh, hends, -⟩ := h hdvd
    exact ⟨hsh.chunk_dvd, (ends_pipelinedRing_iff hn hsh heap).mp hends⟩
  · intro h hdvd
    have hsh : (policy.pipelineConfig.shape len).Ok n :=
      ⟨hvalid.microChunks_pos, hvalid.microChunks_le, hvalid.maxInFlight_pos, hdvd, (h hdvd).1⟩
    refine ⟨hsh, (ends_pipelinedRing_iff hn hsh heap).mpr (h hdvd).2,
      fun out out' hout hout' p hp j hj => ?_⟩
    rw [leaves_pipelinedRing hn hsh hout hp hj, leaves_plainRing hn hdvd hout' hp hj]

/-- **The adaptive allreduce stands in for the ring** unless its message is large and goes
to the pipelined ring, whose micro-chunks do not divide a chunk or whose keys repeat. -/
theorem transparent_iff
    (hassoc : ∀ a b c, op.apply (op.apply a b) c = op.apply a (op.apply b c))
    (hcomm : ∀ a b, op.apply a b = op.apply b a) (hvalid : policy.pipelineConfig.Valid)
    (hn : 1 ≤ n) (size len : ℕ) (heap : ℕ → Heap Region α) :
    Transparent op policy n size len heap ↔
      (policy.largeThreshold ≤ len * size →
        ¬(len * size < policy.smallThreshold ∧ ∃ k < 64, n = 2 ^ k) → 2 ≤ n → n ∣ len →
        policy.pipelineConfig.microChunks ∣ len / n ∧ n ≤ 65537) := by
  rcases hn.eq_or_lt with h1 | hn
  · refine iff_of_true (transparent_of_le_one h1.symm) fun _ _ hn => ?_
    omega
  by_cases hsmall : len * size < policy.smallThreshold ∧ ∃ k < 64, n = 2 ^ k
  · have halgo : policy.chooseAllreduce (len * size) n = .recursiveDoubling :=
      if_pos ⟨hsmall.1, hsmall.2, hn⟩
    obtain ⟨k, hk', rfl⟩ := hsmall.2
    have hk : 1 ≤ k := by
      by_contra hk
      rw [show k = 0 by omega] at hn
      omega
    exact iff_of_true (transparent_of_recursiveDoubling hassoc hcomm hk hk' halgo)
      fun _ h => absurd hsmall h
  have hnot : ¬(len * size < policy.smallThreshold ∧ (∃ k < 64, n = 2 ^ k) ∧ n ≥ 2) :=
    fun h => hsmall ⟨h.1, h.2.1⟩
  by_cases hlarge : policy.largeThreshold ≤ len * size
  · have halgo : policy.chooseAllreduce (len * size) n = .pipelinedRing policy.pipelineConfig := by
      rw [chooseAllreduce, if_neg hnot, if_pos hlarge]
    rw [transparent_iff_of_pipelinedRing hn hvalid halgo]
    exact ⟨fun h _ _ _ => h, fun h => h hlarge hsmall hn⟩
  · have halgo : policy.chooseAllreduce (len * size) n = .plainRing := by
      rw [chooseAllreduce, if_neg hnot, if_neg hlarge]
    exact iff_of_true (transparent_of_plainRing hn halgo) fun h => absurd h hlarge

/-- The default policy on three ranks with 16384 elements of four bytes each. -/
theorem transparent_iff_three : Transparent ⟨Nat.add⟩ default 3 4 (3 * 16384) fun p _ i => p + i :=
  (transparent_iff Nat.add_assoc Nat.add_comm ⟨by decide, by decide, by decide⟩ (by decide) _ _
    _).mpr fun _ _ _ _ => by decide

/-- `BitXor`. -/
def bitXor : Op UInt32 := ⟨fun a b => a ^^^ b⟩

/-- **A buffer that the ring takes**: three ranks reduce 16386 elements of four bytes each
under the default policy. The ring takes them, 16386 being a multiple of three. The message
is large, and the pipelined ring finds that its chunks of 5462 elements are no multiple
of four. -/
theorem not_transparent_three :
    (∀ a b c, bitXor.apply (bitXor.apply a b) c = bitXor.apply a (bitXor.apply b c)) ∧
      (∀ a b, bitXor.apply a b = bitXor.apply b a) ∧ default.pipelineConfig.Valid ∧
      plainRing.Accepts bitXor 3 16386 ∧
      (∀ p < 3, AdaptiveCommunicator.allreduce bitXor ⟨.connected 3 p, default⟩ 4 16386 =
        .error .badShape) ∧
      ¬Transparent bitXor default 3 4 16386 fun _ _ _ => 0 := by
  have hassoc : ∀ a b c, bitXor.apply (bitXor.apply a b) c = bitXor.apply a (bitXor.apply b c) :=
    UInt32.xor_assoc
  have hcomm : ∀ a b, bitXor.apply a b = bitXor.apply b a := UInt32.xor_comm
  have hvalid : default.pipelineConfig.Valid := ⟨by decide, by decide, by decide⟩
  have hpow : ¬∃ k < 64, 3 = 2 ^ k := by
    decide
  have halgo : default.chooseAllreduce (16386 * 4) 3 = .pipelinedRing .default := by
    rw [chooseAllreduce, if_neg fun h => hpow h.2.1]
    rfl
  refine ⟨hassoc, hcomm, hvalid, (accepts_plainRing_iff (by decide)).mpr (by decide), ?_, ?_⟩
  · intro p _
    have hchosen : AdaptiveCommunicator.chosenAlgo ⟨.connected 3 p, default⟩ 4 16386 =
        .pipelinedRing .default := halgo
    rw [AdaptiveCommunicator.allreduce, hchosen]
    simp [result, Pluvio.pipelinedRing, UcxCommunicator.connected, PipelineConfig.default]
  · intro h
    have hmicro := (transparent_iff_of_pipelinedRing (by decide) hvalid halgo).mp h (by decide)
    revert hmicro
    decide

end AdaptivePolicy

end Pluvio
