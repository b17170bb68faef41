import Pluvio.Collective.PipelinedLoss
import Pluvio.Collective.RecursiveDoubling

/-!
# The allreduce algorithms side by side

There are three of them: the plain ring and recursive doubling over tags, and the
pipelined ring over active messages. To compare them, each is read as a machine of
which two things are said: whether its runs end with all ranks returned
(`Pluvio.AllreduceAlgo.Ends`), and what the ranks hold then
(`Pluvio.AllreduceAlgo.Leaves`).

| algorithm | what a rank holds at the end | theorem |
|---|---|---|
| plain ring | the ring's reduction of each chunk | `Pluvio.AllreduceAlgo.leaves_plainRing` |
| pipelined ring | the same | `Pluvio.AllreduceAlgo.leaves_pipelinedRing` |
| recursive doubling | the rank's own reduction, `Pluvio.rdValue` | `Pluvio.AllreduceAlgo.leaves_recursiveDoubling` |

Recursive doubling is the plain ring when the number of ranks is no power of two
(`Pluvio.rdProgram_eq_ring`).
-/

namespace Pluvio

variable {α : Type*}

/-- `PipelineConfig`. Its protocol hint has a say in which sends are eager, which is
arbitrary here. -/
structure PipelineConfig where
  microChunks : ℕ
  maxInFlight : ℕ
  deriving DecidableEq, Repr

/-- `PipelineConfig::default`. -/
def PipelineConfig.default : PipelineConfig := ⟨4, 8⟩

/-- `AllreduceAlgo`. -/
inductive AllreduceAlgo
  | plainRing
  | pipelinedRing (config : PipelineConfig)
  | recursiveDoubling
  deriving DecidableEq, Repr

/-- The shape of a call of the pipelined ring. -/
def PipelineConfig.shape (config : PipelineConfig) (len : ℕ) : PipelineShape :=
  ⟨len, config.microChunks, config.maxInFlight⟩

namespace AllreduceAlgo

section Machines

variable (op : Op α) (n len : ℕ)

/-- What a call returns on a rank, if it returns. -/
def result (comm : UcxCommunicator) : AllreduceAlgo → Except CollectiveError Unit
  | plainRing => (ringAllreduce op comm 0 len).result
  | pipelinedRing config =>
    (Pluvio.pipelinedRing op comm 0 len config.microChunks config.maxInFlight).result
  | recursiveDoubling => (Pluvio.recursiveDoubling op comm 0 len).result

/-- **Every run ends with all ranks returned.** -/
def Ends (heap : ℕ → Heap Region α) : AllreduceAlgo → Prop
  | plainRing => ∀ eager,
    Terminates (TagNet.step ⟨n, ringProgram op n 1 fun _ => len, eager⟩)
      (TagNet.Final ⟨n, ringProgram op n 1 fun _ => len, eager⟩) (TagNet.start heap)
  | pipelinedRing config => ∀ eager,
    Terminates (AmNet.step ⟨n, pipelinedProgram op n (config.shape len), eager⟩)
      (AmNet.Final ⟨n, pipelinedProgram op n (config.shape len), eager⟩) (AmNet.start heap)
  | recursiveDoubling => ∀ eager,
    Terminates (TagNet.step ⟨n, rdProgram op n len, eager⟩)
      (TagNet.Final ⟨n, rdProgram op n len, eager⟩) (TagNet.start heap)

/-- Some run in which all ranks return leaves these memories. -/
def Leaves (heap : ℕ → Heap Region α) : AllreduceAlgo → (ℕ → Heap Region α) → Prop
  | plainRing, out => ∃ eager s,
    Reaches (TagNet.step ⟨n, ringProgram op n 1 fun _ => len, eager⟩) (TagNet.start heap) s ∧
      TagNet.Final ⟨n, ringProgram op n 1 fun _ => len, eager⟩ s ∧ out = fun p => (s.rank p).heap
  | pipelinedRing config, out => ∃ eager s,
    Reaches (AmNet.step ⟨n, pipelinedProgram op n (config.shape len), eager⟩) (AmNet.start heap) s ∧
      AmNet.Final ⟨n, pipelinedProgram op n (config.shape len), eager⟩ s ∧
        out = fun p => (s.rank p).node.heap
  | recursiveDoubling, out => ∃ eager s,
    Reaches (TagNet.step ⟨n, rdProgram op n len, eager⟩) (TagNet.start heap) s ∧
      TagNet.Final ⟨n, rdProgram op n len, eager⟩ s ∧ out = fun p => (s.rank p).heap

/-- The call returns `Ok` on every rank. -/
def Accepts (algo : AllreduceAlgo) : Prop :=
  ∀ p < n, algo.result op len (.connected n p) = .ok ()

end Machines

variable {op : Op α} {n len : ℕ} {heap : ℕ → Heap Region α} {config : PipelineConfig}

/-- Runs that all end, end somewhere. -/
theorem Ends.exists_leaves {algo : AllreduceAlgo} (h : algo.Ends op n len heap) :
    ∃ out, algo.Leaves op n len heap out := by
  rcases algo with - | config | -
  · obtain ⟨s, hs, hf⟩ := (h fun _ _ => true).exists_good
    exact ⟨_, _, s, hs, hf, rfl⟩
  · obtain ⟨s, hs, hf⟩ := (h fun _ _ _ => true).exists_good
    exact ⟨_, _, s, hs, hf, rfl⟩
  · obtain ⟨s, hs, hf⟩ := (h fun _ _ => true).exists_good
    exact ⟨_, _, s, hs, hf, rfl⟩

/-! ### The shapes they accept -/

/-- **The plain ring** accepts buffers of `n` equal chunks. -/
theorem accepts_plainRing_iff (hn : 2 ≤ n) : plainRing.Accepts op n len ↔ n ∣ len := by
  constructor
  · intro h
    by_contra hdvd
    have h0 : (ringAllreduce op (.connected n 0) 0 len).result = .ok () := h 0 (by omega)
    rw [ringAllreduce, show (UcxCommunicator.connected n 0).size = n from rfl,
      if_neg (by omega), if_pos hdvd] at h0
    cases h0
  · intro hdvd p hp
    exact congrArg Call.result (ringAllreduce_eq hn hp 0 hdvd)

/-- **The pipelined ring** also asks that a chunk is cut into equal micro-chunks. -/
theorem accepts_pipelinedRing_iff (hn : 2 ≤ n) :
    (pipelinedRing config).Accepts op n len ↔ (config.shape len).Ok n := by
  constructor
  · intro h
    have h0 : (Pluvio.pipelinedRing op (.connected n 0) 0 len config.microChunks
      config.maxInFlight).result = .ok () := h 0 (by omega)
    rw [Pluvio.pipelinedRing, show (UcxCommunicator.connected n 0).size = n from rfl,
      if_neg (by omega)] at h0
    by_cases hpos : config.microChunks = 0 ∨ config.maxInFlight = 0
    · rw [if_pos hpos] at h0
      cases h0
    by_cases hle : config.microChunks > 255
    · rw [if_neg hpos, if_pos hle] at h0
      cases h0
    by_cases hdvd : n ∣ len
    · by_cases hmicro : config.microChunks ∣ len / n
      · exact ⟨by show 1 ≤ config.microChunks; omega, Nat.not_lt.mp hle,
          by show 1 ≤ config.maxInFlight; omega, hdvd, hmicro⟩
      · rw [if_neg hpos, if_neg hle, if_neg (not_not.mpr hdvd), if_pos hmicro] at h0
        cases h0
    · rw [if_neg hpos, if_neg hle, if_pos hdvd] at h0
      cases h0
  · intro hsh p hp
    exact congrArg Call.result (pipelinedRing_eq op hn hp 0 hsh)

end AllreduceAlgo

/-- **Without a power of two** recursive doubling is the plain ring. -/
theorem recursiveDoubling_eq_ring {op : Op α} {n len p : ℕ} (hn : 2 ≤ n)
    (hpow : ¬∃ k < 64, n = 2 ^ k) : recursiveDoubling op (.connected n p) 0 len =
      ringAllreduce op (.connected n p) 0 len := by
  rw [recursiveDoubling, show (UcxCommunicator.connected n p).size = n from rfl, if_neg (by omega),
    if_pos hpow]

/-- And so are its programs. -/
theorem rdProgram_eq_ring {op : Op α} {n len : ℕ} (hn : 2 ≤ n) (hpow : ¬∃ k < 64, n = 2 ^ k) :
    rdProgram op n len = ringProgram op n 1 fun _ => len := by
  funext p
  rw [rdProgram, recursiveDoubling_eq_ring hn hpow, ringProgram, Call.sequence, List.range_one,
    List.flatMap_singleton]

namespace AllreduceAlgo

variable {op : Op α} {n len : ℕ} {heap : ℕ → Heap Region α} {config : PipelineConfig}

/-- **Recursive doubling** accepts any buffer if the number of ranks is a power of two. -/
theorem accepts_recursiveDoubling_iff (hn : 2 ≤ n) :
    recursiveDoubling.Accepts op n len ↔ (∃ k < 64, n = 2 ^ k) ∨ n ∣ len := by
  by_cases hpow : ∃ k < 64, n = 2 ^ k
  · obtain ⟨k, hk', rfl⟩ := hpow
    have hk : 1 ≤ k := by
      by_contra hk
      rw [show k = 0 by omega] at hn
      omega
    refine iff_of_true (fun p hp => ?_) (.inl ⟨k, hk', rfl⟩)
    exact congrArg Call.result (recursiveDoubling_eq hk hk' hp)
  · have hring : recursiveDoubling.Accepts op n len ↔ plainRing.Accepts op n len :=
      forall₂_congr fun p hp => by rw [result, result, recursiveDoubling_eq_ring hn hpow]
    rw [hring, accepts_plainRing_iff hn, or_iff_right hpow]

/-! ### What they leave -/

/-- A cell of the buffer after the plain ring. -/
def ringLeft (op : Op α) (n len : ℕ) (heap : ℕ → Heap Region α) (j : ℕ) : α :=
  ringValue op n (fun r => heap r (0, .buf) j) (j / (len / n)) (n - 1)

/-- The chunk of a cell. -/
theorem ringLeft_chunk {c j : ℕ} (hj : j < len / n) : ringLeft op n len heap (c * (len / n) + j) =
    ringValue op n (fun r => heap r (0, .buf) (c * (len / n) + j)) c (n - 1) := by
  rw [ringLeft, Nat.mul_comm, Nat.mul_add_div (by omega), Nat.div_eq_of_lt hj, Nat.add_zero]

/-- **The plain ring** leaves the reduction of each chunk, on every rank. -/
theorem leaves_plainRing (hn : 2 ≤ n) (hdvd : n ∣ len) {out : ℕ → Heap Region α}
    (h : plainRing.Leaves op n len heap out) {p j : ℕ} (hp : p < n) (hj : j < len) :
    out p (0, .buf) j = ringLeft op n len heap j := by
  obtain ⟨eager, s, hs, hf, rfl⟩ := h
  obtain ⟨c, hc, x, hx, rfl⟩ := exists_chunk (by omega) hdvd hj
  rw [ringLeft_chunk hx]
  exact heap_of_returned hn (fun _ _ => hdvd) hs Nat.one_pos hp (hf p hp).ge hc hx

/-- **The pipelined ring** leaves the same. -/
theorem leaves_pipelinedRing (hn : 2 ≤ n) (hsh : (config.shape len).Ok n)
    {out : ℕ → Heap Region α} (h : (pipelinedRing config).Leaves op n len heap out) {p j : ℕ}
    (hp : p < n) (hj : j < len) : out p (0, .buf) j = ringLeft op n len heap j := by
  obtain ⟨eager, s, hs, hf, rfl⟩ := h
  obtain ⟨c, hc, m, hm, x, hx, rfl⟩ := hsh.exists_row (by omega) hj
  have hrow := hsh.row_lt hm hx
  refine (PipelinedChain.heap_of_final hn hsh hs hf hp hm hc hx).trans ?_
  rw [rowCell, Nat.add_assoc]
  exact (ringLeft_chunk hrow).symm

/-- **Recursive doubling** leaves each rank its own reduction. -/
theorem leaves_recursiveDoubling {k : ℕ} (hk : 1 ≤ k) (hk' : k < 64) {out : ℕ → Heap Region α}
    (h : recursiveDoubling.Leaves op (2 ^ k) len heap out) {p j : ℕ} (hp : p < 2 ^ k)
    (hj : j < len) : out p (0, .buf) j = rdValue op (fun q => heap q (0, .buf) j) k p := by
  obtain ⟨eager, s, hs, hf, rfl⟩ := h
  exact heap_of_rdReturned hk hk' hs hp (hf p hp).ge hj

/-! ### Their runs -/

/-- Every run of the plain ring ends with all ranks returned. -/
theorem ends_plainRing (hn : 2 ≤ n) (hdvd : n ∣ len) (heap : ℕ → Heap Region α) :
    plainRing.Ends op n len heap :=
  fun _ => (ringLockstep op hn 1 (fun _ => len) fun _ _ => hdvd).terminates heap

/-- So does every run of recursive doubling. -/
theorem ends_recursiveDoubling {k : ℕ} (hk : 1 ≤ k) (hk' : k < 64) (heap : ℕ → Heap Region α) :
    recursiveDoubling.Ends op (2 ^ k) len heap :=
  fun _ => (rdLockstep op hk hk' len).terminates heap

/-- **The pipelined ring ends up to 65537 ranks**, and no further. -/
theorem ends_pipelinedRing_iff (hn : 2 ≤ n) (hsh : (config.shape len).Ok n)
    (heap : ℕ → Heap Region α) : (pipelinedRing config).Ends op n len heap ↔ n ≤ 65537 := by
  constructor
  · intro h
    by_contra hlarge
    obtain ⟨s, hs, hf, hstuck⟩ :=
      PipelinedChain.exists_stuck_of_large op (by omega) hsh heap
    exact hf ((h _).good s hs hstuck)
  · exact fun hn' _ => pipelined_terminates hn hn' hsh heap

/-! ### One rank -/

/-- A rank on its own returns at once. -/
theorem accepts_of_le_one (hn : n ≤ 1) (algo : AllreduceAlgo) : algo.Accepts op n len := by
  intro p _
  have hsize : (UcxCommunicator.connected n p).size ≤ 1 := hn
  cases algo with
  | plainRing => rw [result, ringAllreduce, if_pos hsize]
  | pipelinedRing config => rw [result, Pluvio.pipelinedRing, if_pos hsize]
  | recursiveDoubling => rw [result, Pluvio.recursiveDoubling, if_pos hsize]

theorem ringProgram_of_le_one (hn : n ≤ 1) (p : ℕ) :
    ringProgram op n 1 (fun _ => len) p = [] := by
  rw [ringProgram, Call.sequence, List.range_one, List.flatMap_singleton, ringAllreduce, if_pos]
  exact hn

theorem pipelinedProgram_of_le_one (hn : n ≤ 1) (sh : PipelineShape) (p : ℕ) :
    pipelinedProgram op n sh p = [] := by
  rw [pipelinedProgram, Pluvio.pipelinedRing, if_pos]
  exact hn

theorem rdProgram_of_le_one (hn : n ≤ 1) (p : ℕ) : rdProgram op n len p = [] := by
  rw [rdProgram, Pluvio.recursiveDoubling, if_pos]
  exact hn

/-- Its runs are over before they begin. -/
theorem ends_of_le_one (hn : n ≤ 1) (algo : AllreduceAlgo) (heap : ℕ → Heap Region α) :
    algo.Ends op n len heap := by
  cases algo with
  | plainRing =>
    have hnil : ∀ p < n, ringProgram op n 1 (fun _ => len) p = [] :=
      fun p _ => ringProgram_of_le_one hn p
    exact fun _ => .of_stuck (TagNet.stuck_of_nil hnil _) (TagNet.final_start_of_nil hnil heap)
  | pipelinedRing config =>
    have hnil : ∀ p < n, pipelinedProgram op n (config.shape len) p = [] :=
      fun p _ => pipelinedProgram_of_le_one hn _ p
    exact fun _ =>
      .of_stuck (AmNet.stuck_start_of_nil hnil heap) (AmNet.final_start_of_nil hnil heap)
  | recursiveDoubling =>
    have hnil : ∀ p < n, rdProgram op n len p = [] := fun p _ => rdProgram_of_le_one hn p
    exact fun _ => .of_stuck (TagNet.stuck_of_nil hnil _) (TagNet.final_start_of_nil hnil heap)

/-- And its buffer is left as it was. -/
theorem leaves_of_le_one (hn : n ≤ 1) {algo : AllreduceAlgo} {out : ℕ → Heap Region α}
    (h : algo.Leaves op n len heap out) : out = heap := by
  cases algo with
  | plainRing =>
    obtain ⟨eager, s, hs, -, rfl⟩ := h
    rw [hs.eq_of_stuck (TagNet.stuck_of_nil (fun p _ => ringProgram_of_le_one hn p) _)]
    rfl
  | pipelinedRing config =>
    obtain ⟨eager, s, hs, -, rfl⟩ := h
    rw [hs.eq_of_stuck (AmNet.stuck_start_of_nil (fun p _ => pipelinedProgram_of_le_one hn _ p) _)]
    rfl
  | recursiveDoubling =>
    obtain ⟨eager, s, hs, -, rfl⟩ := h
    rw [hs.eq_of_stuck (TagNet.stuck_of_nil (fun p _ => rdProgram_of_le_one hn p) _)]
    rfl

end AllreduceAlgo

end Pluvio
