import Pluvio.Collective.AmViews
import Pluvio.Collective.PipelinedLoss

/-!
# The slots of the pipelined ring

The pipelined ring cuts its buffer into a table of slots, which the chains use through raw
pointers while the sends of other chains are under way. The slots are apart and fill the
buffer (`Pluvio.PipelinedSlots.not_has_slot`, `Pluvio.PipelinedSlots.exists_slot_iff`). A
chain uses those of its own row, and in each step another one for what it sends than for what
it receives or reduces (`Pluvio.PipelinedSlots.onRow_reduceScatterChain`,
`Pluvio.PipelinedSlots.onRow_allgatherChain`).

So its layout is separated (`Pluvio.PipelinedSlots.separated`), and whatever the order of
events, no slot is written while it is being sent. This needs no bound on the number of
ranks: a message that is lost, or that comes in the place of another one, is still put where
the chain waits for it.
-/

namespace Pluvio

namespace PipelinedSlots

open AmNet

variable {α : Type*} {n p m : ℕ}

/-! ### The table -/

/-- The slots of a call. -/
def slots (n call : ℕ) (sh : PipelineShape) : ℕ → Slice Region :=
  microSlot call (sh.chunk n) sh.microChunks (sh.micro n)

/-- The scratch buffer of a chain. -/
def tmpSlot (n call : ℕ) (sh : PipelineShape) (m : ℕ) : Slice Region :=
  ⟨(call, .tmp m), 0, sh.micro n⟩

/-- Slot `i` is in row `m` of the table. -/
def InRow (n M m i : ℕ) : Prop := i < n * M ∧ i % M = m

/-- **An await point of chain `m`**: it sends one slot of its row, and receives into the
place that goes with another one and works on it. -/
def OnRow (n call : ℕ) (sh : PipelineShape) (m : ℕ) (target : ℕ → Slice Region)
    (work : ℕ → Heap Region α → Heap Region α) (I : Instr Region α) : Prop :=
  ∃ i j sd κ, InRow n sh.microChunks m i ∧ InRow n sh.microChunks m j ∧ i ≠ j ∧
    I.sends = [sd] ∧ sd.view = slots n call sh i ∧ I.recv = some (κ, target j) ∧ I.after = work j

section Table

variable {call size : ℕ} {sh : PipelineShape}

/-- The slots follow one another. -/
theorem slots_eq (hn : 0 < n) (hM : 0 < sh.microChunks)
    (hlen : sh.len = n * (sh.microChunks * size)) (i : ℕ) :
    slots n call sh i = ⟨(call, .buf), i * size, size⟩ := by
  have hchunk : sh.chunk n = sh.microChunks * size := by
    rw [PipelineShape.chunk, hlen, Nat.mul_div_cancel_left _ hn]
  have hmicro : sh.micro n = size := by
    rw [PipelineShape.micro, hchunk, Nat.mul_div_cancel_left _ hM]
  rw [slots, microSlot, hchunk, hmicro, ← Nat.mul_assoc, ← Nat.add_mul, Nat.div_add_mod']

/-- **They have no cell in common.** -/
theorem not_has_slot (hn : 0 < n) (hM : 0 < sh.microChunks)
    (hlen : sh.len = n * (sh.microChunks * size)) {i j : ℕ} (hij : i ≠ j) {r : Region} {c : ℕ}
    (h : (slots n call sh i).Has r c) : ¬(slots n call sh j).Has r c := by
  rw [slots_eq hn hM hlen] at h ⊢
  obtain ⟨-, hlo, hhi⟩ := h
  obtain ⟨x, rfl⟩ := Nat.exists_eq_add_of_le hlo
  exact Slice.not_has_chunk (Nat.lt_of_add_lt_add_left hhi) hij

/-- The slots are the buffer and nothing else. -/
theorem exists_slot_iff (hn : 0 < n) (hM : 0 < sh.microChunks)
    (hlen : sh.len = n * (sh.microChunks * size)) {r : Region} {c : ℕ} :
    (∃ i < n * sh.microChunks, (slots n call sh i).Has r c) ↔ r = (call, .buf) ∧ c < sh.len := by
  have hlen' : sh.len = n * sh.microChunks * size := hlen.trans (Nat.mul_assoc ..).symm
  constructor
  · rintro ⟨i, hi, h⟩
    rw [slots_eq hn hM hlen] at h
    obtain ⟨rfl, -, hhi⟩ := h
    refine ⟨rfl, Nat.lt_of_lt_of_le hhi ?_⟩
    rw [hlen', ← Nat.succ_mul]
    exact Nat.mul_le_mul_right size hi
  · rintro ⟨rfl, hc⟩
    rw [hlen'] at hc
    have hsize : 0 < size := Nat.pos_of_lt_mul_left hc
    refine ⟨c / size, Nat.div_lt_of_lt_mul (by rwa [Nat.mul_comm]), ?_⟩
    rw [slots_eq hn hM hlen]
    exact ⟨rfl, Nat.div_mul_le_self c size, Nat.lt_div_mul_add hsize⟩

end Table

/-! ### The rows of the chains -/

section Rows

variable {call nextEp : ℕ} {sh : PipelineShape} {op : Op α}

/-- The slot of a chunk in row `m`. -/
theorem inRow_of_chunk {M c : ℕ} (hm : m < M) (hc : c < n) : InRow n M m (c * M + m) := by
  constructor
  · calc c * M + m < c * M + M := Nat.add_lt_add_left hm _
      _ = (c + 1) * M := (Nat.succ_mul ..).symm
      _ ≤ n * M := Nat.mul_le_mul_right M hc
  · rw [Nat.mul_comm, Nat.mul_add_mod, Nat.mod_eq_of_lt hm]

/-- The slots of two chunks in a row are two. -/
theorem slot_ne_of_chunk_ne {M c c' : ℕ} (hm : m < M) (hc : c ≠ c') : c * M + m ≠ c' * M + m := by
  intro h
  exact hc (Nat.eq_of_mul_eq_mul_right (Nat.zero_lt_of_lt hm) (Nat.add_right_cancel h))

/-- One more, around the circle. -/
theorem succ_mod_ne (hn : 2 ≤ n) (a : ℕ) : (a + 1) % n ≠ a % n := by
  have hlt : a % n < n := Nat.mod_lt a (by omega)
  rw [Nat.add_mod, Nat.mod_eq_of_lt (show 1 < n by omega), mod_eq_ite (by omega)]
  split <;> omega

/-- **A reduce-scatter step** sends one slot of its row and reduces another one. -/
theorem onRow_reduceScatterChain (hn : 2 ≤ n) (hm : m < sh.microChunks) {I : Instr Region α}
    (hI : I ∈ reduceScatterChain op (.connected n p) call (slots n call sh) nextEp sh.microChunks
      (sh.micro n) m) :
    OnRow n call sh m (fun _ => tmpSlot n call sh m)
      (fun j h => op.reduceSlice h (slots n call sh j) (tmpSlot n call sh m)) I := by
  obtain ⟨step, hstep, rfl⟩ := List.mem_map.mp hI
  have hstep : step < n - 1 := List.mem_range.mp hstep
  have hpos : 0 < n := by omega
  have hne : (p + n - step) % n ≠ (p + n - step - 1) % n := by
    have hsucc : p + n - step = p + n - step - 1 + 1 := by omega
    rw [hsucc]
    exact succ_mod_ne hn _
  exact ⟨_, _, _, _, inRow_of_chunk hm (Nat.mod_lt _ hpos), inRow_of_chunk hm (Nat.mod_lt _ hpos),
    slot_ne_of_chunk_ne hm hne, rfl, rfl, rfl, rfl⟩

/-- **An allgather step** sends one slot of its row and receives into another one. -/
theorem onRow_allgatherChain (hn : 2 ≤ n) (hm : m < sh.microChunks) {I : Instr Region α}
    (hI : I ∈ allgatherChain (.connected n p) (slots n call sh) nextEp sh.microChunks m) :
    OnRow n call sh m (slots n call sh) (fun _ => id) I := by
  obtain ⟨step, hstep, rfl⟩ := List.mem_map.mp hI
  have hpos : 0 < n := by omega
  exact ⟨_, _, _, _, inRow_of_chunk hm (Nat.mod_lt _ hpos), inRow_of_chunk hm (Nat.mod_lt _ hpos),
    slot_ne_of_chunk_ne hm (succ_mod_ne hn _), rfl, rfl, rfl, rfl⟩

end Rows

/-! ### Runs -/

/-- The slot that is reduced after a step of chain `m`. -/
def reduced (n : ℕ) (sh : PipelineShape) : ℕ → ℕ → ℕ → ℕ → Option (Slice Region)
  | 0, p, m, step => some (slots n 0 sh ((p + n - step - 1) % n * sh.microChunks + m))
  | _ + 1, _, _, _ => none

section Layout

variable {sh : PipelineShape} {op : Op α} {r : Region} {c : ℕ}

/-- The slots are the micro-chunks. -/
theorem slots_chunk (hm : m < sh.microChunks) (call c : ℕ) :
    slots n call sh (c * sh.microChunks + m) = microSlice n call sh c m :=
  microSlot_eq n sh call c hm

/-- The chunks and their micro-chunks fill the buffer. -/
theorem len_eq (hsh : sh.Ok n) : sh.len = n * (sh.microChunks * sh.micro n) := by
  rw [← hsh.chunk_eq]
  exact (Nat.mul_div_cancel' hsh.len_dvd).symm

/-- **A cell is of one chain.** -/
theorem chainCells_unique (hsh : sh.Ok n) {m' : ℕ} (h : ChainCells n sh m r c)
    (h' : ChainCells n sh m' r c) : m = m' := by
  by_contra hne
  obtain ⟨hm, rfl | ⟨rfl, c', -, x, hx, rfl⟩⟩ := h
  · exact not_chainCells_tmp (Ne.symm hne) h'
  · have hhas : (microSlice n 0 sh c' m).Has (0, .buf) (rowCell n sh m c' x) :=
      ⟨rfl, Nat.le_add_right .., Nat.add_lt_add_left hx _⟩
    exact not_chainCells_row hsh hm (Ne.symm hne) hhas h'

/-- The micro-chunks of a chain that belong to two chunks have no cell in common. -/
theorem not_has_microSlice (hn : 0 < n) (hsh : sh.Ok n) (hm : m < sh.microChunks) {c c' : ℕ}
    (hne : c ≠ c') {r : Region} {x : ℕ} (h : (microSlice n 0 sh c m).Has r x) :
    ¬(microSlice n 0 sh c' m).Has r x := by
  rw [← slots_chunk hm] at h ⊢
  exact not_has_slot hn hsh.microChunks_pos (len_eq hsh) (slot_ne_of_chunk_ne hm hne) h

/-- The chains of the layout write to cells of their own, and read what is sent to them there. -/
theorem separated (op : Op α) (hn : 2 ≤ n) (hsh : sh.Ok n) :
    (pipelinedLayout op hn hsh).Separated (fun _ _ m => ChainCells n sh m) (reduced n sh) where
  apart h h' := chainCells_unique hsh h h'
  view {i p m k j sd} hsend r c hhas := by
    obtain ⟨-, hsend⟩ := Layout.isSend_ofPlans.mp hsend
    obtain ⟨hp, hm, -, rfl, rfl⟩ := pipelinedPlan_isSend.mp hsend
    refine PipelinedChain.chainCells_row hm ?_ hhas
    unfold sendChunk
    split <;> exact Nat.mod_lt _ (by omega)
  target {i p m k κ t} hrecv r c hhas := by
    obtain ⟨-, hrecv⟩ := Layout.isRecv_ofPlans.mp hrecv
    obtain ⟨hp, hm, -, -, rfl⟩ := pipelinedPlan_isRecv.mp hrecv
    unfold microTarget at hhas
    split at hhas
    · exact ⟨hm, .inl hhas.1⟩
    · exact PipelinedChain.chainCells_row hm (Nat.mod_lt _ (by omega)) hhas
  works {i p m k w} hat hw r c hhas := by
    obtain ⟨-, hat⟩ := Layout.at_ofPlans.mp hat
    rcases i with - | i
    · cases hw
      rw [slots_chunk hat.chain] at hhas
      exact PipelinedChain.chainCells_row hat.chain (Nat.mod_lt _ (by omega)) hhas
    · cases hw
  own {i p m k j sd κ t r c} hsend hrecv hview htarget := by
    obtain ⟨-, hsend⟩ := Layout.isSend_ofPlans.mp hsend
    obtain ⟨-, hrecv⟩ := Layout.isRecv_ofPlans.mp hrecv
    obtain ⟨-, hm, -, rfl, rfl⟩ := pipelinedPlan_isSend.mp hsend
    obtain ⟨-, -, -, -, rfl⟩ := pipelinedPlan_isRecv.mp hrecv
    unfold microTarget at htarget
    split at htarget
    · -- the scratch buffer is not a part of the buffer
      cases hview.1.symm.trans htarget.1
    · next hi =>
      have hchunk : sendChunk n i p k ≠ (p + n - k) % n := by
        rw [sendChunk, if_neg hi]
        exact succ_mod_ne hn _
      exact not_has_microSlice (by omega) hsh hm hchunk hview htarget
  frame {i p m k r c} hat hw h := by
    obtain ⟨-, hat⟩ := Layout.at_ofPlans.mp hat
    show (microInstr op n 0 sh i p m k).after h r c = h r c
    rcases i with - | i
    · refine op.reduceSlice_of_not_has h ?_
      rw [← slots_chunk hat.chain]
      exact hw _ rfl
    · rfl

end Layout

section Runs

variable {sh : PipelineShape} {op : Op α} {eager : ℕ → Name → ℕ → Bool}
  {heap : ℕ → Heap Region α} {s s' : AmNet.State Region α} {e : Event}

/-- A call whose shape is not accepted does nothing. -/
theorem pipelinedProgram_of_not_ok (op : Op α) (hsh : ¬sh.Ok n) (p : ℕ) :
    pipelinedProgram op n sh p = [] := by
  unfold pipelinedProgram pipelinedRing
  dsimp only
  split
  · rfl
  split
  · rfl
  split
  · rfl
  split
  · rfl
  split
  · rfl
  next hn hpos hle hdvd hmicro =>
  refine absurd ⟨?_, ?_, ?_, not_not.mp hdvd, not_not.mp hmicro⟩ hsh <;> omega

/-- So where something happens, the shape is one that is accepted. -/
theorem ok_of_step (h : Reaches (step ⟨n, pipelinedProgram op n sh, eager⟩) (start heap) s)
    (hs : step ⟨n, pipelinedProgram op n sh, eager⟩ s e = some s') : sh.Ok n := by
  by_contra hsh
  have hstuck : Stuck (step ⟨n, pipelinedProgram op n sh, eager⟩) (start heap) :=
    stuck_start_of_nil (fun p _ => pipelinedProgram_of_not_ok op hsh p) heap
  rw [h.eq_of_stuck hstuck] at hs
  cases (hstuck e).symm.trans hs

/-- What holds of every run, whatever has been lost. -/
theorem steady_of_reaches (hn : 2 ≤ n) (hsh : sh.Ok n)
    (h : Reaches (step ⟨n, pipelinedProgram op n sh, eager⟩) (start heap) s) :
    Steady (pipelinedLayout op hn hsh) s :=
  (PipelinedChain.follows_or_short hn hsh h).1

/-- **What an event changes it writes.** -/
theorem writes_of_heap_ne (hn : 2 ≤ n)
    (h : Reaches (step ⟨n, pipelinedProgram op n sh, eager⟩) (start heap) s)
    (hs : step ⟨n, pipelinedProgram op n sh, eager⟩ s e = some s') {q : ℕ} {r : Region} {c : ℕ}
    (hne : (s'.rank q).node.heap r c ≠ (s.rank q).node.heap r c) :
    Writes ⟨n, pipelinedProgram op n sh, eager⟩ (reduced n sh) s e q r c := by
  have hsh := ok_of_step h hs
  by_contra hw
  exact hne ((steady_of_reaches hn hsh h).heap_eq_of_not_writes (separated op hn hsh) hs hw)

/-- **What an event writes no send may still read.** -/
theorem not_outstanding_of_writes (hn : 2 ≤ n)
    (h : Reaches (step ⟨n, pipelinedProgram op n sh, eager⟩) (start heap) s)
    (hs : step ⟨n, pipelinedProgram op n sh, eager⟩ s e = some s') {q : ℕ} {r : Region} {c : ℕ}
    (hw : Writes ⟨n, pipelinedProgram op n sh, eager⟩ (reduced n sh) s e q r c) :
    ¬Outstanding ⟨n, pipelinedProgram op n sh, eager⟩ s q r c ∧
      ¬Outstanding ⟨n, pipelinedProgram op n sh, eager⟩ s' q r c := by
  have hsh := ok_of_step h hs
  exact (steady_of_reaches hn hsh h).not_outstanding_of_writes (separated op hn hsh) hs hw

end Runs

end PipelinedSlots

open AmNet PipelinedSlots in
/-- **The chains of the pipelined ring never alias.** The slots are apart and fill the
buffer; each await point of chain `m` sends one slot of row `m`, and receives into or reduces
another one of that row; and in every run, whatever the order of events, no event writes a
cell that a send may still read, before it or after it. What an event changes it writes. -/
theorem pipelined_chains_never_alias {α : Type*} (op : Op α) {n : ℕ} (hn : 2 ≤ n)
    (p call size : ℕ) {sh : PipelineShape} (hM : 1 ≤ sh.microChunks)
    (hlen : sh.len = n * (sh.microChunks * size)) :
    (∀ i < n * sh.microChunks, ∀ j < n * sh.microChunks, i ≠ j →
        ∀ r c, (slots n call sh i).Has r c → ¬(slots n call sh j).Has r c) ∧
      (∀ r c, (∃ i < n * sh.microChunks, (slots n call sh i).Has r c) ↔
        r = (call, .buf) ∧ c < sh.len) ∧
      (∀ m < sh.microChunks, ∀ nextEp,
        (∀ I ∈ reduceScatterChain op (.connected n p) call (slots n call sh) nextEp
            sh.microChunks (sh.micro n) m,
          OnRow n call sh m (fun _ => tmpSlot n call sh m)
            (fun j h => op.reduceSlice h (slots n call sh j) (tmpSlot n call sh m)) I) ∧
        ∀ I ∈ allgatherChain (α := α) (.connected n p) (slots n call sh) nextEp sh.microChunks m,
          OnRow n call sh m (slots n call sh) (fun _ => id) I) ∧
      ∀ (eager : ℕ → Name → ℕ → Bool) (heap : ℕ → Heap Region α) (s s' : AmNet.State Region α)
        (e : Event), Reaches (step ⟨n, pipelinedProgram op n sh, eager⟩) (start heap) s →
          step ⟨n, pipelinedProgram op n sh, eager⟩ s e = some s' → ∀ q r c,
            ((s'.rank q).node.heap r c ≠ (s.rank q).node.heap r c →
              Writes ⟨n, pipelinedProgram op n sh, eager⟩ (reduced n sh) s e q r c) ∧
            (Writes ⟨n, pipelinedProgram op n sh, eager⟩ (reduced n sh) s e q r c →
              ¬Outstanding ⟨n, pipelinedProgram op n sh, eager⟩ s q r c ∧
                ¬Outstanding ⟨n, pipelinedProgram op n sh, eager⟩ s' q r c) := by
  have hpos : 0 < n := by omega
  refine ⟨fun i _ j _ hij r c => not_has_slot hpos hM hlen hij,
    fun r c => exists_slot_iff hpos hM hlen, fun m hm nextEp => ⟨fun I hI => ?_, fun I hI => ?_⟩,
    fun eager heap s s' e h hs q r c => ⟨writes_of_heap_ne hn h hs,
      not_outstanding_of_writes hn h hs⟩⟩
  · exact onRow_reduceScatterChain hn hm hI
  · exact onRow_allgatherChain hn hm hI

open AmNet PipelinedSlots in
/-- Three ranks that subtract, on six elements in two micro-chunks: when rank 0 has polled its
first chain, a send reads the first element, and whatever happens next leaves it as it is. -/
theorem pipelined_chains_never_alias_three : ∃ s,
    Reaches (step ⟨3, pipelinedProgram ⟨Int.sub⟩ 3 ⟨6, 2, 1⟩, fun _ _ _ => false⟩)
        (start fun p _ i => (2 * p + i : ℤ)) s ∧
      Outstanding ⟨3, pipelinedProgram ⟨Int.sub⟩ 3 ⟨6, 2, 1⟩, fun _ _ _ => false⟩ s 0 (0, .buf) 0 ∧
      ∀ e s', step ⟨3, pipelinedProgram ⟨Int.sub⟩ 3 ⟨6, 2, 1⟩, fun _ _ _ => false⟩ s e = some s' →
        (s'.rank 0).node.heap (0, .buf) 0 = (s.rank 0).node.heap (0, .buf) 0 := by
  obtain ⟨s, hrun, hout⟩ : ∃ s,
      runList (step ⟨3, pipelinedProgram ⟨Int.sub⟩ 3 ⟨6, 2, 1⟩, fun _ _ _ => false⟩)
        (start fun p _ i => (2 * p + i : ℤ)) [.launch 0, .poll 0 0] = some s ∧
      Outstanding ⟨3, pipelinedProgram ⟨Int.sub⟩ 3 ⟨6, 2, 1⟩, fun _ _ _ => false⟩ s 0
        (0, .buf) 0 :=
    ⟨_, rfl, 0, _, _, _, _, 0, _, rfl, rfl, List.mem_singleton_self 0, rfl, rfl, by decide,
      by decide⟩
  have hreach := Steps.of_run hrun
  refine ⟨s, hreach, hout, fun e s' hs => ?_⟩
  by_contra hne
  obtain ⟨hwrites, hnot⟩ := (pipelined_chains_never_alias ⟨Int.sub⟩ (by decide) 0 0 1
    (by decide) rfl).2.2.2 _ _ s s' e hreach hs 0 (0, .buf) 0
  exact (hnot (hwrites hne)).1 hout

end Pluvio
