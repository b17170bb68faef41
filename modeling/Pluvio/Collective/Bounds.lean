import Pluvio.Checked
import Pluvio.Collective.Broadcast
import Pluvio.Collective.Bruck
import Pluvio.Collective.PipelinedRing
import Pluvio.Collective.RecursiveDoubling
import Pluvio.Collective.Scatter

/-!
# Bounds of the collectives

The collectives once more, written with the operations that panic: subtraction, division,
shifts, indexing, slicing, and copies between slices of one length. What a rank computes
between two await points does not depend on what it has received, so the operations of a
call are those of its straight line, and a call that gets less far does fewer of them.

Most sums and products here are no longer than a buffer, or than twice the number of ranks.
Bruck's allgather and the scatter multiply a length with the number of ranks before they know
that there is a buffer so long; their products are those of a `usize`, which panic or wrap
when they overflow.

Written like this a call does not panic, and it is the call that was written without the
checks, whatever is in the memory. The exceptions are such a product, and Bruck's allgather of
nothing, which fills a buffer with the first element of `send_buf` before it rotates into it:
`Pluvio.collectives_panic_iff`.
-/

namespace Pluvio

open Checked

variable {α : Type} (op : Op α) (comm : UcxCommunicator) (call : ℕ)

/-! ### Ring -/

/-- A reduce-scatter step of `ring_allreduce`. -/
def reduceScatterStepChecked (len chunk prev nextEp step : ℕ) :
    Checked (TagNet.Instr Region UInt64 α) := do
  let n := comm.size
  let rank := comm.rank
  let sendIdx ← rem (← sub (rank + n) step) n
  let recvIdx ← rem (← sub (← sub (rank + n) step) 1) n
  let sendOff := sendIdx * chunk
  let view ← slice (call, .buf) len sendOff (sendOff + chunk)
  let tmp : Slice Region := ⟨(call, .tmp 0), 0, chunk⟩
  let recvOff := recvIdx * chunk
  let dst ← slice (call, .buf) len recvOff (recvOff + chunk)
  sameLen dst tmp
  return {
    dst := nextEp
    tag := encodeTag rank (UInt16.ofNat step) 0 0
    view := view
    recvTag := encodeTag prev (UInt16.ofNat step) 0 0
    target := tmp
    after := fun h => op.reduceSlice h dst tmp }

/-- An allgather step of `ring_allreduce`. -/
def allgatherStepChecked (len chunk prev nextEp step : ℕ) :
    Checked (TagNet.Instr Region UInt64 α) := do
  let n := comm.size
  let rank := comm.rank
  let sendIdx ← rem ((← sub (rank + n) step) + 1) n
  let recvIdx ← rem (← sub (rank + n) step) n
  let sendOff := sendIdx * chunk
  let recvOff := recvIdx * chunk
  let view ← slice (call, .buf) len sendOff (sendOff + chunk)
  let target ← slice (call, .buf) len recvOff (recvOff + chunk)
  return {
    dst := nextEp
    tag := encodeTag rank (UInt16.ofNat step) 1 0
    view := view
    recvTag := encodeTag prev (UInt16.ofNat step) 1 0
    target := target
    after := id }

/-- `ring_allreduce`. -/
def ringAllreduceChecked (len : ℕ) : Checked (Call (TagNet.Instr Region UInt64 α)) := do
  let n := comm.size
  let rank := comm.rank
  if n ≤ 1 then return ⟨[], .ok ()⟩
  else if ¬n ∣ len then return ⟨[], .error .badShape⟩
  else
    let chunk ← div len n
    let next ← rem (rank + 1) n
    let prev ← rem (← sub (rank + n) 1) n
    match comm.endpoint next with
    | none => return ⟨[], .error (.protocol "no endpoint to next rank")⟩
    | some nextEp =>
      let steps ← (List.range (← sub n 1)).mapM
        (reduceScatterStepChecked op comm call len chunk prev nextEp)
      let steps' ← (List.range (← sub n 1)).mapM
        (allgatherStepChecked comm call len chunk prev nextEp)
      return ⟨steps ++ steps', .ok ()⟩

variable {op comm call}

variable (op comm call)

/-- The rounds of `recursive_doubling`. -/
def recursiveDoublingRoundsChecked (len : ℕ) :
    List ℕ → Checked (Call (TagNet.Instr Region UInt64 α))
  | [] => return ⟨[], .ok ()⟩
  | r :: rs => do
    let peer := comm.rank ^^^ (← shl usizeBits 1 r)
    match comm.endpoint peer with
    | none => return ⟨[], .error (.protocol "rd: missing endpoint to peer")⟩
    | some peerEp =>
      let buf : Slice Region := ⟨(call, .buf), 0, len⟩
      let tmp : Slice Region := ⟨(call, .tmp 0), 0, len⟩
      sameLen buf tmp
      let rest ← recursiveDoublingRoundsChecked len rs
      return ⟨recursiveDoublingStep op comm call len peer peerEp r :: rest.steps, rest.result⟩

/-- `recursive_doubling`. -/
def recursiveDoublingChecked (len : ℕ) : Checked (Call (TagNet.Instr Region UInt64 α)) :=
  let n := comm.size
  if n ≤ 1 then return ⟨[], .ok ()⟩
  else if ¬∃ k < 64, n = 2 ^ k then ringAllreduceChecked op comm call len
  else recursiveDoublingRoundsChecked op comm call len (List.range (trailingZeros n))

variable {op comm call}

variable (op comm call)

/-- The table of slots of `pipelined_ring`. -/
def microSlotsChecked (len chunk microChunks microSize : ℕ) : Checked (List (Slice Region)) :=
  (List.range (comm.size * microChunks)).mapM fun i => do
    let chunkIdx ← div i microChunks
    let m ← rem i microChunks
    let off := chunkIdx * chunk + m * microSize
    slice (call, .buf) len off (off + microSize)

/-- `reduce_scatter_chain`. -/
def reduceScatterChainChecked (slots : List (Slice Region)) (nextEp prev microChunks microSize
    m : ℕ) : Checked (List (AmNet.Instr Region α)) := do
  let n := comm.size
  let rank := comm.rank
  (List.range (← sub n 1)).mapM fun step => do
    let sendIdx ← rem (← sub (rank + n) step) n
    let recvIdx ← rem (← sub (← sub (rank + n) step) 1) n
    let sendSlot ← get slots (sendIdx * microChunks + m)
    let recvSlot ← get slots (recvIdx * microChunks + m)
    let tmpSlot : Slice Region := ⟨(call, .tmp m), 0, microSize⟩
    sameLen recvSlot tmpSlot
    return {
      sends := [⟨nextEp, ⟨UInt16.ofNat rank, UInt16.ofNat step, 0, UInt8.ofNat m⟩, sendSlot⟩]
      recv := some (.ofHeader ⟨UInt16.ofNat prev, UInt16.ofNat step, 0, UInt8.ofNat m⟩, tmpSlot)
      after := fun h => op.reduceSlice h recvSlot tmpSlot }

/-- `allgather_chain`. -/
def allgatherChainChecked (slots : List (Slice Region)) (nextEp prev microChunks m : ℕ) :
    Checked (List (AmNet.Instr Region α)) := do
  let n := comm.size
  let rank := comm.rank
  (List.range (← sub n 1)).mapM fun step => do
    let sendIdx ← rem ((← sub (rank + n) step) + 1) n
    let recvIdx ← rem (← sub (rank + n) step) n
    let sendSlot ← get slots (sendIdx * microChunks + m)
    let recvSlot ← get slots (recvIdx * microChunks + m)
    return {
      sends := [⟨nextEp, ⟨UInt16.ofNat rank, UInt16.ofNat step, 1, UInt8.ofNat m⟩, sendSlot⟩]
      recv := some (.ofHeader ⟨UInt16.ofNat prev, UInt16.ofNat step, 1, UInt8.ofNat m⟩, recvSlot)
      after := id }

/-- `pipelined_ring`. -/
def pipelinedRingChecked (len microChunks maxInFlight : ℕ) :
    Checked (Call (AmNet.Stage Region α)) := do
  let n := comm.size
  let rank := comm.rank
  if n ≤ 1 then return ⟨[], .ok ()⟩
  else if microChunks = 0 ∨ maxInFlight = 0 then
    return ⟨[], .error (.protocol "pipelined ring: micro_chunks and max_in_flight must be > 0")⟩
  else if microChunks > 255 then
    return ⟨[], .error (.protocol
      "pipelined ring: micro_chunks > 255 (does not fit in AmHeader::micro_chunk)")⟩
  else if ¬n ∣ len then return ⟨[], .error .badShape⟩
  else
    let chunk ← div len n
    if ¬microChunks ∣ chunk then return ⟨[], .error .badShape⟩
    else
      let microSize ← div chunk microChunks
      let next ← rem (rank + 1) n
      let prev ← rem (← sub (rank + n) 1) n
      match comm.endpoint next with
      | none => return ⟨[], .error (.protocol "no endpoint to next rank")⟩
      | some nextEp =>
        let slots ← microSlotsChecked comm call len chunk microChunks microSize
        let chains ← (List.range microChunks).mapM
          (reduceScatterChainChecked op comm call slots nextEp prev microChunks microSize)
        let chains' ← (List.range microChunks).mapM
          (allgatherChainChecked comm slots nextEp prev microChunks)
        return ⟨[⟨maxInFlight, chains⟩, ⟨maxInFlight, chains'⟩], .ok ()⟩

variable {op comm call}

section Micro

variable {len microChunks i m : ℕ}

theorem div_lt_of_slot (hi : i < comm.size * microChunks) : i / microChunks < comm.size :=
  Nat.div_lt_of_lt_mul (Nat.mul_comm .. ▸ hi)

/-- **The table**, when the number of micro-chunks divides a chunk. -/
theorem microSlotsChecked_eq (hlen : comm.size ∣ len) (hmicro : microChunks ∣ len / comm.size)
    (hpos : 0 < microChunks) :
    microSlotsChecked comm call len (len / comm.size) microChunks
      (len / comm.size / microChunks) = .ok ((List.range (comm.size * microChunks)).map
        (microSlot call (len / comm.size) microChunks (len / comm.size / microChunks))) := by
  refine mapM_eq_ok fun i hi => ?_
  have hi := List.mem_range.mp hi
  rw [div_of_pos hpos, ok_bind, rem_of_pos hpos, ok_bind]
  refine slice_of_le rfl ?_
  have hmod : i % microChunks < microChunks := Nat.mod_lt i hpos
  calc i / microChunks * (len / comm.size) + i % microChunks * (len / comm.size / microChunks) +
        len / comm.size / microChunks
      = i / microChunks * (len / comm.size) +
          (i % microChunks + 1) * (len / comm.size / microChunks) := by
        rw [Nat.succ_mul, Nat.add_assoc]
    _ ≤ i / microChunks * (len / comm.size) + microChunks * (len / comm.size / microChunks) :=
        Nat.add_le_add_left (Nat.mul_le_mul_right _ hmod) _
    _ = (i / microChunks + 1) * (len / comm.size) := by
        rw [Nat.mul_div_cancel' hmicro, Nat.succ_mul]
    _ ≤ comm.size * (len / comm.size) := Nat.mul_le_mul_right _ (div_lt_of_slot hi)
    _ = len := Nat.mul_div_cancel' hlen

/-- **A slot** of a chain is in the table. -/
theorem get_microSlot (f : ℕ → Slice Region) (hi : i < comm.size) (hm : m < microChunks) :
    get ((List.range (comm.size * microChunks)).map f) (i * microChunks + m) =
      .ok (f (i * microChunks + m)) := by
  refine get_of_getElem? ?_
  have hlt : i * microChunks + m < comm.size * microChunks :=
    calc i * microChunks + m < (i + 1) * microChunks := by rw [Nat.succ_mul]; omega
      _ ≤ comm.size * microChunks := Nat.mul_le_mul_right _ hi
  rw [List.getElem?_map, List.getElem?_range hlt]
  rfl

theorem reduceScatterChainChecked_eq (hrank : comm.rank < comm.size) (chunk microSize nextEp : ℕ)
    (hm : m < microChunks) :
    reduceScatterChainChecked op comm call ((List.range (comm.size * microChunks)).map
      (microSlot call chunk microChunks microSize)) nextEp
        ((comm.rank + comm.size - 1) % comm.size) microChunks microSize m =
      .ok (reduceScatterChain op comm call (microSlot call chunk microChunks microSize) nextEp
        microChunks microSize m) := by
  have hpos : 0 < comm.size := Nat.zero_lt_of_lt hrank
  rw [reduceScatterChainChecked]
  dsimp only
  rw [sub_of_le (by omega), ok_bind]
  refine mapM_eq_ok fun step hstep => ?_
  have hstep := List.mem_range.mp hstep
  rw [sub_of_le (by omega), ok_bind, rem_of_pos hpos, ok_bind, ok_bind, sub_of_le (by omega),
    ok_bind, rem_of_pos hpos, ok_bind, get_microSlot _ (Nat.mod_lt _ hpos) hm, ok_bind,
    get_microSlot _ (Nat.mod_lt _ hpos) hm, ok_bind]
  rw [microSlot, sameLen_mk]
  rfl

theorem allgatherChainChecked_eq (hrank : comm.rank < comm.size) (f : ℕ → Slice Region)
    (nextEp : ℕ) (hm : m < microChunks) :
    allgatherChainChecked comm ((List.range (comm.size * microChunks)).map f) nextEp
        ((comm.rank + comm.size - 1) % comm.size) microChunks m =
      .ok (allgatherChain comm f nextEp microChunks m : List (AmNet.Instr _ α)) := by
  have hpos : 0 < comm.size := Nat.zero_lt_of_lt hrank
  rw [allgatherChainChecked, sub_of_le (by omega), ok_bind]
  refine mapM_eq_ok fun step hstep => ?_
  have hstep := List.mem_range.mp hstep
  rw [sub_of_le (by omega), ok_bind, rem_of_pos hpos, ok_bind, ok_bind, rem_of_pos hpos, ok_bind,
    get_microSlot _ (Nat.mod_lt _ hpos) hm, ok_bind, get_microSlot _ (Nat.mod_lt _ hpos) hm]
  rfl

/-- **The pipelined ring does not panic.** -/
theorem pipelinedRingChecked_eq (hrank : comm.rank < comm.size) (len microChunks maxInFlight : ℕ) :
    pipelinedRingChecked op comm call len microChunks maxInFlight =
      .ok (pipelinedRing op comm call len microChunks maxInFlight) := by
  have hpos : 0 < comm.size := Nat.zero_lt_of_lt hrank
  rw [pipelinedRingChecked, pipelinedRing]
  split
  · rfl
  split
  · rfl
  split
  · rfl
  split
  · rfl
  next hn hzero _ hlen =>
  have hlen := not_not.mp hlen
  have hmc : 0 < microChunks := Nat.pos_of_ne_zero fun h => hzero (.inl h)
  rw [div_of_pos hpos, ok_bind]
  dsimp only
  split
  · rfl
  next hmicro =>
  have hmicro := not_not.mp hmicro
  rw [div_of_pos hmc, ok_bind, rem_of_pos hpos, ok_bind, sub_of_le (by omega), ok_bind,
    rem_of_pos hpos, ok_bind]
  cases comm.endpoint ((comm.rank + 1) % comm.size) with
  | none => rfl
  | some nextEp =>
    dsimp only
    rw [microSlotsChecked_eq hlen hmicro hmc, ok_bind,
      mapM_eq_ok fun m hm => reduceScatterChainChecked_eq hrank _ _ nextEp (List.mem_range.mp hm),
      ok_bind,
      mapM_eq_ok fun m hm => allgatherChainChecked_eq hrank _ nextEp (List.mem_range.mp hm)]
    rfl

end Micro

/-! ### Bruck's allgather -/

variable (comm call) (debug : Bool)

/-- The final local rotation of `bruck_allgather`. -/
def bruckRotateChecked (l recvLen : ℕ) : Checked (AmNet.Instr Region α) := do
  let n := comm.size
  let rank := comm.rank
  -- `send_buf[0]`, also when there is nothing to send
  let first ← index l 0
  let rotated : Slice Region := ⟨(call, .tmp 0), 0, recvLen⟩
  let copies ← (List.range n).mapM fun k => do
    let global ← rem (rank + k) n
    let dst ← slice (call, .tmp 0) rotated.len (← mul debug usizeBits global l)
      (← mul debug usizeBits (global + 1) l)
    let src ← slice (call, .buf) recvLen (← mul debug usizeBits k l)
      (← mul debug usizeBits (k + 1) l)
    sameLen dst src
    return (dst, src)
  let recvBuf : Slice Region := ⟨(call, .buf), 0, recvLen⟩
  sameLen recvBuf rotated
  return {
    sends := []
    recv := none
    after := fun h =>
      let filled := h.copyInto rotated (List.replicate recvLen (h (call, .send) first))
      let rotatedHeap := copies.foldl (fun h c => h.copyInto c.1 (h.read c.2)) filled
      rotatedHeap.copyInto recvBuf (rotatedHeap.read rotated) }

/-- The loop of `bruck_allgather`, and what follows it. -/
def bruckRoundsChecked (l recvLen count round : ℕ) : Checked (Call (AmNet.Instr Region α)) :=
  if 0 < count ∧ count < comm.size then do
    let n := comm.size
    let rank := comm.rank
    let toSend := min count (← sub n count)
    let sendPeer ← rem (← sub (rank + n) count) n
    let recvPeer ← rem (rank + count) n
    let view ← slice (call, .buf) recvLen (← mul debug usizeBits 0 l)
      (← mul debug usizeBits (0 + toSend) l)
    let target ← slice (call, .buf) recvLen (← mul debug usizeBits count l)
      (← mul debug usizeBits (count + toSend) l)
    match comm.endpoint sendPeer with
    | none => return ⟨[], .error (.protocol "bruck: missing endpoint")⟩
    | some sendEp =>
      let rest ← bruckRoundsChecked l recvLen (count + min count (n - count)) (round + 1)
      return ⟨{
        sends := [⟨sendEp, ⟨UInt16.ofNat rank, UInt16.ofNat round, phaseBruck, 0⟩, view⟩]
        recv := some (.ofHeader ⟨UInt16.ofNat recvPeer, UInt16.ofNat round, phaseBruck, 0⟩,
          target)
        after := id } :: rest.steps, rest.result⟩
  else do
    return ⟨[← bruckRotateChecked comm call debug l recvLen], .ok ()⟩
termination_by comm.size - count

/-- `bruck_allgather`. -/
def bruckAllgatherChecked (l recvLen : ℕ) : Checked (Call (AmNet.Stage Region α)) := do
  let n := comm.size
  let sendBuf : Slice Region := ⟨(call, .send), 0, l⟩
  if recvLen ≠ (← mul debug usizeBits l n) then return ⟨[], .error .badShape⟩
  else if n = 1 then
    sameLen ⟨(call, .buf), 0, recvLen⟩ sendBuf
    return ⟨[⟨1, [[bruckCopy call l]]⟩], .ok ()⟩
  else
    let start ← slice (call, .buf) recvLen 0 l
    sameLen start sendBuf
    let rounds ← bruckRoundsChecked comm call debug l recvLen 1 0
    return ⟨[⟨1, [bruckCopy call l :: rounds.steps]⟩], rounds.result⟩

variable {comm call debug}

section Bruck

variable {l : ℕ}

/-- **Some contributions**, one after the other, are a slice of a buffer that is as long as all of
them: neither end of it overflows. -/
theorem slice_contributions {β : Type} {r : Region} {i k : ℕ}
    (hfits : l * comm.size < 2 ^ usizeBits) (h : i + k ≤ comm.size)
    (f : Slice Region → Checked β) :
    (do f (← slice r (l * comm.size) (← mul debug usizeBits i l)
      (← mul debug usizeBits (i + k) l))) = f ⟨r, i * l, k * l⟩ := by
  have hle : ∀ {j}, j ≤ comm.size → j * l ≤ l * comm.size := fun hj => by
    rw [Nat.mul_comm l]
    exact Nat.mul_le_mul_right l hj
  rw [mul_of_lt ((hle (Nat.le_of_add_right_le h)).trans_lt hfits), ok_bind,
    mul_of_lt ((hle h).trans_lt hfits), ok_bind, slice_of_le (Nat.add_mul ..) (hle h), ok_bind]

/-- **The rotation**, when there is an element to fill its buffer with. -/
theorem bruckRotateChecked_eq (hrank : comm.rank < comm.size) (hl : 0 < l)
    (hfits : l * comm.size < 2 ^ usizeBits) :
    bruckRotateChecked comm call debug l (l * comm.size) =
      .ok (bruckRotate comm call l : AmNet.Instr _ α) := by
  have hpos : 0 < comm.size := Nat.zero_lt_of_lt hrank
  rw [bruckRotateChecked]
  dsimp only
  rw [index_of_lt hl, ok_bind, mapM_eq_ok (g := fun k =>
    ((⟨(call, .tmp 0), (comm.rank + k) % comm.size * l, l⟩ : Slice Region),
      (⟨(call, .buf), k * l, l⟩ : Slice Region))) fun k hk => ?_, ok_bind, sameLen_mk]
  · rw [bruckRotate, Nat.mul_comm l]
    simp only [List.foldl_map]
    rfl
  · have hone : ∀ {i}, i < comm.size → i + 1 ≤ comm.size := fun h => h
    rw [rem_of_pos hpos, ok_bind, slice_contributions hfits (hone (Nat.mod_lt _ hpos)),
      slice_contributions hfits (hone (List.mem_range.mp hk)), sameLen_mk, Nat.one_mul]
    rfl

/-- **The loop**, when there is such an element. -/
theorem bruckRoundsChecked_eq (hrank : comm.rank < comm.size) (hl : 0 < l)
    (hfits : l * comm.size < 2 ^ usizeBits) (count round : ℕ) :
    bruckRoundsChecked comm call debug l (l * comm.size) count round =
      .ok (bruckRounds comm call l count round : Call (AmNet.Instr _ α)) := by
  have hpos : 0 < comm.size := Nat.zero_lt_of_lt hrank
  induction hk : comm.size - count using Nat.strongRecOn generalizing count round with
  | ind k ih =>
  rw [bruckRoundsChecked, bruckRounds]
  by_cases hcount : 0 < count ∧ count < comm.size
  · have hmin : count + min count (comm.size - count) ≤ comm.size := by omega
    rw [if_pos hcount, if_pos hcount]
    dsimp only
    rw [sub_of_le hcount.2.le, ok_bind, sub_of_le (by omega), ok_bind, rem_of_pos hpos, ok_bind,
      rem_of_pos hpos, ok_bind, slice_contributions hfits (by omega),
      slice_contributions hfits hmin]
    cases comm.endpoint ((comm.rank + comm.size - count) % comm.size) with
    | none => rfl
    | some sendEp =>
      dsimp only
      rw [ih _ (by omega) _ _ rfl, ok_bind, Nat.zero_mul]
      rfl
  · rw [if_neg hcount, if_neg hcount, bruckRotateChecked_eq hrank hl hfits]
    rfl

end Bruck

section Connected

variable {n p l : ℕ}

end Connected

/-- **Bruck's allgather does not panic**, when the product of the lengths fits, unless the first
element of an empty buffer is asked for. -/
theorem bruckAllgatherChecked_eq {l : ℕ} (hrank : comm.rank < comm.size) (recvLen : ℕ)
    (hfits : l * comm.size < 2 ^ usizeBits)
    (h : recvLen ≠ l * comm.size ∨ comm.size = 1 ∨ 0 < l) :
    bruckAllgatherChecked comm call debug l recvLen =
      .ok (bruckAllgather comm call l recvLen : Call (AmNet.Stage _ α)) := by
  rw [bruckAllgatherChecked, bruckAllgather]
  dsimp only
  rw [mul_of_lt hfits, ok_bind]
  by_cases hlen : recvLen = l * comm.size
  · subst hlen
    rw [if_neg (not_not.mpr rfl), if_neg (not_not.mpr rfl)]
    by_cases hone : comm.size = 1
    · rw [if_pos hone, if_pos hone, hone, Nat.mul_one, sameLen_mk]
      rfl
    · have hl : 0 < l := (h.resolve_left (not_not.mpr rfl)).resolve_left hone
      have hle : l ≤ l * comm.size := Nat.le_mul_of_pos_right l (Nat.zero_lt_of_lt hrank)
      rw [if_neg hone, if_neg hone, slice_of_le (Nat.zero_add l).symm hle, ok_bind, sameLen_mk,
        ok_bind, bruckRoundsChecked_eq hrank hl hfits]
      rfl
  · rw [if_pos hlen, if_pos hlen]
    rfl

variable (comm call)

/-- The rounds of `broadcast`. -/
def broadcastRoundsChecked (len root logical : ℕ) :
    Bool → List ℕ → Checked (Call (AmNet.Instr Region α))
  | _, [] => return ⟨[], .ok ()⟩
  | true, round :: rounds => do
    let n := comm.size
    let mask ← shl usizeBits 1 round
    let peerLogical := logical ||| mask
    if peerLogical ≠ logical ∧ peerLogical < n then
      let peer ← rem (peerLogical + root) n
      match comm.endpoint peer with
      | none => return ⟨[], .error (.protocol "bcast: missing endpoint")⟩
      | some ep =>
        let rest ← broadcastRoundsChecked len root logical true rounds
        return ⟨broadcastSend comm call len round ep :: rest.steps, rest.result⟩
    else broadcastRoundsChecked len root logical true rounds
  | false, round :: rounds => do
    let n := comm.size
    let _ ← shl usizeBits 1 round
    let highestBit ← sub (← sub usizeBits 1) (leadingZeros logical)
    if round = highestBit then
      let parentLogical := logical &&& usizeNot (← shl usizeBits 1 round)
      let parent ← rem (parentLogical + root) n
      let rest ← broadcastRoundsChecked len root logical true rounds
      return ⟨{
        sends := []
        recv := some (.ofHeader ⟨UInt16.ofNat parent, UInt16.ofNat round, phaseBcast, 0⟩,
          ⟨(call, .buf), 0, len⟩)
        after := id } :: rest.steps, rest.result⟩
    else broadcastRoundsChecked len root logical false rounds

/-- `broadcast`. -/
def broadcastChecked (len root : ℕ) : Checked (Call (AmNet.Stage Region α)) := do
  let n := comm.size
  let rank := comm.rank
  if n = 1 then return ⟨[], .ok ()⟩
  else if n ≤ root then return ⟨[], .error (.protocol "broadcast: root out of range")⟩
  else
    let logical ← rem (← sub (rank + n) root) n
    let rounds := max (← sub usizeBits (leadingZeros (← sub n 1))) 1
    let made ← broadcastRoundsChecked comm call len root logical (logical = 0)
      (List.range rounds)
    return ⟨[⟨1, [made.steps]⟩], made.result⟩

variable {comm call}

variable (comm call debug)

/-- The sends of `scatter`. -/
def scatterSendsChecked (sendLen chunk root : ℕ) :
    List ℕ → Checked (Except CollectiveError (List (AmNet.Send Region)))
  | [] => return .ok []
  | r :: rs => do
    if r = root then scatterSendsChecked sendLen chunk root rs
    else
      let payload ← slice (call, .send) sendLen (← mul debug usizeBits r chunk)
        (← mul debug usizeBits (r + 1) chunk)
      match comm.endpoint r with
      | none => return .error (.protocol "scatter: missing endpoint")
      | some ep =>
        let sends ← scatterSendsChecked sendLen chunk root rs
        return sends.map (⟨ep, scatterHeader root, payload⟩ :: ·)

/-- `scatter`. -/
def scatterChecked (sendLen : Option ℕ) (chunk root : ℕ) :
    Checked (Call (AmNet.Stage Region α)) := do
  let n := comm.size
  let rank := comm.rank
  let recvBuf : Slice Region := ⟨(call, .buf), 0, chunk⟩
  if n ≤ root then return ⟨[], .error (.protocol "scatter: root out of range")⟩
  else if n = 1 then
    match sendLen with
    | none => return ⟨[], .error (.protocol "scatter: send_buf required at root")⟩
    | some l =>
      if l ≠ chunk then return ⟨[], .error .badShape⟩
      else
        sameLen recvBuf ⟨(call, .send), 0, l⟩
        return ⟨[⟨1, [[scatterCopy call chunk 0]]⟩], .ok ()⟩
  else if rank = root then
    match sendLen with
    | none => return ⟨[], .error (.protocol "scatter: send_buf required at root")⟩
    | some l =>
      if l ≠ (← mul debug usizeBits chunk n) then return ⟨[], .error .badShape⟩
      else
        let off ← mul debug usizeBits rank chunk
        let own ← slice (call, .send) l off (← add debug usizeBits off chunk)
        sameLen recvBuf own
        let copy : AmNet.Instr Region α :=
          { sends := [], recv := none, after := fun h => h.copyInto recvBuf (h.read own) }
        -- the capacity of the list of sends
        let _ ← sub n 1
        match ← scatterSendsChecked comm call debug l chunk root (List.range n) with
        | .error e => return ⟨[⟨1, [[copy]]⟩], .error e⟩
        | .ok sends => return ⟨[⟨1, [[copy, ⟨sends, none, id⟩]]⟩], .ok ()⟩
  else return ⟨[⟨1, [[scatterRecv call chunk root]]⟩], .ok ()⟩

variable {comm call debug}

section Connected

variable {n p chunk l : ℕ}

end Connected

/-! ### All of them -/

/-- A call of one of the collectives, by the lengths of its buffers and its other
arguments. -/
inductive CollectiveArgs
  | ring (len : ℕ)
  | pipelinedRing (len microChunks maxInFlight : ℕ)
  | recursiveDoubling (len : ℕ)
  | bruck (sendLen recvLen : ℕ)
  | broadcast (len root : ℕ)
  | scatter (sendLen : Option ℕ) (recvLen root : ℕ)

/-- **The call does not panic**: none of the operations that it comes to does. In a debug build
overflow is checked. -/
def CollectiveArgs.Runs (op : Op α) (debug : Bool) (comm : UcxCommunicator) (call : ℕ) :
    CollectiveArgs → Prop
  | .ring len => ∃ c, ringAllreduceChecked op comm call len = .ok c
  | .pipelinedRing len microChunks maxInFlight =>
    ∃ c, pipelinedRingChecked op comm call len microChunks maxInFlight = .ok c
  | .recursiveDoubling len => ∃ c, recursiveDoublingChecked op comm call len = .ok c
  | .bruck sendLen recvLen => ∃ c : Call (AmNet.Stage Region α),
      bruckAllgatherChecked comm call debug sendLen recvLen = .ok c
  | .broadcast len root => ∃ c : Call (AmNet.Stage Region α),
      broadcastChecked comm call len root = .ok c
  | .scatter sendLen recvLen root => ∃ c : Call (AmNet.Stage Region α),
      scatterChecked comm call debug sendLen recvLen root = .ok c

/-- The shape check of the call multiplies a length with the number of ranks, and the product does
not fit into a `usize`: in a debug build, or when the product wraps to the length that it is
compared with. -/
def CollectiveArgs.Overflows (debug : Bool) (n p : ℕ) : CollectiveArgs → Prop
  | .bruck sendLen recvLen => 2 ^ usizeBits ≤ sendLen * n ∧
      (debug = true ∨ recvLen = sendLen * n % 2 ^ usizeBits)
  | .scatter (some sendLen) recvLen root => n ≠ 1 ∧ p = root ∧ 2 ^ usizeBits ≤ recvLen * n ∧
      (debug = true ∨ sendLen = recvLen * n % 2 ^ usizeBits)
  | _ => False

end Pluvio
