import Pluvio.Collective.AmOutline
import Pluvio.Collective.AmProgress
import Pluvio.Collective.Ring

/-!
# Pipelined ring allreduce

Each chunk of the ring is cut into micro-chunks, and each micro-chunk is a chain of
its own around the ring: `n - 1` reduce-scatter steps in the first phase and `n - 1`
allgather steps in the second. A rank keeps at most `max_in_flight` chains going and
enters the second phase when all chains of the first have returned.

The step of a message is written into 16 bits of its header. With more than 65537
ranks two steps of a chain share a key, so everything here is about up to 65537
ranks; `Pluvio.Collective.PipelinedWrap` is about what happens beyond.

A chain touches its own rows of the chunks and its own scratch buffer. What these
hold after `k` steps of a phase is what the plain ring's chunks hold
(`Pluvio.ringAt`), whatever the operator.
-/

namespace Pluvio

open AmNet

variable {α : Type*}

section Source

variable (op : Op α) (comm : UcxCommunicator) (call : ℕ)

/-- The table of slots: micro-chunk `m` of chunk `c` at `c * micro_chunks + m`. -/
def microSlot (chunk microChunks microSize i : ℕ) : Slice Region :=
  let chunkIdx := i / microChunks
  let m := i % microChunks
  ⟨(call, .buf), chunkIdx * chunk + m * microSize, microSize⟩

/-- `reduce_scatter_chain`. -/
def reduceScatterChain (slots : ℕ → Slice Region) (nextEp microChunks microSize m : ℕ) :
    List (Instr Region α) :=
  let n := comm.size
  let rank := comm.rank
  let prev := (rank + n - 1) % n
  (List.range (n - 1)).map fun step =>
    let sendIdx := (rank + n - step) % n
    let recvIdx := (rank + n - step - 1) % n
    { sends := [⟨nextEp, ⟨UInt16.ofNat rank, UInt16.ofNat step, 0, UInt8.ofNat m⟩,
        slots (sendIdx * microChunks + m)⟩]
      recv := some (.ofHeader ⟨UInt16.ofNat prev, UInt16.ofNat step, 0, UInt8.ofNat m⟩,
        ⟨(call, .tmp m), 0, microSize⟩)
      after := fun h =>
        op.reduceSlice h (slots (recvIdx * microChunks + m)) ⟨(call, .tmp m), 0, microSize⟩ }

/-- `allgather_chain`. -/
def allgatherChain (slots : ℕ → Slice Region) (nextEp microChunks m : ℕ) :
    List (Instr Region α) :=
  let n := comm.size
  let rank := comm.rank
  let prev := (rank + n - 1) % n
  (List.range (n - 1)).map fun step =>
    let sendIdx := (rank + n - step + 1) % n
    let recvIdx := (rank + n - step) % n
    { sends := [⟨nextEp, ⟨UInt16.ofNat rank, UInt16.ofNat step, 1, UInt8.ofNat m⟩,
        slots (sendIdx * microChunks + m)⟩]
      recv := some (.ofHeader ⟨UInt16.ofNat prev, UInt16.ofNat step, 1, UInt8.ofNat m⟩,
        slots (recvIdx * microChunks + m))
      after := id }

/-- `pipelined_ring` on a buffer of `len` elements. -/
def pipelinedRing (len microChunks maxInFlight : ℕ) : Call (Stage Region α) :=
  let n := comm.size
  let rank := comm.rank
  if n ≤ 1 then ⟨[], .ok ()⟩
  else if microChunks = 0 ∨ maxInFlight = 0 then
    ⟨[], .error (.protocol "pipelined ring: micro_chunks and max_in_flight must be > 0")⟩
  else if microChunks > 255 then
    ⟨[], .error (.protocol
      "pipelined ring: micro_chunks > 255 (does not fit in AmHeader::micro_chunk)")⟩
  else if ¬n ∣ len then ⟨[], .error .badShape⟩
  else
    let chunk := len / n
    if ¬microChunks ∣ chunk then ⟨[], .error .badShape⟩
    else
      let microSize := chunk / microChunks
      let next := (rank + 1) % n
      match comm.endpoint next with
      | none => ⟨[], .error (.protocol "no endpoint to next rank")⟩
      | some nextEp =>
        let slots := microSlot call chunk microChunks microSize
        ⟨[⟨maxInFlight, (List.range microChunks).map
            (reduceScatterChain op comm call slots nextEp microChunks microSize)⟩,
          ⟨maxInFlight, (List.range microChunks).map
            (allgatherChain comm slots nextEp microChunks)⟩], .ok ()⟩

end Source

/-! ### The phases of a call -/

/-- The shape of a call: the length of its buffer, the number of micro-chunks and the
window. -/
structure PipelineShape where
  len : ℕ
  microChunks : ℕ
  maxInFlight : ℕ

/-- The shapes a call of `n` ranks accepts. -/
structure PipelineShape.Ok (sh : PipelineShape) (n : ℕ) : Prop where
  microChunks_pos : 1 ≤ sh.microChunks
  microChunks_le : sh.microChunks ≤ 255
  maxInFlight_pos : 1 ≤ sh.maxInFlight
  len_dvd : n ∣ sh.len
  chunk_dvd : sh.microChunks ∣ sh.len / n

namespace PipelineShape

/-- The size of a chunk. -/
def chunk (sh : PipelineShape) (n : ℕ) : ℕ := sh.len / n

/-- The size of a micro-chunk. -/
def micro (sh : PipelineShape) (n : ℕ) : ℕ := sh.chunk n / sh.microChunks

end PipelineShape

variable {n p q m k : ℕ} {sh : PipelineShape}

/-- Micro-chunk `m` of chunk `c`. -/
def microSlice (n call : ℕ) (sh : PipelineShape) (c m : ℕ) : Slice Region :=
  ⟨(call, .buf), c * sh.chunk n + m * sh.micro n, sh.micro n⟩

theorem microSlot_eq (n : ℕ) (sh : PipelineShape) (call c : ℕ) (hm : m < sh.microChunks) :
    microSlot call (sh.chunk n) sh.microChunks (sh.micro n) (c * sh.microChunks + m) =
      microSlice n call sh c m := by
  rw [microSlot, Nat.mul_comm c, Nat.mul_add_div (by omega), Nat.div_eq_of_lt hm, Nat.add_zero,
    Nat.mul_add_mod, Nat.mod_eq_of_lt hm]
  rfl

/-- The chunk that is sent in a step of a phase. -/
def sendChunk (n phase p k : ℕ) : ℕ :=
  if phase = 0 then (p + n - k) % n else (p + n - k + 1) % n

/-- The header of a step. -/
def stepHeader (phase : UInt8) (p k m : ℕ) : AmHeader :=
  ⟨UInt16.ofNat p, UInt16.ofNat k, phase, UInt8.ofNat m⟩

/-- A step of a chain, in the phase `phase` of a call. -/
def microInstr (op : Op α) (n call : ℕ) (sh : PipelineShape) (phase p m k : ℕ) :
    Instr Region α where
  sends := [⟨(p + 1) % n, stepHeader (UInt8.ofNat phase) p k m,
    microSlice n call sh (sendChunk n phase p k) m⟩]
  recv := some (.ofHeader (stepHeader (UInt8.ofNat phase) (back n p 1) k m),
    if phase = 0 then ⟨(call, .tmp m), 0, sh.micro n⟩
    else microSlice n call sh ((p + n - k) % n) m)
  after := if phase = 0 then fun h => op.reduceSlice h
      (microSlice n call sh ((p + n - k - 1) % n) m) ⟨(call, .tmp m), 0, sh.micro n⟩
    else id

/-- **A phase of a call, laid out for all ranks.** -/
def pipelinedPlan (op : Op α) (hn : 2 ≤ n) (call : ℕ) (hsh : sh.Ok n) (phase : ℕ) :
    Plan n Region α where
  width := sh.microChunks
  window := sh.maxInFlight
  len _ _ := n - 1
  instr := microInstr op n call sh phase
  window_pos := hsh.maxInFlight_pos
  len_pos _ _ _ _ := by omega

/-- **A call with a good shape** goes through its two phases and returns `Ok`. -/
theorem pipelinedRing_eq (op : Op α) (hn : 2 ≤ n) (hp : p < n) (call : ℕ) (hsh : sh.Ok n) :
    pipelinedRing op (.connected n p) call sh.len sh.microChunks sh.maxInFlight =
      ⟨[(pipelinedPlan op hn call hsh 0).stage p, (pipelinedPlan op hn call hsh 1).stage p],
        .ok ()⟩ := by
  have hnext : (UcxCommunicator.connected n p).endpoint ((p + 1) % n) = some ((p + 1) % n) := by
    refine UcxCommunicator.endpoint_connected (Nat.mod_lt _ (by omega)) ?_
    rw [mod_eq_ite (by omega)]
    split <;> omega
  have hsize : (UcxCommunicator.connected n p).size = n := rfl
  have hrank : (UcxCommunicator.connected n p).rank = p := rfl
  have h1 := hsh.microChunks_pos
  have h2 := hsh.microChunks_le
  have h3 := hsh.maxInFlight_pos
  simp only [pipelinedRing, hsize, hrank, hnext, if_neg (show ¬n ≤ 1 by omega),
    if_neg (show ¬(sh.microChunks = 0 ∨ sh.maxInFlight = 0) by omega),
    if_neg (show ¬sh.microChunks > 255 by omega), if_neg (not_not.mpr hsh.len_dvd),
    if_neg (not_not.mpr hsh.chunk_dvd), Plan.stage, pipelinedPlan]
  refine congrArg (fun l => Call.mk l (.ok ())) (congrArg₂ (fun a b => [a, b]) ?_ ?_)
  · refine congrArg _ (List.map_congr_left fun m hm => List.map_congr_left fun k _ => ?_)
    have hm := List.mem_range.mp hm
    have hslot := fun c => microSlot_eq n sh call c hm
    simp only [PipelineShape.micro, PipelineShape.chunk] at hslot
    simp only [hsize, hrank, hslot]
    rfl
  · refine congrArg _ (List.map_congr_left fun m hm => List.map_congr_left fun k _ => ?_)
    have hm := List.mem_range.mp hm
    have hslot := fun c => microSlot_eq n sh call c hm
    simp only [PipelineShape.micro, PipelineShape.chunk] at hslot
    simp only [hsize, hrank, hslot]
    rfl

/-! ### The keys of a step -/

section Keys

variable {op : Op α} {hn : 2 ≤ n} {hsh : sh.Ok n} {call phase : ℕ}

/-- What rank `p` sends in a step. -/
def microSend (n call : ℕ) (sh : PipelineShape) (phase p m k : ℕ) : Send Region :=
  ⟨(p + 1) % n, stepHeader (UInt8.ofNat phase) p k m,
    microSlice n call sh (sendChunk n phase p k) m⟩

/-- Where it puts what it receives. -/
def microTarget (n call : ℕ) (sh : PipelineShape) (phase p m k : ℕ) : Slice Region :=
  if phase = 0 then ⟨(call, .tmp m), 0, sh.micro n⟩
  else microSlice n call sh ((p + n - k) % n) m

theorem pipelinedPlan_isSend {j : ℕ} {sd : Send Region} :
    (pipelinedPlan op hn call hsh phase).IsSend p m k j sd ↔ p < n ∧ m < sh.microChunks ∧
      k < n - 1 ∧ j = 0 ∧ sd = microSend n call sh phase p m k := by
  constructor
  · rintro ⟨⟨hp, hm, hk⟩, hsd⟩
    rcases j with - | j
    · exact ⟨hp, hm, hk, rfl, (Option.some.inj hsd).symm⟩
    · cases hsd
  · rintro ⟨hp, hm, hk, rfl, rfl⟩
    exact ⟨⟨hp, hm, hk⟩, rfl⟩

theorem pipelinedPlan_isRecv {κ : RecvKey} {t : Slice Region} :
    (pipelinedPlan op hn call hsh phase).IsRecv q m k κ t ↔ q < n ∧ m < sh.microChunks ∧
      k < n - 1 ∧ κ = .ofHeader (stepHeader (UInt8.ofNat phase) (back n q 1) k m) ∧
        t = microTarget n call sh phase q m k := by
  constructor
  · rintro ⟨⟨hq, hm, hk⟩, hrecv⟩
    cases hrecv
    exact ⟨hq, hm, hk, rfl, rfl⟩
  · rintro ⟨hq, hm, hk, rfl, rfl⟩
    exact ⟨⟨hq, hm, hk⟩, rfl⟩

/-- **The step of a message can be read off its key**, up to 65536 steps. -/
theorem stepHeader_step (hn' : n ≤ 65537) (hk : k < n - 1) (phase : UInt8) (p m : ℕ) :
    (RecvKey.ofHeader (stepHeader phase p k m)).step.toNat = k := by
  show (UInt16.ofNat k).toNat = k
  rw [UInt16.toNat_ofNat']
  omega

/-- **And its chain**, up to 255 of them. -/
theorem stepHeader_microChunk (hsh : sh.Ok n) (hm : m < sh.microChunks) (phase : UInt8)
    (p k : ℕ) : (RecvKey.ofHeader (stepHeader phase p k m)).microChunk.toNat = m := by
  have hle := hsh.microChunks_le
  show (UInt8.ofNat m).toNat = m
  rw [UInt8.toNat_ofNat']
  omega

/-- The key of a step says which step it is. -/
theorem stepHeader_inj (hn' : n ≤ 65537) (hsh : sh.Ok n) {phase phase' : UInt8} {p' m' k' : ℕ}
    (hm : m < sh.microChunks) (hm' : m' < sh.microChunks) (hk : k < n - 1) (hk' : k' < n - 1)
    (h : RecvKey.ofHeader (stepHeader phase p k m) = .ofHeader (stepHeader phase' p' k' m')) :
    m = m' ∧ k = k' := by
  constructor
  · rw [← stepHeader_microChunk hsh hm phase p k, h, stepHeader_microChunk hsh hm']
  · rw [← stepHeader_step hn' hk phase p m, h, stepHeader_step hn' hk']

/-- The next place is that of no other rank. -/
theorem succ_mod_inj {p' : ℕ} (hp : p < n) (hp' : p' < n) (h : (p + 1) % n = (p' + 1) % n) :
    p = p' := by
  rw [← back_one_succ hp, h, back_one_succ hp']

/-- **Sends and receives of a phase match**, chain by chain and step by step. -/
theorem pipelinedPlan_matched (op : Op α) (hn : 2 ≤ n) (hn' : n ≤ 65537) (call : ℕ)
    (hsh : sh.Ok n) (phase : ℕ) :
    (pipelinedPlan op hn call hsh phase).Matched fun _ _ k => k := by
  constructor
  · exact fun h => h
  · intro p m k j sd p' m' k' j' sd' hs hs' hdst hkey
    obtain ⟨hp, hm, hk, rfl, rfl⟩ := pipelinedPlan_isSend.mp hs
    obtain ⟨hp', hm', hk', rfl, rfl⟩ := pipelinedPlan_isSend.mp hs'
    obtain ⟨rfl, rfl⟩ := stepHeader_inj hn' hsh hm hm' hk hk' hkey
    exact ⟨succ_mod_inj hp hp' hdst, rfl, rfl, rfl⟩
  · intro q m k m' k' κ t t' h h'
    obtain ⟨-, hm, hk, rfl, -⟩ := pipelinedPlan_isRecv.mp h
    obtain ⟨-, hm', hk', hκ, -⟩ := pipelinedPlan_isRecv.mp h'
    exact stepHeader_inj hn' hsh hm hm' hk hk' hκ
  · intro q m k κ t h
    obtain ⟨hq, hm, hk, rfl, rfl⟩ := pipelinedPlan_isRecv.mp h
    exact ⟨back n q 1, k, 0, _, pipelinedPlan_isSend.mpr ⟨back_lt hq, hm, hk, rfl, rfl⟩,
      succ_back_one hq, rfl, Nat.le_refl _⟩
  · intro p m k j sd hs
    obtain ⟨hp, hm, hk, rfl, rfl⟩ := pipelinedPlan_isSend.mp hs
    refine ⟨k, _, pipelinedPlan_isRecv.mpr ⟨Nat.mod_lt _ (by omega), hm, hk, ?_, rfl⟩⟩
    show RecvKey.ofHeader (stepHeader (UInt8.ofNat phase) p k m) =
      .ofHeader (stepHeader (UInt8.ofNat phase) (back n ((p + 1) % n) 1) k m)
    rw [back_one_succ hp]

/-- Whatever the phases and the calls, a rank gets its messages from the rank before
it. -/
theorem pipelinedPlan_sameSender {op' : Op α} {sh' : PipelineShape} {hsh' : sh'.Ok n}
    {call' phase' : ℕ} : (pipelinedPlan op hn call hsh phase).SameSender
      (pipelinedPlan op' hn call' hsh' phase') := by
  intro p m k j sd p' m' k' j' sd' hs hs' hdst _
  obtain ⟨hp, -, -, -, rfl⟩ := pipelinedPlan_isSend.mp hs
  obtain ⟨hp', -, -, -, rfl⟩ := pipelinedPlan_isSend.mp hs'
  exact succ_mod_inj hp hp' hdst

end Keys

/-! ### What a chain holds -/

section Rows

variable {call : ℕ}

/-- A cell of a row of chain `m`: place `x` of its micro-chunk of chunk `c`. -/
def rowCell (n : ℕ) (sh : PipelineShape) (m c x : ℕ) : ℕ := c * sh.chunk n + m * sh.micro n + x

theorem PipelineShape.Ok.chunk_eq (hsh : sh.Ok n) : sh.chunk n = sh.microChunks * sh.micro n :=
  (Nat.mul_div_cancel' hsh.chunk_dvd).symm

/-- A place in a micro-chunk is a place in its chunk. -/
theorem PipelineShape.Ok.row_lt (hsh : sh.Ok n) (hm : m < sh.microChunks) {x : ℕ}
    (hx : x < sh.micro n) : m * sh.micro n + x < sh.chunk n := by
  have := Nat.mul_le_mul_right (sh.micro n) hm
  rw [Nat.succ_mul] at this
  rw [hsh.chunk_eq]
  omega

/-- **The rows of different chains, or of different chunks, are apart.** -/
theorem not_has_row (hsh : sh.Ok n) {c c' m' x : ℕ} {r : Region} (hm : m < sh.microChunks)
    (hm' : m' < sh.microChunks) (hx : x < sh.micro n) (hne : c ≠ c' ∨ m ≠ m') :
    ¬(microSlice n call sh c' m').Has r (rowCell n sh m c x) := by
  rintro ⟨-, hlo, hhi⟩
  have hrow := hsh.row_lt hm hx
  have hmicro : 0 < sh.micro n := by omega
  have hrow' := hsh.row_lt hm' (Nat.sub_lt hmicro Nat.one_pos)
  unfold rowCell microSlice at *
  dsimp only at hlo hhi
  rcases Nat.lt_trichotomy c c' with hlt | rfl | hgt
  · have := Nat.mul_le_mul_right (sh.chunk n) hlt
    rw [Nat.succ_mul] at this
    omega
  · rcases Nat.lt_trichotomy m m' with hlt | rfl | hgt
    · have := Nat.mul_le_mul_right (sh.micro n) hlt
      rw [Nat.succ_mul] at this
      omega
    · exact hne.elim (fun h => h rfl) fun h => h rfl
    · have := Nat.mul_le_mul_right (sh.micro n) hgt
      rw [Nat.succ_mul] at this
      omega
  · have := Nat.mul_le_mul_right (sh.chunk n) hgt
    rw [Nat.succ_mul] at this
    omega

end Rows

section Outline

variable (op : Op α) (heap : ℕ → Heap Region α)

/-- What rank `p` has in a cell of chunk `c` after `t` steps of the plain ring. -/
def ringCell (n p c t cell : ℕ) : α := ringAt op n (fun r => heap r (0, .buf) cell) p c t

/-- The rows of chain `m` are as after `t` steps of the plain ring. -/
def RowsAt (n : ℕ) (sh : PipelineShape) (p m t : ℕ) (h : Heap Region α) : Prop :=
  ∀ c < n, ∀ x < sh.micro n,
    h (0, .buf) (rowCell n sh m c x) = ringCell op heap n p c t (rowCell n sh m c x)

/-- The message rank `q` receives in a step. -/
def rowPayload (n : ℕ) (sh : PipelineShape) (phase q m k : ℕ) : List α :=
  let p := back n q 1
  (List.range (sh.micro n)).map fun x =>
    ringCell op heap n p (sendChunk n phase p k) (phase * (n - 1) + k)
      (rowCell n sh m (sendChunk n phase p k) x)

variable {op heap}

/-- **What is sent** is the row that the plain ring sends. -/
theorem RowsAt.read {phase : ℕ} (hp : p < n) {h : Heap Region α}
    (hh : RowsAt op heap n sh p m (phase * (n - 1) + k) h) :
    h.read (microSlice n 0 sh (sendChunk n phase p k) m) =
      rowPayload op heap n sh phase ((p + 1) % n) m k := by
  have hc : sendChunk n phase p k < n := by
    unfold sendChunk
    split <;> exact Nat.mod_lt _ (by omega)
  refine List.map_congr_left fun x hx => ?_
  rw [back_one_succ hp]
  exact hh _ hc x (List.mem_range.mp hx)

/-- **A reduce-scatter step** reduces the rows as the plain ring reduces its
chunks. -/
theorem RowsAt.reduceScatter (hsh : sh.Ok n) (hp : p < n) (hm : m < sh.microChunks)
    (hk : k < n - 1) {h h' : Heap Region α} (hh : RowsAt op heap n sh p m k h)
    (hbuf : ∀ c < n, ∀ x < sh.micro n,
      h' (0, .buf) (rowCell n sh m c x) = h (0, .buf) (rowCell n sh m c x))
    (htmp : ∀ x < sh.micro n, (rowPayload op heap n sh 0 p m k)[x]? = some (h' (0, .tmp m) x)) :
    RowsAt op heap n sh p m (k + 1) (op.reduceSlice h'
      (microSlice n 0 sh ((p + n - k - 1) % n) m) ⟨(0, .tmp m), 0, sh.micro n⟩) := by
  have hrecv : (p + n - k - 1) % n = back n p (k + 1) := by rw [back, Nat.sub_sub]
  have hsend : sendChunk n 0 (back n p 1) k = back n p (k + 1) := by
    rw [sendChunk, if_pos rfl]
    exact back_back_one hp (by omega)
  intro c hc x hx
  rw [hrecv, ringCell, ringAt_reduceScatter hp hc hk]
  by_cases heq : c = back n p (k + 1)
  · subst heq
    rw [if_pos rfl]
    have hcell := htmp x hx
    rw [rowPayload, List.getElem?_map, List.getElem?_range hx, Option.map_some, hsend,
      Option.some.injEq, Nat.zero_mul, Nat.zero_add] at hcell
    have hlen : (microSlice n 0 sh (back n p (k + 1)) m).len =
        (⟨(0, .tmp m), 0, sh.micro n⟩ : Slice Region).len := rfl
    refine Eq.trans (op.reduceSlice_of_has h' hlen (i := x) hx) ?_
    refine congrArg₂ op.apply ?_ ?_
    · exact (hbuf _ hc x hx).trans (hh _ hc x hx)
    · rw [Nat.zero_add]
      exact hcell.symm
  · rw [if_neg heq, op.reduceSlice_of_not_has _ (not_has_row hsh hm hm hx (.inl heq)),
      hbuf c hc x hx]
    exact hh c hc x hx

/-- **An allgather step** copies the rows as the plain ring copies its chunks. -/
theorem RowsAt.allgather (hsh : sh.Ok n) (hp : p < n) (hm : m < sh.microChunks)
    (hk : k < n - 1) {h h' : Heap Region α} (hh : RowsAt op heap n sh p m (n - 1 + k) h)
    (hrow : ∀ c < n, ∀ x < sh.micro n, h' (0, .buf) (rowCell n sh m c x) =
      h.copyInto (microSlice n 0 sh ((p + n - k) % n) m) (rowPayload op heap n sh 1 p m k)
        (0, .buf) (rowCell n sh m c x)) :
    RowsAt op heap n sh p m (n - 1 + (k + 1)) h' := by
  have hsend : sendChunk n 1 (back n p 1) k = back n p k := by
    rw [sendChunk, if_neg Nat.one_ne_zero]
    exact back_one_sub_add_one hp (by omega)
  intro c hc x hx
  rw [hrow c hc x hx, ringCell, ← Nat.add_assoc, ringAt_allgather hp hc (by omega) (by omega),
    Nat.add_sub_cancel_left]
  show h.copyInto (microSlice n 0 sh (back n p k) m) _ _ _ = _
  by_cases heq : c = back n p k
  · subst heq
    rw [if_pos rfl]
    refine Heap.copyInto_of_has h (s := microSlice n 0 sh (back n p k) m) hx ?_
    rw [rowPayload, List.getElem?_map, List.getElem?_range hx, Option.map_some, hsend, Nat.one_mul]
    rfl
  · rw [if_neg heq, Heap.copyInto_of_not_has _ _ (not_has_row hsh hm hm hx (.inl heq))]
    exact hh c hc x hx

end Outline

/-! ### The program -/

/-- The program of a rank that makes one call. -/
def pipelinedProgram (op : Op α) (n : ℕ) (sh : PipelineShape) (p : ℕ) : List (Stage Region α) :=
  (pipelinedRing op (.connected n p) 0 sh.len sh.microChunks sh.maxInFlight).steps

/-- The call, laid out for all ranks. -/
def pipelinedLayout (op : Op α) (hn : 2 ≤ n) (hsh : sh.Ok n) :
    Layout n (pipelinedProgram op n sh) :=
  .ofPlans 2 (pipelinedPlan op hn 0 hsh) _ fun p hp => by
    rw [pipelinedProgram, pipelinedRing_eq op hn hp 0 hsh]
    rfl

/-- The cells a chain works on: its scratch buffer and its rows. -/
def ChainCells (n : ℕ) (sh : PipelineShape) (m : ℕ) (r : Region) (cell : ℕ) : Prop :=
  m < sh.microChunks ∧
    (r = (0, .tmp m) ∨ r = (0, .buf) ∧ ∃ c < n, ∃ x < sh.micro n, cell = rowCell n sh m c x)

/-- The scratch buffer of a chain is not that of another one. -/
theorem not_chainCells_tmp {m' : ℕ} (hne : m' ≠ m) {cell : ℕ} :
    ¬ChainCells n sh m' (0, .tmp m) cell := by
  rintro ⟨-, hr | ⟨hr, -⟩⟩
  · cases hr
    exact hne rfl
  · cases hr

/-- A chain's rows are not those of another one. -/
theorem not_chainCells_row (hsh : sh.Ok n) {m' c : ℕ} (hm : m < sh.microChunks) (hne : m' ≠ m)
    {r : Region} {cell : ℕ} (h : (microSlice n 0 sh c m).Has r cell) :
    ¬ChainCells n sh m' r cell := by
  rintro ⟨hm', rfl | ⟨rfl, c', -, x, hx, rfl⟩⟩
  · cases h.1
  · exact not_has_row hsh hm' hm hx (.inr hne) h

/-- **The outline of a call**: each chain has what the plain ring has. -/
def pipelinedOutline (op : Op α) (hn : 2 ≤ n) (hn' : n ≤ 65537) (hsh : sh.Ok n)
    (heap : ℕ → Heap Region α) : (pipelinedLayout op hn hsh).Outline heap where
  pre i p h := ∀ m < sh.microChunks, RowsAt op heap n sh p m (i * (n - 1)) h
  holds i p m k h := m < sh.microChunks → RowsAt op heap n sh p m (i * (n - 1) + k) h
  foot _ _ m := ChainCells n sh m
  payload i q κ := rowPayload op heap n sh i q κ.microChunk.toNat κ.step.toNat
  init p hp m _ c hc x _ := by
    rw [Nat.zero_mul, ringCell, ringAt_zero hp hc]
  enter _ _ hm hpre _ := hpre _ hm
  leave {i p h} hi hp hend m hm := by
    rw [Nat.succ_mul]
    exact hend m hm hm
  stable {i p m k h h'} hh hag hm c hc x hx := by
    rw [hag _ _ ⟨hm, .inr ⟨rfl, c, hc, x, hx, rfl⟩⟩]
    exact hh hm c hc x hx
  sends {i p m k j sd h} hs hh := by
    obtain ⟨-, hs⟩ := Layout.isSend_ofPlans.mp hs
    obtain ⟨hp, hm, hk, rfl, rfl⟩ := pipelinedPlan_isSend.mp hs
    rw [show (microSend n 0 sh i p m k).key.step.toNat = k from stepHeader_step hn' hk ..,
      show (microSend n 0 sh i p m k).key.microChunk.toNat = m from
        stepHeader_microChunk hsh hm ..]
    exact (hh hm).read hp
  next_recv {i p m k κ t h h'} hrecv hh hag hm := by
    obtain ⟨hi, hrecv⟩ := Layout.isRecv_ofPlans.mp hrecv
    obtain ⟨hp, -, hk, rfl, rfl⟩ := pipelinedPlan_isRecv.mp hrecv
    rw [stepHeader_step hn' hk, stepHeader_microChunk hsh hm] at hag
    show RowsAt op heap n sh p m _ ((microInstr op n 0 sh i p m k).after h')
    rcases i with - | i
    · -- the message is in the scratch buffer, and then reduced
      rw [Nat.zero_mul, Nat.zero_add] at hh ⊢
      refine RowsAt.reduceScatter hsh hp hm hk (hh hm) (fun c hc x hx => ?_) fun x hx => ?_
      · rw [hag _ _ ⟨hm, .inr ⟨rfl, c, hc, x, hx, rfl⟩⟩]
        exact Heap.copyInto_of_not_has _ _ fun hc => by cases hc.1
      · have hcell := hag (0, .tmp m) x ⟨hm, .inl rfl⟩
        have hlen : x < (rowPayload op heap n sh 0 p m k).length := by
          rwa [rowPayload, List.length_map, List.length_range]
        have hcopy := Heap.copyInto_of_has h (s := ⟨(0, .tmp m), 0, sh.micro n⟩) hx
          (List.getElem?_eq_getElem hlen)
        rw [Nat.zero_add] at hcopy
        rw [hcell, List.getElem?_eq_getElem hlen]
        exact congrArg some hcopy.symm
    · -- the message is in its place
      obtain rfl : i = 0 := by
        have : i + 1 < 2 := hi
        omega
      rw [Nat.zero_add, Nat.one_mul] at hh ⊢
      exact RowsAt.allgather hsh hp hm hk (hh hm) fun c hc x hx =>
        hag _ _ ⟨hm, .inr ⟨rfl, c, hc, x, hx, rfl⟩⟩
  next {i p m k h} hat hnone _ := by
    cases hnone
  frame_recv {i p m k κ t m'} hrecv hne r cell hhas := by
    obtain ⟨-, hrecv⟩ := Layout.isRecv_ofPlans.mp hrecv
    obtain ⟨-, hm, -, -, rfl⟩ := pipelinedPlan_isRecv.mp hrecv
    unfold microTarget at hhas
    split at hhas
    · obtain rfl : r = (0, .tmp m) := hhas.1
      exact not_chainCells_tmp hne
    · exact not_chainCells_row hsh hm hne hhas
  frame_after {i p m k m'} h hat hne r cell hfoot := by
    obtain ⟨-, hat⟩ := Layout.at_ofPlans.mp hat
    show (microInstr op n 0 sh i p m k).after h r cell = h r cell
    unfold microInstr
    dsimp only
    split
    · exact op.reduceSlice_of_not_has _ fun hhas => not_chainCells_row hsh hat.chain hne hhas hfoot
    · rfl

/-! ### Runs -/

section Correct

variable {op : Op α} {eager : ℕ → Name → ℕ → Bool} {heap : ℕ → Heap Region α}
  {s : AmNet.State Region α}

/-- The receives of a chain wait for the sends of the previous rank, step by step: its steps fit
into the headers. -/
theorem pipelinedLayout_matched (op : Op α) (hn : 2 ≤ n) (hn' : n ≤ 65537) (hsh : sh.Ok n) :
    (pipelinedLayout op hn hsh).Matched fun _ _ _ k => k :=
  Layout.matched_ofPlans (fun _ => pipelinedPlan_matched op hn hn' 0 hsh _)
    fun _ _ => pipelinedPlan_sameSender

/-- **In one call no message comes too early twice**: the phases have different
keys. -/
theorem pipelined_inTime {hn : 2 ≤ n} {hsh : sh.Ok n} (h : Inv (pipelinedLayout op hn hsh) s)
    (e : Event) : InTime s e := by
  refine h.inTime_of_origin_eq (fun i i' p p' q κ hi hi' => ?_) e
  obtain ⟨m, k, j, sd, hs, -, hκ, -⟩ := hi
  obtain ⟨m', k', j', sd', hs', -, hκ', -⟩ := hi'
  obtain ⟨hlt, hs⟩ := Layout.isSend_ofPlans.mp hs
  obtain ⟨hlt', hs'⟩ := Layout.isSend_ofPlans.mp hs'
  obtain ⟨-, -, -, -, rfl⟩ := pipelinedPlan_isSend.mp hs
  obtain ⟨-, -, -, -, rfl⟩ := pipelinedPlan_isSend.mp hs'
  have hphase : UInt8.ofNat i = UInt8.ofNat i' := congrArg RecvKey.phase (hκ.trans hκ'.symm)
  have hnat := congrArg UInt8.toNat hphase
  rw [UInt8.toNat_ofNat', UInt8.toNat_ofNat'] at hnat
  have hlt : i < 2 := hlt
  have hlt' : i' < 2 := hlt'
  omega

/-- **The invariant and the outline of every run.** -/
theorem pipelined_outlined (hn : 2 ≤ n) (hn' : n ≤ 65537) (hsh : sh.Ok n)
    (h : Reaches (step ⟨n, pipelinedProgram op n sh, eager⟩) (start heap) s) :
    Inv (pipelinedLayout op hn hsh) s ∧ (pipelinedOutline op hn hn' hsh heap).Outlined s :=
  Layout.Outline.outlined_of_steps _ (pipelinedLayout_matched op hn hn' hsh)
    (h.guarded (fun _ hs => inv_of_steps (pipelinedLayout_matched op hn hn' hsh) hs)
      fun _ e _ hinv _ => pipelined_inTime hinv e)

/-- **Every run ends**, with all ranks at the end of the call. -/
theorem pipelined_terminates (hn : 2 ≤ n) (hn' : n ≤ 65537) (hsh : sh.Ok n)
    (heap : ℕ → Heap Region α) :
    Terminates (AmNet.step ⟨n, pipelinedProgram op n sh, eager⟩)
      (Final ⟨n, pipelinedProgram op n sh, eager⟩) (start heap) :=
  (pipelinedLayout_matched op hn hn' hsh).terminates fun _ hs =>
    (pipelined_outlined hn hn' hsh hs).1

/-- The program has two stages. -/
theorem length_pipelinedProgram (hn : 2 ≤ n) (hp : p < n) (hsh : sh.Ok n) :
    (pipelinedProgram op n sh p).length = 2 := by
  rw [pipelinedProgram, pipelinedRing_eq op hn hp 0 hsh]
  rfl

/-- A cell of the buffer is in a row. -/
theorem PipelineShape.Ok.exists_row (hsh : sh.Ok n) (hn : 0 < n) {cell : ℕ}
    (hcell : cell < sh.len) :
    ∃ c < n, ∃ m < sh.microChunks, ∃ x < sh.micro n, cell = rowCell n sh m c x := by
  obtain ⟨c, hc, j, hj, rfl⟩ := exists_chunk hn hsh.len_dvd hcell
  have hj : j < sh.microChunks * sh.micro n := hsh.chunk_eq ▸ hj
  have hmicro : 0 < sh.micro n := Nat.pos_of_lt_mul_left hj
  refine ⟨c, hc, j / sh.micro n, Nat.div_lt_of_lt_mul (by rwa [Nat.mul_comm]),
    j % sh.micro n, Nat.mod_lt _ hmicro, ?_⟩
  rw [rowCell, Nat.add_assoc, Nat.div_add_mod']
  rfl

/-- **Pipelined ring allreduce**, for up to 65537 ranks. In every run of a call with
a good shape: the call returns `Ok`; no rank has more than `max_in_flight` chains in
flight; a state that is not final is not stuck; and a rank that has returned has in
its buffer, element by element, what a plain ring allreduce of the same inputs
leaves there. Nothing is assumed of the operator. -/
theorem pipelined_ring_correct (op : Op α) (hn : 2 ≤ n) (hn' : n ≤ 65537) (hsh : sh.Ok n)
    (eager : ℕ → Name → ℕ → Bool) (heap : ℕ → Heap Region α) {s : AmNet.State Region α}
    (h : Reaches (step ⟨n, pipelinedProgram op n sh, eager⟩) (start heap) s) :
    (∀ p < n, (pipelinedRing op (.connected n p) 0 sh.len sh.microChunks
        sh.maxInFlight).result = .ok ()) ∧
      (∀ p < n, (s.rank p).inFlight ≤ sh.maxInFlight) ∧
      (¬Final ⟨n, pipelinedProgram op n sh, eager⟩ s →
        ¬Stuck (step ⟨n, pipelinedProgram op n sh, eager⟩) s) ∧
      ∀ p < n, (s.rank p).stage = (pipelinedProgram op n sh p).length →
        ∀ (eager' : ℕ → ℕ → Bool) (s' : TagNet.State Region UInt64 α),
          Reaches (TagNet.step ⟨n, ringProgram op n 1 fun _ => sh.len, eager'⟩)
            (TagNet.start heap) s' → RingReturned op n (fun _ => sh.len) s' 0 p →
              ∀ k < sh.len, (s.rank p).node.heap (0, .buf) k = (s'.rank p).heap (0, .buf) k := by
  obtain ⟨hinv, hout⟩ := pipelined_outlined hn hn' hsh h
  refine ⟨fun p hp => ?_, fun p hp => ?_, fun hf hstuck => ?_,
    fun p hp hret eager' s' hs' hret' k hk => ?_⟩
  · rw [pipelinedRing_eq op hn hp 0 hsh]
  · exact (hinv.ranks p hp).inFlight_le fun _ _ => Nat.le_refl _
  · exact hf (hinv.not_stuck (pipelinedLayout_matched op hn hn' hsh) hstuck)
  · -- both are what a chunk holds that has been all around the ring
    have hrows : ∀ m < sh.microChunks,
        RowsAt op heap n sh p m (2 * (n - 1)) (s.rank p).node.heap :=
      (hout.ranks p hp).final (hret.trans (length_pipelinedProgram hn hp hsh))
    obtain ⟨c, hc, m, hm, x, hx, rfl⟩ := hsh.exists_row (by omega) hk
    rw [hrows m hm c hc x hx, ringCell, Nat.two_mul, ringAt_last hp]
    have hj := hsh.row_lt hm hx
    have hring := (ringResult_of_reaches hn (fun _ _ => hsh.len_dvd) hs' Nat.one_pos).chunk p hp
      hret' c hc _ hj
    rw [rowCell, Nat.add_assoc]
    exact hring.symm

/-- Three ranks that subtract, on six elements in two micro-chunks, one at a time: some run ends,
with the buffers that some run of the plain ring leaves. -/
theorem pipelined_ring_correct_three : ∃ s s',
    Reaches (step ⟨3, pipelinedProgram ⟨(· - ·)⟩ 3 ⟨6, 2, 1⟩, fun _ _ _ => true⟩)
      (start fun p _ i => (p * i : ℤ)) s ∧
    Reaches (TagNet.step ⟨3, ringProgram ⟨(· - ·)⟩ 3 1 fun _ => 6, fun _ _ => true⟩)
      (TagNet.start fun p _ i => (p * i : ℤ)) s' ∧
    ∀ p < 3, ∀ k < 6, (s.rank p).node.heap (0, .buf) k = (s'.rank p).heap (0, .buf) k := by
  have hsh : PipelineShape.Ok ⟨6, 2, 1⟩ 3 :=
    ⟨by decide, by decide, by decide, by decide, by decide⟩
  have hterm : Terminates (step ⟨3, pipelinedProgram ⟨(· - ·)⟩ 3 ⟨6, 2, 1⟩, fun _ _ _ => true⟩)
      _ _ := pipelined_terminates (by decide) (by decide) hsh fun p _ i => (p * i : ℤ)
  have hring : Terminates (TagNet.step ⟨3, _, fun _ _ => true⟩) _ _ :=
    (ringLockstep ⟨(· - ·)⟩ (by decide) 1 (fun _ => 6) fun _ _ => ⟨2, rfl⟩).terminates
      fun p _ i => (p * i : ℤ)
  obtain ⟨s, hs, hfinal⟩ := hterm.exists_good
  obtain ⟨s', hs', hfinal'⟩ := hring.exists_good
  exact ⟨s, s', hs, hs', fun p hp => (pipelined_ring_correct ⟨(· - ·)⟩ (by decide) (by decide) hsh
    (fun _ _ _ => true) (fun p _ i => (p * i : ℤ)) hs).2.2.2 p hp (hfinal p hp) _ s' hs'
    (hfinal' p hp).ge⟩

end Correct

end Pluvio
