import Pluvio.Circle
import Pluvio.TagNet
import Pluvio.Collective.Communicator
import Pluvio.Collective.Op
import Pluvio.Collective.Tag

/-!
# Ring allreduce

`n - 1` reduce-scatter steps and `n - 1` allgather steps, each of them one send to
the next rank and one receive from the previous one. Chunk `c` travels around the
ring from rank `c`: after `d` steps rank `c + d` holds its reduction over the ranks
from `c` on (`Pluvio.ringValue`), and the rank that holds all of it is where its
second trip starts.

What the buffers hold after `t` steps of the synchronous run is
`Pluvio.ringAt`; `Pluvio.ring_allreduce_correct` then reads off it what they hold
in any run.
-/

namespace Pluvio

open TagNet

variable {α : Type*}

section Source

variable (op : Op α) (comm : UcxCommunicator) (call : ℕ)

/-- A reduce-scatter step: the await point, and then the local reduction. -/
def reduceScatterStep (chunk nextEp step : ℕ) : Instr Region UInt64 α :=
  let n := comm.size
  let rank := comm.rank
  let prev := (rank + n - 1) % n
  let sendIdx := (rank + n - step) % n
  let recvIdx := (rank + n - step - 1) % n
  { dst := nextEp
    tag := encodeTag rank (UInt16.ofNat step) 0 0
    view := ⟨(call, .buf), sendIdx * chunk, chunk⟩
    recvTag := encodeTag prev (UInt16.ofNat step) 0 0
    target := ⟨(call, .tmp 0), 0, chunk⟩
    after := fun h =>
      op.reduceSlice h ⟨(call, .buf), recvIdx * chunk, chunk⟩ ⟨(call, .tmp 0), 0, chunk⟩ }

/-- A step of the allgather: a chunk goes on unchanged. -/
def allgatherStep (chunk nextEp step : ℕ) : Instr Region UInt64 α :=
  let n := comm.size
  let rank := comm.rank
  let prev := (rank + n - 1) % n
  let sendIdx := (rank + n - step + 1) % n
  let recvIdx := (rank + n - step) % n
  { dst := nextEp
    tag := encodeTag rank (UInt16.ofNat step) 1 0
    view := ⟨(call, .buf), sendIdx * chunk, chunk⟩
    recvTag := encodeTag prev (UInt16.ofNat step) 1 0
    target := ⟨(call, .buf), recvIdx * chunk, chunk⟩
    after := id }

/-- `ring_allreduce` on a buffer of `len` elements. -/
def ringAllreduce (len : ℕ) : Call (Instr Region UInt64 α) :=
  let n := comm.size
  let rank := comm.rank
  if n ≤ 1 then ⟨[], .ok ()⟩
  else if ¬n ∣ len then ⟨[], .error .badShape⟩
  else
    let chunk := len / n
    let next := (rank + 1) % n
    match comm.endpoint next with
    | none => ⟨[], .error (.protocol "no endpoint to next rank")⟩
    | some nextEp =>
      ⟨(List.range (n - 1)).map (reduceScatterStep op comm call chunk nextEp) ++
        (List.range (n - 1)).map (allgatherStep comm call chunk nextEp), .ok ()⟩

end Source

/-- The program of a rank that makes a sequence of calls, the `i`-th of them on a
buffer of `len i` elements. -/
def ringProgram (op : Op α) (n calls : ℕ) (len : ℕ → ℕ) (p : ℕ) : List (Instr Region UInt64 α) :=
  Call.sequence (fun i => ringAllreduce op (.connected n p) i (len i)) calls

/-! ### The programs are in lockstep -/

/-- The step of a call at a position. -/
def ringInstr (op : Op α) (n call chunk p t : ℕ) : Instr Region UInt64 α :=
  if t < n - 1 then reduceScatterStep op (.connected n p) call chunk ((p + 1) % n) t
  else allgatherStep (.connected n p) call chunk ((p + 1) % n) (t - (n - 1))

variable {op : Op α} {n : ℕ}

/-- **A call with a good shape** goes through all its steps. -/
theorem ringAllreduce_eq (hn : 2 ≤ n) {p : ℕ} (hp : p < n) (call : ℕ) {len : ℕ} (hlen : n ∣ len) :
    ringAllreduce op (.connected n p) call len =
      ⟨(List.range ((n - 1) + (n - 1))).map (ringInstr op n call (len / n) p), .ok ()⟩ := by
  have hnext : (UcxCommunicator.connected n p).endpoint ((p + 1) % n) = some ((p + 1) % n) := by
    refine UcxCommunicator.endpoint_connected (Nat.mod_lt _ (by omega)) ?_
    rw [mod_eq_ite (by omega)]
    split <;> omega
  have hsize : (UcxCommunicator.connected n p).size = n := rfl
  have hrank : (UcxCommunicator.connected n p).rank = p := rfl
  simp only [ringAllreduce, hsize, hrank, hnext, if_neg (show ¬n ≤ 1 by omega),
    if_neg (not_not.mpr hlen), map_range_append]
  rfl

theorem ringInstr_dst (call chunk p t : ℕ) : (ringInstr op n call chunk p t).dst = (p + 1) % n := by
  unfold ringInstr
  split <;> rfl

theorem ringInstr_tag (call chunk q t : ℕ) :
    (ringInstr op n call chunk (back n q 1) t).tag = (ringInstr op n call chunk q t).recvTag := by
  unfold ringInstr
  split <;> rfl

/-- The calls of a sequence, in lockstep. -/
def ringLockstep (op : Op α) (hn : 2 ≤ n) (calls : ℕ) (len : ℕ → ℕ)
    (hlen : ∀ i < calls, n ∣ len i) : Lockstep n (ringProgram op n calls len) where
  len := calls * ((n - 1) + (n - 1))
  instr p k := ringInstr op n (k / ((n - 1) + (n - 1)))
    (len (k / ((n - 1) + (n - 1))) / n) p (k % ((n - 1) + (n - 1)))
  prog_eq p hp := sequence_eq_map_range _ (fun i t => ringInstr op n i (len i / n) p t) _
    fun i hi => by rw [ringAllreduce_eq hn hp i (hlen i hi)]
  src q _ := back n q 1
  src_lt _ hq _ _ := back_lt hq
  dst_src q hq k _ := by rw [ringInstr_dst, succ_back_one hq]
  tag_src q _ k _ := ringInstr_tag ..
  dst_lt p _ k _ := by
    rw [ringInstr_dst]
    exact Nat.mod_lt _ (by omega)
  src_dst p hp k _ := by rw [ringInstr_dst, back_one_succ hp]
  unambiguous p hp k _ q _ l _ hd _ := by rw [← hd, ringInstr_dst, back_one_succ hp]

/-! ### What a chunk holds -/

/-- **A chunk on its way around the ring**: rank `c`'s value, reduced with those of
the `d` ranks after it, each new one on the left. -/
def ringValue (op : Op α) (n : ℕ) (x : ℕ → α) (c : ℕ) : ℕ → α
  | 0 => x c
  | d + 1 => op.apply (x ((c + d + 1) % n)) (ringValue op n x c d)

/-- What rank `p` holds in chunk `c` after `t` steps. -/
def ringAt (op : Op α) (n : ℕ) (x : ℕ → α) (p c t : ℕ) : α :=
  if t ≤ n - 1 then
    if back n p c ≤ t then ringValue op n x c (back n p c) else x p
  else if back n p c < t - (n - 1) then ringValue op n x c (n - 1)
  else ringValue op n x c (back n p c)

section Chunks

variable {x : ℕ → α} {p c t : ℕ}

/-- A chunk that has come by, in the reduce-scatter phase. -/
theorem ringAt_of_le (ht : t ≤ n - 1) (h : back n p c ≤ t) :
    ringAt op n x p c t = ringValue op n x c (back n p c) := by rw [ringAt, if_pos ht, if_pos h]

/-- A chunk that has not. -/
theorem ringAt_of_lt (ht : t ≤ n - 1) (h : t < back n p c) : ringAt op n x p c t = x p := by
  rw [ringAt, if_pos ht, if_neg (by omega)]

/-- A chunk that has come by again, in the allgather phase. -/
theorem ringAt_gathered (ht : n - 1 ≤ t) (h : back n p c < t - (n - 1)) :
    ringAt op n x p c t = ringValue op n x c (n - 1) := by
  rw [ringAt, if_neg (by omega), if_pos h]

/-- A chunk that has not. -/
theorem ringAt_not_gathered (hp : p < n) (ht : n - 1 ≤ t) (h : t - (n - 1) ≤ back n p c) :
    ringAt op n x p c t = ringValue op n x c (back n p c) := by
  have : back n p c < n := back_lt hp
  rcases Nat.eq_or_lt_of_le ht with rfl | hlt
  · exact ringAt_of_le (Nat.le_refl _) (by omega)
  · rw [ringAt, if_neg (by omega), if_neg (by omega)]

theorem ringAt_zero (hp : p < n) (hc : c < n) : ringAt op n x p c 0 = x p := by
  rcases Nat.eq_zero_or_pos (back n p c) with h | h
  · have hcp := add_back hp hc
    rw [h, Nat.add_zero, Nat.mod_eq_of_lt hc] at hcp
    rw [ringAt_of_le (Nat.zero_le _) (by omega), h, ← hcp]
    rfl
  · exact ringAt_of_lt (Nat.zero_le _) h

/-- **A reduce-scatter step** reduces the chunk the previous rank has just reduced. -/
theorem ringAt_reduceScatter (hp : p < n) (hc : c < n) (ht : t < n - 1) :
    ringAt op n x p c (t + 1) =
      if c = back n p (t + 1) then
        op.apply (ringAt op n x p c t) (ringAt op n x (back n p 1) c t)
      else ringAt op n x p c t := by
  have hback := back_one_eq hp hc
  have hd := eq_back_iff hp (show t + 1 < n by omega) hc
  by_cases h : back n p c = t + 1
  · rw [if_neg (by omega), h, Nat.add_sub_cancel] at hback
    rw [if_pos (hd.mpr h), ringAt_of_le (by omega) h.le, ringAt_of_lt (by omega) (by omega),
      ringAt_of_le (by omega) hback.le, h, hback, ringValue,
      show c + t + 1 = c + back n p c by omega, add_back hp hc]
  · rw [if_neg (mt hd.mp h)]
    rcases Nat.lt_or_ge t (back n p c) with hlt | hge
    · rw [ringAt_of_lt (by omega) hlt, ringAt_of_lt (by omega) (by omega)]
    · rw [ringAt_of_le (by omega) hge, ringAt_of_le (by omega) (by omega)]

/-- **An allgather step** copies the chunk the previous rank has just got. -/
theorem ringAt_allgather (hp : p < n) (hc : c < n) (ht : n - 1 ≤ t) (ht' : t < (n - 1) + (n - 1)) :
    ringAt op n x p c (t + 1) =
      if c = back n p (t - (n - 1)) then ringAt op n x (back n p 1) c t
      else ringAt op n x p c t := by
  have hback := back_one_eq hp hc
  have hd := eq_back_iff hp (show t - (n - 1) < n by omega) hc
  have hprev : back n p 1 < n := back_lt hp
  by_cases h : back n p c = t - (n - 1)
  · rw [if_pos (hd.mpr h), ringAt_gathered (by omega) (by omega)]
    by_cases h0 : back n p c = 0
    · rw [if_pos h0] at hback
      rw [ringAt_not_gathered hprev ht (by omega), hback]
    · rw [if_neg h0] at hback
      rw [ringAt_gathered ht (by omega)]
  · rw [if_neg (mt hd.mp h)]
    rcases Nat.lt_or_ge (back n p c) (t - (n - 1)) with hlt | hge
    · rw [ringAt_gathered ht hlt, ringAt_gathered (by omega) (by omega)]
    · rw [ringAt_not_gathered hp ht hge, ringAt_not_gathered hp (by omega) (by omega)]

/-- **After the last step** every chunk is reduced over all ranks. -/
theorem ringAt_last (hp : p < n) :
    ringAt op n x p c ((n - 1) + (n - 1)) = ringValue op n x c (n - 1) := by
  have : back n p c < n := back_lt hp
  rcases Nat.lt_or_ge (back n p c) (n - 1) with hlt | hge
  · exact ringAt_gathered (by omega) (by omega)
  · rw [ringAt_not_gathered hp (by omega) (by omega), show back n p c = n - 1 by omega]

end Chunks

/-! ### The synchronous run -/

section Run

variable (H : ℕ → Heap Region α) {call chunk p t : ℕ}

/-- A rank's memory after one step of a call, when all ranks take it together. -/
def ringStep (op : Op α) (n : ℕ) (H : ℕ → Heap Region α) (call chunk p t : ℕ) : Heap Region α :=
  (ringInstr op n call chunk p t).after ((H p).copyInto (ringInstr op n call chunk p t).target
    ((H (back n p 1)).read (ringInstr op n call chunk (back n p 1) t).view))

/-- A reduce-scatter step, chunk by chunk. -/
theorem ringStep_reduceScatter (hp : p < n) (ht : t < n - 1) {c j : ℕ} (hj : j < chunk) :
    ringStep op n H call chunk p t (call, .buf) (c * chunk + j) =
      if c = back n p (t + 1) then
        op.apply (H p (call, .buf) (c * chunk + j)) (H (back n p 1) (call, .buf) (c * chunk + j))
      else H p (call, .buf) (c * chunk + j) := by
  have hrecv : (p + n - t - 1) % n = back n p (t + 1) := by rw [back, Nat.sub_sub]
  have hsend : (back n p 1 + n - t) % n = back n p (t + 1) := back_back_one hp (by omega)
  have hbuf : ∀ (vs : List α) (i : ℕ), (H p).copyInto ⟨(call, .tmp 0), 0, chunk⟩ vs (call, .buf) i =
      H p (call, .buf) i := fun vs i =>
    Heap.copyInto_of_not_has _ _ fun hc => by cases hc.1
  rw [ringStep, ringInstr, ringInstr, if_pos ht, if_pos ht]
  show op.reduceSlice ((H p).copyInto ⟨(call, .tmp 0), 0, chunk⟩
    ((H (back n p 1)).read ⟨(call, .buf), (back n p 1 + n - t) % n * chunk, chunk⟩))
    ⟨(call, .buf), (p + n - t - 1) % n * chunk, chunk⟩ ⟨(call, .tmp 0), 0, chunk⟩ _ _ = _
  rw [hrecv, hsend]
  by_cases hc : c = back n p (t + 1)
  · rw [if_pos hc, ← hc]
    refine Eq.trans (op.reduceSlice_of_has _ (by rfl) (i := j) hj) ?_
    exact congrArg₂ op.apply (hbuf _ _) (Heap.copyInto_read (H p) (H (back n p 1)) (by rfl) hj)
  · rw [if_neg hc, op.reduceSlice_of_not_has _ (Slice.not_has_chunk hj hc), hbuf]

/-- An allgather step, chunk by chunk. -/
theorem ringStep_allgather (hp : p < n) (ht : n - 1 ≤ t) (ht' : t < (n - 1) + (n - 1)) {c j : ℕ}
    (hj : j < chunk) : ringStep op n H call chunk p t (call, .buf) (c * chunk + j) =
      if c = back n p (t - (n - 1)) then H (back n p 1) (call, .buf) (c * chunk + j)
      else H p (call, .buf) (c * chunk + j) := by
  have hsend : (back n p 1 + n - (t - (n - 1)) + 1) % n = back n p (t - (n - 1)) :=
    back_one_sub_add_one hp (by omega)
  rw [ringStep, ringInstr, ringInstr, if_neg (by omega), if_neg (by omega)]
  show (H p).copyInto ⟨(call, .buf), back n p (t - (n - 1)) * chunk, chunk⟩
    ((H (back n p 1)).read
      ⟨(call, .buf), (back n p 1 + n - (t - (n - 1)) + 1) % n * chunk, chunk⟩) _ _ = _
  rw [hsend]
  by_cases hc : c = back n p (t - (n - 1))
  · rw [if_pos hc, ← hc]
    exact Heap.copyInto_read (H p) (H (back n p 1)) (by rfl) hj
  · rw [if_neg hc]
    exact Heap.copyInto_of_not_has _ _ (Slice.not_has_chunk hj hc)

/-- The target of a step lies in the buffers of its call. -/
theorem ringInstr_target (call chunk p t : ℕ) :
    (ringInstr op n call chunk p t).target.region.1 = call := by
  unfold ringInstr
  split <;> rfl

/-- A step leaves the buffers of the other calls alone. -/
theorem ringStep_other {r : Region} (hr : r.1 ≠ call) (i : ℕ) :
    ringStep op n H call chunk p t r i = H p r i := by
  have htarget : ∀ vs, (H p).copyInto (ringInstr op n call chunk p t).target vs r i = H p r i := by
    refine fun vs => Heap.copyInto_of_not_has _ _ fun hc => hr ?_
    rw [hc.1, ringInstr_target]
  rw [ringStep, ← htarget ((H (back n p 1)).read (ringInstr op n call chunk (back n p 1) t).view)]
  generalize (H p).copyInto _ _ = h
  unfold ringInstr
  split
  · exact op.reduceSlice_of_not_has _ fun hc => hr (by rw [hc.1])
  · rfl

variable (heap : ℕ → Heap Region α) {calls : ℕ} {len : ℕ → ℕ}

/-- **What the buffers hold in the synchronous run**, for every call and every
position. -/
theorem ring_sync (hn : 2 ≤ n) (hlen : ∀ i < calls, n ∣ len i) (k i : ℕ) {p c j : ℕ} (hp : p < n)
    (hc : c < n) (hj : j < len i / n) :
    (ringLockstep op hn calls len hlen).sync heap k p (i, .buf) (c * (len i / n) + j) =
      ringAt op n (fun r => heap r (i, .buf) (c * (len i / n) + j)) p c
        (min ((n - 1) + (n - 1)) (k - i * ((n - 1) + (n - 1)))) := by
  induction k generalizing p with
  | zero => rw [Nat.zero_sub, Nat.min_zero, ringAt_zero hp hc]; rfl
  | succ k ih =>
    have hprev : back n p 1 < n := back_lt hp
    have hstep : (ringLockstep op hn calls len hlen).sync heap (k + 1) p =
        ringStep op n ((ringLockstep op hn calls len hlen).sync heap k)
          (k / ((n - 1) + (n - 1))) (len (k / ((n - 1) + (n - 1))) / n) p
          (k % ((n - 1) + (n - 1))) := rfl
    have hmod := Nat.mod_lt k (show 0 < (n - 1) + (n - 1) by omega)
    have hdiv := Nat.div_add_mod' k ((n - 1) + (n - 1))
    rw [hstep]
    rcases Nat.lt_trichotomy i (k / ((n - 1) + (n - 1))) with hlt | rfl | hgt
    · -- the call is over
      have hmul := Nat.mul_le_mul_right ((n - 1) + (n - 1)) hlt
      rw [Nat.succ_mul] at hmul
      rw [ringStep_other _ hlt.ne, ih hp, Nat.min_eq_left (by omega), Nat.min_eq_left (by omega)]
    · -- the call is at step `k % m`
      have hk : k - k / ((n - 1) + (n - 1)) * ((n - 1) + (n - 1)) = k % ((n - 1) + (n - 1)) := by
        omega
      have hk' : k + 1 - k / ((n - 1) + (n - 1)) * ((n - 1) + (n - 1)) =
          k % ((n - 1) + (n - 1)) + 1 := by omega
      rw [hk, Nat.min_eq_right hmod.le] at ih
      rw [hk', Nat.min_eq_right hmod]
      rcases Nat.lt_or_ge (k % ((n - 1) + (n - 1))) (n - 1) with ht | ht
      · rw [ringStep_reduceScatter _ hp ht hj, ringAt_reduceScatter hp hc ht, ih hp, ih hprev]
      · rw [ringStep_allgather _ hp ht hmod hj, ringAt_allgather hp hc ht hmod, ih hp, ih hprev]
    · -- the call has not begun
      have hmul := Nat.mul_le_mul_right ((n - 1) + (n - 1)) hgt
      rw [Nat.succ_mul] at hmul
      have hk : k - i * ((n - 1) + (n - 1)) = 0 := by omega
      have hk' : k + 1 - i * ((n - 1) + (n - 1)) = 0 := by omega
      rw [ringStep_other _ hgt.ne', ih hp, hk, hk']

end Run

/-- **For an associative and commutative operator**, a chunk that has been all
around the ring is the reduction over all ranks. -/
theorem some_ringValue (hassoc : ∀ a b c, op.apply (op.apply a b) c = op.apply a (op.apply b c))
    (hcomm : ∀ a b, op.apply a b = op.apply b a) (x : ℕ → α) {c : ℕ} (hc : c < n) :
    some (ringValue op n x c (n - 1)) = op.reduceAll ((List.range n).map x) := by
  have hround : ∀ d, some (ringValue op n x c d) =
      op.reduceAll ((List.range (d + 1)).map fun e => x ((c + e) % n)) := by
    intro d
    induction d with
    | zero =>
      show some (x c) = some (x ((c + 0) % n))
      rw [Nat.add_zero, Nat.mod_eq_of_lt hc]
    | succ d ih =>
      rw [List.range_succ, List.map_append, Op.reduceAll_append hassoc ih.symm rfl, ringValue,
        hcomm]
      rfl
  have hperm := (perm_range_add_mod hc).map x
  rw [List.map_map] at hperm
  rw [hround, Nat.sub_add_cancel (by omega)]
  exact Op.reduceAll_perm hassoc hcomm hperm

/-! ### Every run -/

/-- Call `i` of a sequence has returned on rank `p`. -/
def RingReturned (op : Op α) (n : ℕ) (len : ℕ → ℕ) (s : State Region UInt64 α) (i p : ℕ) : Prop :=
  (ringProgram op n (i + 1) len p).length ≤ (s.rank p).pc

/-- What the buffers of call `i` hold where it has returned, given what they held
before it. -/
structure RingResult (op : Op α) (n : ℕ) (len : ℕ → ℕ) (heap : ℕ → Heap Region α)
    (s : State Region UInt64 α) (i : ℕ) : Prop where
  /-- Chunk `c` is `apply (x_{c-1}, apply (x_{c-2}, … apply (x_{c+1}, x_c)))`. -/
  chunk : ∀ p < n, RingReturned op n len s i p → ∀ c < n, ∀ j < len i / n,
    (s.rank p).heap (i, .buf) (c * (len i / n) + j) =
      ringValue op n (fun r => heap r (i, .buf) (c * (len i / n) + j)) c (n - 1)
  /-- All ranks hold the same. -/
  same : ∀ p < n, ∀ q < n, RingReturned op n len s i p → RingReturned op n len s i q →
    ∀ k < len i, (s.rank p).heap (i, .buf) k = (s.rank q).heap (i, .buf) k
  /-- For an associative and commutative operator, the reduction over all ranks. -/
  reduction : (∀ a b c, op.apply (op.apply a b) c = op.apply a (op.apply b c)) →
    (∀ a b, op.apply a b = op.apply b a) → ∀ p < n, RingReturned op n len s i p → ∀ k < len i,
      some ((s.rank p).heap (i, .buf) k) =
        op.reduceAll ((List.range n).map fun r => heap r (i, .buf) k)

/-- A cell of the buffer, as a chunk and a place in it. -/
theorem exists_chunk {len k : ℕ} (hn : 0 < n) (hlen : n ∣ len) (hk : k < len) :
    ∃ c < n, ∃ j < len / n, k = c * (len / n) + j := by
  obtain ⟨m, rfl⟩ := hlen
  rw [Nat.mul_div_cancel_left m hn]
  have hm : 0 < m := Nat.pos_of_ne_zero fun h => by
    rw [h] at hk
    exact absurd hk (Nat.not_lt_zero k)
  refine ⟨k / m, Nat.div_lt_of_lt_mul ?_, k % m, Nat.mod_lt _ hm, (Nat.div_add_mod' k m).symm⟩
  rwa [Nat.mul_comm]

section Correct

variable {heap : ℕ → Heap Region α} {calls : ℕ} {len : ℕ → ℕ} {eager : ℕ → ℕ → Bool}
  {s : State Region UInt64 α}

theorem length_ringProgram (hn : 2 ≤ n) {p : ℕ} (hp : p < n) {k : ℕ} (hlen : ∀ i < k, n ∣ len i) :
    (ringProgram op n k len p).length = k * ((n - 1) + (n - 1)) := by
  rw [(ringLockstep op hn k len hlen).prog_eq p hp, List.length_map, List.length_range]
  rfl

/-- **Where a call has returned**, its buffer is what the synchronous run leaves in
it, even though later calls may be under way. -/
theorem heap_of_returned (hn : 2 ≤ n) (hlen : ∀ i < calls, n ∣ len i)
    (hs : Reaches (step ⟨n, ringProgram op n calls len, eager⟩) (start heap) s) {i p c j : ℕ}
    (hi : i < calls) (hp : p < n) (hr : RingReturned op n len s i p) (hc : c < n)
    (hj : j < len i / n) : (s.rank p).heap (i, .buf) (c * (len i / n) + j) =
      ringValue op n (fun r => heap r (i, .buf) (c * (len i / n) + j)) c (n - 1) := by
  have hinv : (ringLockstep op hn calls len hlen).Inv heap s :=
    (ringLockstep op hn calls len hlen).inv_of_reaches hs
  rw [RingReturned, length_ringProgram hn hp fun i' hi' => hlen i' (by omega)] at hr
  have hsync : (s.rank p).heap (i, .buf) (c * (len i / n) + j) =
      (ringLockstep op hn calls len hlen).sync heap (s.rank p).pc p (i, .buf)
        (c * (len i / n) + j) := by
    rw [hinv.heap_eq p hp]
    split
    · rfl
    · -- the message that has come in is for a later call
      refine Heap.copyInto_of_not_has _ _ fun hc => ?_
      have hregion : i = (s.rank p).pc / ((n - 1) + (n - 1)) :=
        (congrArg Prod.fst hc.1).trans (ringInstr_target ..)
      have := Nat.div_le_div_right (c := (n - 1) + (n - 1)) hr
      rw [Nat.mul_div_cancel _ (by omega)] at this
      omega
  rw [Nat.succ_mul] at hr
  rw [hsync, ring_sync heap hn hlen _ _ hp hc hj, Nat.min_eq_left (by omega), ringAt_last hp]

/-- **A call that has returned** has left its result in the buffer. -/
theorem ringResult_of_reaches (hn : 2 ≤ n) (hlen : ∀ i < calls, n ∣ len i)
    (hs : Reaches (step ⟨n, ringProgram op n calls len, eager⟩) (start heap) s) {i : ℕ}
    (hi : i < calls) : RingResult op n len heap s i := by
  constructor
  · intro p hp hr c hc j hj
    exact heap_of_returned hn hlen hs hi hp hr hc hj
  · intro p hp q hq hrp hrq k hk
    obtain ⟨c, hc, j, hj, rfl⟩ := exists_chunk (by omega) (hlen i hi) hk
    rw [heap_of_returned hn hlen hs hi hp hrp hc hj, heap_of_returned hn hlen hs hi hq hrq hc hj]
  · intro hassoc hcomm p hp hr k hk
    obtain ⟨c, hc, j, hj, rfl⟩ := exists_chunk (by omega) (hlen i hi) hk
    rw [heap_of_returned hn hlen hs hi hp hr hc hj, some_ringValue hassoc hcomm _ hc]

/-- **Ring allreduce is correct under every schedule.** For every sequence of calls
that all ranks make in the same order, in every state that can be reached: some
rank can go on unless all have returned from all calls, and a call that has
returned has returned `Ok` and left its result in the buffer. -/
theorem ring_allreduce_correct (op : Op α) {n : ℕ} (hn : 2 ≤ n) (calls : ℕ) (len : ℕ → ℕ)
    (hlen : ∀ i < calls, n ∣ len i) (eager : ℕ → ℕ → Bool) (heap : ℕ → Heap Region α)
    {s : State Region UInt64 α}
    (hs : Reaches (step ⟨n, ringProgram op n calls len, eager⟩) (start heap) s) :
    (¬Final ⟨n, ringProgram op n calls len, eager⟩ s →
        ¬Stuck (step ⟨n, ringProgram op n calls len, eager⟩) s) ∧
      ∀ i < calls, (∀ p < n, (ringAllreduce op (.connected n p) i (len i)).result = .ok ()) ∧
        RingResult op n len heap s i := by
  refine ⟨(ringLockstep op hn calls len hlen).not_stuck hs, fun i hi => ⟨fun p hp => ?_, ?_⟩⟩
  · rw [ringAllreduce_eq hn hp i (hlen i hi)]
  · exact ringResult_of_reaches hn hlen hs hi

/-- Two ranks that subtract, two calls on two elements each: some run ends, and leaves all the
differences. -/
theorem ring_allreduce_correct_two : ∃ s,
    Reaches (step ⟨2, ringProgram ⟨(· - ·)⟩ 2 2 fun _ => 2, fun _ _ => true⟩)
      (start fun p r i => (2 * p + r.1 * i : ℤ)) s ∧
        ∀ call < 2, ∀ p < 2,
          (s.rank p).heap (call, .buf) 0 = 2 ∧ (s.rank p).heap (call, .buf) 1 = -2 := by
  have hdvd : ∀ i < 2, 2 ∣ (fun _ : ℕ => 2) i := fun _ _ => ⟨1, rfl⟩
  have hterm : Terminates (step ⟨2, _, fun _ _ => true⟩) _ _ :=
    (ringLockstep ⟨(· - ·)⟩ (Nat.le_refl 2) 2 (fun _ => 2) hdvd).terminates
      fun p r i => (2 * p + r.1 * i : ℤ)
  obtain ⟨s, hs, hfinal⟩ := hterm.exists_good
  refine ⟨s, hs, fun call hcall p hp => ?_⟩
  have hret : RingReturned ⟨(· - ·)⟩ 2 (fun _ => 2) s call p := by
    rw [RingReturned, hfinal p hp, length_ringProgram (Nat.le_refl 2) hp hdvd,
      length_ringProgram (Nat.le_refl 2) hp fun i hi => hdvd i (by omega)]
    exact Nat.mul_le_mul_right _ hcall
  have hresult := ((ring_allreduce_correct ⟨(· - ·)⟩ (Nat.le_refl 2) 2 (fun _ => 2) hdvd
    (fun _ _ => true) _ hs).2 call hcall).2
  -- each chunk starts at its own rank, and the other one subtracts it
  refine ⟨(hresult.chunk p hp hret 0 (by decide) 0 (by decide)).trans ?_,
    (hresult.chunk p hp hret 1 (by decide) 0 (by decide)).trans ?_⟩
  · simp [ringValue]
  · simp [ringValue]

end Correct

end Pluvio
