import Pluvio.Collective.AmOutline
import Pluvio.Collective.Broadcast
import Pluvio.Collective.Scatter

/-!
# Scatters and broadcasts in a row

In a scatter and in a broadcast the messages go one way only: a rank that has sent its
messages is ready for the next call, however far behind the ranks are that it has sent
them to. The keys do not name the call, so in the router of a slow rank the message of a
call may meet that of an earlier one.

Until that happens every call delivers its own data: what a rank holds after its `i`-th
call is `Pluvio.Rooted.RootedStage.data`, and what it waits for is still on its way. When
it happens, both messages are gone. So the deliveries that find no early message are the
exact condition (`Pluvio.Rooted.calls_delivered_iff`).

A header has 16 bits for a rank. Two scatters whose roots look the same in a header send
under one key from two different ranks, which nothing keeps in order; this takes more than
65536 ranks (`Pluvio.Rooted.rootsApart_of_le`).
-/

namespace Pluvio

open AmNet

namespace Rooted

variable {α : Type*} {n : ℕ}

/-! ### The calls -/

/-- A call of `n` ranks. -/
inductive RootedCall (n : ℕ)
  /-- With `chunk` elements in each `recv_buf` and `sendLen p` in the `send_buf` of rank
  `p`, if it has one. -/
  | scatter (chunk root : ℕ) (sendLen : ℕ → Option ℕ) (shape : sendLen root = some (chunk * n))
  | broadcast (len root : ℕ)

namespace RootedCall

/-- The root, which need not be a rank. -/
def root : RootedCall n → ℕ
  | .scatter _ root _ _ => root
  | .broadcast _ root => root

/-- The call is a scatter. -/
def IsScatter : RootedCall n → Prop
  | .scatter .. => True
  | .broadcast .. => False

/-- The call with the number `call`, at rank `p`. -/
def run (p call : ℕ) : RootedCall n → Call (Stage Region α)
  | .scatter chunk root sendLen _ => Pluvio.scatter (.connected n p) call (sendLen p) chunk root
  | .broadcast len root => Pluvio.broadcast (.connected n p) call len root

end RootedCall

/-- The program of rank `p` that makes these calls, the first of which has the number
`call`. -/
def program (p : ℕ) : ℕ → List (RootedCall n) → List (Stage Region α)
  | _, [] => []
  | call, c :: calls => (c.run p call).steps ++ program p (call + 1) calls

/-- A call that is made: its root is a rank. -/
structure RootedStage (n : ℕ) where
  call : ℕ
  kind : RootedCall n
  root_lt : kind.root < n

/-- **The calls that are made.** A call whose root is not a rank returns an error at
once, and the ranks go on to the next one. -/
def stages : ℕ → List (RootedCall n) → List (RootedStage n)
  | _, [] => []
  | call, c :: calls =>
    if h : c.root < n then ⟨call, c, h⟩ :: stages (call + 1) calls else stages (call + 1) calls

namespace RootedStage

/-- The number of elements in the buffer of a rank. -/
def len (st : RootedStage n) : ℕ :=
  match st.kind with
  | .scatter chunk _ _ _ => chunk
  | .broadcast len _ => len

/-- The buffer of a rank. -/
def target (st : RootedStage n) : Slice Region := ⟨(st.call, .buf), 0, st.len⟩

/-- The call, laid out for all ranks. -/
def plan (α : Type*) (hn : 2 ≤ n) (st : RootedStage n) : Plan n Region α :=
  match st.kind with
  | .scatter chunk root _ _ => scatterPlan α n st.call chunk root
  | .broadcast len root => broadcastPlan α n st.call len root hn

/-- How early an await point comes. -/
def time (st : RootedStage n) (p k : ℕ) : ℕ :=
  match st.kind with
  | .scatter _ root _ _ => scatterTime root p k
  | .broadcast _ root => bcastTime n root p k

/-- **The data of the call** for rank `p`: a chunk of the `send_buf` of the root, or its
buffer. -/
def data (st : RootedStage n) (heap : ℕ → Heap Region α) (p : ℕ) : List α :=
  match st.kind with
  | .scatter chunk root _ _ => (heap root).read ⟨(st.call, .send), p * chunk, chunk⟩
  | .broadcast len root => (heap root).read ⟨(st.call, .buf), 0, len⟩

end RootedStage

/-- **The calls make these stages.** -/
theorem program_eq (hn : 2 ≤ n) (hsize : n < 2 ^ 64) {p : ℕ} (hp : p < n) (call : ℕ)
    (calls : List (RootedCall n)) :
    program p call calls = (stages call calls).map fun st => (st.plan α hn).stage p := by
  induction calls generalizing call with
  | nil => rfl
  | cons c calls ih =>
    rw [program, stages, ih]
    by_cases hroot : c.root < n
    · rw [dif_pos hroot]
      match c with
      | .scatter chunk root sendLen shape =>
        have hshape : p = root → sendLen p = some (chunk * n) := fun heq => heq ▸ shape
        exact congrArg (· ++ _) (congrArg Call.steps (scatter_eq hn hroot hshape))
      | .broadcast len root =>
        exact congrArg (· ++ _) (congrArg Call.steps (broadcast_eq hn hsize hp hroot call len))
    · rw [dif_neg hroot]
      match c with
      | .scatter chunk root sendLen _ =>
        have heq := scatter_of_root_le (α := α) (Nat.not_lt.mp hroot) p call (sendLen p) chunk
        exact congrArg (· ++ _) (congrArg Call.steps heq)
      | .broadcast len root =>
        have heq :=
          broadcast_of_root_le (α := α) (by omega : n ≠ 1) (Nat.not_lt.mp hroot) p call len
        exact congrArg (· ++ _) (congrArg Call.steps heq)

/-- The calls, laid out for all ranks. -/
def layout (α : Type*) (hn : 2 ≤ n) (hsize : n < 2 ^ 64) (calls : List (RootedCall n)) :
    Layout n fun p => program (α := α) p 0 calls :=
  .ofList (stages 0 calls) (RootedStage.plan α hn) _ fun _ hp => program_eq hn hsize hp 0 calls

/-! ### The stages are matched -/

/-- **Roots that can be told apart**: those of two scatters are the same if the headers say
that they are. -/
def RootsApart (calls : List (RootedCall n)) : Prop :=
  ∀ c ∈ calls, ∀ c' ∈ calls, c.IsScatter → c'.IsScatter → c.root < n → c'.root < n →
    c.root % 2 ^ 16 = c'.root % 2 ^ 16 → c.root = c'.root

/-- Up to 65536 ranks, they can be. -/
theorem rootsApart_of_le (hn : n ≤ 65536) (calls : List (RootedCall n)) : RootsApart calls := by
  intro c _ c' _ _ _ hroot hroot' heq
  rwa [Nat.mod_eq_of_lt (by omega), Nat.mod_eq_of_lt (by omega)] at heq

/-- A call that is made is the one that its number says. -/
theorem getElem?_of_mem_stages {st : RootedStage n} {call : ℕ} {calls : List (RootedCall n)}
    (h : st ∈ stages call calls) : ∃ k, st.call = call + k ∧ calls[k]? = some st.kind := by
  induction calls generalizing call with
  | nil => exact nomatch h
  | cons c calls ih =>
    have hrest : st ∈ stages (call + 1) calls →
        ∃ k, st.call = call + k ∧ (c :: calls)[k]? = some st.kind := by
      intro h
      obtain ⟨k, hcall, hk⟩ := ih h
      exact ⟨k + 1, by omega, hk⟩
    rw [stages] at h
    split at h
    · rcases List.mem_cons.mp h with rfl | h
      · exact ⟨0, rfl, rfl⟩
      · exact hrest h
    · exact hrest h

theorem kind_mem {st : RootedStage n} {calls : List (RootedCall n)} (h : st ∈ stages 0 calls) :
    st.kind ∈ calls := by
  obtain ⟨k, -, hk⟩ := getElem?_of_mem_stages h
  exact List.mem_of_getElem? hk

/-- The calls have different numbers. -/
theorem pairwise_stages (call : ℕ) (calls : List (RootedCall n)) :
    (stages call calls).Pairwise fun st st' => st.call ≠ st'.call := by
  induction calls generalizing call with
  | nil => exact .nil
  | cons c calls ih =>
    rw [stages]
    split
    · refine List.pairwise_cons.mpr ⟨fun st hst => ?_, ih (call + 1)⟩
      obtain ⟨k, hcall, -⟩ := getElem?_of_mem_stages hst
      show call ≠ st.call
      omega
    · exact ih (call + 1)

/-- A number is that of one stage. -/
theorem stages_inj {calls : List (RootedCall n)} {i j : ℕ} {st st' : RootedStage n}
    (hi : (stages 0 calls)[i]? = some st) (hj : (stages 0 calls)[j]? = some st')
    (hne : i ≠ j) : st.call ≠ st'.call := by
  obtain ⟨hilt, rfl⟩ := List.getElem?_eq_some_iff.mp hi
  obtain ⟨hjlt, rfl⟩ := List.getElem?_eq_some_iff.mp hj
  have hpair := List.pairwise_iff_getElem.mp (pairwise_stages 0 calls)
  rcases Nat.lt_or_gt_of_ne hne with hlt | hgt
  · exact hpair i j hilt hjlt hlt
  · exact (hpair j i hjlt hilt hgt).symm

section Matched

variable {hn : 2 ≤ n} {hsize : n < 2 ^ 64} {calls : List (RootedCall n)} {i : ℕ}

theorem width_layout {st : RootedStage n} (h : (stages 0 calls)[i]? = some st) :
    (layout α hn hsize calls).width i = 1 := by
  refine (Layout.width_ofList h).trans ?_
  obtain ⟨call, c, hroot⟩ := st
  match c with
  | .scatter .. => rfl
  | .broadcast .. => rfl

/-- How early an await point comes in its stage. -/
def time (calls : List (RootedCall n)) (i p k : ℕ) : ℕ :=
  match (stages 0 calls)[i]? with
  | some st => st.time p k
  | none => k

theorem RootedStage.time_lt (st : RootedStage n) {p k k' : ℕ} (hlt : k < k') :
    st.time p k < st.time p k' := by
  unfold RootedStage.time
  split
  · unfold scatterTime
    split <;> omega
  · exact Nat.add_lt_add_left hlt _

theorem RootedStage.plan_matched (hn : 2 ≤ n) (hsize : n < 2 ^ 64) (st : RootedStage n) :
    (st.plan α hn).Matched fun p _ k => st.time p k := by
  obtain ⟨call, c, hroot⟩ := st
  match c with
  | .scatter chunk root _ _ => exact scatterPlan_matched hroot
  | .broadcast len root =>
    show (broadcastPlan α n call len root hn).Matched _
    exact broadcastPlan_matched hsize hroot

theorem RootedStage.plan_sameSender (hn : 2 ≤ n) (hsize : n < 2 ^ 64) (st st' : RootedStage n)
    (happart : st.kind.IsScatter → st'.kind.IsScatter →
      st.kind.root % 2 ^ 16 = st'.kind.root % 2 ^ 16 → st.kind.root = st'.kind.root) :
    (st.plan α hn).SameSender (st'.plan α hn) := by
  obtain ⟨call, c, hroot⟩ := st
  obtain ⟨call', c', hroot'⟩ := st'
  match c, c' with
  | .scatter chunk root _ _, .scatter chunk' root' _ _ =>
    have hroots : UInt16.ofNat root = UInt16.ofNat root' → root = root' := by
      intro heq
      have hnat := congrArg UInt16.toNat heq
      rw [UInt16.toNat_ofNat', UInt16.toNat_ofNat'] at hnat
      exact happart trivial trivial hnat
    intro p m k j sd p' m' k' j' sd' hs hs'
    have hs : (scatterPlan α n call chunk root).IsSend p m k j sd := hs
    have hs' : (scatterPlan α n call' chunk' root').IsSend p' m' k' j' sd' := hs'
    exact scatterPlan_sameSender hroot hroot' hroots hs hs'
  | .broadcast len root, .broadcast len' root' =>
    intro p m k j sd p' m' k' j' sd' hs hs'
    have hs : (broadcastPlan α n call len root hn).IsSend p m k j sd := hs
    have hs' : (broadcastPlan α n call' len' root' hn).IsSend p' m' k' j' sd' := hs'
    exact broadcastPlan_sameSender hsize hs hs'
  | .scatter chunk root _ _, .broadcast len' root' =>
    intro p m k j sd p' m' k' j' sd' hs hs' _ hkey
    have hs : (scatterPlan α n call chunk root).IsSend p m k j sd := hs
    have hs' : (broadcastPlan α n call' len' root' hn).IsSend p' m' k' j' sd' := hs'
    have hphase := (phase_scatterPlan hroot hs).symm.trans
      ((congrArg RecvKey.phase hkey).trans (phase_broadcastPlan hs'))
    exact absurd hphase (by decide)
  | .broadcast len root, .scatter chunk' root' _ _ =>
    intro p m k j sd p' m' k' j' sd' hs hs' _ hkey
    have hs : (broadcastPlan α n call len root hn).IsSend p m k j sd := hs
    have hs' : (scatterPlan α n call' chunk' root').IsSend p' m' k' j' sd' := hs'
    have hphase := (phase_broadcastPlan hs).symm.trans
      ((congrArg RecvKey.phase hkey).trans (phase_scatterPlan hroot' hs'))
    exact absurd hphase (by decide)

/-- **The stages of the calls are matched.** -/
theorem layout_matched (hn : 2 ≤ n) (hsize : n < 2 ^ 64) (hapart : RootsApart calls) :
    (layout α hn hsize calls).Matched fun i p _ k => time calls i p k := by
  refine Layout.matched_ofList (fun i p m k k' hlt => ?_) (fun i st hst => ?_)
    fun st hst st' hst' => ?_
  · unfold time
    split
    · exact RootedStage.time_lt _ hlt
    · exact hlt
  · simp only [time, hst]
    exact st.plan_matched hn hsize
  · exact st.plan_sameSender hn hsize st' fun hs hs' =>
      hapart _ (kind_mem hst) _ (kind_mem hst') hs hs' st.root_lt st'.root_lt

end Matched

/-! ### What a rank holds -/

namespace RootedStage

variable (st : RootedStage n) (heap : ℕ → Heap Region α) (p : ℕ)

/-- Nothing has been written to the buffers of the call. -/
def Fresh (h : Heap Region α) : Prop := ∀ b x, h (st.call, b) x = heap p (st.call, b) x

/-- The buffer holds the data of the call. -/
def Done (h : Heap Region α) : Prop := h.read st.target = st.data heap p

/-- The positions at which a rank has the data: the root of a broadcast has it from the
start. -/
def HasData (k : ℕ) : Prop :=
  match st.kind with
  | .scatter .. => 1 ≤ k
  | .broadcast _ root => (back n p root).size ≤ bcastTime n root p k

/-- What a rank holds at a position of the call. -/
structure Holds (k : ℕ) (h : Heap Region α) : Prop where
  /-- Nothing is written to `send_buf`. -/
  send : ∀ x, h (st.call, .send) x = heap p (st.call, .send) x
  done : st.HasData p k → st.Done heap p h

variable {st heap p} {h h' : Heap Region α} {m k : ℕ}

theorem Done.congr (hdone : st.Done heap p h)
    (hag : ∀ x, h' (st.call, .buf) x = h (st.call, .buf) x) : st.Done heap p h' :=
  (List.map_congr_left fun _ _ => hag _).trans hdone

theorem length_data : (st.data heap p).length = st.len := by
  unfold data len
  split <;> exact Heap.length_read ..

/-- **A rank that comes to a call.** -/
theorem Holds.of_fresh (hp : p < n) (hfresh : st.Fresh heap p h) : st.Holds heap p 0 h := by
  refine ⟨hfresh .send, fun hdata => ?_⟩
  obtain ⟨call, c, hroot⟩ := st
  match c with
  | .scatter .. => exact absurd hdata (Nat.not_lt_zero 0)
  | .broadcast len root =>
    -- the rank is the root
    have hroot : root < n := hroot
    change (back n p root).size ≤ (back n p root).size - 1 + 0 at hdata
    have hzero : back n p root = 0 := Nat.size_eq_zero.mp (by omega)
    obtain rfl : root = p := by
      have hadd := add_back hp hroot
      rwa [hzero, Nat.add_zero, Nat.mod_eq_of_lt hroot] at hadd
    exact List.map_congr_left fun x _ => hfresh .buf _

/-- **A rank that leaves a call** has its data. -/
theorem hasData_len {hn : 2 ≤ n} : st.HasData p ((st.plan α hn).len p m) := by
  obtain ⟨call, c, hroot⟩ := st
  match c with
  | .scatter chunk root _ _ =>
    show 1 ≤ if p = root then 2 else 1
    split <;> omega
  | .broadcast len root =>
    show (back n p root).size ≤
      bcastFirst (back n p root) + (bcastLast n (back n p root) - bcastFirst (back n p root))
    rw [bcastLast]
    omega

/-- **What is sent** is the data for the receiver. -/
theorem Holds.read {hn : 2 ≤ n} {j : ℕ} {sd : Send Region} (hh : st.Holds heap p k h)
    (hs : (st.plan α hn).IsSend p m k j sd) : h.read sd.view = st.data heap sd.dst := by
  obtain ⟨call, c, hroot⟩ := st
  match c with
  | .scatter chunk root _ _ =>
    obtain ⟨rfl, -, -, r, -, rfl⟩ := (scatterPlan_isSend hroot).mp hs
    exact List.map_congr_left fun x _ => hh.send _
  | .broadcast len root =>
    have hs : (broadcastPlan α n call len root hn).IsSend p m k j sd := hs
    obtain ⟨-, -, -, r, rfl, hr, -, rfl⟩ := broadcastPlan_isSend.mp hs
    -- all ranks are sent the same
    exact hh.done hr

/-- A receive is into the buffer. -/
theorem target_of_isRecv {hn : 2 ≤ n} (hsize : n < 2 ^ 64) {κ : RecvKey} {t : Slice Region}
    (hr : (st.plan α hn).IsRecv p m k κ t) : t = st.target := by
  obtain ⟨call, c, hroot⟩ := st
  match c with
  | .scatter chunk root _ _ =>
    obtain ⟨-, -, -, -, -, rfl⟩ := scatterPlan_isRecv.mp hr
    rfl
  | .broadcast len root =>
    have hr : (broadcastPlan α n call len root hn).IsRecv p m k κ t := hr
    obtain ⟨-, -, -, r, -, -, rfl⟩ := (broadcastPlan_isRecv hsize hroot).mp hr
    rfl

/-- Nothing but the buffer is written between two await points. -/
theorem after_frame {hn : 2 ≤ n} {r : Region} (hr : r ≠ (st.call, .buf)) (x : ℕ) :
    ((st.plan α hn).instr p m k).after h r x = h r x := by
  obtain ⟨call, c, hroot⟩ := st
  match c with
  | .scatter chunk root _ _ =>
    show (scatterInstr n call chunk root p k).after h r x = h r x
    unfold scatterInstr
    split_ifs
    · exact Heap.copyInto_of_not_has _ _ fun hhas => hr hhas.1
    · rfl
    · rfl
  | .broadcast len root =>
    show (bcastRound n call len root p _).after h r x = h r x
    unfold bcastRound
    split <;> rfl

/-- After a receive nothing is written at all. -/
theorem after_of_isRecv {hn : 2 ≤ n} {κ : RecvKey} {t : Slice Region}
    (hr : (st.plan α hn).IsRecv p m k κ t) : ((st.plan α hn).instr p m k).after h = h := by
  obtain ⟨call, c, hroot⟩ := st
  match c with
  | .scatter chunk root _ _ =>
    obtain ⟨-, hne, -⟩ := scatterPlan_isRecv.mp hr
    show (scatterInstr n call chunk root p k).after h = h
    rw [scatterInstr, if_neg hne]
    rfl
  | .broadcast len root =>
    show (bcastRound n call len root p _).after h = h
    unfold bcastRound
    split <;> rfl

/-- **A receive** brings the data. -/
theorem Holds.recv (hh : st.Holds heap p k h) :
    st.Holds heap p (k + 1) (h.copyInto st.target (st.data heap p)) := by
  refine ⟨fun x => ?_, fun _ => Heap.read_copyInto h length_data⟩
  rw [Heap.copyInto_of_not_has, hh.send]
  exact fun hhas => nomatch (Prod.mk.inj hhas.1).2

/-- **An await point without a receive**: the root of a scatter copies its chunk, and
otherwise a rank that has the data keeps it. -/
theorem Holds.next {hn : 2 ≤ n} (hat : (st.plan α hn).At p m k) (hh : st.Holds heap p k h)
    (hnone : ((st.plan α hn).instr p m k).recv = none) :
    st.Holds heap p (k + 1) (((st.plan α hn).instr p m k).after h) := by
  have hne : ((st.call, .send) : Region) ≠ (st.call, .buf) := by
    intro heq
    cases (Prod.mk.inj heq).2
  refine ⟨fun x => (after_frame hne x).trans (hh.send x), fun _ => ?_⟩
  obtain ⟨call, c, hroot⟩ := st
  cases c with
  | scatter chunk root _ _ =>
    have hnone : (scatterInstr (α := α) n call chunk root p k).recv = none := hnone
    show Done _ heap p ((scatterInstr n call chunk root p k).after h)
    by_cases hp : p = root
    · subst hp
      rcases Nat.eq_zero_or_pos k with rfl | hk
      · -- the copy
        rw [scatterInstr, if_pos rfl, if_pos rfl]
        show (h.copyInto ⟨(call, .buf), 0, chunk⟩
          (h.read ⟨(call, .send), p * chunk, chunk⟩)).read ⟨(call, .buf), 0, chunk⟩ = _
        have hlen := Heap.length_read h ⟨((call, .send) : Region), p * chunk, chunk⟩
        refine (Heap.read_copyInto h (s := ⟨(call, .buf), 0, chunk⟩) hlen).trans ?_
        exact List.map_congr_left fun x _ => hh.send _
      · rw [scatterInstr, if_pos rfl, if_neg hk.ne']
        exact hh.done hk
    · rw [scatterInstr, if_neg hp] at hnone
      cases hnone
  | broadcast len root =>
    have hnone : (bcastRound (α := α) n call len root p
      (bcastFirst (back n p root) + k)).recv = none := hnone
    show Done _ heap p ((bcastRound n call len root p (bcastFirst (back n p root) + k)).after h)
    by_cases hr : bcastFirst (back n p root) + k < (back n p root).size
    · rw [bcastRound, if_pos hr] at hnone
      cases hnone
    · rw [bcastRound, if_neg hr]
      exact hh.done (Nat.not_lt.mp hr)

end RootedStage

section Outline

variable {hn : 2 ≤ n} {hsize : n < 2 ^ 64} {calls : List (RootedCall n)}
  {heap : ℕ → Heap Region α} {i p : ℕ} {h h' : Heap Region α}

/-- What a rank in its `i`-th call holds of the others. -/
def Others (calls : List (RootedCall n)) (heap : ℕ → Heap Region α) (i p : ℕ)
    (h : Heap Region α) : Prop :=
  ∀ j st, (stages 0 calls)[j]? = some st →
    (j < i → st.Done heap p h) ∧ (i < j → st.Fresh heap p h)

/-- They are not touched by what writes to the buffer of the call. -/
theorem Others.congr {st : RootedStage n} (ho : Others calls heap i p h)
    (hst : (stages 0 calls)[i]? = some st)
    (hag : ∀ r x, r ≠ (st.call, .buf) → h' r x = h r x) : Others calls heap i p h' := by
  intro j st' hst'
  obtain ⟨hdone, hfresh⟩ := ho j st' hst'
  have hne : ∀ b, i ≠ j → (st'.call, b) ≠ (st.call, Buffer.buf) := by
    intro b hij heq
    exact stages_inj hst hst' hij (Prod.mk.inj heq).1.symm
  refine ⟨fun hlt => (hdone hlt).congr fun x => hag _ x (hne _ hlt.ne'), fun hlt b x => ?_⟩
  rw [hag _ x (hne b hlt.ne), hfresh hlt]

/-- What a rank holds at a position of its `i`-th call. -/
structure At (calls : List (RootedCall n)) (heap : ℕ → Heap Region α) (i p k : ℕ)
    (h : Heap Region α) : Prop where
  others : Others calls heap i p h
  own : ∀ st, (stages 0 calls)[i]? = some st → st.Holds heap p k h

/-- A chain is the only one of its stage. -/
theorem chain_eq_zero {m k : ℕ} (hat : (layout α hn hsize calls).At i p m k) : m = 0 := by
  obtain ⟨st, hst⟩ := Layout.exists_ofList hat.stage
  have hm := hat.chain
  rw [width_layout hst] at hm
  exact Nat.lt_one_iff.mp hm

/-- **The outline of the calls.** -/
def outline (hn : 2 ≤ n) (hsize : n < 2 ^ 64) (calls : List (RootedCall n))
    (heap : ℕ → Heap Region α) : (layout α hn hsize calls).Outline heap where
  pre i p h := ∀ j st, (stages 0 calls)[j]? = some st →
    (j < i → st.Done heap p h) ∧ (i ≤ j → st.Fresh heap p h)
  holds i p m k h := m = 0 → At calls heap i p k h
  foot _ _ m _ _ := m = 0
  payload i q _ := match (stages 0 calls)[i]? with
    | some st => st.data heap q
    | none => []
  init p _ := fun j st _ => ⟨fun hlt => absurd hlt (Nat.not_lt_zero j), fun _ _ _ => rfl⟩
  enter {i p m h} _ hp _ hpre _ := by
    refine ⟨fun j st hst => ⟨(hpre j st hst).1, fun hlt => (hpre j st hst).2 hlt.le⟩, ?_⟩
    exact fun st hst => .of_fresh hp ((hpre i st hst).2 (Nat.le_refl i))
  leave {i p h} hi hp hend := by
    -- the stage that ends is the one whose plan has come to its end
    obtain ⟨st, hst⟩ := Layout.exists_ofList hi
    have hwidth : 0 < (layout α hn hsize calls).width i := (width_layout hst).symm ▸ Nat.one_pos
    obtain ⟨ho, hown⟩ := hend 0 hwidth rfl
    intro j st' hst'
    refine ⟨fun hlt => ?_, fun hlt => (ho j st' hst').2 hlt⟩
    rcases Nat.lt_succ_iff_lt_or_eq.mp hlt with hlt | rfl
    · exact (ho j st' hst').1 hlt
    · have hown := hown st' hst'
      rw [layout, Layout.len_ofList hst'] at hown
      exact hown.done RootedStage.hasData_len
  stable {i p m k h h'} hh hag hm := by
    have heq : h' = h := funext fun r => funext fun c => hag r c hm
    exact heq ▸ hh hm
  sends {i p m k j sd h} hs hh := by
    have hm := chain_eq_zero hs.1
    obtain ⟨st, hst, hs⟩ := Layout.isSend_ofList.mp hs
    rw [((hh hm).own st hst).read hs, hst]
  next_recv {i p m k κ t h h'} hrecv hh hag hm := by
    obtain ⟨st, hst, hr⟩ := Layout.isRecv_ofList.mp hrecv
    have heq : h' = h.copyInto st.target (st.data heap p) := by
      rw [← RootedStage.target_of_isRecv hsize hr]
      refine funext fun r => funext fun x => (hag r x hm).trans ?_
      rw [hst]
    obtain ⟨ho, hown⟩ := hh hm
    rw [layout, Layout.instr_ofList hst, RootedStage.after_of_isRecv hr, heq]
    refine ⟨ho.congr hst fun r x hne => Heap.copyInto_of_not_has _ _ fun hhas => hne hhas.1, ?_⟩
    intro st' hst'
    obtain rfl := Option.some.inj (hst.symm.trans hst')
    exact (hown st hst).recv
  next {i p m k h} hat hnone hh hm := by
    obtain ⟨st, hst, hat⟩ := Layout.at_ofList.mp hat
    obtain ⟨ho, hown⟩ := hh hm
    rw [layout, Layout.instr_ofList hst] at hnone ⊢
    refine ⟨ho.congr hst fun r x hne => RootedStage.after_frame hne x, fun st' hst' => ?_⟩
    obtain rfl := Option.some.inj (hst.symm.trans hst')
    exact (hown st hst).next hat hnone
  frame_recv {i p m k κ t m'} hr hne r c _ hm :=
    hne (hm.trans (chain_eq_zero hr.1).symm)
  frame_after {i p m k m'} h hat hne r c hm :=
    absurd (hm.trans (chain_eq_zero hat).symm) hne

/-- **A rank that has returned from a call** has its data, whatever it does next. -/
theorem done_of_outlined {s : AmNet.State Region α} (hinv : Inv (layout α hn hsize calls) s)
    (hout : (outline hn hsize calls heap).Outlined s) (hp : p < n) {st : RootedStage n}
    (hi : i < (s.rank p).stage) (hst : (stages 0 calls)[i]? = some st) :
    st.Done heap p (s.rank p).node.heap := by
  have hrank := hout.ranks p hp
  rcases Nat.lt_or_eq_of_le (hinv.ranks p hp).stage_le with hlt | hend
  · obtain ⟨here, hhere⟩ := Layout.exists_ofList hlt
    have hwidth : 0 < (layout α hn hsize calls).width (s.rank p).stage :=
      (width_layout hhere).symm ▸ Nat.one_pos
    by_cases htaken : ∃ κ t, (layout α hn hsize calls).IsRecv (s.rank p).stage p 0
        ((s.rank p).chain 0).pc κ t ∧
          (s.rank p).node.done ((s.rank p).stage, 0, ((s.rank p).chain 0).pc) = true
    · -- the message of the next call is in its buffer, and not in this one
      obtain ⟨κ, t, hrecv, hdone⟩ := htaken
      obtain ⟨h, hholds, hag⟩ := hrank.taken 0 κ t hrecv hdone
      obtain ⟨st', hst', hr⟩ := Layout.isRecv_ofList.mp hrecv
      obtain rfl := Option.some.inj (hst'.symm.trans hhere)
      have hothers : Others calls heap (s.rank p).stage p (s.rank p).node.heap := by
        refine (hholds rfl).others.congr hhere fun r x hne => ?_
        rw [hag r x rfl, RootedStage.target_of_isRecv hsize hr]
        exact Heap.copyInto_of_not_has _ _ fun hhas => hne hhas.1
      exact (hothers i st hst).1 hi
    · have hholds := hrank.waiting hlt 0 hwidth fun κ t hrecv => by
        by_contra hdone
        exact htaken ⟨κ, t, hrecv, Bool.eq_true_of_not_eq_false hdone⟩
      exact ((hholds rfl).others i st hst).1 hi
  · exact ((hrank.final hend) i st hst).1 (hend ▸ hi)

end Outline

/-! ### Every call delivers its own data -/

section Delivered

variable (hn : 2 ≤ n) (hsize : n < 2 ^ 64) (calls : List (RootedCall n))
  (heap : ℕ → Heap Region α)

/-- **Every call delivers its own data**, as far as the ranks have come. -/
structure Delivered (s : AmNet.State Region α) : Prop where
  /-- No message that has been issued is lost. -/
  kept : ∀ i p q κ, Issued (layout α hn hsize calls) s i p q κ →
    OnChannel s i p q κ ∨ IsEarly s i q κ ∨ Taken (layout α hn hsize calls) s i q κ
  /-- What a rank waits for has not been delivered to its router. -/
  waits : ∀ i p q m k κ t, (layout α hn hsize calls).IsRecv i q m k κ t →
    (s.rank q).Started i m k → (s.rank q).node.done (i, m, k) = false →
      Issued (layout α hn hsize calls) s i p q κ → OnChannel s i p q κ
  /-- A rank that has returned from a call has the data of that call. -/
  data : ∀ p < n, ∀ i < (s.rank p).stage, ∀ st, (stages 0 calls)[i]? = some st →
    (s.rank p).node.heap.read st.target = st.data heap p

variable {hn hsize calls heap}

theorem delivered_of_outlined (hapart : RootsApart calls) {s : AmNet.State Region α}
    (hinv : Inv (layout α hn hsize calls) s) (hout : (outline hn hsize calls heap).Outlined s) :
    Delivered hn hsize calls heap s := by
  refine ⟨hinv.messages.kept, ?_, fun p hp i hi st hst => done_of_outlined hinv hout hp hi hst⟩
  intro i p q m k κ t hrecv hstarted hdone hissued
  obtain ⟨w, hpending⟩ := hinv.messages.posted i q m k κ t hrecv hstarted hdone
  rcases hinv.messages.kept i p q κ hissued with hon | ⟨e, he, -⟩ | ⟨m', k', t', hrecv', htaken⟩
  · exact hon
  · exact nomatch hpending.symm.trans he
  · obtain ⟨rfl, rfl⟩ := (layout_matched hn hsize hapart).recv_unique hrecv hrecv'
    rw [hdone] at htaken
    exact nomatch htaken

/-- **Scatters and broadcasts in a row**, whose roots can be told apart: every call delivers
its own data all along a run exactly if each delivery of the run finds no early message
with its key. -/
theorem calls_delivered_iff (hn : 2 ≤ n) (hsize : n < 2 ^ 64) (calls : List (RootedCall n))
    (hapart : RootsApart calls) (eager : ℕ → Name → ℕ → Bool) (heap : ℕ → Heap Region α)
    (es : List Event) :
    Always (step ⟨n, fun p => program p 0 calls, eager⟩) (Delivered hn hsize calls heap)
        (start heap) es ↔
      EachStep (step ⟨n, fun p => program p 0 calls, eager⟩) InTime (start heap) es := by
  have hM := layout_matched (α := α) hn hsize hapart
  have hdeliver : ∀ s, Inv (layout α hn hsize calls) s ∧
      (outline hn hsize calls heap).Outlined s → Delivered hn hsize calls heap s :=
    fun s hs => delivered_of_outlined hapart hs.1 hs.2
  have hstart : Inv (layout α hn hsize calls) (start heap) ∧
      (outline hn hsize calls heap).Outlined (start heap) :=
    ⟨inv_start _ heap, Layout.Outline.outlined_start _⟩
  refine always_iff_eachStep hdeliver ?_ ?_ hstart (eachStep_true es)
  · rintro s e s' ⟨hinv, hout⟩ - hin hstep
    exact ⟨hinv.step hM hin hstep, hout.step hinv hM hin hstep⟩
  · rintro s e s' ⟨hinv, -⟩ - hin hstep hdelivered
    obtain ⟨i, p, q, κ, hissued, hon, hearly, htaken⟩ := hinv.lost_of_not_inTime hM hin hstep
    rcases hdelivered.kept i p q κ hissued with h | h | h
    · exact hon h
    · exact hearly h
    · exact htaken h

end Delivered

/-! ### A root that is two calls ahead -/

/-- A scatter of one element to each of two ranks. -/
def oneEach : RootedCall 2 := .scatter 1 0 (fun _ => some 2) rfl

/-- A scatter and a broadcast, each from its root to the other rank, which finds the message of
the first one when it begins, and waits for that of the second one. -/
def inTurn : List Event :=
  [.launch 0, .poll 0 0, .poll 0 0, .poll 0 0, .sent 0 0 0, .poll 0 0, .advance 0, .deliver 0 1,
    .launch 1, .poll 1 0, .poll 1 0, .advance 1, .launch 0, .poll 0 0, .launch 1, .poll 1 0,
    .sent 1 0 0, .poll 1 0, .deliver 1 0, .advance 1, .poll 0 0, .advance 0]

/-- Both calls deliver their data. -/
theorem calls_delivered_in_turn :
    Always (step ⟨2, fun p => program p 0 [oneEach, .broadcast 1 1], fun _ _ _ => true⟩)
        (Delivered (α := ℕ) (by decide) (by decide) [oneEach, .broadcast 1 1]
          fun p _ x => 10 * p + x)
        (start fun p _ x => 10 * p + x) inTurn ∧
      (runList (step ⟨2, fun p => program p 0 [oneEach, .broadcast 1 1], fun _ _ _ => true⟩)
        (start fun p (_ : Region) x => 10 * p + x) inTurn).map (fun s => [0, 1].map fun p =>
          ((s.rank p).stage, (s.rank p).node.heap (0, .buf) 0, (s.rank p).node.heap (1, .buf) 0)) =
        some [(2, 0, 10), (2, 1, 10)] := by
  refine ⟨(calls_delivered_iff (by decide) (by decide) _ (rootsApart_of_le (by decide) _) _ _
    _).mpr ?_, by decide +kernel⟩
  decide +kernel

/-- The root goes through two calls, and its messages are delivered to a rank that has not
begun the first one. -/
def twoAhead : List Event :=
  let call : List Event :=
    [.launch 0, .poll 0 0, .poll 0 0, .poll 0 0, .sent 0 0 0, .poll 0 0, .advance 0]
  call ++ call ++ [.deliver 0 1, .deliver 0 1]

/-- **Two scatters in a row**: both messages are lost. -/
theorem not_calls_delivered : ∃ s, Reaches (step ⟨2, fun p => program p 0 [oneEach, oneEach],
      fun _ _ _ => true⟩) (start fun _ _ x => x) s ∧
    ¬Delivered (α := ℕ) (n := 2) (by decide) (by decide) [oneEach, oneEach] (fun _ _ x => x) s := by
  have hrun : ((runList (step ⟨2, fun p => program p 0 [oneEach, oneEach], fun _ _ _ => true⟩)
      (start fun _ (_ : Region) (x : ℕ) => x) twoAhead).map fun s =>
        ((s.rank 0).stage, (s.chan 0 1).isEmpty,
          ((s.rank 1).node.router.slots (scatterKey 0)).isNone,
            (s.rank 1).node.done (0, 0, 0))) = some (2, true, true, false) := by
    decide +kernel
  obtain ⟨s, hs, hend⟩ := Option.map_eq_some_iff.mp hrun
  simp only [Prod.mk.injEq, List.isEmpty_iff, Option.isNone_iff_eq_none] at hend
  obtain ⟨hstage, hchan, hslot, hdone⟩ := hend
  refine ⟨s, .of_run hs, fun hdelivered => ?_⟩
  have hissued : Issued (layout ℕ (by decide) (by decide) [oneEach, oneEach]) s 0 0 1
      (scatterKey 0) := by
    refine ⟨0, 1, 0, scatterSend 0 1 0 1, Layout.isSend_ofList.mpr ⟨_, rfl, ?_⟩, rfl, rfl, .inl ?_⟩
    · exact (scatterPlan_isSend Nat.two_pos).mpr ⟨rfl, rfl, rfl, 1, rfl, rfl⟩
    · rw [hstage]
      exact Nat.two_pos
  rcases hdelivered.kept 0 0 1 _ hissued with ⟨msg, hmsg, -⟩ | ⟨e, he, -⟩ | ⟨m, k, t, hrecv, htaken⟩
  · rw [hchan] at hmsg
    exact nomatch hmsg
  · rw [hslot] at he
    exact nomatch he
  · obtain ⟨st, hst, hr⟩ := Layout.isRecv_ofList.mp hrecv
    obtain rfl := Option.some.inj hst
    obtain ⟨-, -, rfl, rfl, -⟩ := scatterPlan_isRecv.mp hr
    rw [hdone] at htaken
    exact nomatch htaken

end Rooted

end Pluvio
