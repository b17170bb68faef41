import Pluvio.Collective.Communicator
import Pluvio.Mpi.Reactor

/-!
# The futures of the MPI collectives

A collective over MPI is a future that starts its request when it is polled for the first
time. It hands the request and the waker of this poll to the reactor, and from then on only
looks at the flag of its slot.

So the reactor has the waker of the first poll, whatever wakers the polls after it come
with: `Pluvio.Mpi.latest_waker_law` says with which wakers the futures have to be polled for
the one of the last poll to be woken all the same. And the reactor keeps the request when
the future is dropped, while MPI still has the addresses of the buffers that the future has
borrowed: `Pluvio.Mpi.live_owner_law` says when every request has a future.
-/

namespace Pluvio

namespace Mpi

/-! ### The futures -/

/-- The scalar types that MPI has, `MpiDatatype`. -/
inductive MpiDatatype
  | float
  | double
  | uint32
  deriving DecidableEq

/-- `MPI_Op`. -/
inductive MpiOp
  | sum
  | max
  | min
  | prod
  | bxor
  deriving DecidableEq

/-- A slice of the caller: its address, and how many elements it has. -/
structure Buf where
  ptr : ℕ
  len : ℕ
  deriving DecidableEq

/-- The calls that start a request, with the arguments that differ. -/
inductive MpiCall
  /-- `MPI_Iallreduce`, in place. -/
  | iallreduce (buf : ℕ) (count : Int32) (dtype : MpiDatatype) (op : MpiOp)
  /-- `MPI_Ibcast`. -/
  | ibcast (buf : ℕ) (count : Int32) (dtype : MpiDatatype) (root : Int32)
  /-- `MPI_Iallgather`. -/
  | iallgather (send : ℕ) (sendCount : Int32) (recv : ℕ) (recvCount : Int32)
    (dtype : MpiDatatype)
  /-- `MPI_Iscatter`; the address to send from may be null. -/
  | iscatter (send : Option ℕ) (sendCount : Int32) (recv : ℕ) (recvCount : Int32)
    (dtype : MpiDatatype) (root : Int32)
  deriving DecidableEq

/-- `State` of a future. -/
inductive State
  | notStarted
  | inFlight (slot : ℕ)
  | done
  deriving DecidableEq

/-- What the four futures are: the call they make, and their state. -/
structure MpiFuture where
  call : MpiCall
  state : State
  deriving DecidableEq

/-- What a poll of a collective future returns. -/
inductive Poll
  | pending
  | ready (result : Except CollectiveError Unit)
  deriving DecidableEq

/-- `AllreduceFuture::new`. -/
def AllreduceFuture.new (dtype : MpiDatatype) (buf : Buf) (op : MpiOp) : MpiFuture :=
  ⟨.iallreduce buf.ptr (.ofNat buf.len) dtype op, .notStarted⟩

/-- `BroadcastFuture::new`. -/
def BroadcastFuture.new (dtype : MpiDatatype) (buf : Buf) (root : ℕ) : MpiFuture :=
  ⟨.ibcast buf.ptr (.ofNat buf.len) dtype (.ofNat root), .notStarted⟩

/-- `AllgatherFuture::new`. -/
def AllgatherFuture.new (dtype : MpiDatatype) (send recv : Buf) (size : ℕ) :
    Except CollectiveError MpiFuture :=
  if recv.len ≠ send.len * size then .error .badShape
  else .ok ⟨.iallgather send.ptr (.ofNat send.len) recv.ptr (.ofNat send.len) dtype, .notStarted⟩

/-- `ScatterFuture::new`. -/
def ScatterFuture.new (dtype : MpiDatatype) (send : Option Buf) (recv : Buf)
    (root rank size : ℕ) : Except CollectiveError MpiFuture :=
  if rank = root then
    match send with
    | none => .error (.protocol "scatter: send_buf required at root")
    | some sb =>
      if sb.len ≠ recv.len * size then .error .badShape
      else .ok ⟨.iscatter (some sb.ptr) (.ofNat recv.len) recv.ptr (.ofNat recv.len) dtype
        (.ofNat root), .notStarted⟩
  else .ok ⟨.iscatter none 0 recv.ptr (.ofNat recv.len) dtype (.ofNat root), .notStarted⟩

/-- `MpiCommunicator`, without its reactor. -/
structure MpiCommunicator where
  rank : ℕ
  size : ℕ

/-- What is asked of a communicator. -/
inductive Collective
  | allreduce (buf : Buf) (op : MpiOp)
  | scatter (sendBuf : Option Buf) (recvBuf : Buf) (root : ℕ)
  | allgather (sendBuf recvBuf : Buf)
  | broadcast (buf : Buf) (root : ℕ)

/-- The methods of `Collective` of a communicator, up to the future they poll. -/
def MpiCommunicator.start (comm : MpiCommunicator) (dtype : MpiDatatype) :
    Collective → Except CollectiveError MpiFuture
  | .allreduce buf op => .ok (AllreduceFuture.new dtype buf op)
  | .scatter sendBuf recvBuf root =>
    ScatterFuture.new dtype sendBuf recvBuf root comm.rank comm.size
  | .allgather sendBuf recvBuf => AllgatherFuture.new dtype sendBuf recvBuf comm.size
  | .broadcast buf root => .ok (BroadcastFuture.new dtype buf root)

variable {W : Type*}

/-- `poll` of a future. The call to MPI, if there is one, returns `rc`. -/
def MpiFuture.poll (fut : MpiFuture) (reactor : MpiReactor MpiCall W) (waker : W) (rc : Int32) :
    Poll × MpiFuture × MpiReactor MpiCall W :=
  match fut.state with
  | .notStarted =>
    if rc ≠ 0 then (.ready (.error (.mpi rc)), fut, reactor)
    else
      let (slot, reactor) := reactor.register fut.call waker
      (.pending, { fut with state := .inFlight slot }, reactor)
  | .inFlight slot =>
    -- the waker of this poll is not handed to the reactor
    if reactor.done slot then (.ready (.ok ()), { fut with state := .done }, reactor)
    else (.pending, fut, reactor)
  | .done => (.ready (.ok ()), fut, reactor)

/-! ### A process with its futures -/

/-- A process. A future goes by its position among those that were created. -/
structure Process (W : Type*) where
  reactor : MpiReactor MpiCall W
  /-- The futures, without those that have been dropped. -/
  futs : List (Option MpiFuture)
  /-- The last poll of a future: the waker, and what it returned. -/
  lastPoll : ℕ → Option (W × Poll)
  /-- The wakers that were woken by the poll of the reactor that set the flag of a slot. -/
  wokenFor : ℕ → List W
  /-- The first polls that returned `Pending`, in this order: the future, and the waker it was
  polled with. -/
  started : List (ℕ × W)

/-- What happens in the process. -/
inductive Event (W : Type*)
  | create (dtype : MpiDatatype) (asked : Collective)
  | poll (f : ℕ) (waker : W) (rc : Int32)
  | drop (f : ℕ)
  /-- A poll of the reactor, with the outcome of `MPI_Test` for the request of each slot. -/
  | reactorPoll (test : ℕ → Outcome)

namespace Process

/-- A process before its first collective. -/
def start : Process W := ⟨.new, [], fun _ => none, fun _ => [], []⟩

/-- A poll of a future, which may start its request. -/
def pollFut (s : Process W) (f : ℕ) (fut : MpiFuture) (waker : W) (rc : Int32) : Process W :=
  let (result, polled, reactor) := fut.poll s.reactor waker rc
  { s with
    reactor := reactor
    futs := s.futs.set f (some polled)
    lastPoll := Function.update s.lastPoll f (some (waker, result))
    started := if fut.state = .notStarted ∧ result = .pending then s.started ++ [(f, waker)]
      else s.started }

/-- The reactor is polled; there is no value where the assertion fails. -/
def pollReactor (debug : Bool) (s : Process W) (test : ℕ → Outcome) : Option (Process W) :=
  (s.reactor.poll debug fun _ e => test e.slot).bind fun p =>
    if p.failed = none then some { s with
      reactor := p.reactor
      wokenFor := fun slot =>
        if p.log.completed.any fun e => e.slot = slot then p.log.completed.map PendingReq.waker
        else s.wokenFor slot }
    else none

/-- One event, in a debug build or in a release build. -/
def step (debug : Bool) (comm : MpiCommunicator) (s : Process W) : Event W → Option (Process W)
  | .create dtype asked =>
    match comm.start dtype asked with
    | .ok fut => some { s with futs := s.futs ++ [some fut] }
    | .error _ => none
  | .poll f waker rc => s.futs[f]?.join.map fun fut => s.pollFut f fut waker rc
  | .drop f => s.futs[f]?.join.map fun _ => { s with futs := s.futs.set f none }
  | .reactorPoll test => s.pollReactor debug test

/-- The future has not been dropped, and it waits for the request of this slot. -/
def InFlight (s : Process W) (f : ℕ) (call : MpiCall) (slot : ℕ) : Prop :=
  s.futs[f]? = some (some ⟨call, .inFlight slot⟩)

/-- The request of the slot is pending. -/
def Pending (s : Process W) (slot : ℕ) : Prop := ∃ e ∈ s.reactor.pending, e.slot = slot

/-- **The latest waker is woken**: a future whose request is complete and whose last poll
returned `Pending` has had the waker of this poll woken, and its next poll returns
`Ready(Ok(()))`. -/
def WakesLatest (s : Process W) : Prop :=
  ∀ f call slot w, s.InFlight f call slot → s.reactor.done slot = true →
    s.lastPoll f = some (w, .pending) → w ∈ s.wokenFor slot ∧
      ∀ waker rc, (MpiFuture.poll ⟨call, .inFlight slot⟩ s.reactor waker rc).1 = .ready (.ok ())

/-- **Every request has a live owner**, whose buffers are those it was started with. -/
def Owned (s : Process W) : Prop := ∀ e ∈ s.reactor.pending, ∃ f, s.InFlight f e.req e.slot

/-- The request of a future completes, and the future was last polled with a waker that no
future whose request completes with it, dropped or not, was first polled with. -/
def Forgets (s : Process W) : Event W → Prop
  | .reactorPoll test => ∃ f call slot w, s.InFlight f call slot ∧ s.Pending slot ∧
      (test slot).complete = true ∧ s.lastPoll f = some (w, .pending) ∧
        ∀ k g v, s.started[k]? = some (g, v) → s.Pending k → (test k).complete = true → v ≠ w
  | _ => False

/-- A future is dropped while its request is pending. -/
def Abandons (s : Process W) : Event W → Prop
  | .drop f => ∃ call slot, s.InFlight f call slot ∧ s.Pending slot
  | _ => False

/-! ### What one event does -/

/-- The slots of the requests and of the futures. -/
structure Wf (s : Process W) : Prop where
  active : s.reactor.active = s.reactor.pending.length
  pending : ∀ e ∈ s.reactor.pending, e.slot < s.reactor.slots ∧ s.reactor.done e.slot = false
  slots : ∀ f call slot, s.InFlight f call slot → slot < s.reactor.slots
  owner : ∀ f call f' call' slot, s.InFlight f call slot → s.InFlight f' call' slot → f = f'
  waits : ∀ f call slot, s.InFlight f call slot → s.reactor.done slot = false → s.Pending slot
  last : ∀ f call slot, s.InFlight f call slot → ∃ w, s.lastPoll f = some (w, .pending)
  started : s.started.length = s.reactor.slots
  first : ∀ e ∈ s.reactor.pending, ∃ f, s.started[e.slot]? = some (f, e.waker)

/-- What an event can do to the requests and the futures that wait for them. -/
inductive Effect (debug : Bool) (s : Process W) (e : Event W) (s' : Process W) : Prop
  /-- No request is started and no flag is set. A future that waits for a request is left
  as it is, or polled in vain, or dropped. -/
  | quiet (hevent : ∀ test, e ≠ .reactorPoll test) (hreactor : s'.reactor = s.reactor)
      (hwoken : s'.wokenFor = s.wokenFor) (hstarted : s'.started = s.started)
      (hold : ∀ f call slot, s'.InFlight f call slot → s.InFlight f call slot ∧
        (s'.lastPoll f = s.lastPoll f ∨
          s.reactor.done slot = false ∧ ∃ w, s'.lastPoll f = some (w, .pending)))
      (hkept : ∀ f call slot, s.InFlight f call slot → s.reactor.done slot = false →
        (∀ g, e = .drop g → g ≠ f) → s'.InFlight f call slot)
      (hdrop : ∀ f call slot, e = .drop f → ¬s'.InFlight f call slot)
  /-- A future starts its request. -/
  | begins (f : ℕ) (call : MpiCall) (w : W) (hevent : ∃ rc, e = .poll f w rc)
      (hreactor : s'.reactor = (s.reactor.register call w).2) (hwoken : s'.wokenFor = s.wokenFor)
      (hstarted : s'.started = s.started ++ [(f, w)])
      (hnew : s'.InFlight f call s.reactor.slots)
      (hlast : s'.lastPoll f = some (w, .pending)) (hnot : ∀ call slot, ¬s.InFlight f call slot)
      (hothers : ∀ g, g ≠ f → s'.lastPoll g = s.lastPoll g ∧
        ∀ call slot, s'.InFlight g call slot ↔ s.InFlight g call slot)
  /-- A poll of the reactor, which tests its requests. -/
  | polls (test : ℕ → Outcome) (log : Tested MpiCall W) (hevent : e = .reactorPoll test)
      (hspec : PollSpec debug (fun _ e => test e.slot) s.reactor ⟨s'.reactor, log, none⟩ [])
      (hfuts : s'.futs = s.futs) (hlast : s'.lastPoll = s.lastPoll)
      (hstarted : s'.started = s.started)
      (hwoken : ∀ slot, s'.wokenFor slot =
        if log.completed.any fun e => e.slot = slot then log.completed.map PendingReq.waker
        else s.wokenFor slot)

variable {debug : Bool} {comm : MpiCommunicator} {s s' : Process W} {e : Event W} {f g slot : ℕ}
  {call : MpiCall} {fut : MpiFuture}

theorem start_notStarted {dtype : MpiDatatype} {asked : Collective}
    (h : comm.start dtype asked = .ok fut) : fut.state = .notStarted := by
  cases asked with
  | allreduce buf op | broadcast buf root =>
    cases h
    rfl
  | allgather sendBuf recvBuf =>
    rw [MpiCommunicator.start, AllgatherFuture.new] at h
    split at h <;> cases h
    rfl
  | scatter sendBuf recvBuf root =>
    rw [MpiCommunicator.start, ScatterFuture.new.eq_def] at h
    split at h
    · cases sendBuf with
      | none => cases h
      | some sb =>
        dsimp only at h
        split at h <;> cases h
        rfl
    · cases h
      rfl

/-- The futures, when one of them is replaced. -/
theorem getElem?_set_live {futs : List (Option MpiFuture)} (h : futs[f]? = some (some fut))
    (new : Option MpiFuture) : (futs.set f new)[g]? = if g = f then some new else futs[g]? := by
  rcases eq_or_ne g f with rfl | hne
  · rw [if_pos rfl, List.getElem?_set_self (List.getElem?_eq_some_iff.mp h).1]
  · rw [if_neg hne, List.getElem?_set_ne hne.symm]

/-- **A future is replaced** by an event of its own. It waits for a request afterwards only
if it did before and has been polled in vain. -/
theorem quiet_set (hevent : ∀ test, e ≠ .reactorPoll test)
    (h : s.futs[f]? = some (some fut)) (new : Option MpiFuture)
    (lastPoll : ℕ → Option (W × Poll)) (hlast : ∀ g, g ≠ f → lastPoll g = s.lastPoll g)
    (hnew : ∀ call slot, new = some ⟨call, .inFlight slot⟩ →
      fut = ⟨call, .inFlight slot⟩ ∧ s.reactor.done slot = false ∧
        ∃ w, lastPoll f = some (w, .pending))
    (hkept : ∀ call slot, fut = ⟨call, .inFlight slot⟩ → s.reactor.done slot = false →
      e = .drop f ∨ new = some fut) (hdrop : ∀ g, e = .drop g → g = f ∧ new = none) :
    Effect debug s e { s with futs := s.futs.set f new, lastPoll := lastPoll } := by
  refine .quiet hevent rfl rfl rfl (fun g call slot hg => ?_)
    (fun g call slot hg hdone he => ?_) fun g call slot he hg => ?_
  · rw [InFlight, getElem?_set_live h] at hg
    split at hg
    · next heq =>
      subst heq
      obtain ⟨rfl, hdone, hw⟩ := hnew call slot (Option.some.inj hg)
      exact ⟨h, .inr ⟨hdone, hw⟩⟩
    · next hne => exact ⟨hg, .inl (hlast g hne)⟩
  · rw [InFlight, getElem?_set_live h]
    split
    · next heq =>
      subst heq
      obtain rfl := Option.some.inj (Option.some.inj (h.symm.trans hg))
      rcases hkept call slot rfl hdone with hd | rfl
      · exact absurd rfl (he g hd)
      · rfl
    · exact hg
  · obtain ⟨rfl, rfl⟩ := hdrop g he
    rw [InFlight, getElem?_set_live h, if_pos rfl] at hg
    cases hg

/-- **A poll of a future** starts its request, or leaves the reactor as it is. -/
theorem pollFut_effect (h : s.futs[f]? = some (some fut)) (waker : W) (rc : Int32) :
    Effect debug s (.poll f waker rc) (s.pollFut f fut waker rc) := by
  obtain ⟨call, state⟩ := fut
  have hlast : ∀ (r : Poll) g, g ≠ f →
      Function.update s.lastPoll f (some (waker, r)) g = s.lastPoll g :=
    fun r g hne => Function.update_of_ne hne ..
  -- the polls that leave the reactor as it is
  have hquiet : ∀ (new : MpiFuture) (r : Poll),
      (∀ call' slot, new = ⟨call', .inFlight slot⟩ → (⟨call, state⟩ : MpiFuture) =
        ⟨call', .inFlight slot⟩ ∧ s.reactor.done slot = false ∧ r = .pending) →
      (∀ slot, state = .inFlight slot → s.reactor.done slot = false → new = ⟨call, state⟩) →
      Effect debug s (.poll f waker rc) { s with
        futs := s.futs.set f (some new)
        lastPoll := Function.update s.lastPoll f (some (waker, r)) } := by
    intro new r hnew hkept
    refine quiet_set (fun _ he => by cases he) h _ _ (hlast r) (fun call' slot he => ?_)
      (fun call' slot he hd => .inr ?_) fun _ he => by cases he
    · obtain ⟨heq, hd, rfl⟩ := hnew call' slot (Option.some.inj he)
      exact ⟨heq, hd, waker, Function.update_self ..⟩
    · cases he
      rw [hkept slot rfl hd]
  cases state with
  | notStarted =>
    by_cases hrc : rc = 0
    · -- the request is started
      subst hrc
      refine .begins f call waker ⟨0, rfl⟩ rfl rfl rfl ?_ (Function.update_self ..)
        (fun call' slot hf => ?_) fun g hne => ⟨hlast _ g hne, fun call' slot => ?_⟩
      · exact (getElem?_set_live h _).trans (if_pos rfl)
      · cases h.symm.trans hf
      · exact iff_of_eq (congrArg (· = _) ((getElem?_set_live h _).trans (if_neg hne)))
    · have hpoll : s.pollFut f ⟨call, .notStarted⟩ waker rc = { s with
          futs := s.futs.set f (some ⟨call, .notStarted⟩)
          lastPoll := Function.update s.lastPoll f
            (some (waker, .ready (.error (.mpi rc)))) } := by
        rw [pollFut, MpiFuture.poll, if_pos hrc]
        rfl
      rw [hpoll]
      exact hquiet _ _ (fun _ _ he => by cases he) (fun _ he => by cases he)
  | inFlight slot =>
    rcases hdone : s.reactor.done slot with - | -
    · -- polled in vain
      have hpoll : s.pollFut f ⟨call, .inFlight slot⟩ waker rc = { s with
          futs := s.futs.set f (some ⟨call, .inFlight slot⟩)
          lastPoll := Function.update s.lastPoll f (some (waker, .pending)) } := by
        rw [pollFut, MpiFuture.poll]
        simp only [hdone]
        rfl
      rw [hpoll]
      refine hquiet _ _ (fun call' slot' he => ?_) (fun _ _ _ => rfl)
      cases he
      exact ⟨rfl, hdone, rfl⟩
    · have hpoll : s.pollFut f ⟨call, .inFlight slot⟩ waker rc = { s with
          futs := s.futs.set f (some ⟨call, .done⟩)
          lastPoll := Function.update s.lastPoll f (some (waker, .ready (.ok ()))) } := by
        rw [pollFut, MpiFuture.poll]
        simp only [hdone]
        rfl
      rw [hpoll]
      refine hquiet _ _ (fun _ _ he => by cases he) (fun slot' he hd => ?_)
      cases he
      rw [hdone] at hd
      cases hd
  | done =>
    exact hquiet _ _ (fun _ _ he => by cases he) (fun _ he => by cases he)

/-- **Every event** has one of these effects. -/
theorem step_effect (h : s.Wf) (hs : s.step debug comm e = some s') : Effect debug s e s' := by
  cases e with
  | create dtype asked =>
    rcases hnew : comm.start dtype asked with err | fut
    · rw [step, hnew] at hs
      cases hs
    · rw [step, hnew] at hs
      obtain rfl := Option.some.inj hs
      refine .quiet (fun _ he => by cases he) rfl rfl rfl (fun f call slot hf => ⟨?_, .inl rfl⟩)
        (fun f call slot hf _ _ => ?_) fun _ _ _ he => by cases he
      · rcases Nat.lt_or_ge f s.futs.length with hlt | hge
        · exact (List.getElem?_append_left hlt).symm.trans hf
        · rw [InFlight, List.getElem?_append_right hge] at hf
          obtain rfl := Option.some.inj (List.mem_singleton.mp (List.mem_of_getElem? hf))
          cases start_notStarted hnew
      · exact (List.getElem?_append_left (List.getElem?_eq_some_iff.mp hf).1).trans hf
  | poll f waker rc =>
    obtain ⟨fut, hfut, rfl⟩ := Option.map_eq_some_iff.mp hs
    exact pollFut_effect (Option.join_eq_some_iff.mp hfut) waker rc
  | drop f =>
    obtain ⟨fut, hfut, rfl⟩ := Option.map_eq_some_iff.mp hs
    refine quiet_set (fun _ he => by cases he) (Option.join_eq_some_iff.mp hfut) none s.lastPoll
      (fun _ _ => rfl) (fun _ _ he => by cases he) (fun _ _ _ _ => .inl rfl) fun g he => ?_
    cases he
    exact ⟨rfl, rfl⟩
  | reactorPoll test =>
    obtain ⟨⟨reactor, log, failed⟩, left, hpoll, hspec⟩ :=
      poll_spec debug (fun _ e => test e.slot) h.active
    rw [step, pollReactor, hpoll, Option.bind_some] at hs
    obtain ⟨rfl, hs⟩ := Option.ite_none_right_eq_some.mp hs
    obtain rfl := Option.some.inj hs
    obtain rfl := hspec.ends.eq_nil
    exact .polls test log rfl hspec rfl rfl rfl fun _ => rfl

/-! ### The invariants -/

theorem not_inFlight_start : ¬(start : Process W).InFlight f call slot := by
  rw [InFlight, start, List.getElem?_nil]
  exact nofun

theorem wf_start : (start : Process W).Wf where
  active := rfl
  pending := fun _ he => absurd he List.not_mem_nil
  slots := fun _ _ _ hf => absurd hf not_inFlight_start
  owner := fun _ _ _ _ _ hf => absurd hf not_inFlight_start
  waits := fun _ _ _ hf => absurd hf not_inFlight_start
  last := fun _ _ _ hf => absurd hf not_inFlight_start
  started := rfl
  first := fun _ he => absurd he List.not_mem_nil

/-- A request that is pending has not completed at a poll of the reactor that leaves it. -/
theorem done_of_spec {r : MpiReactor MpiCall W} {p : Polled MpiCall W} {test : ℕ → Outcome}
    (h : PollSpec debug (fun _ e => test e.slot) r p []) {k : ℕ} :
    p.reactor.done k = true ↔
      r.done k = true ∨ (test k).complete = true ∧ ∃ e ∈ r.pending, e.slot = k := by
  rw [h.done, Bool.or_eq_true, List.any_eq_true]
  refine or_congr Iff.rfl ⟨?_, ?_⟩
  · rintro ⟨e, he, hslot⟩
    obtain ⟨hmem, hc⟩ := h.mem_completed.mp he
    exact ⟨of_decide_eq_true hslot ▸ hc, e, hmem, of_decide_eq_true hslot⟩
  · rintro ⟨hc, e, hmem, rfl⟩
    exact ⟨e, h.mem_completed.mpr ⟨hmem, hc⟩, decide_eq_true rfl⟩

theorem Wf.quiet (h : s.Wf) (hreactor : s'.reactor = s.reactor)
    (hstarted : s'.started = s.started)
    (hold : ∀ f call slot, s'.InFlight f call slot → s.InFlight f call slot ∧
      (s'.lastPoll f = s.lastPoll f ∨
        s.reactor.done slot = false ∧ ∃ w, s'.lastPoll f = some (w, .pending))) : s'.Wf := by
  refine ⟨hreactor ▸ h.active, hreactor ▸ h.pending, fun f call slot hf => ?_,
    fun f call g call' slot hf hg => ?_, fun f call slot hf hdone => ?_,
    fun f call slot hf => ?_, ?_, ?_⟩
  · exact hreactor ▸ h.slots f call slot (hold f call slot hf).1
  · exact h.owner f call g call' slot (hold f call slot hf).1 (hold g call' slot hg).1
  · rw [hreactor] at hdone
    rw [Pending, hreactor]
    exact h.waits f call slot (hold f call slot hf).1 hdone
  · obtain ⟨hbefore, hlast | ⟨-, hw⟩⟩ := hold f call slot hf
    · exact hlast ▸ h.last f call slot hbefore
    · exact hw
  · rw [hstarted, hreactor]
    exact h.started
  · rw [hstarted, hreactor]
    exact h.first

/-- A slot that a future waits for is not the next one. -/
theorem Wf.slot_ne (h : s.Wf) (hf : s.InFlight f call slot) : slot ≠ s.reactor.slots :=
  Nat.ne_of_lt (h.slots f call slot hf)

theorem Wf.begins {w : W} (h : s.Wf) (hreactor : s'.reactor = (s.reactor.register call w).2)
    (hstarted : s'.started = s.started ++ [(f, w)])
    (hnew : s'.InFlight f call s.reactor.slots) (hlast : s'.lastPoll f = some (w, .pending))
    (hothers : ∀ g, g ≠ f → s'.lastPoll g = s.lastPoll g ∧
      ∀ call slot, s'.InFlight g call slot ↔ s.InFlight g call slot) : s'.Wf := by
  have hpending : s'.reactor.pending = s.reactor.pending ++ [⟨call, w, s.reactor.slots⟩] := by
    rw [hreactor]
    rfl
  have hslots : s'.reactor.slots = s.reactor.slots + 1 := by
    rw [hreactor]
    rfl
  have hdone : s'.reactor.done = Function.update s.reactor.done s.reactor.slots false := by
    rw [hreactor]
    rfl
  -- a future that waits is the new one, with the new slot, or it waited before
  have hcases : ∀ g call' slot, s'.InFlight g call' slot →
      g = f ∧ slot = s.reactor.slots ∨ g ≠ f ∧ s.InFlight g call' slot := by
    intro g call' slot hg
    rcases eq_or_ne g f with rfl | hne
    · cases hnew.symm.trans hg
      exact .inl ⟨rfl, rfl⟩
    · exact .inr ⟨hne, ((hothers g hne).2 call' slot).mp hg⟩
  refine ⟨?_, fun e he => ?_, fun g call' slot hg => ?_, fun g c₁ g' c₂ slot hg hg' => ?_,
    fun g call' slot hg hd => ?_, fun g call' slot hg => ?_, ?_, fun e he => ?_⟩
  · rw [hreactor]
    show s.reactor.active + 1 = (s.reactor.pending ++ [_]).length
    rw [h.active, List.length_append, List.length_singleton]
  · rw [hpending, List.mem_append, List.mem_singleton] at he
    rw [hslots, hdone]
    rcases he with he | rfl
    · obtain ⟨hlt, hd⟩ := h.pending e he
      exact ⟨Nat.lt_succ_of_lt hlt, (Function.update_of_ne (Nat.ne_of_lt hlt) ..).trans hd⟩
    · exact ⟨Nat.lt_succ_self _, Function.update_self ..⟩
  · rw [hslots]
    rcases hcases g call' slot hg with ⟨-, rfl⟩ | ⟨-, hg⟩
    · exact Nat.lt_succ_self _
    · exact Nat.lt_succ_of_lt (h.slots g call' slot hg)
  · rcases hcases g c₁ slot hg with ⟨rfl, rfl⟩ | ⟨-, hg⟩ <;>
      rcases hcases g' c₂ _ hg' with ⟨rfl, heq⟩ | ⟨-, hg'⟩
    · rfl
    · exact absurd rfl (h.slot_ne hg')
    · exact absurd heq (h.slot_ne hg)
    · exact h.owner g c₁ g' c₂ slot hg hg'
  · rw [Pending, hpending]
    rcases hcases g call' slot hg with ⟨-, rfl⟩ | ⟨-, hg⟩
    · exact ⟨_, List.mem_append_right _ (List.mem_singleton_self _), rfl⟩
    · rw [hdone, Function.update_of_ne (h.slot_ne hg)] at hd
      obtain ⟨e, he, hslot⟩ := h.waits g call' slot hg hd
      exact ⟨e, List.mem_append_left _ he, hslot⟩
  · rcases hcases g call' slot hg with ⟨rfl, -⟩ | ⟨hne, hg⟩
    · exact ⟨w, hlast⟩
    · exact (hothers g hne).1 ▸ h.last g call' slot hg
  · rw [hstarted, hslots, List.length_append, h.started]
    rfl
  · rw [hstarted]
    rw [hpending, List.mem_append, List.mem_singleton] at he
    rcases he with he | rfl
    · obtain ⟨g, hg⟩ := h.first e he
      exact ⟨g, (List.getElem?_append_left (List.getElem?_eq_some_iff.mp hg).1).trans hg⟩
    · refine ⟨f, ?_⟩
      rw [← h.started, List.getElem?_concat_length]

theorem Wf.polls {test : ℕ → Outcome} {log : Tested MpiCall W} (h : s.Wf)
    (hspec : PollSpec debug (fun _ e => test e.slot) s.reactor ⟨s'.reactor, log, none⟩ [])
    (hfuts : s'.futs = s.futs) (hlast : s'.lastPoll = s.lastPoll)
    (hstarted : s'.started = s.started) : s'.Wf := by
  have hold : ∀ {f call slot}, s'.InFlight f call slot → s.InFlight f call slot := by
    intro f call slot hf
    rwa [InFlight, hfuts] at hf
  refine ⟨hspec.active, fun e he => ?_, fun f call slot hf => ?_,
    fun f call g call' slot hf hg => h.owner f call g call' slot (hold hf) (hold hg),
    fun f call slot hf hdone => ?_, fun f call slot hf => ?_, ?_, fun e he => ?_⟩
  · obtain ⟨hmem, hc⟩ := hspec.mem_pending.mp he
    obtain ⟨hlt, hd⟩ := h.pending e hmem
    refine ⟨hspec.slots ▸ hlt, Bool.eq_false_iff.mpr fun hd' => ?_⟩
    rcases (done_of_spec hspec).mp hd' with hd' | ⟨hc', -⟩
    · exact Bool.eq_false_iff.mp hd hd'
    · exact Bool.eq_false_iff.mp hc hc'
  · exact hspec.slots ▸ h.slots f call slot (hold hf)
  · -- the flag has not been set, so the request has not been complete
    have hnot : ¬(s.reactor.done slot = true ∨ _) :=
      fun hd => Bool.eq_false_iff.mp hdone ((done_of_spec hspec).mpr hd)
    obtain ⟨e, he, hslot⟩ := h.waits f call slot (hold hf)
      (Bool.eq_false_iff.mpr fun hd => hnot (.inl hd))
    have hc : (test e.slot).complete = false :=
      Bool.eq_false_iff.mpr fun hc => hnot (.inr ⟨hslot ▸ hc, e, he, hslot⟩)
    exact ⟨e, hspec.mem_pending.mpr ⟨he, hc⟩, hslot⟩
  · exact hlast ▸ h.last f call slot (hold hf)
  · exact (congrArg List.length hstarted).trans (h.started.trans hspec.slots.symm)
  · rw [hstarted]
    exact h.first e (hspec.mem_pending.mp he).1

theorem Wf.step (h : s.Wf) (hs : s.step debug comm e = some s') : s'.Wf := by
  cases step_effect h hs with
  | quiet _ hreactor _ hstarted hold _ _ => exact h.quiet hreactor hstarted hold
  | begins f call w _ hreactor _ hstarted hnew hlast _ hothers =>
    exact h.begins hreactor hstarted hnew hlast hothers
  | polls test log _ hspec hfuts hlast hstarted _ => exact h.polls hspec hfuts hlast hstarted

/-- A future whose slot is done is ready. -/
theorem poll_of_done {r : MpiReactor MpiCall W} (h : r.done slot = true) (waker : W) (rc : Int32) :
    (MpiFuture.poll ⟨call, .inFlight slot⟩ r waker rc).1 = .ready (.ok ()) := by
  rw [MpiFuture.poll]
  simp only [h]
  rfl

/-- **A poll of the reactor that forgets no future** wakes the latest wakers, and so does
every other event. -/
theorem WakesLatest.step (hw : s.WakesLatest) (h : s.Wf) (hforgets : ¬s.Forgets e)
    (hs : s.step debug comm e = some s') : s'.WakesLatest := by
  intro f call slot w hf hdone hlast
  refine ⟨?_, poll_of_done hdone⟩
  cases step_effect h hs with
  | quiet _ hreactor hwoken _ hold _ _ =>
    rw [hreactor] at hdone
    obtain ⟨hbefore, heq | ⟨hnot, -⟩⟩ := hold f call slot hf
    · rw [hwoken]
      exact (hw f call slot w hbefore hdone (heq ▸ hlast)).1
    · cases hdone.symm.trans hnot
  | begins g call' w' _ hreactor hwoken _ hnew _ _ hothers =>
    have hdone' : Function.update s.reactor.done s.reactor.slots false slot = true := by
      rw [hreactor] at hdone
      exact hdone
    rcases eq_or_ne f g with rfl | hne
    · -- the flag of the new slot is not set
      cases hnew.symm.trans hf
      rw [Function.update_self] at hdone'
      cases hdone'
    · have hbefore := ((hothers f hne).2 call slot).mp hf
      rw [Function.update_of_ne (h.slot_ne hbefore)] at hdone'
      rw [hwoken]
      exact (hw f call slot w hbefore hdone' ((hothers f hne).1 ▸ hlast)).1
  | polls test log hevent hspec hfuts hlastPoll _ hwoken =>
    subst hevent
    rw [InFlight, hfuts] at hf
    rw [hlastPoll] at hlast
    rw [hwoken]
    rcases (done_of_spec hspec).mp hdone with hbefore | ⟨hc, hpending⟩
    · -- it was complete before, so it is not pending
      rw [if_neg]
      · exact (hw f call slot w hf hbefore hlast).1
      · rw [List.any_eq_true]
        rintro ⟨e, he, hslot⟩
        obtain ⟨-, hd⟩ := h.pending e (hspec.mem_completed.mp he).1
        rw [of_decide_eq_true hslot, hbefore] at hd
        cases hd
    · obtain ⟨e, he, hslot⟩ := hpending
      rw [if_pos (List.any_eq_true.mpr ⟨e, hspec.mem_completed.mpr ⟨he, hslot ▸ hc⟩,
        decide_eq_true hslot⟩)]
      by_contra hnot
      refine hforgets ⟨f, call, slot, w, hf, ⟨e, he, hslot⟩, hc, hlast, ?_⟩
      -- the entry of a slot has the waker of the poll that started its request
      rintro k g v hk ⟨e', he', rfl⟩ hc' rfl
      obtain ⟨g', hfirst⟩ := h.first e' he'
      obtain ⟨-, rfl⟩ := Prod.mk.inj (Option.some.inj (hfirst.symm.trans hk))
      exact hnot (List.mem_map_of_mem (hspec.mem_completed.mpr ⟨he', hc'⟩))

/-- A poll of the reactor that forgets a future does not wake its latest waker. -/
theorem Forgets.step (hforgets : s.Forgets e) (h : s.Wf) (hs : s.step debug comm e = some s') :
    ¬s'.WakesLatest := by
  intro hw
  cases e with
  | create | poll | drop => exact hforgets
  | reactorPoll test =>
    obtain ⟨f, call, slot, w, hf, ⟨e, he, hslot⟩, hc, hlast, hother⟩ := hforgets
    cases step_effect h hs with
    | quiet hevent => exact hevent test rfl
    | begins _ _ _ hevent =>
      obtain ⟨_, hevent⟩ := hevent
      cases hevent
    | polls _ log hevent hspec hfuts hlastPoll _ hwoken =>
      cases hevent
      have hdone : s'.reactor.done slot = true :=
        (done_of_spec hspec).mpr (.inr ⟨hc, e, he, hslot⟩)
      have hf' : s'.InFlight f call slot := by
        rw [InFlight, hfuts]
        exact hf
      obtain ⟨hmem, -⟩ := hw f call slot w hf' hdone (hlastPoll ▸ hlast)
      rw [hwoken, if_pos (List.any_eq_true.mpr ⟨e, hspec.mem_completed.mpr ⟨he, hslot ▸ hc⟩,
        decide_eq_true hslot⟩)] at hmem
      obtain ⟨e', he', heq⟩ := List.mem_map.mp hmem
      obtain ⟨hmem', hc'⟩ := hspec.mem_completed.mp he'
      obtain ⟨g, hfirst⟩ := h.first e' hmem'
      exact hother e'.slot g e'.waker hfirst ⟨e', hmem', rfl⟩ hc' heq

/-- **An event that abandons no request** leaves every request with an owner. -/
theorem Owned.step (ho : s.Owned) (h : s.Wf) (habandons : ¬s.Abandons e)
    (hs : s.step debug comm e = some s') : s'.Owned := by
  intro req hreq
  cases step_effect h hs with
  | quiet _ hreactor _ _ _ hkept _ =>
    rw [hreactor] at hreq
    obtain ⟨f, hf⟩ := ho req hreq
    refine ⟨f, hkept f _ _ hf (h.pending req hreq).2 fun g hg heq => habandons ?_⟩
    subst hg heq
    exact ⟨_, _, hf, req, hreq, rfl⟩
  | begins f call w _ hreactor _ _ hnew _ hnot hothers =>
    rw [hreactor] at hreq
    rcases List.mem_append.mp hreq with hreq | hreq
    · obtain ⟨g, hg⟩ := ho req hreq
      have hne : g ≠ f := fun heq => hnot _ _ (heq ▸ hg)
      exact ⟨g, ((hothers g hne).2 _ _).mpr hg⟩
    · obtain rfl := List.mem_singleton.mp hreq
      exact ⟨f, hnew⟩
  | polls test log _ hspec hfuts _ _ _ =>
    obtain ⟨f, hf⟩ := ho req (hspec.mem_pending.mp hreq).1
    exact ⟨f, by rw [InFlight, hfuts]; exact hf⟩

/-- An event that abandons a request leaves it without an owner. -/
theorem Abandons.step (habandons : s.Abandons e) (h : s.Wf)
    (hs : s.step debug comm e = some s') :
    ¬s'.Owned := by
  intro ho
  cases e with
  | create | poll | reactorPoll => exact habandons
  | drop f =>
    obtain ⟨call, slot, hf, req, hreq, rfl⟩ := habandons
    cases step_effect h hs with
    | quiet _ hreactor _ _ hold _ hdrop =>
      obtain ⟨g, hg⟩ := ho req (hreactor ▸ hreq)
      -- the slot has one future only, and this one has been dropped
      obtain rfl := h.owner f call g _ _ hf (hold g _ _ hg).1
      exact hdrop f _ _ rfl hg
    | begins _ _ _ hevent =>
      obtain ⟨_, hevent⟩ := hevent
      cases hevent
    | polls _ _ hevent => cases hevent

end Process

/-! ### The two laws -/

/-- **When the latest waker is woken.** In a run of any futures, polled with any wakers, and
of the reactor, a future whose request completes after its last poll has had the waker of
that poll woken and is ready at the next poll, in every state if and only if at each poll of
the reactor each future whose request completes was last polled with a waker that a future
whose request completes with it was first polled with. -/
theorem latest_waker_law (debug : Bool) (comm : MpiCommunicator) (es : List (Event W)) :
    Always (Process.step debug comm) Process.WakesLatest .start es ↔
      EachStep (Process.step debug comm) (fun s e => ¬s.Forgets e) .start es := by
  refine always_iff_eachStep (fun (s : Process W) (h : s.Wf ∧ s.WakesLatest) => h.2) ?_ ?_
    ⟨Process.wf_start, fun _ _ _ _ hf => absurd hf Process.not_inFlight_start⟩ (eachStep_true es)
  · rintro s e s' ⟨h, hw⟩ - hforgets hs
    exact ⟨h.step hs, hw.step h hforgets hs⟩
  · rintro s e s' ⟨h, -⟩ - hforgets hs
    exact (not_not.mp hforgets).step h hs

/-- **A waker that is forgotten**: a broadcast is polled with a waker and then with another
one, its request completes, and only the first is woken. -/
theorem stale_waker : ∃ s : Process ℕ, runList (Process.step true ⟨0, 2⟩) .start
    [.create .float (.broadcast ⟨4096, 8⟩ 0), .poll 0 0 0, .poll 0 1 0,
      .reactorPoll fun _ => .success true] = some s ∧ ¬s.WakesLatest ∧ s.reactor.woken = [0] := by
  refine ⟨_, rfl, fun h => ?_, rfl⟩
  obtain ⟨hmem, -⟩ := h 0 (.ibcast 4096 8 .float 0) 0 1 rfl rfl rfl
  exact absurd hmem (by decide)

/-- **When requests have live owners.** In a run of any futures and of the reactor every
pending request belongs to a future that has not been dropped, in every state if and only if
no future is dropped while its request is pending. -/
theorem live_owner_law (debug : Bool) (comm : MpiCommunicator) (es : List (Event W)) :
    Always (Process.step debug comm) Process.Owned .start es ↔
      EachStep (Process.step debug comm) (fun s e => ¬s.Abandons e) .start es := by
  refine always_iff_eachStep (fun (s : Process W) (h : s.Wf ∧ s.Owned) => h.2) ?_ ?_
    ⟨Process.wf_start, fun _ he => absurd he List.not_mem_nil⟩ (eachStep_true es)
  · rintro s e s' ⟨h, ho⟩ - habandons hs
    exact ⟨h.step hs, ho.step h habandons hs⟩
  · rintro s e s' ⟨h, -⟩ - habandons hs
    exact (not_not.mp habandons).step h hs

/-- **A request without an owner**: an allreduce is polled once and dropped, and its request
is pending. -/
theorem orphaned_request : ∃ s : Process ℕ, runList (Process.step true ⟨0, 2⟩) .start
    [.create .float (.allreduce ⟨4096, 8⟩ .sum), .poll 0 0 0, .drop 0] = some s ∧ ¬s.Owned ∧
      s.reactor.pending.map PendingReq.req = [.iallreduce 4096 8 .float .sum] := by
  refine ⟨_, rfl, fun h => ?_, rfl⟩
  obtain ⟨f, hf⟩ := h _ List.mem_cons_self
  cases f <;> cases hf

end Mpi

end Pluvio
