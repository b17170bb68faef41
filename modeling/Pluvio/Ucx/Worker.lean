import Mathlib.Algebra.Group.Nat.Defs
import Mathlib.Data.Finset.Basic
import Mathlib.Tactic.Common
import Pluvio.Runs
import Pluvio.Runtime.Reactor

/-!
# The activity of UCX workers

A worker is progressed only while the reactor is `Running`, and the reactor is
`Running` while its counter of active or waiting workers is positive. Each worker
keeps its own state, of three values, and every operation that changes the state
decides from the old one whether to move the counter.

The one thing to know is what `deactivate` does: with no listener id left it makes
the worker inactive whatever else is going on there, and with one left it makes it
`WaitConnect` without a look at the state it was in. So there are two ways to go
wrong, and two laws of runs that say exactly when:

* the counter is right as long as no inactive worker with a listener id is
  deactivated (`Pluvio.Ucx.active_count_law`);
* a worker with an operation under way is progressed as long as, moreover, no
  worker without a listener id is deactivated while another of its operations is
  under way (`Pluvio.Ucx.outstanding_progressed`).
-/

namespace Pluvio

namespace Ucx

/-! ### A worker -/

/-- The state of a worker. -/
inductive WorkerState
  | active
  | waitConnect
  | inactive
  deriving DecidableEq

/-- The operations that bracket themselves with calls on the worker. -/
inductive Op
  | put
  | get
  | streamSend
  | streamRecv
  | tagSend
  | tagSendVectored
  | tagRecv
  | tagRecvMask
  | tagRecvVectored
  | connectSocket
  | accept
  | amSend
  | amSendVectorized
  | waitMsg (id : UInt16)
  deriving DecidableEq

/-- Whether the operation calls `deactivate` when it is done: a send of an active
message does not. -/
def Op.Deactivates : Op → Prop
  | .amSend | .amSendVectorized => False
  | _ => True

instance (op : Op) : Decidable op.Deactivates := by
  unfold Op.Deactivates
  split <;> infer_instance

/-- The stream an operation borrows. -/
def Op.stream : Op → Option UInt16
  | .waitMsg id => some id
  | _ => none

instance (op : Op) (streams : List UInt16) : Decidable (∀ id ∈ op.stream, id ∈ streams) :=
  match op.stream with
  | none => isTrue fun _ => nofun
  | some id => decidable_of_iff (id ∈ streams)
      ⟨fun h _ hid => Option.some.inj hid ▸ h, fun h => h id rfl⟩

/-- A worker, with the handles and the operations on it that are alive. -/
structure Worker where
  state : WorkerState
  /-- The set `listener_ids`, of addresses and of stream ids. -/
  listenerIds : Finset String
  /-- The addresses of the `Listener`s that have not been dropped. -/
  listeners : List String
  /-- The ids of the `AmStream`s that have not been dropped. -/
  streams : List UInt16
  /-- The operations that have been started and have not completed. -/
  ops : List Op

/-- `Worker::new`. -/
def Worker.new : Worker := ⟨.inactive, ∅, [], [], []⟩

/-- `UCXReactor::increment_active_count`. -/
def incrementActiveCount (count : UInt64) : UInt64 := count + 1

/-- `UCXReactor::decrement_active_count`. -/
def decrementActiveCount (count : UInt64) : UInt64 := count - 1

/-- `Worker::activate`, with the counter of the reactor. -/
def Worker.activate (w : Worker) (count : UInt64) : Worker × UInt64 :=
  ({ w with state := .active },
    if w.state = .inactive then incrementActiveCount count else count)

/-- `Worker::deactivate`. -/
def Worker.deactivate (w : Worker) (count : UInt64) : Worker × UInt64 :=
  if w.listenerIds = ∅ then
    ({ w with state := .inactive },
      if w.state ≠ .inactive then decrementActiveCount count else count)
  else
    -- the counter stays, also when the old state was not counted
    ({ w with state := .waitConnect }, count)

/-- `Worker::wait_connect`. -/
def Worker.waitConnect (w : Worker) (count : UInt64) : Worker × UInt64 :=
  ({ w with state := .waitConnect },
    if w.state = .inactive then incrementActiveCount count else count)

/-- `Worker::create_listener`, where UCX has created one. -/
def Worker.createListener (w : Worker) (addr : String) (count : UInt64) : Worker × UInt64 :=
  let r := if w.state = .inactive then w.waitConnect count else (w, count)
  ({ r.1 with
      listenerIds := insert addr r.1.listenerIds
      listeners := addr :: r.1.listeners }, r.2)

/-- `Worker::am_stream`, where UCX has created one: the state stays. -/
def Worker.amStream (w : Worker) (id : UInt16) : Worker :=
  { w with listenerIds := insert (toString id) w.listenerIds, streams := id :: w.streams }

/-- `Drop` of a `Listener`. -/
def Worker.dropListener (w : Worker) (addr : String) (count : UInt64) : Worker × UInt64 :=
  { w with
    listenerIds := w.listenerIds.erase addr
    listeners := w.listeners.erase addr }.deactivate count

/-- `Drop` of an `AmStream`: the id goes, also when a clone is left. -/
def Worker.dropStream (w : Worker) (id : UInt16) (count : UInt64) : Worker × UInt64 :=
  { w with
    listenerIds := w.listenerIds.erase (toString id)
    streams := w.streams.erase id }.deactivate count

/-- An operation up to its await point. -/
def Worker.startOp (w : Worker) (op : Op) (count : UInt64) : Worker × UInt64 :=
  let w := { w with ops := op :: w.ops }
  match op with
  | .waitMsg _ => w.waitConnect count
  | _ => w.activate count

/-- An operation from its await point on. -/
def Worker.finishOp (w : Worker) (op : Op) (count : UInt64) : Worker × UInt64 :=
  let w := { w with ops := w.ops.erase op }
  if op.Deactivates then w.deactivate count else (w, count)

/-! ### Runs -/

/-- What can be done with a worker. -/
inductive Call
  | activate
  | deactivate
  | waitConnect
  | createListener (addr : String)
  | amStream (id : UInt16)
  | cloneStream (id : UInt16)
  | dropListener (addr : String)
  | dropStream (id : UInt16)
  /-- A task calls an operation and polls it. -/
  | start (op : Op)
  /-- An operation completes, and with it its future. -/
  | finish (op : Op)
  /-- The future of an operation is dropped at its await point. -/
  | cancel (op : Op)

/-- One call. A handle that is dropped is there, and `wait_msg` borrows its stream. -/
def Worker.call (w : Worker) (count : UInt64) : Call → Option (Worker × UInt64)
  | .activate => some (w.activate count)
  | .deactivate => some (w.deactivate count)
  | .waitConnect => some (w.waitConnect count)
  | .createListener addr => some (w.createListener addr count)
  | .amStream id => some (w.amStream id, count)
  | .cloneStream id =>
    if id ∈ w.streams then some ({ w with streams := id :: w.streams }, count) else none
  | .dropListener addr =>
    if addr ∈ w.listeners then some (w.dropListener addr count) else none
  | .dropStream id =>
    if id ∈ w.streams ∧ (.waitMsg id ∈ w.ops → 2 ≤ w.streams.count id) then
      some (w.dropStream id count)
    else none
  | .start op =>
    if ∀ id ∈ op.stream, id ∈ w.streams then some (w.startOp op count) else none
  | .finish op => if op ∈ w.ops then some (w.finishOp op count) else none
  | .cancel op => if op ∈ w.ops then some ({ w with ops := w.ops.erase op }, count) else none

/-- The registered workers, and the counter of the reactor. Workers are never
unregistered. -/
structure State where
  workers : List Worker
  /-- The `AtomicUsize` `active_or_waiting_count`. -/
  count : UInt64

/-- A reactor to which no worker has been registered. -/
def start : State := ⟨[], 0⟩

/-- What happens on the thread of the reactor. -/
inductive Event
  /-- `Worker::new`, which registers the worker. -/
  | new
  | on (i : ℕ) (c : Call)

/-- One event. The keys of a `Slab` are of type `usize`. -/
def step (s : State) : Event → Option State
  | .new => if s.workers.length + 1 < 2 ^ 64 then
      some { s with workers := s.workers ++ [.new] } else none
  | .on i c => s.workers[i]?.bind fun w => (w.call s.count c).map fun r =>
      ⟨s.workers.set i r.1, r.2⟩

/-- `UCXReactor::status`. -/
def State.status (s : State) : ReactorStatus :=
  if 0 < s.count then .running else .stopped

/-- How many of the workers are active or waiting. -/
def State.numActive (s : State) : ℕ := s.workers.countP (·.state ≠ .inactive)

/-! ### What a call does to the counter -/

/-- The calls that end in `deactivate`, with what they do to the listener ids before. -/
def Call.deactivates : Call → Option (Finset String → Finset String)
  | .deactivate => some id
  | .dropListener addr => some fun ids => ids.erase addr
  | .dropStream id => some fun ids => ids.erase (toString id)
  | .finish op => if op.Deactivates then some id else none
  | _ => none

/-- What a worker counts for. -/
def Worker.weight (w : Worker) : ℕ := if w.state = .inactive then 0 else 1

/-- The counter has moved as the worker has. -/
def Counted (w : Worker) (count : UInt64) (r : Worker × UInt64) : Prop :=
  r.2 + .ofNat w.weight = count + .ofNat r.1.weight

variable {w : Worker} {count : UInt64} {c : Call} {r : Worker × UInt64}

/-- A call that leaves the state leaves the counter. -/
theorem counted_of_state_eq {w' : Worker} (h : w'.state = w.state) :
    Counted w count (w', count) := by
  rw [Counted, Worker.weight, Worker.weight, h]

/-- `activate` moves the counter with the state. -/
theorem counted_activate (w : Worker) (count : UInt64) : Counted w count (w.activate count) := by
  by_cases h : w.state = .inactive
  · simp [Counted, Worker.activate, Worker.weight, h, incrementActiveCount]
  · simp [Counted, Worker.activate, Worker.weight, h]

/-- So does `wait_connect`. -/
theorem counted_waitConnect (w : Worker) (count : UInt64) :
    Counted w count (w.waitConnect count) := by
  by_cases h : w.state = .inactive
  · simp [Counted, Worker.waitConnect, Worker.weight, h, incrementActiveCount]
  · simp [Counted, Worker.waitConnect, Worker.weight, h]

/-- **`deactivate` moves the counter with the state, but for one case**: an inactive
worker with a listener id becomes active for nothing. -/
theorem counted_deactivate_iff :
    Counted w count (w.deactivate count) ↔ (w.state = .inactive → w.listenerIds = ∅) := by
  by_cases hids : w.listenerIds = ∅ <;> by_cases h : w.state = .inactive
  · simp [Counted, Worker.deactivate, Worker.weight, hids, h]
  · simp [Counted, Worker.deactivate, Worker.weight, hids, h, decrementActiveCount]
  · have hne : count ≠ count + 1 := by grind
    simp [Counted, Worker.deactivate, Worker.weight, hids, h, hne]
  · simp [Counted, Worker.deactivate, Worker.weight, hids, h]

/-- The operations that are left when a call comes to deactivate the worker. -/
def Worker.opsLeft (w : Worker) : Call → List Op
  | .finish op => w.ops.erase op
  | _ => w.ops

/-- **A call that deactivates** does nothing else to the state. -/
theorem Worker.call_deactivates {f : Finset String → Finset String}
    (hf : c.deactivates = some f) (h : w.call count c = some r) :
    ∃ w' : Worker, w'.state = w.state ∧ w'.listenerIds = f w.listenerIds ∧ w'.ops = w.opsLeft c ∧
      r = w'.deactivate count := by
  cases c with
  | deactivate =>
    cases hf
    cases h
    exact ⟨w, rfl, rfl, rfl, rfl⟩
  | dropListener addr =>
    cases hf
    obtain ⟨-, h⟩ := Option.ite_none_right_eq_some.mp h
    exact ⟨{ w with
      listenerIds := w.listenerIds.erase addr
      listeners := w.listeners.erase addr }, rfl, rfl, rfl, (Option.some.inj h).symm⟩
  | dropStream id =>
    cases hf
    obtain ⟨-, h⟩ := Option.ite_none_right_eq_some.mp h
    exact ⟨{ w with
      listenerIds := w.listenerIds.erase (toString id)
      streams := w.streams.erase id }, rfl, rfl, rfl, (Option.some.inj h).symm⟩
  | finish op =>
    obtain ⟨hop, hf⟩ := Option.ite_none_right_eq_some.mp hf
    cases hf
    obtain ⟨-, h⟩ := Option.ite_none_right_eq_some.mp h
    refine ⟨{ w with ops := w.ops.erase op }, rfl, rfl, rfl, ?_⟩
    exact (Option.some.inj h).symm.trans (if_pos hop)
  | _ => cases hf

/-- **Any other call** moves the counter with the state, and leaves a worker with
operations under way active or waiting if it was. -/
theorem Worker.call_other (hf : c.deactivates = none) (h : w.call count c = some r) :
    Counted w count r ∧
      ((w.ops ≠ [] → w.state ≠ .inactive) → r.1.ops ≠ [] → r.1.state ≠ .inactive) := by
  cases c with
  | activate =>
    cases h
    exact ⟨counted_activate w count, fun _ _ => nofun⟩
  | waitConnect =>
    cases h
    exact ⟨counted_waitConnect w count, fun _ _ => nofun⟩
  | createListener addr =>
    cases h
    by_cases hw : w.state = .inactive
    · rw [Worker.createListener, if_pos hw]
      exact ⟨counted_waitConnect w count, fun _ _ => nofun⟩
    · rw [Worker.createListener, if_neg hw]
      exact ⟨counted_of_state_eq rfl, fun _ _ => hw⟩
  | amStream id =>
    cases h
    exact ⟨counted_of_state_eq rfl, fun hw => hw⟩
  | cloneStream id =>
    obtain ⟨-, h⟩ := Option.ite_none_right_eq_some.mp h
    cases h
    exact ⟨counted_of_state_eq rfl, fun hw => hw⟩
  | start op =>
    obtain ⟨-, h⟩ := Option.ite_none_right_eq_some.mp h
    cases h
    have hstart : w.startOp op count = { w with ops := op :: w.ops }.waitConnect count ∨
        w.startOp op count = { w with ops := op :: w.ops }.activate count := by
      cases op with
      | waitMsg id => exact .inl rfl
      | _ => exact .inr rfl
    rcases hstart with hstart | hstart <;> rw [hstart]
    · exact ⟨counted_waitConnect _ count, fun _ _ => nofun⟩
    · exact ⟨counted_activate _ count, fun _ _ => nofun⟩
  | finish op =>
    have hop : ¬op.Deactivates := fun hop => by simp [Call.deactivates, hop] at hf
    obtain ⟨-, h⟩ := Option.ite_none_right_eq_some.mp h
    rw [Worker.finishOp, if_neg hop] at h
    cases h
    exact ⟨counted_of_state_eq rfl, fun hw hne => hw fun hnil => hne (by simp [hnil])⟩
  | cancel op =>
    obtain ⟨-, h⟩ := Option.ite_none_right_eq_some.mp h
    cases h
    exact ⟨counted_of_state_eq rfl, fun hw hne => hw fun hnil => hne (by simp [hnil])⟩
  | _ => cases hf

/-- The call finds the worker inactive, with a listener id, and deactivates it. -/
def Worker.Slips (w : Worker) (c : Call) : Prop :=
  ∃ f ∈ c.deactivates, w.state = .inactive ∧ f w.listenerIds ≠ ∅

/-- **A call and the counter.** -/
theorem Worker.counted_call_iff (h : w.call count c = some r) :
    Counted w count r ↔ ¬w.Slips c := by
  rcases hf : c.deactivates with - | f
  · refine iff_of_true (Worker.call_other hf h).1 ?_
    rintro ⟨f, hc, -⟩
    cases hf.symm.trans hc
  · obtain ⟨w', hstate, hids, -, rfl⟩ := Worker.call_deactivates hf h
    have hweight : w.weight = w'.weight := by rw [Worker.weight, Worker.weight, hstate]
    have hw' : Counted w count (w'.deactivate count) ↔ Counted w' count (w'.deactivate count) := by
      rw [Counted, Counted, hweight]
    rw [hw', counted_deactivate_iff, hstate, hids]
    constructor
    · rintro himp ⟨g, hg, hinactive, hne⟩
      cases hf.symm.trans hg
      exact hne (himp hinactive)
    · exact fun hnot hinactive => by_contra fun hne => hnot ⟨f, hf, hinactive, hne⟩

/-! ### The counter along a run -/

variable {s s' : State}

/-- **The counter is right**: it is the number of active or waiting workers, and the
reactor runs exactly when there is one. -/
def CountRight (s : State) : Prop :=
  s.count.toNat = s.numActive ∧
    (s.status = .running ↔ ∃ w ∈ s.workers, w.state = .active ∨ w.state = .waitConnect)

/-- An event that puts the count out of step with the workers. -/
def State.Slips (s : State) (e : Event) : Prop :=
  ∃ i c w, e = .on i c ∧ s.workers[i]? = some w ∧ w.Slips c

/-- The counter, as a number of the machine. -/
structure CountInv (s : State) : Prop where
  length : s.workers.length < 2 ^ 64
  count : s.count = .ofNat s.numActive

/-- There are not too many workers for the counter. -/
theorem CountInv.toNat (h : CountInv s) : s.count.toNat = s.numActive := by
  have hle : s.numActive ≤ s.workers.length := List.countP_le_length
  rw [h.count, UInt64.toNat_ofNat']
  exact Nat.mod_eq_of_lt (Nat.lt_of_le_of_lt hle h.length)

theorem status_eq_running_iff : s.status = .running ↔ 0 < s.count.toNat := by
  have hlt : 0 < s.count ↔ 0 < s.count.toNat := UInt64.lt_iff_toNat_lt
  rw [State.status, ReactorStatus.ite_eq_running, hlt]

/-- Under the invariant the count is that of the workers that are not inactive. -/
theorem CountInv.countRight (h : CountInv s) : CountRight s := by
  refine ⟨h.toNat, ?_⟩
  have hstate : ∀ st : WorkerState, st ≠ .inactive ↔ st = .active ∨ st = .waitConnect := by
    rintro (_ | _ | _) <;> decide
  rw [status_eq_running_iff, h.toNat, State.numActive, List.countP_pos_iff]
  simp only [decide_eq_true_eq, hstate]

/-- A worker that is replaced counts with its new weight. -/
theorem numActive_set {i : ℕ} (hi : s.workers[i]? = some w) (w' : Worker) (n : UInt64) :
    State.numActive ⟨s.workers.set i w', n⟩ + w.weight = s.numActive + w'.weight := by
  obtain ⟨hlt, rfl⟩ := List.getElem?_eq_some_iff.mp hi
  have hmem : s.workers[i].state ≠ .inactive → 0 < s.workers.countP (·.state ≠ .inactive) :=
    fun h => List.countP_pos_iff.mpr ⟨_, List.getElem_mem hlt, decide_eq_true h⟩
  have hset := List.countP_set (p := fun w : Worker => decide (w.state ≠ .inactive)) (a := w') hlt
  unfold State.numActive Worker.weight
  simp only [decide_eq_true_eq, ne_eq, ite_not] at hset hmem ⊢
  split at hset <;> split at hset <;> simp_all

/-- The invariant after a call: the counter has moved as the worker has. -/
theorem CountInv.set_iff (h : CountInv s) {i : ℕ} (hi : s.workers[i]? = some w) :
    CountInv ⟨s.workers.set i r.1, r.2⟩ ↔ Counted w s.count r := by
  have hset := congrArg UInt64.ofNat (numActive_set hi r.1 r.2)
  rw [UInt64.ofNat_add, UInt64.ofNat_add, ← h.count] at hset
  constructor
  · intro h'
    rw [Counted, ← hset, ← h'.count]
  · intro hc
    refine ⟨by simpa using h.length, ?_⟩
    rw [Counted, ← hset] at hc
    exact (UInt64.add_left_inj _).mp hc

/-- A call of one worker. -/
theorem step_on {i : ℕ} : step s (.on i c) = some s' ↔ ∃ w r, s.workers[i]? = some w ∧
    w.call s.count c = some r ∧ s' = ⟨s.workers.set i r.1, r.2⟩ := by
  simp only [step, Option.bind_eq_some_iff, Option.map_eq_some_iff, eq_comm (a := s')]
  aesop

/-- A new worker is not active. -/
theorem CountInv.new (h : CountInv s) (hs : step s .new = some s') : CountInv s' := by
  obtain ⟨hlt, hs⟩ := Option.ite_none_right_eq_some.mp hs
  obtain rfl := Option.some.inj hs
  refine ⟨by simpa using hlt, ?_⟩
  rw [h.count, State.numActive, State.numActive, List.countP_append]
  rfl

/-- **The activity counter of a run**: it is right in every state if and only if no
call that deactivates ever finds its worker inactive with a listener id. -/
theorem active_count_law (es : List Event) :
    Always step CountRight start es ↔ EachStep step (fun s e => ¬s.Slips e) start es := by
  refine always_iff_eachStep (fun s (h : CountInv s) => h.countRight) ?_ ?_
    ⟨by decide, rfl⟩ (eachStep_true es)
  · rintro s (- | ⟨i, c⟩) s' h - hslip hs
    · exact h.new hs
    · obtain ⟨w, r, hi, hcall, rfl⟩ := step_on.mp hs
      exact (h.set_iff hi).mpr ((Worker.counted_call_iff hcall).mpr
        fun hw => hslip ⟨i, c, w, rfl, hi, hw⟩)
  · rintro s e s' h - hslip hs hright
    obtain ⟨i, c, w, rfl, hi, hw⟩ := not_not.mp hslip
    obtain ⟨w', r, hi', hcall, rfl⟩ := step_on.mp hs
    cases hi.symm.trans hi'
    -- a right counter would have moved with the worker
    have hinv : CountInv ⟨s.workers.set i r.1, r.2⟩ :=
      ⟨by simpa using h.length, by rw [← hright.1, UInt64.ofNat_toNat]⟩
    exact (Worker.counted_call_iff hcall).mp ((h.set_iff hi).mp hinv) hw

/-- **Two streams dropped one after the other** on an idle worker: the first drop makes
the worker wait and does not count it, the second one takes it off, and the counter
wraps. -/
theorem active_count_wraps : ∃ s, runList step start [.new, .on 0 (.amStream 1),
    .on 0 (.amStream 2), .on 0 (.dropStream 1), .on 0 (.dropStream 2)] = some s ∧
      ¬CountRight s ∧ s.count.toNat = 2 ^ 64 - 1 ∧ s.numActive = 0 ∧ s.status = .running := by
  refine ⟨_, rfl, fun h => ?_, by decide⟩
  exact absurd h.1 (by decide)

/-! ### Outstanding operations -/

/-- **A worker with an operation under way is progressed.** -/
def Progressed (s : State) : Prop :=
  ∀ w ∈ s.workers, w.ops ≠ [] → w.state ≠ .inactive ∧ s.status = .running

/-- The call deactivates a worker without a listener id, and other operations on it are
under way. -/
def Worker.Abandons (w : Worker) (c : Call) : Prop :=
  ∃ f ∈ c.deactivates, f w.listenerIds = ∅ ∧ w.opsLeft c ≠ []

/-- An event that abandons operations. -/
def State.Abandons (s : State) (e : Event) : Prop :=
  ∃ i c w, e = .on i c ∧ s.workers[i]? = some w ∧ w.Abandons c

/-- The counter is right, and workers with operations under way are not inactive. -/
structure OpsInv (s : State) : Prop where
  count : CountInv s
  busy : ∀ w ∈ s.workers, w.ops ≠ [] → w.state ≠ .inactive

theorem OpsInv.progressed (h : OpsInv s) : Progressed s := fun w hw hops =>
  ⟨h.busy w hw hops, by
    rw [status_eq_running_iff, h.count.toNat, State.numActive, List.countP_pos_iff]
    exact ⟨w, hw, decide_eq_true (h.busy w hw hops)⟩⟩

/-- **A call and the operations under way.** -/
theorem Worker.busy_call (hbusy : w.ops ≠ [] → w.state ≠ .inactive) (hab : ¬w.Abandons c)
    (h : w.call count c = some r) (hops : r.1.ops ≠ []) : r.1.state ≠ .inactive := by
  rcases hf : c.deactivates with - | f
  · exact (Worker.call_other hf h).2 hbusy hops
  · obtain ⟨w', -, hids, hleft, rfl⟩ := Worker.call_deactivates hf h
    rw [Worker.deactivate] at hops ⊢
    split
    · next hempty =>
      rw [if_pos hempty] at hops
      exact absurd ⟨f, hf, hids ▸ hempty, hleft ▸ hops⟩ hab
    · nofun

/-- A call that abandons operations leaves their worker inactive. -/
theorem Worker.Abandons.call (hab : w.Abandons c) (h : w.call count c = some r) :
    r.1.ops ≠ [] ∧ r.1.state = .inactive := by
  obtain ⟨f, hf, hempty, hne⟩ := hab
  obtain ⟨w', -, hids, hleft, rfl⟩ := Worker.call_deactivates hf h
  rw [Worker.deactivate, if_pos (hids.trans hempty)]
  exact ⟨hleft ▸ hne, rfl⟩

/-- **Outstanding operations along a run**: in a run where no call finds an inactive
worker with a listener id and deactivates it, every worker with an operation under way
is always progressed if and only if no worker without a listener id is deactivated
while another operation on it is under way. -/
theorem outstanding_progressed (es : List Event)
    (hslip : EachStep step (fun s e => ¬s.Slips e) start es) :
    Always step Progressed start es ↔ EachStep step (fun s e => ¬s.Abandons e) start es := by
  refine always_iff_eachStep (fun s (h : OpsInv s) => h.progressed) ?_ ?_
    ⟨⟨by decide, rfl⟩, nofun⟩ hslip
  · rintro s (- | ⟨i, c⟩) s' h hslip hab hs
    · refine ⟨h.count.new hs, fun w hw hops => ?_⟩
      obtain ⟨-, hs⟩ := Option.ite_none_right_eq_some.mp hs
      obtain rfl := Option.some.inj hs
      rcases List.mem_append.mp hw with hw | hw
      · exact h.busy w hw hops
      · obtain rfl := List.mem_singleton.mp hw
        exact absurd rfl hops
    · obtain ⟨w, r, hi, hcall, rfl⟩ := step_on.mp hs
      refine ⟨(h.count.set_iff hi).mpr ((Worker.counted_call_iff hcall).mpr
        fun hw => hslip ⟨i, c, w, rfl, hi, hw⟩), fun v hv hops => ?_⟩
      rcases List.mem_or_eq_of_mem_set hv with hv | rfl
      · exact h.busy v hv hops
      · exact Worker.busy_call (h.busy w (List.mem_of_getElem? hi))
          (fun hw => hab ⟨i, c, w, rfl, hi, hw⟩) hcall hops
  · rintro s e s' h - hab hs hprog
    obtain ⟨i, c, w, rfl, hi, hw⟩ := not_not.mp hab
    obtain ⟨w', r, hi', hcall, rfl⟩ := step_on.mp hs
    cases hi.symm.trans hi'
    obtain ⟨hops, hstate⟩ := hw.call hcall
    obtain ⟨hlt, -⟩ := List.getElem?_eq_some_iff.mp hi
    exact (hprog r.1 (List.mem_set hlt r.1) hops).1 hstate

/-- A worker that has started one send is progressed. -/
theorem outstanding_progressed_one :
    Always step Progressed start [.new, .on 0 (.start .tagSend)] := by
  -- neither of the two events deactivates
  have hnone : ∀ (s : State) (e : Event), e = .new ∨ e = .on 0 (.start .tagSend) →
      ¬s.Slips e ∧ ¬s.Abandons e := by
    rintro s e (rfl | rfl) <;> constructor
    · rintro ⟨_, _, _, h, -⟩
      cases h
    · rintro ⟨_, _, _, h, -⟩
      cases h
    · rintro ⟨_, _, _, h, -, f, hf, -⟩
      cases h
      cases hf
    · rintro ⟨_, _, _, h, -, f, hf, -⟩
      cases h
      cases hf
  exact (outstanding_progressed [.new, .on 0 (.start .tagSend)] fun s' _ =>
    ⟨(hnone _ _ (.inl rfl)).1, fun s'' _ => ⟨(hnone _ _ (.inr rfl)).1, trivial⟩⟩).mpr fun s' _ =>
      ⟨(hnone _ _ (.inl rfl)).2, fun s'' _ => ⟨(hnone _ _ (.inr rfl)).2, trivial⟩⟩

/-- **A send and a receive that overlap**: the first to finish deactivates the worker
under the other. -/
theorem outstanding_stopped : ∃ s, runList step start [.new, .on 0 (.start .tagSend),
    .on 0 (.start .tagRecv), .on 0 (.finish .tagSend)] = some s ∧
      ¬Progressed s ∧ s.workers.map Worker.ops = [[.tagRecv]] ∧
        s.workers.map Worker.state = [.inactive] ∧ s.status = .stopped := by
  refine ⟨_, rfl, fun h => ?_, by decide⟩
  exact (h _ (List.mem_singleton_self _) nofun).1 rfl

end Ucx

end Pluvio
