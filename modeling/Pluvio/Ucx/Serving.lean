import Pluvio.Runtime.Attached
import Pluvio.Ucx.Worker

/-!
# Operations that complete

A runtime with the UCX reactor. A task that has started an operation waits for UCX to call back,
which it does when the worker is progressed, and that is what a poll of the reactor does with all
the workers. The reactor is polled while its counter says that a worker is active or waiting; so an
operation that UCX can report is a duty of the reactor (`Pluvio.Ucx.reported_duty`) as long as no
call deactivates its worker under it, and the task hears of it in time
(`Pluvio.Ucx.operation_heard`).
-/

namespace Pluvio

namespace Ucx

open Executor (Device Attached AttachedEvent Duty SchedulingConfig Driven Queued Covers firstPoll)

/-! ### The system -/

/-- How far an operation is. -/
inductive Stage
  | underWay
  /-- UCX has called back, or has completed it at once. -/
  | completed
  /-- Its future has returned, or has been dropped. -/
  | over
  deriving DecidableEq

/-- An operation of a worker, and the future that has polled it last. -/
structure Operation where
  worker : ℕ
  op : Op
  future : ℕ
  stage : Stage
  deriving DecidableEq

/-- The workers, and the operations that have been started. -/
structure Reactor where
  state : State
  operations : List Operation

namespace Reactor

/-- A reactor before its first worker. -/
def new : Reactor := ⟨start, []⟩

end Reactor

/-- What a task can do with the workers and the operations. -/
inductive Use
  /-- A call on a worker that is no operation. -/
  | call (e : Event)
  /-- An operation up to its await point; UCX may complete it at once. -/
  | start (i : ℕ) (op : Op) (atOnce : Bool)
  /-- An operation is polled that is under way. -/
  | poll (k : ℕ)
  /-- An operation is polled that has completed. -/
  | finish (k : ℕ)
  /-- The future of an operation is dropped. -/
  | cancel (k : ℕ)

/-- The event is one half of an operation. -/
def Event.isOp : Event → Bool
  | .on _ (.start _) | .on _ (.finish _) | .on _ (.cancel _) => true
  | _ => false

/-- What this is on the thread of the reactor, and the operations afterwards. -/
def Use.after (operations : List Operation) (pollee : Option ℕ) :
    Use → Option (Option Event × List Operation)
  | .call e => if e.isOp then none else some (some e, operations)
  | .start i op atOnce => pollee.map fun f =>
    (some (.on i (.start op)),
      operations ++ [⟨i, op, f, if atOnce then .completed else .underWay⟩])
  | .poll k => pollee.bind fun f => operations[k]?.bind fun o =>
    if o.stage = .underWay then some (none, operations.set k { o with future := f }) else none
  | .finish k => operations[k]?.bind fun o =>
    if o.stage = .completed then
      some (some (.on o.worker (.finish o.op)), operations.set k { o with stage := .over })
    else none
  | .cancel k => operations[k]?.bind fun o =>
    if o.stage ≠ .over then
      some (some (.on o.worker (.cancel o.op)), operations.set k { o with stage := .over })
    else none

/-- One event, if there is one. -/
def State.after (s : State) : Option Event → Option State
  | some e => Ucx.step s e
  | none => some s

namespace Reactor

/-- The reactor after what a task does, if it can. -/
def step (d : Reactor) (pollee : Option ℕ) (use : Use) : Option Reactor :=
  (use.after d.operations pollee).bind fun u => (d.state.after u.1).map fun state => ⟨state, u.2⟩

/-- No call finds an inactive worker with a listener id and deactivates it, or deactivates a worker
without one under another operation. -/
def CarefulUse (d : Reactor) (pollee : Option ℕ) (use : Use) : Prop :=
  ∀ ev operations, use.after d.operations pollee = some (some ev, operations) →
    ¬d.state.Slips ev ∧ ¬d.state.Abandons ev

/-- `progress` of a worker: UCX calls back for those operations that it reports, and their wakers
are invoked. -/
def progress (d : Reactor) (reported : ℕ → Bool) (i : ℕ) : List ℕ :=
  (d.operations.zipIdx.filter fun p =>
    p.1.worker = i ∧ p.1.stage = .underWay ∧ reported p.2).map (·.1.future)

/-- `UCXReactor::poll`: every registered worker is progressed. An operation has one worker. -/
def poll (d : Reactor) (reported : ℕ → Bool) : Reactor × List ℕ :=
  let called := fun p : Operation × ℕ =>
    p.1.worker < d.state.workers.length ∧ p.1.stage = .underWay ∧ reported p.2
  ({ d with
      operations := d.operations.zipIdx.map fun p =>
        if called p then { p.1 with stage := .completed } else p.1 },
    (List.range d.state.workers.length).flatMap (d.progress reported))

end Reactor

/-- **The reactor**, as the executor sees it: a poll is given the operations that UCX reports when
their workers are progressed. -/
def device : Device Reactor Use (ℕ → Bool) where
  running d := d.state.status = .running
  step := Reactor.step
  poll d reported := some (d.poll reported)

/-- What a task does is careful. -/
def Careful (s : Attached Reactor) (e : AttachedEvent Use (ℕ → Bool)) : Prop :=
  ∀ use, e = .device use → s.device.CarefulUse (Executor.pollee s.served.runtime) use

/-- UCX reports the operation at every poll, and its task, which is `f`, keeps it. -/
structure Reported (k f : ℕ) (s : Attached Reactor) (e : AttachedEvent Use (ℕ → Bool)) : Prop where
  poll : ∀ reported, e = .poll reported → reported k = true
  kept : e = .device (.poll k) → Executor.pollee s.served.runtime = some f
  not_cancelled : e ≠ .device (.cancel k)

/-! ### The operations and the workers -/

/-- How many such operations of a worker are not over. -/
def numOpen (operations : List Operation) (i : ℕ) (op : Op) : ℕ :=
  operations.countP fun o => o.worker = i ∧ o.op = op ∧ o.stage ≠ .over

/-- The operations of a worker. -/
def State.opsOf (s : State) (i : ℕ) : List Op := (s.workers[i]?.map Worker.ops).getD []

/-- **Workers know their operations**, and are active or waiting while there are some. -/
structure ReactorInv (d : Reactor) : Prop where
  ops : OpsInv d.state
  matched : ∀ i op, (d.state.opsOf i).count op = numOpen d.operations i op

section Steps

variable {s s' : State} {d d' : Reactor} {w : Worker} {c : Call} {count : UInt64}
  {r : Worker × UInt64} {e : Event}

/-- A call that is no operation leaves the operations of the worker. -/
theorem Worker.ops_call (hc : (Event.on 0 c).isOp = false) (h : w.call count c = some r) :
    r.1.ops = w.ops := by
  have hdeactivate : ∀ w' : Worker, (w'.deactivate count).1.ops = w'.ops := by
    intro w'
    rw [Worker.deactivate]
    split <;> rfl
  cases c with
  | start op => cases hc
  | finish op => cases hc
  | cancel op => cases hc
  | deactivate =>
    cases h
    exact hdeactivate w
  | createListener addr =>
    cases h
    rw [Worker.createListener]
    split <;> rfl
  | cloneStream id =>
    obtain ⟨-, h⟩ := Option.ite_none_right_eq_some.mp h
    cases h
    rfl
  | dropListener addr =>
    obtain ⟨-, h⟩ := Option.ite_none_right_eq_some.mp h
    cases h
    exact hdeactivate _
  | dropStream id =>
    obtain ⟨-, h⟩ := Option.ite_none_right_eq_some.mp h
    cases h
    exact hdeactivate _
  | _ =>
    cases h
    rfl

/-- The operations of the workers after a call of one of them. -/
theorem opsOf_set {i : ℕ} (hi : s.workers[i]? = some w) (w' : Worker) (n : UInt64) (j : ℕ) :
    State.opsOf ⟨s.workers.set i w', n⟩ j = if j = i then w'.ops else s.opsOf j := by
  obtain ⟨hlt, -⟩ := List.getElem?_eq_some_iff.mp hi
  by_cases hj : j = i
  · subst hj
    simp [State.opsOf, hlt]
  · simp [State.opsOf, hj, List.getElem?_set_ne (Ne.symm hj)]

/-- **An event that is no operation.** -/
theorem opsOf_of_not_isOp (he : e.isOp = false) (hs : Ucx.step s e = some s') (j : ℕ) :
    s'.opsOf j = s.opsOf j := by
  cases e with
  | new =>
    obtain ⟨-, hs⟩ := Option.ite_none_right_eq_some.mp hs
    obtain rfl := Option.some.inj hs
    rcases lt_trichotomy j s.workers.length with hlt | rfl | hgt
    · simp [State.opsOf, List.getElem?_append_left hlt]
    · simp [State.opsOf, Worker.new]
    · have hle : (s.workers ++ [Worker.new]).length ≤ j := by
        rw [List.length_append]
        exact hgt
      rw [State.opsOf, State.opsOf, List.getElem?_eq_none hle, List.getElem?_eq_none hgt.le]
  | on i c =>
    obtain ⟨w, r, hi, hcall, rfl⟩ := step_on.mp hs
    rw [opsOf_set hi]
    split
    · next hj =>
      have hops : r.1.ops = w.ops := Worker.ops_call (by cases c <;> simp_all [Event.isOp]) hcall
      rw [hops, hj, State.opsOf, hi]
      rfl
    · rfl

/-- An operation that starts is one more of its worker. -/
theorem opsOf_start {i : ℕ} {op : Op} (hs : Ucx.step s (.on i (.start op)) = some s') (j : ℕ) :
    s'.opsOf j = if j = i then op :: s.opsOf i else s.opsOf j := by
  obtain ⟨w, r, hi, hcall, rfl⟩ := step_on.mp hs
  obtain ⟨-, hcall⟩ := Option.ite_none_right_eq_some.mp hcall
  obtain rfl := Option.some.inj hcall
  have hops : (w.startOp op s.count).1.ops = op :: w.ops := by
    cases op <;> rfl
  rw [opsOf_set hi, hops, State.opsOf, State.opsOf, hi]
  rfl

/-- **An operation ends**, one way or the other. -/
theorem opsOf_end {i : ℕ} {op : Op} (hc : c = .finish op ∨ c = .cancel op)
    (hs : Ucx.step s (.on i c) = some s') (j : ℕ) :
    s'.opsOf j = if j = i then (s.opsOf i).erase op else s.opsOf j := by
  obtain ⟨w, r, hi, hcall, rfl⟩ := step_on.mp hs
  have hops : r.1.ops = w.ops.erase op := by
    rcases hc with rfl | rfl
    · obtain ⟨-, hcall⟩ := Option.ite_none_right_eq_some.mp hcall
      obtain rfl := Option.some.inj hcall
      rw [Worker.finishOp, Worker.deactivate]
      split
      · split <;> rfl
      · rfl
    · obtain ⟨-, hcall⟩ := Option.ite_none_right_eq_some.mp hcall
      obtain rfl := Option.some.inj hcall
      rfl
  rw [opsOf_set hi, hops, State.opsOf, State.opsOf, hi]
  rfl

theorem OpsInv.step (h : OpsInv s) (hslip : ¬s.Slips e) (hab : ¬s.Abandons e)
    (hs : Ucx.step s e = some s') : OpsInv s' := by
  cases e with
  | new =>
    refine ⟨h.count.new hs, fun w hw hops => ?_⟩
    obtain ⟨-, hs⟩ := Option.ite_none_right_eq_some.mp hs
    obtain rfl := Option.some.inj hs
    rcases List.mem_append.mp hw with hw | hw
    · exact h.busy w hw hops
    · obtain rfl := List.mem_singleton.mp hw
      exact absurd rfl hops
  | on i c =>
    obtain ⟨w, r, hi, hcall, rfl⟩ := step_on.mp hs
    have hcounted := (Worker.counted_call_iff hcall).mpr fun hw => hslip ⟨i, c, w, rfl, hi, hw⟩
    refine ⟨(h.count.set_iff hi).mpr hcounted, fun v hv hops => ?_⟩
    rcases List.mem_or_eq_of_mem_set hv with hv | rfl
    · exact h.busy v hv hops
    · exact Worker.busy_call (h.busy w (List.mem_of_getElem? hi))
        (fun hw => hab ⟨i, c, w, rfl, hi, hw⟩) hcall hops

theorem numOpen_append (operations : List Operation) (o : Operation) (i : ℕ) (op : Op) :
    numOpen (operations ++ [o]) i op = numOpen operations i op +
      if o.worker = i ∧ o.op = op ∧ o.stage ≠ .over then 1 else 0 := by
  rw [numOpen, List.countP_append, List.countP_singleton, numOpen]
  simp only [decide_eq_true_eq]

theorem numOpen_set {operations : List Operation} {k : ℕ} {o : Operation}
    (hk : operations[k]? = some o) (o' : Operation) (i : ℕ) (op : Op) :
    numOpen (operations.set k o') i op +
        (if o.worker = i ∧ o.op = op ∧ o.stage ≠ .over then 1 else 0) =
      numOpen operations i op +
        if o'.worker = i ∧ o'.op = op ∧ o'.stage ≠ .over then 1 else 0 := by
  obtain ⟨hlt, rfl⟩ := List.getElem?_eq_some_iff.mp hk
  have hpos : (operations[k].worker = i ∧ operations[k].op = op ∧ operations[k].stage ≠ .over) →
      0 < numOpen operations i op := fun h =>
    List.countP_pos_iff.mpr ⟨_, List.getElem_mem hlt, decide_eq_true h⟩
  have hset := List.countP_set (a := o')
    (p := fun o : Operation => decide (o.worker = i ∧ o.op = op ∧ o.stage ≠ .over)) hlt
  simp only [decide_eq_true_eq] at hset
  unfold numOpen at hpos ⊢
  rw [hset]
  split
  · next h =>
    have := hpos h
    split <;> omega
  · split <;> omega

/-- **An operation that is not over ends**: it is one less on both sides. -/
theorem ReactorInv.matched_end {k : ℕ} {o : Operation} (h : ReactorInv d)
    (hk : d.operations[k]? = some o) (hstage : o.stage ≠ .over)
    (hc : c = .finish o.op ∨ c = .cancel o.op) (hs : Ucx.step d.state (.on o.worker c) = some s')
    (i : ℕ) (op : Op) :
    (s'.opsOf i).count op = numOpen (d.operations.set k { o with stage := .over }) i op := by
  have hset := numOpen_set hk { o with stage := .over } i op
  have hmatched := h.matched i op
  rw [opsOf_end hc hs]
  by_cases hi : i = o.worker
  · subst hi
    rw [if_pos rfl, List.count_erase]
    by_cases hop : o.op = op
    · simp [hop, hstage] at hset ⊢
      omega
    · simp [hop] at hset ⊢
      omega
  · rw [if_neg hi]
    simp [Ne.symm hi] at hset
    omega

/-- **What a task does** keeps the invariant. -/
theorem ReactorInv.step {pollee : Option ℕ} {use : Use} (h : ReactorInv d)
    (hok : d.CarefulUse pollee use) (hs : d.step pollee use = some d') : ReactorInv d' := by
  obtain ⟨⟨ev, operations⟩, hafter, hs⟩ := Option.bind_eq_some_iff.mp hs
  obtain ⟨state, hstate, rfl⟩ := Option.map_eq_some_iff.mp hs
  have hops : OpsInv state := by
    cases ev with
    | none => exact Option.some.inj hstate ▸ h.ops
    | some ev => exact h.ops.step (hok ev operations hafter).1 (hok ev operations hafter).2 hstate
  refine ⟨hops, ?_⟩
  cases use with
  | call e =>
    obtain ⟨he, hafter⟩ := Option.ite_none_left_eq_some.mp hafter
    obtain ⟨rfl, rfl⟩ := Prod.mk.inj (Option.some.inj hafter)
    intro i op
    rw [opsOf_of_not_isOp (by simpa using he) hstate]
    exact h.matched i op
  | start i op atOnce =>
    obtain ⟨f, -, hafter⟩ := Option.map_eq_some_iff.mp hafter
    obtain ⟨rfl, rfl⟩ := Prod.mk.inj hafter
    intro j op'
    have hmatched := h.matched j op'
    have hstage : (if atOnce then Stage.completed else Stage.underWay) ≠ .over := by
      split <;> decide
    rw [opsOf_start hstate, numOpen_append]
    by_cases hj : j = i
    · subst hj
      rw [if_pos rfl, List.count_cons, hmatched]
      simp [hstage]
    · rw [if_neg hj, hmatched]
      simp [Ne.symm hj]
  | poll k =>
    obtain ⟨f, -, hafter⟩ := Option.bind_eq_some_iff.mp hafter
    obtain ⟨o, hk, hafter⟩ := Option.bind_eq_some_iff.mp hafter
    obtain ⟨-, hafter⟩ := Option.ite_none_right_eq_some.mp hafter
    obtain ⟨rfl, rfl⟩ := Prod.mk.inj (Option.some.inj hafter)
    obtain rfl := Option.some.inj hstate
    intro i op
    -- a poll changes the task of an operation and not its stage
    have hset := numOpen_set hk { o with future := f } i op
    rw [h.matched i op]
    exact (Nat.add_right_cancel hset).symm
  | finish k =>
    obtain ⟨o, hk, hafter⟩ := Option.bind_eq_some_iff.mp hafter
    obtain ⟨hstage, hafter⟩ := Option.ite_none_right_eq_some.mp hafter
    obtain ⟨rfl, rfl⟩ := Prod.mk.inj (Option.some.inj hafter)
    exact h.matched_end hk (by simp [hstage]) (.inl rfl) hstate
  | cancel k =>
    obtain ⟨o, hk, hafter⟩ := Option.bind_eq_some_iff.mp hafter
    obtain ⟨hstage, hafter⟩ := Option.ite_none_right_eq_some.mp hafter
    obtain ⟨rfl, rfl⟩ := Prod.mk.inj (Option.some.inj hafter)
    exact h.matched_end hk hstage (.inr rfl) hstate

/-- **A poll of the reactor** keeps the invariant: no operation is over by it. -/
theorem ReactorInv.poll (h : ReactorInv d) (reported : ℕ → Bool) :
    ReactorInv (d.poll reported).1 := by
  refine ⟨h.ops, fun i op => ?_⟩
  show (d.state.opsOf i).count op = _
  have hzip : numOpen d.operations i op = (d.operations.zipIdx.map (·.1)).countP fun o =>
      o.worker = i ∧ o.op = op ∧ o.stage ≠ .over := by
    rw [numOpen, List.zipIdx_map_fst]
  rw [h.matched, hzip, numOpen, Reactor.poll, List.countP_map, List.countP_map]
  refine List.countP_congr fun p _ => ?_
  simp only [Function.comp_apply, decide_eq_true_eq]
  split
  · next hcalled => simp [hcalled.2.1]
  · rfl

/-! ### The duty -/

variable {k i f : ℕ} {op : Op}

/-- The operation is under way. -/
structure Outstanding (k i : ℕ) (op : Op) (f : ℕ) (d : Reactor) : Prop where
  inv : ReactorInv d
  there : d.operations[k]? = some ⟨i, op, f, .underWay⟩

/-- The next poll of its future finds the operation completed. -/
def Completed (k : ℕ) (d : Reactor) : Prop :=
  ∃ o, d.operations[k]? = some o ∧ o.stage = .completed

/-- The worker has the operation. -/
theorem Outstanding.worker (h : Outstanding k i op f d) :
    ∃ w, d.state.workers[i]? = some w ∧ w.ops ≠ [] := by
  have hpos : 0 < numOpen d.operations i op :=
    List.countP_pos_iff.mpr ⟨_, List.mem_of_getElem? h.there, by simp⟩
  rw [← h.inv.matched, List.count_pos_iff, State.opsOf] at hpos
  cases hw : d.state.workers[i]? with
  | none => simp [hw] at hpos
  | some w =>
    rw [hw] at hpos
    exact ⟨w, rfl, List.ne_nil_of_mem hpos⟩

/-- **What a task does** leaves an operation under way, unless it is its own. -/
theorem Use.after_there {operations operations' : List Operation} {pollee : Option ℕ} {use : Use}
    {ev : Option Event} {o : Operation}
    (h : use.after operations pollee = some (ev, operations')) (hk : operations[k]? = some o)
    (hstage : o.stage = .underWay) (hpoll : use = .poll k → pollee = some o.future)
    (hcancel : use ≠ .cancel k) : operations'[k]? = some o := by
  obtain ⟨hlt, -⟩ := List.getElem?_eq_some_iff.mp hk
  cases use with
  | call e =>
    obtain ⟨-, h⟩ := Option.ite_none_left_eq_some.mp h
    obtain ⟨-, rfl⟩ := Prod.mk.inj (Option.some.inj h)
    exact hk
  | start i op atOnce =>
    obtain ⟨f, -, h⟩ := Option.map_eq_some_iff.mp h
    obtain ⟨-, rfl⟩ := Prod.mk.inj h
    exact (List.getElem?_append_left hlt).trans hk
  | poll j =>
    obtain ⟨f, hf, h⟩ := Option.bind_eq_some_iff.mp h
    obtain ⟨o', hj, h⟩ := Option.bind_eq_some_iff.mp h
    obtain ⟨-, h⟩ := Option.ite_none_right_eq_some.mp h
    obtain ⟨-, rfl⟩ := Prod.mk.inj (Option.some.inj h)
    by_cases hjk : j = k
    · subst hjk
      obtain rfl := Option.some.inj (hk.symm.trans hj)
      obtain rfl := Option.some.inj (hf.symm.trans (hpoll rfl))
      exact List.getElem?_set_self hlt
    · exact (List.getElem?_set_ne hjk).trans hk
  | finish j =>
    obtain ⟨o', hj, h⟩ := Option.bind_eq_some_iff.mp h
    obtain ⟨hcompleted, h⟩ := Option.ite_none_right_eq_some.mp h
    obtain ⟨-, rfl⟩ := Prod.mk.inj (Option.some.inj h)
    -- an operation that is under way is not one that has completed
    have hjk : j ≠ k := by
      rintro rfl
      obtain rfl := Option.some.inj (hk.symm.trans hj)
      cases hstage.symm.trans hcompleted
    exact (List.getElem?_set_ne hjk).trans hk
  | cancel j =>
    obtain ⟨o', hj, h⟩ := Option.bind_eq_some_iff.mp h
    obtain ⟨-, h⟩ := Option.ite_none_right_eq_some.mp h
    obtain ⟨-, rfl⟩ := Prod.mk.inj (Option.some.inj h)
    have hjk : j ≠ k := fun heq => hcancel (congrArg Use.cancel heq)
    exact (List.getElem?_set_ne hjk).trans hk

/-- **An operation that UCX reports** is a duty of the reactor. -/
theorem reported_duty (k i : ℕ) (op : Op) (f : ℕ) :
    Duty device (fun s e => Careful s e ∧ Reported k f s e) (Outstanding k i op f) (Completed k)
      f where
  running d hd := by
    obtain ⟨w, hw, hops⟩ := hd.worker
    exact decide_eq_true (hd.inv.ops.progressed w (List.mem_of_getElem? hw) hops).2
  step s use d hd hok hs := by
    refine ⟨hd.inv.step (hok.1 use rfl) hs, ?_⟩
    obtain ⟨⟨ev, operations⟩, hafter, hs⟩ := Option.bind_eq_some_iff.mp hs
    obtain ⟨state, -, rfl⟩ := Option.map_eq_some_iff.mp hs
    exact Use.after_there hafter hd.there rfl (fun heq => hok.2.kept (congrArg _ heq))
      fun heq => hok.2.not_cancelled (congrArg _ heq)
  poll s reported d l hd hok hs := by
    obtain ⟨rfl, rfl⟩ := Prod.mk.inj (Option.some.inj hs)
    obtain ⟨w, hw, -⟩ := hd.worker
    obtain ⟨hlt, -⟩ := List.getElem?_eq_some_iff.mp hw
    have hreported := hok.2.poll reported rfl
    have hmem : ((⟨i, op, f, .underWay⟩ : Operation), k) ∈ s.device.operations.zipIdx :=
      List.mem_zipIdx_iff_getElem?.mpr hd.there
    constructor
    · refine List.mem_flatMap.mpr ⟨i, List.mem_range.mpr hlt, ?_⟩
      refine List.mem_map.mpr ⟨_, List.mem_filter.mpr ⟨hmem, ?_⟩, rfl⟩
      simp [hreported]
    · refine ⟨⟨i, op, f, .completed⟩, ?_, rfl⟩
      simp [hd.there, hlt, hreported]

end Steps

/-! ### Runs -/

section Runs

variable {cfg : SchedulingConfig} {s s' : Attached Reactor} {e : AttachedEvent Use (ℕ → Bool)}
  {k i f : ℕ} {op : Op}

/-- What holds in every state. -/
structure SystemInv (cfg : SchedulingConfig) (s : Attached Reactor) : Prop where
  driven : Driven cfg s.served
  reactor : ReactorInv s.device

theorem systemInv_start (cfg : SchedulingConfig) : SystemInv cfg (.start .new) where
  driven := Executor.driven_start cfg Reactor.new
  reactor := ⟨⟨⟨by decide, rfl⟩, fun _ hw => absurd hw List.not_mem_nil⟩, fun _ _ => rfl⟩

/-- Every event keeps the books of the executor, and the operations with their workers. -/
theorem SystemInv.next (hinv : SystemInv cfg s) (hinterval : 0 < cfg.reactorPollInterval)
    (hok : s.NotNested e ∧ Careful s e) (hs : device.next cfg s e = some s') :
    SystemInv cfg s' := by
  refine ⟨hinv.driven.next hinterval hok.1 hs, ?_⟩
  cases Device.next_cases hs with
  | runtime e' event others run device => exact device ▸ hinv.reactor
  | device use event step served => exact hinv.reactor.step (hok.2 use event) step
  | poll reported l event attended poll run =>
    rw [← (Prod.mk.inj (Option.some.inj poll)).1]
    exact hinv.reactor.poll reported

/-- **A task hears of its operation.** In a run in which no task drives the runtime from inside its
own poll, and in which no call finds an inactive worker with a listener id and deactivates it, or
deactivates a worker without one under another operation, an operation that is under way and that
UCX reports is completed, and the waker of its task is invoked, before so many iterations have
begun, unless it is cancelled or goes to another task; and when so many more have ended that all
the ids in front of it have had their turn, the task has been polled, or has completed. -/
theorem operation_heard (cfg : SchedulingConfig) (hinterval : 0 < cfg.reactorPollInterval)
    (honly : 0 < cfg.maxReactorOnly) {es es' : List (AttachedEvent Use (ℕ → Bool))}
    (hok : EachStep (device.next cfg) (fun s e => s.NotNested e ∧ Careful s e) (.start .new) es)
    (hrun : runList (device.next cfg) (.start .new) es = some s)
    (hok' : EachStep (device.next cfg)
      (fun s e => s.NotNested e ∧ Careful s e ∧ Reported k f s e) s es')
    (hrun' : runList (device.next cfg) s es' = some s')
    (hthere : s.device.operations[k]? = some ⟨i, op, f, .underWay⟩)
    (hlong : s.served.runtime.iterationCount + cfg.statusCacheIterations +
      2 * cfg.reactorPollInterval < s'.served.runtime.iterationCount) :
    ∃ es₁ es₂ t, es' = es₁ ++ es₂ ∧ runList (device.next cfg) s es₁ = some t ∧
      t.served.runtime.iterationCount ≤ s.served.runtime.iterationCount +
        cfg.statusCacheIterations + 2 * cfg.reactorPollInterval ∧
      Completed k t.device ∧ Queued t.served.runtime f ∧
      ∀ n, Covers cfg t.served.runtime n (t.served.runtime.pool.address f).1 →
        t.served.iterations + n < s'.served.iterations →
          t.served.polls f < s'.served.polls f ∨ f ∈ s'.served.runtime.pool.completed := by
  have hinv : SystemInv cfg s :=
    (always_of_invariant (fun _ h => h) (fun _ _ _ h hok hs => h.next hinterval hok hs)
      (systemInv_start cfg) hok).last hrun
  exact (reported_duty k i op f).woken_within hinterval honly hinv.driven ⟨hinv.reactor, hthere⟩
    hok' hrun' hlong

/-- Quiet events are harmless, when UCX reports the operation. -/
theorem reported_of_quiet {es : List (AttachedEvent Use (ℕ → Bool))}
    (hes : es.all AttachedEvent.quiet = true)
    (hreported : ∀ reported, .poll reported ∈ es → reported k = true) (s : Attached Reactor) :
    EachStep (device.next cfg)
      (fun s e => s.NotNested e ∧ Careful s e ∧ Reported k f s e) s es := by
  refine eachStep_of_forall (fun e he s => ?_) s
  obtain ⟨hnested, hdevice⟩ := AttachedEvent.quiet_spec (List.all_eq_true.mp hes e he) s
  exact ⟨hnested, fun use heq => absurd heq (hdevice _),
    fun reported heq => hreported reported (heq ▸ he), fun heq => absurd heq (hdevice _), hdevice _⟩

/-- A task makes a worker and starts a send. -/
def startsSend : List (AttachedEvent Use (ℕ → Bool)) :=
  firstPoll ++ [.device (.call .new), .device (.start 0 .tagSend false)]

/-- Such a task is careful. -/
theorem careful_startsSend : EachStep (device.next Executor.everyIteration)
    (fun s e => s.NotNested e ∧ Careful s e) (.start .new) startsSend := by
  obtain ⟨u, hu⟩ : ∃ u, runList (device.next Executor.everyIteration) (.start .new) firstPoll =
      some u := Option.isSome_iff_exists.mp (by decide +kernel)
  have hfirst : EachStep (device.next Executor.everyIteration) Careful (.start .new) firstPoll := by
    refine eachStep_of_forall (fun e he s use heq => absurd (heq ▸ he) ?_) _
    simp [firstPoll, Executor.execs]
  refine ((Executor.firstPoll_notNested _).and hfirst).append hu fun v _ =>
    ⟨⟨by rintro _ ⟨⟩, ?_⟩, fun _ _ => ⟨⟨by rintro _ ⟨⟩, ?_⟩, trivial⟩⟩
  · rintro _ ⟨⟩ ev operations hafter
    obtain ⟨hev, -⟩ := Prod.mk.inj (Option.some.inj hafter)
    obtain rfl := Option.some.inj hev
    constructor
    · rintro ⟨i, c, w, ⟨⟩, -⟩
    · rintro ⟨i, c, w, ⟨⟩, -⟩
  · rintro _ ⟨⟩ ev operations hafter
    obtain ⟨g, -, hafter⟩ := Option.map_eq_some_iff.mp hafter
    obtain ⟨hev, -⟩ := Prod.mk.inj hafter
    obtain rfl := Option.some.inj hev
    constructor
    · rintro ⟨i, c, w, ⟨⟩, -, g, ⟨⟩, -⟩
    · rintro ⟨i, c, w, ⟨⟩, -, g, ⟨⟩, -⟩

/-- The task waits, and the worker stays active, so that the next two iterations poll the reactor;
UCX reports what there is. -/
def polledTwice : List (AttachedEvent Use (ℕ → Bool)) :=
  .runtime (.move .pending) :: (Executor.execs 4 ++ [.poll fun _ => true] ++ Executor.execs 3 ++
    [.runtime (.move .pending)] ++ Executor.execs 4 ++ [.poll fun _ => true] ++ Executor.execs 5)

/-- The task is queued when the reactor has been polled. -/
theorem operation_heard_once : ∃ s s',
    runList (device.next Executor.everyIteration) (.start .new) startsSend = some s ∧
    runList (device.next Executor.everyIteration) s polledTwice = some s' ∧
    ∃ es₁ es₂ t, polledTwice = es₁ ++ es₂ ∧
      runList (device.next Executor.everyIteration) s es₁ = some t ∧
        Completed 0 t.device ∧ Queued t.served.runtime 0 := by
  have hfirst : (runList (device.next Executor.everyIteration) (.start .new) startsSend).map
      (fun s => (s.device.operations, s.served.runtime.iterationCount)) =
      some ([⟨0, .tagSend, 0, .underWay⟩], 1) := by
    decide +kernel
  obtain ⟨s, hs, hfirst⟩ := Option.map_eq_some_iff.mp hfirst
  have hnext : ((runList (device.next Executor.everyIteration) (.start .new) startsSend).bind
      fun s => runList (device.next Executor.everyIteration) s polledTwice).map
        (fun s => s.served.runtime.iterationCount) = some 4 := by
    decide +kernel
  rw [hs, Option.bind_some] at hnext
  obtain ⟨s', hs', hcount'⟩ := Option.map_eq_some_iff.mp hnext
  obtain ⟨hoperations, hcount⟩ := Prod.mk.inj hfirst
  have hreported : ∀ reported, AttachedEvent.poll reported ∈ polledTwice →
      reported 0 = true := by
    simp [polledTwice, Executor.execs]
  have hlong : s.served.runtime.iterationCount + Executor.everyIteration.statusCacheIterations +
      2 * Executor.everyIteration.reactorPollInterval < s'.served.runtime.iterationCount := by
    rw [hcount, hcount']
    decide
  obtain ⟨es₁, es₂, t, hes, hrun₁, -, hcompleted, hqueued, -⟩ := operation_heard
    Executor.everyIteration Nat.one_pos (by decide) careful_startsSend hs
    (reported_of_quiet rfl hreported s) hs' (congrArg (·[0]?) hoperations) hlong
  exact ⟨s, s', hs, hs', es₁, es₂, t, hes, hrun₁, hcompleted, hqueued⟩

end Runs

end Ucx

end Pluvio
