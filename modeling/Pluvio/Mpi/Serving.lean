import Pluvio.Mpi.Future
import Pluvio.Runtime.Attached

/-!
# Collectives that complete

A process with its MPI futures and the runtime that polls them. The first poll of a future
registers its request with the waker of the task, and from then on only a poll of the reactor can
find out that the request has completed: MPI makes no call. So a request that has completed is a
duty of the reactor (`Pluvio.Mpi.complete_duty`), and the task that waits hears of it in time
(`Pluvio.Mpi.completion_heard`).
-/

namespace Pluvio

namespace Mpi

open Executor (Device Attached AttachedEvent Duty SchedulingConfig Driven Queued Covers firstPoll
  polledNext quiet_polledNext)

/-! ### The system -/

/-- What the tasks do with the futures. -/
inductive Use
  | create (dtype : MpiDatatype) (asked : Collective)
  /-- The task that is being polled polls a future, and the call to MPI, if there is one, returns
  `rc`. -/
  | poll (i : ℕ) (rc : Int32)
  | drop (i : ℕ)

/-- What this is in the process. -/
def Use.event (pollee : Option ℕ) : Use → Option (Event ℕ)
  | .create dtype asked => some (.create dtype asked)
  | .poll i rc => pollee.map fun f => .poll i f rc
  | .drop i => some (.drop i)

/-- **The process**, as the executor sees it: a poll of the reactor is given the outcomes of
`MPI_Test`, and invokes the wakers of the requests that are complete. -/
def device (debug : Bool) (comm : MpiCommunicator) : Device (Process ℕ) Use (ℕ → Outcome) where
  running d := d.reactor.status = .running
  step d pollee use := (use.event pollee).bind (d.step debug comm)
  poll d test := (d.step debug comm (.reactorPoll test)).map fun d' =>
    (d', d'.reactor.woken.drop d.reactor.woken.length)

variable {debug : Bool} {comm : MpiCommunicator} {cfg : SchedulingConfig}
  {s s' : Attached (Process ℕ)} {e : AttachedEvent Use (ℕ → Outcome)} {d d' : Process ℕ}
  {i slot : ℕ} {call : MpiCall}
  {entry : PendingReq MpiCall ℕ}

/-- MPI has completed the request of the slot, and its future is not dropped. -/
def Completed (i slot : ℕ) (_ : Attached (Process ℕ)) (e : AttachedEvent Use (ℕ → Outcome)) :
    Prop :=
  (∀ test, e = .poll test → (test slot).complete = true) ∧ e ≠ .device (.drop i)

/-- The future waits for the request, which has not been found complete. -/
structure Unreported (i : ℕ) (call : MpiCall) (entry : PendingReq MpiCall ℕ) (d : Process ℕ) :
    Prop where
  wf : d.Wf
  inFlight : d.InFlight i call entry.slot
  pending : entry ∈ d.reactor.pending

/-- The next poll of the future returns `Ready(Ok(()))`. -/
def Finished (i : ℕ) (d : Process ℕ) : Prop :=
  ∃ fut, d.futs[i]? = some (some fut) ∧
    ∀ waker rc, (fut.poll d.reactor waker rc).1 = .ready (.ok ())

/-! ### The duty -/

/-- What a task does is no poll of the reactor, and drops a future only by its name. -/
theorem Use.event_spec {use : Use} {pollee : Option ℕ} {e : Event ℕ}
    (h : use.event pollee = some e) :
    (∀ test, e ≠ .reactorPoll test) ∧ (e = .drop i → use = .drop i) := by
  cases use with
  | create dtype asked =>
    obtain rfl := Option.some.inj h
    simp
  | poll j rc =>
    obtain ⟨f, -, rfl⟩ := Option.map_eq_some_iff.mp h
    simp
  | drop j =>
    obtain rfl := Option.some.inj h
    simp

/-- **What the tasks do** leaves a future waiting for its request, unless they drop it. -/
theorem Unreported.step {e : Event ℕ} (h : Unreported i call entry d)
    (hpoll : ∀ test, e ≠ .reactorPoll test) (hdrop : e ≠ .drop i)
    (hs : d.step debug comm e = some d') : Unreported i call entry d' := by
  have hwf := h.wf.step hs
  obtain ⟨-, hdone⟩ := h.wf.pending entry h.pending
  cases Process.step_effect h.wf hs with
  | quiet hevent hreactor hwoken hstarted hold hkept hdropped =>
    refine ⟨hwf, hkept i call entry.slot h.inFlight hdone fun g he heq => ?_, hreactor ▸ h.pending⟩
    exact hdrop (heq ▸ he)
  | begins f call' w hevent hreactor hwoken hstarted hnew hlast hnot hothers =>
    have hne : i ≠ f := fun heq => hnot call entry.slot (heq ▸ h.inFlight)
    refine ⟨hwf, ((hothers i hne).2 call entry.slot).mpr h.inFlight, ?_⟩
    rw [hreactor]
    exact List.mem_append_left _ h.pending
  | polls test log hevent hspec hfuts hlast hstarted hwoken => exact absurd hevent (hpoll test)

/-- **A poll of the reactor** finds a request that has completed. -/
theorem Unreported.polled {test : ℕ → Outcome} (h : Unreported i call entry d)
    (hcomplete : (test entry.slot).complete = true)
    (hs : d.step debug comm (.reactorPoll test) = some d') :
    entry.waker ∈ d'.reactor.woken.drop d.reactor.woken.length ∧ Finished i d' := by
  cases Process.step_effect h.wf hs with
  | quiet hevent hreactor hwoken hstarted hold hkept hdropped => exact absurd rfl (hevent test)
  | begins f call' w hevent hreactor hwoken hstarted hnew hlast hnot hothers =>
    obtain ⟨rc, hevent⟩ := hevent
    cases hevent
  | polls test' log hevent hspec hfuts hlast hstarted hwoken =>
    obtain rfl := Event.reactorPoll.inj hevent
    constructor
    · rw [hspec.woken, List.drop_left]
      exact List.mem_map_of_mem (hspec.mem_completed.mpr ⟨h.pending, hcomplete⟩)
    · refine ⟨_, (congrArg (·[i]?) hfuts).trans h.inFlight, fun waker rc =>
        Process.poll_of_done ?_ waker rc⟩
      exact (Process.done_of_spec hspec).mpr (.inr ⟨hcomplete, entry, h.pending, rfl⟩)

/-- **A request that has completed** is a duty of the reactor. -/
theorem complete_duty (debug : Bool) (comm : MpiCommunicator) (i : ℕ) (call : MpiCall)
    (entry : PendingReq MpiCall ℕ) :
    Duty (device debug comm) (Completed i entry.slot) (Unreported i call entry) (Finished i)
      entry.waker where
  running d hd := by
    refine decide_eq_true (status_eq_running.mpr ?_)
    rw [hd.wf.active]
    exact List.length_pos_of_mem hd.pending
  step s use d hd hok hs := by
    obtain ⟨e, he, hs⟩ := Option.bind_eq_some_iff.mp hs
    obtain ⟨hpoll, hdrop⟩ := Use.event_spec he
    exact hd.step hpoll (fun heq => hok.2 (congrArg AttachedEvent.device (hdrop heq))) hs
  poll s test d l hd hok hs := by
    obtain ⟨d', hstep, heq⟩ := Option.map_eq_some_iff.mp hs
    obtain ⟨rfl, rfl⟩ := Prod.mk.inj heq
    exact hd.polled (hok.1 test rfl) hstep

/-! ### Runs -/

/-- What holds in every state. -/
structure SystemInv (cfg : SchedulingConfig) (s : Attached (Process ℕ)) : Prop where
  driven : Driven cfg s.served
  wf : s.device.Wf

/-- **A step** of the runtime or of the device keeps both. -/
theorem SystemInv.next (hinv : SystemInv cfg s) (hinterval : 0 < cfg.reactorPollInterval)
    (hok : s.NotNested e) (hs : (device debug comm).next cfg s e = some s') : SystemInv cfg s' := by
  refine ⟨hinv.driven.next hinterval hok hs, ?_⟩
  cases Device.next_cases hs with
  | runtime e' event others run device => exact device ▸ hinv.wf
  | device use event step served =>
    obtain ⟨e, -, step⟩ := Option.bind_eq_some_iff.mp step
    exact hinv.wf.step step
  | poll complete l event attended poll run =>
    obtain ⟨d', poll, heq⟩ := Option.map_eq_some_iff.mp poll
    obtain ⟨rfl, -⟩ := Prod.mk.inj heq
    exact hinv.wf.step poll

/-- **A task hears of its collective.** In a run in which no task drives the runtime from inside
its own poll, once MPI has completed the request of a future, and unless the future is dropped,
the waker it was registered with is invoked before so many iterations have begun, and the future
is ready; and when so many more have ended that all the ids in front of it have had their turn,
the task of the waker has been polled, or has completed. -/
theorem completion_heard (debug : Bool) (comm : MpiCommunicator) (cfg : SchedulingConfig)
    (hinterval : 0 < cfg.reactorPollInterval) (honly : 0 < cfg.maxReactorOnly)
    {es es' : List (AttachedEvent Use (ℕ → Outcome))}
    (hok : EachStep ((device debug comm).next cfg) Attached.NotNested (.start .start) es)
    (hrun : runList ((device debug comm).next cfg) (.start .start) es = some s)
    (hok' : EachStep ((device debug comm).next cfg)
      (fun s e => s.NotNested e ∧ Completed i entry.slot s e) s es')
    (hrun' : runList ((device debug comm).next cfg) s es' = some s')
    (hinFlight : s.device.InFlight i call entry.slot)
    (hpending : entry ∈ s.device.reactor.pending)
    (hlong : s.served.runtime.iterationCount + cfg.statusCacheIterations +
      2 * cfg.reactorPollInterval < s'.served.runtime.iterationCount) :
    ∃ es₁ es₂ t, es' = es₁ ++ es₂ ∧ runList ((device debug comm).next cfg) s es₁ = some t ∧
      t.served.runtime.iterationCount ≤ s.served.runtime.iterationCount +
        cfg.statusCacheIterations + 2 * cfg.reactorPollInterval ∧
      Finished i t.device ∧ Queued t.served.runtime entry.waker ∧
      ∀ k, Covers cfg t.served.runtime k (t.served.runtime.pool.address entry.waker).1 →
        t.served.iterations + k < s'.served.iterations →
          t.served.polls entry.waker < s'.served.polls entry.waker ∨
            entry.waker ∈ s'.served.runtime.pool.completed := by
  have hinv : SystemInv cfg s :=
    (always_of_invariant (fun _ h => h) (fun _ _ _ h hok hs => h.next hinterval hok hs)
      ⟨Executor.driven_start cfg Process.start, Process.wf_start⟩ hok).last hrun
  exact (complete_duty debug comm i call entry).woken_within hinterval honly hinv.driven
    ⟨hinv.wf, hinFlight, hpending⟩ hok' hrun' hlong

/-- Quiet events are harmless, when the polls find the request complete. -/
theorem completed_of_quiet {es : List (AttachedEvent Use (ℕ → Outcome))}
    (hes : es.all AttachedEvent.quiet = true)
    (hcomplete : ∀ test, .poll test ∈ es → (test slot).complete = true)
    (s : Attached (Process ℕ)) : EachStep ((device debug comm).next cfg)
      (fun s e => s.NotNested e ∧ Completed i slot s e) s es := by
  refine eachStep_of_forall (fun e he s => ?_) s
  obtain ⟨hnested, hdevice⟩ := AttachedEvent.quiet_spec (List.all_eq_true.mp hes e he) s
  exact ⟨hnested, fun test heq => hcomplete test (heq ▸ he), hdevice _⟩

/-- A task starts a reduction of four numbers, and polls it. -/
def startsReduction : List (AttachedEvent Use (ℕ → Outcome)) :=
  firstPoll ++ [.device (.create .float (.allreduce ⟨64, 4⟩ .sum)), .device (.poll 0 0)]

/-- The task is queued when the reactor has been polled. -/
theorem completion_heard_once : ∃ s s',
    runList ((device true ⟨0, 2⟩).next Executor.everyIteration) (.start .start) startsReduction =
      some s ∧
    runList ((device true ⟨0, 2⟩).next Executor.everyIteration) s
      (polledNext fun _ => .success true) = some s' ∧
    ∃ es₁ es₂ t, polledNext (fun _ => .success true) = es₁ ++ es₂ ∧
      runList ((device true ⟨0, 2⟩).next Executor.everyIteration) s es₁ = some t ∧
        Finished 0 t.device ∧ Queued t.served.runtime 0 := by
  have hfirst : (runList ((device true ⟨0, 2⟩).next Executor.everyIteration) (.start .start)
      startsReduction).map (fun s => (s.device.futs,
        s.device.reactor.pending.map fun e => (e.req, e.waker, e.slot),
        s.served.runtime.iterationCount)) =
      some ([some ⟨.iallreduce 64 4 .float .sum, .inFlight 0⟩],
        [(.iallreduce 64 4 .float .sum, 0, 0)], 1) := by
    decide +kernel
  obtain ⟨s, hs, hfirst⟩ := Option.map_eq_some_iff.mp hfirst
  have hnext : ((runList ((device true ⟨0, 2⟩).next Executor.everyIteration) (.start .start)
      startsReduction).bind fun s => runList ((device true ⟨0, 2⟩).next Executor.everyIteration) s
        (polledNext fun _ => .success true)).map (fun s => s.served.runtime.iterationCount) =
      some 4 := by
    decide +kernel
  rw [hs, Option.bind_some] at hnext
  obtain ⟨s', hs', hcount'⟩ := Option.map_eq_some_iff.mp hnext
  obtain ⟨hfuts, hrest⟩ := Prod.mk.inj hfirst
  obtain ⟨hpending, hcount⟩ := Prod.mk.inj hrest
  obtain ⟨entry, hmem, hentry⟩ : ∃ e ∈ s.device.reactor.pending,
      (e.req, e.waker, e.slot) = (.iallreduce 64 4 .float .sum, 0, 0) :=
    List.mem_map.mp (hpending ▸ List.mem_singleton_self _)
  obtain ⟨-, hentry⟩ := Prod.mk.inj hentry
  obtain ⟨hwaker, hslot⟩ := Prod.mk.inj hentry
  have hok : EachStep ((device true ⟨0, 2⟩).next Executor.everyIteration) Attached.NotNested
      (.start .start) startsReduction := by
    obtain ⟨u, hu⟩ : ∃ u, runList ((device true ⟨0, 2⟩).next Executor.everyIteration)
        (.start .start) firstPoll = some u :=
      Option.isSome_iff_exists.mp (by decide +kernel)
    exact (Executor.firstPoll_notNested _).append hu fun _ _ =>
      ⟨by rintro _ ⟨⟩, fun _ _ => ⟨by rintro _ ⟨⟩, trivial⟩⟩
  have hcomplete : ∀ test, AttachedEvent.poll test ∈
      (polledNext fun _ => .success true : List (AttachedEvent Use (ℕ → Outcome))) →
        (test entry.slot).complete = true := by
    simp [polledNext, Executor.execs, Outcome.complete, Outcome.success]
  have hlong : s.served.runtime.iterationCount + Executor.everyIteration.statusCacheIterations +
      2 * Executor.everyIteration.reactorPollInterval < s'.served.runtime.iterationCount := by
    rw [hcount, hcount']
    decide
  have hinFlight : s.device.InFlight 0 (.iallreduce 64 4 .float .sum) entry.slot := by
    rw [Process.InFlight, hfuts, hslot]
    rfl
  obtain ⟨es₁, es₂, t, hes, hrun₁, -, hfinished, hqueued, -⟩ := completion_heard true ⟨0, 2⟩
    Executor.everyIteration Nat.one_pos (by decide) hok hs
    (completed_of_quiet (quiet_polledNext _) hcomplete s) hs'
    hinFlight hmem hlong
  exact ⟨s, s', hs, hs', es₁, es₂, t, hes, hrun₁, hfinished, hwaker ▸ hqueued⟩

end Mpi

end Pluvio
