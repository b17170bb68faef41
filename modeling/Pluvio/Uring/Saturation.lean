import Pluvio.Runtime.Completion
import Pluvio.Uring.Reactor
import Mathlib.Algebra.Order.BigOperators.Group.Finset
import Mathlib.Data.Nat.Log

/-!
# How many SQEs pile up

The reactor submits when the executor polls it, and the executor polls it between the
loops over the tasks, when its status is `Running`. Within a loop every task that is
polled may push, so what fits into the ring is not a matter of `submit_depth` or of the
timeouts. This module puts the executor and the reactor together and finds what it is a
matter of.

An SQE that has not been submitted is one that somebody still awaits, or that somebody has
given up: dropping an operation leaves its SQE in the ring (`Pluvio.Uring.PileInv`). So `n`
tasks with at most `k` operations each have at most `n * k` SQEs in the ring, when an
operation counts that has been given up and not been submitted. And they can have that many:
the tasks of the polling queue are all polled in one iteration (`Pluvio.Uring.Piling`). So
the queue never overflows if and only if it has `n * k` entries
(`Pluvio.Uring.submission_never_full_iff`).
-/

namespace Pluvio

namespace Uring

open Executor (Runtime SchedulingConfig)

/-! ### The executor and the reactor -/

/-- What a reactor is built with, and `PLUVIO_URING_ALWAYS_POLL`. -/
structure IoUringParams where
  queueSize : ℕ
  submitDepth : ℕ
  waitSubmitTimeout : ℕ
  waitCompleteTimeout : ℕ
  /-- `sq_poll` is `Some`. -/
  sqPoll : Bool
  /-- `submit_thread` is `Some`. -/
  submitThread : Bool
  alwaysPoll : Bool

/-- The entries of the submission queue: the kernel rounds up to a power of two. -/
def IoUringParams.entries (p : IoUringParams) : ℕ := 2 ^ Nat.clog 2 p.queueSize

/-- A runtime with a reactor, which is registered under `0`. The wakers of the handles are
futures. -/
structure System where
  runtime : Runtime
  ring : Reactor ℕ
  now : ℕ
  lastSubmitTime : ℕ
  /-- The kernel thread of `sq_poll` sleeps. -/
  needWakeup : Bool
  /-- The operations a future has started and awaits. -/
  awaited : ℕ → List ℕ
  /-- Those it has dropped before they were ready. -/
  dropped : ℕ → List ℕ

/-- The reactor is registered, and nothing has happened. -/
def System.start (p : IoUringParams) : System where
  runtime := { Executor.start with reactors := [0] }
  ring := .start p.entries (p.sqPoll || p.submitThread)
  now := 0
  lastSubmitTime := 0
  needWakeup := false
  awaited := fun _ => []
  dropped := fun _ => []

/-- `IoUringReactor::status`. -/
def System.status (p : IoUringParams) (s : System) : Bool :=
  let hasPendingIo := decide (s.ring.completedCount < s.ring.userDataCounter)
  let hasPendingSqe := !s.ring.submission.isEmpty
  let elapsed := s.now - s.lastSubmitTime
  if p.alwaysPoll then hasPendingSqe || hasPendingIo
  -- the kernel takes the SQEs, unless it sleeps
  else if p.sqPoll then
    hasPendingSqe && s.needWakeup || hasPendingIo && decide (p.waitCompleteTimeout ≤ elapsed)
  else
    decide (p.submitDepth ≤ s.ring.submission.length) ||
      hasPendingSqe && decide (p.waitSubmitTimeout ≤ elapsed) ||
        hasPendingIo && decide (p.waitCompleteTimeout ≤ elapsed)

/-- The future whose body runs. -/
def System.future (s : System) : Option ℕ :=
  match s.runtime.stack with
  | ⟨_, .task _ _ t, _, _, _, _, _, _, _⟩ :: _ => some t.future
  | _ => none

/-- The code of the reactor runs. -/
def System.inReactor (s : System) : Bool :=
  match s.runtime.stack with
  | ⟨_, .reactor 0 _ _, _, _, _, _, _, _, _⟩ :: _ => true
  | _ => false

/-- What happens to a runtime with a reactor. -/
inductive SystemEvent
  | runtime (e : Executor.Event)
  /-- The task that is being polled starts an operation: of a socket, or of a file. -/
  | push
  | pushPoll
  /-- The task that is being polled polls an operation it awaits, or drops it. -/
  | poll (u : ℕ)
  | cancel (u : ℕ)
  /-- The two halves of `Reactor::poll`. -/
  | submit
  | reap
  /-- The kernel takes SQEs by itself, or completes an operation. -/
  | consume (j : ℕ)
  | cqe (u : ℕ) (res : ℤ)
  | tick
  | setNeedWakeup (b : Bool)

/-- The events of the executor that the reactor leaves to the others. -/
def ofOthers (s : System) : Executor.Event → Bool
  | .move .reactorDone => !s.inReactor
  | .register r _ | .setRunning r _ => r ≠ 0
  | _ => true

/-- The handles of a task are dropped with it. -/
def Reactor.dropAll {W : Type*} (r : Reactor W) (l : List ℕ) : Reactor W :=
  { r with alive := r.alive.filter (· ∉ l) }

/-- The runtime has moved on; the future of a task that has ended is dropped, with the
operations that it awaits. -/
def System.settle (s : System) (rt : Runtime) : System :=
  { s with
    runtime := rt
    ring := s.ring.dropAll (rt.pool.completed.flatMap s.awaited)
    awaited := fun f => if f ∈ rt.pool.completed then [] else s.awaited f
    dropped := fun f => s.dropped f ++ if f ∈ rt.pool.completed then s.awaited f else [] }

/-- The wakers that `poll_submit_and_completions` invokes. -/
def System.wakers (s : System) : List ℕ :=
  s.ring.completion.filterMap fun c => (s.ring.handle c.1).waker

/-- One step of the system. -/
def System.step (cfg : SchedulingConfig) (p : IoUringParams) (s : System) (e : SystemEvent) :
    Option System :=
  if s.ring.panicked ≠ none then none
  else match e with
  | .runtime e =>
    if ofOthers s e then
      (Executor.step cfg (s.runtime.setRunning 0 (s.status p)) e).map s.settle
    else none
  | .push =>
    s.future.bind fun f => (s.ring.step .push).map fun ring => { s with
      ring := ring
      awaited := Function.update s.awaited f (s.awaited f ++ [s.ring.userDataCounter]) }
  | .pushPoll =>
    s.future.bind fun f => (s.ring.step (.pushPoll f)).map fun ring => { s with
      ring := ring
      awaited := Function.update s.awaited f (s.awaited f ++ [s.ring.userDataCounter]) }
  | .poll u =>
    s.future.bind fun f =>
      if u ∈ s.awaited f then
        (s.ring.step (.poll u f)).map fun ring => { s with
          ring := ring
          awaited := Function.update s.awaited f
            (if (s.ring.handle u).result = none then s.awaited f else (s.awaited f).erase u) }
      else none
  | .cancel u =>
    s.future.bind fun f =>
      if u ∈ s.awaited f then
        (s.ring.step (.drop u)).map fun ring => { s with
          ring := ring
          awaited := Function.update s.awaited f ((s.awaited f).erase u)
          dropped := Function.update s.dropped f (s.dropped f ++ [u]) }
      else none
  | .submit =>
    if s.inReactor then
      (s.ring.step .submit).map fun ring => { s with
        ring := ring
        lastSubmitTime := if s.ring.submission.isEmpty then s.lastSubmitTime else s.now }
    else none
  | .reap =>
    if s.inReactor then
      (s.ring.step .reap).bind fun ring =>
        if ring.panicked ≠ none then some { s with ring := ring }
        else (runList (Executor.step cfg) s.runtime
          (s.wakers.map .wake ++ [.move .reactorDone])).map { s with ring := ring }.settle
    else none
  | .consume j => (s.ring.step (.consume j)).map fun ring => { s with ring := ring }
  | .cqe u res => (s.ring.step (.cqe u res)).map fun ring => { s with ring := ring }
  | .tick => some { s with now := s.now + 1 }
  | .setNeedWakeup b => some { s with needWakeup := b }

/-! ### How many operations there are -/

/-- The operations of a future: those it awaits, and those it has dropped whose SQE has not
been submitted. -/
def System.operations (s : System) (f : ℕ) : List ℕ :=
  s.awaited f ++ (s.dropped f).filter (· ∈ s.ring.submission)

/-- The tasks that have operations, be they alive or not. -/
def System.tasks (s : System) : Finset ℕ :=
  (Finset.range s.runtime.pool.spawned).filter fun f => s.operations f ≠ []

/-- At most `n` tasks have at most `k` operations each. -/
def System.Within (n k : ℕ) (s : System) : Prop :=
  s.tasks.card ≤ n ∧ ∀ f, (s.operations f).length ≤ k

/-- The step leads to such a state. -/
def System.Keeps (cfg : SchedulingConfig) (p : IoUringParams) (n k : ℕ) (s : System)
    (e : SystemEvent) : Prop :=
  ∀ s', s.step cfg p e = some s' → s'.Within n k

variable {cfg : SchedulingConfig} {p : IoUringParams} {n k : ℕ} {s s' : System}

/-- The ring is right, or the thread has reached an `unreachable!`. -/
def RingInv (ring : Reactor ℕ) : Prop :=
  ReapInv ring ring.completion ∨ ring.panicked = some .wakerNone

/-- **The invariant**: what waits to be submitted was started by a task, which awaits it or
has dropped it. -/
structure PileInv (p : IoUringParams) (s : System) : Prop where
  ring : RingInv s.ring
  entries : s.ring.entries = p.entries
  tasks : Executor.TasksInv s.runtime
  spawned : ∀ f u, u ∈ s.awaited f ∨ u ∈ s.dropped f → f < s.runtime.pool.spawned
  queued : ∀ u ∈ s.ring.submission, ∃ f, u ∈ s.awaited f ∨ u ∈ s.dropped f

/-- **What the tasks have is bounded.** -/
theorem System.Within.length_le {l : List ℕ} (h : s.Within n k) (hnodup : l.Nodup)
    (hl : ∀ u ∈ l, ∃ f < s.runtime.pool.spawned, u ∈ s.operations f) : l.length ≤ n * k := by
  have hsub : l.toFinset ⊆ s.tasks.biUnion fun f => (s.operations f).toFinset := by
    intro u hu
    obtain ⟨f, hlt, hf⟩ := hl u (List.mem_toFinset.mp hu)
    refine Finset.mem_biUnion.mpr ⟨f, ?_, List.mem_toFinset.mpr hf⟩
    exact Finset.mem_filter.mpr ⟨Finset.mem_range.mpr hlt, List.ne_nil_of_mem hf⟩
  calc l.length = l.toFinset.card := (List.toFinset_card_of_nodup hnodup).symm
    _ ≤ (s.tasks.biUnion fun f => (s.operations f).toFinset).card := Finset.card_le_card hsub
    _ ≤ s.tasks.card * k := Finset.card_biUnion_le_card_mul _ _ _ fun f _ =>
        (List.toFinset_card_le _).trans (h.2 f)
    _ ≤ n * k := Nat.mul_le_mul_right k h.1

/-- The future whose body runs is alive. -/
theorem PileInv.live_of_future (h : PileInv p s) {f : ℕ} (hf : s.future = some f) :
    s.runtime.pool.Live f := by
  unfold System.future at hf
  split at hf
  · next pass id t _ _ _ _ _ _ _ _ hstack =>
    obtain rfl := Option.some.inj hf
    refine (h.tasks.pool.holds id t (.inr ?_)).1
    rw [Runtime.polled, hstack]
    exact List.mem_cons_self ..
  · cases hf

/-- What a future awaits it still awaits when it has started one more operation. -/
theorem mem_update_append {awaited : ℕ → List ℕ} {f g u v : ℕ} (h : v ∈ awaited g) :
    v ∈ Function.update awaited f (awaited f ++ [u]) g := by
  by_cases hg : g = f
  · subst hg
    rw [Function.update_self]
    exact List.mem_append_left _ h
  · rwa [Function.update_of_ne hg]

/-- The operation that a future has started. -/
theorem mem_update_self {awaited : ℕ → List ℕ} {f u : ℕ} :
    u ∈ Function.update awaited f (awaited f ++ [u]) f := by
  rw [Function.update_self]
  exact List.mem_append_right _ (List.mem_singleton_self u)

/-- **There was room** for an operation, if there are no more than the queue has entries: what
did not fit would be one more than these. -/
theorem PileInv.room (h : PileInv p s) (hring : ReapInv s.ring s.ring.completion)
    (hsize : n * k ≤ p.entries) {f : ℕ} (hf : s.future = some f) {ring : Reactor ℕ}
    (hfull : ring.submission = s.ring.submission)
    (hwithin : System.Within n k { s with
      ring := ring
      awaited := Function.update s.awaited f (s.awaited f ++ [s.ring.userDataCounter]) }) :
    s.ring.submission.length < s.ring.entries := by
  set u := s.ring.userDataCounter
  have hu : u ∉ s.ring.submission := fun hmem => Nat.lt_irrefl _ <| hring.lt u <|
    (hring.entry u).mp (List.mem_append_left _ (List.mem_append_left _ hmem))
  have hnodup : (s.ring.submission ++ [u]).Nodup := by
    refine List.nodup_append.mpr ⟨?_, List.nodup_singleton u, ?_⟩
    · exact (List.nodup_append.mp (List.nodup_append.mp hring.nodup).1).1
    · rintro v hv w hw rfl
      exact hu (List.mem_singleton.mp hw ▸ hv)
  have hbound := hwithin.length_le hnodup fun v hv => ?_
  · rw [List.length_append, List.length_singleton] at hbound
    rw [h.entries]
    exact hbound.trans hsize
  · rcases List.mem_append.mp hv with hv | hv
    · obtain ⟨g, hg⟩ := h.queued v hv
      refine ⟨g, h.spawned g v hg, List.mem_append.mpr (hg.imp mem_update_append fun hg => ?_)⟩
      exact List.mem_filter.mpr ⟨hg, decide_eq_true (hfull ▸ hv)⟩
    · obtain rfl := List.mem_singleton.mp hv
      exact ⟨f, (h.live_of_future hf).1, List.mem_append_left _ mem_update_self⟩

/-! ### The steps of the ring -/

section Ring

variable {W : Type*} {r r' : Reactor W}

/-- The event pushes an SQE. -/
def ReactorEvent.IsPush : ReactorEvent W → Prop
  | .push | .pushPoll _ => True
  | _ => False

/-- **Steps that do not push** only take from the queue. -/
theorem Reactor.step_of_not_push {e : ReactorEvent W} (he : ¬e.IsPush)
    (hs : r.step e = some r') : r'.entries = r.entries ∧
      (∀ u ∈ r'.submission, u ∈ r.submission) ∧
        r'.panicked ≠ some .submissionQueueFull := by
  have hnot : r.panicked ≠ some .submissionQueueFull := by
    rw [Reactor.panicked_of_step hs]
    nofun
  match e with
  | .push | .pushPoll w => exact absurd trivial he
  | .poll u w =>
    obtain ⟨-, -, -, rfl⟩ := Reactor.step_poll.mp hs
    obtain ⟨_, _, _, hpoll⟩ := r.pollHandle_frame u w
    rw [hpoll]
    exact ⟨rfl, fun v hv => hv, hnot⟩
  | .drop u =>
    obtain ⟨-, -, -, rfl⟩ := Reactor.step_drop.mp hs
    exact ⟨rfl, fun v hv => hv, hnot⟩
  | .submit =>
    obtain ⟨-, -, rfl⟩ := Reactor.step_submit.mp hs
    rw [Reactor.submit]
    split
    · exact ⟨rfl, fun v hv => hv, hnot⟩
    · exact ⟨rfl, List.forall_mem_nil _, hnot⟩
  | .reap =>
    obtain ⟨-, -, rfl⟩ := Reactor.step_reap.mp hs
    obtain ⟨_, _, _, _, _, hfold, hfull⟩ := Reactor.foldl_reapOne_frame
      { r with completion := [], polling := false } r.completion
    rw [Reactor.reap, hfold]
    exact ⟨rfl, fun v hv => hv, hfull hnot⟩
  | .consume j =>
    obtain ⟨-, -, rfl⟩ := Reactor.step_consume.mp hs
    exact ⟨rfl, fun v hv => List.mem_of_mem_drop hv, hnot⟩
  | .cqe u res =>
    obtain ⟨-, -, rfl⟩ := Reactor.step_cqe.mp hs
    exact ⟨rfl, fun v hv => hv, hnot⟩

end Ring

/-- While there are steps, no `unreachable!` has been reached. -/
theorem RingInv.reap {ring ring' : Reactor ℕ} (h : RingInv ring) {e : ReactorEvent ℕ}
    (hs : ring.step e = some ring') : ReapInv ring ring.completion := by
  refine h.resolve_right fun hc => ?_
  cases hc.symm.trans (Reactor.panicked_of_step hs)

/-- A step of the ring that does not push. -/
theorem PileInv.ringStep (h : PileInv p s) {e : ReactorEvent ℕ} {ring : Reactor ℕ}
    (he : ¬e.IsPush) (hs : s.ring.step e = some ring) :
    RingInv ring ∧ ring.entries = p.entries ∧ ∀ u ∈ ring.submission, u ∈ s.ring.submission := by
  obtain ⟨hent, hsub, hpan⟩ := Reactor.step_of_not_push he hs
  have hring := h.ring.reap hs
  refine ⟨?_, hent.trans h.entries, hsub⟩
  by_cases hok : s.ring.AllPolled e
  · exact .inl ((hring.step hok hs).resolve_right fun hc => hpan hc.2)
  · exact .inr (hring.step_panicked hok hs)

/-- **The system after such a step.** -/
theorem PileInv.of_ring (h : PileInv p s) {e : ReactorEvent ℕ} {ring : Reactor ℕ}
    (he : ¬e.IsPush) (hs : s.ring.step e = some ring) (time : ℕ) :
    PileInv p { s with ring := ring, lastSubmitTime := time } := by
  obtain ⟨hring, hent, hsub⟩ := h.ringStep he hs
  exact ⟨hring, hent, h.tasks, h.spawned, fun u hu => h.queued u (hsub u hu)⟩

/-- What a push does to the ring, with room and without. -/
theorem ReapInv.pushed {ring ring' : Reactor ℕ} (h : ReapInv ring ring.completion) {f : ℕ}
    {e : ReactorEvent ℕ} (he : e = .push ∨ e = .pushPoll f) (hs : ring.step e = some ring') :
    (ring.submission.length < ring.entries → ReapInv ring' ring'.completion ∧
      ring'.entries = ring.entries ∧
        ring'.submission = ring.submission ++ [ring.userDataCounter]) ∧
    (¬ring.submission.length < ring.entries → ring'.submission = ring.submission) := by
  constructor
  · intro hroom
    have hpushed := h.pushSqe hroom
    have hpush : ring.pushSqe.submission = ring.submission ++ [ring.userDataCounter] ∧
        ring.pushSqe.entries = ring.entries := by
      rw [Reactor.pushSqe_of_room hroom]
      exact ⟨rfl, rfl⟩
    rcases he with rfl | rfl
    · obtain ⟨-, -, rfl⟩ := Reactor.step_push.mp hs
      exact ⟨by rw [completion_pushSqe]; exact hpushed, hpush.2, hpush.1⟩
    · obtain ⟨-, -, rfl⟩ := Reactor.step_pushPoll.mp hs
      rw [if_neg (by rw [hpushed.calm]; nofun)]
      refine ⟨?_, ?_⟩
      · rw [completion_pollHandle, completion_pushSqe]
        exact hpushed.pollHandle (by rw [userDataCounter_pushSqe]; exact Nat.lt_succ_self _)
      · obtain ⟨_, _, _, hpoll⟩ := ring.pushSqe.pollHandle_frame ring.userDataCounter f
        rw [hpoll]
        exact ⟨hpush.2, hpush.1⟩
  · intro hfull
    have hpush := Reactor.pushSqe_of_full hfull
    rcases he with rfl | rfl
    · obtain ⟨-, -, rfl⟩ := Reactor.step_push.mp hs
      rw [hpush]
    · obtain ⟨-, -, rfl⟩ := Reactor.step_pushPoll.mp hs
      rw [if_pos (by rw [hpush]; rfl), hpush]

/-- A push finds room, as long as the operations fit into the ring. -/
theorem PileInv.push (h : PileInv p s) (hsize : n * k ≤ p.entries) {f : ℕ}
    (hf : s.future = some f) {e : ReactorEvent ℕ} (he : e = .push ∨ e = .pushPoll f)
    {ring : Reactor ℕ} (hs : s.ring.step e = some ring) (hwithin : System.Within n k { s with
      ring := ring
      awaited := Function.update s.awaited f (s.awaited f ++ [s.ring.userDataCounter]) }) :
    PileInv p { s with
      ring := ring
      awaited := Function.update s.awaited f (s.awaited f ++ [s.ring.userDataCounter]) } := by
  have hring := h.ring.reap hs
  obtain ⟨hpushed, hfull⟩ := hring.pushed he hs
  have hroom : s.ring.submission.length < s.ring.entries := by
    by_contra hnot
    exact hnot (h.room hring hsize hf (hfull hnot) hwithin)
  obtain ⟨hring', hent, hsub⟩ := hpushed hroom
  refine ⟨.inl hring', hent.trans h.entries, h.tasks, fun g u hg => ?_, fun u hu => ?_⟩
  · by_cases hgf : g = f
    · rw [hgf]
      exact (h.live_of_future hf).1
    · have hold : Function.update s.awaited f (s.awaited f ++ [s.ring.userDataCounter]) g =
          s.awaited g := Function.update_of_ne hgf ..
      exact h.spawned g u (hg.imp_left fun hu => hold ▸ hu)
  · rw [hsub] at hu
    rcases List.mem_append.mp hu with hu | hu
    · obtain ⟨g, hg⟩ := h.queued u hu
      exact ⟨g, hg.imp_left mem_update_append⟩
    · obtain rfl := List.mem_singleton.mp hu
      exact ⟨f, .inl mem_update_self⟩

/-- Operations of a future that it awaits no more, but for those that have left the ring, are
among those that it has dropped. -/
theorem PileInv.of_drops (h : PileInv p s) {ring : Reactor ℕ}
    {awaited dropped : ℕ → List ℕ} (hring : RingInv ring) (hent : ring.entries = p.entries)
    (hsub : ∀ u ∈ ring.submission, u ∈ s.ring.submission)
    (hawaited : ∀ g u, u ∈ awaited g → u ∈ s.awaited g)
    (hdropped : ∀ g u, u ∈ dropped g → u ∈ s.dropped g ∨ u ∈ s.awaited g)
    (hkept : ∀ g u, u ∈ s.dropped g → u ∈ dropped g)
    (hmoved : ∀ g u, u ∈ s.awaited g → u ∈ ring.submission → u ∈ awaited g ∨ u ∈ dropped g) :
    PileInv p { s with ring := ring, awaited := awaited, dropped := dropped } := by
  refine ⟨hring, hent, h.tasks, fun g u hu => h.spawned g u ?_, fun u hu => ?_⟩
  · rcases hu with hu | hu
    · exact .inl (hawaited g u hu)
    · exact (hdropped g u hu).symm
  · obtain ⟨g, hg⟩ := h.queued u (hsub u hu)
    exact ⟨g, hg.elim (fun hg => hmoved g u hg hu) fun hg => .inr (hkept g u hg)⟩

/-- **A poll of an operation**: it is awaited no more if it has its result, and then it
has left the ring. -/
theorem PileInv.poll (h : PileInv p s) {f u : ℕ} {ring : Reactor ℕ}
    (hs : s.ring.step (.poll u f) = some ring) : PileInv p { s with
      ring := ring
      awaited := Function.update s.awaited f
        (if (s.ring.handle u).result = none then s.awaited f else (s.awaited f).erase u) } := by
  obtain ⟨hring, hent, hsub⟩ := h.ringStep (e := .poll u f) (fun h => h) hs
  have hold := h.ring.reap hs
  refine h.of_drops hring hent hsub (fun g v hv => ?_) (fun g v hv => .inl hv)
    (fun g v hv => hv) fun g v hv hmem => .inl ?_
  · by_cases hgf : g = f
    · subst hgf
      rw [Function.update_self] at hv
      split at hv
      · exact hv
      · exact List.mem_of_mem_erase hv
    · rwa [Function.update_of_ne hgf] at hv
  · by_cases hgf : g = f
    · subst hgf
      rw [Function.update_self]
      split
      · exact hv
      · next hres =>
        obtain ⟨res, hres⟩ := Option.ne_none_iff_exists'.mp hres
        have hne : v ≠ u := by
          rintro rfl
          exact hold.not_inRing hres (.inl (hsub v hmem))
        exact (List.mem_erase_of_ne hne).mpr hv
    · rwa [Function.update_of_ne hgf]

/-- **An operation is dropped**, and its SQE stays. -/
theorem PileInv.cancel (h : PileInv p s) {f u : ℕ} (hu : u ∈ s.awaited f) {ring : Reactor ℕ}
    (hs : s.ring.step (.drop u) = some ring) : PileInv p { s with
      ring := ring
      awaited := Function.update s.awaited f ((s.awaited f).erase u)
      dropped := Function.update s.dropped f (s.dropped f ++ [u]) } := by
  obtain ⟨hring, hent, hsub⟩ := h.ringStep (e := .drop u) (fun h => h) hs
  refine h.of_drops hring hent hsub (fun g v hv => ?_) (fun g v hv => ?_)
    (fun g v hv => mem_update_append hv) fun g v hv _ => ?_
  · by_cases hgf : g = f
    · subst hgf
      rw [Function.update_self] at hv
      exact List.mem_of_mem_erase hv
    · rwa [Function.update_of_ne hgf] at hv
  · by_cases hgf : g = f
    · subst hgf
      rw [Function.update_self] at hv
      refine (List.mem_append.mp hv).imp_right fun hv => ?_
      exact List.mem_singleton.mp hv ▸ hu
    · rw [Function.update_of_ne hgf] at hv
      exact .inl hv
  · by_cases hgf : g = f
    · subst hgf
      by_cases hvu : v = u
      · exact .inr (hvu ▸ mem_update_self)
      · rw [Function.update_self]
        exact .inl ((List.mem_erase_of_ne hvu).mpr hv)
    · rw [Function.update_of_ne hgf]
      exact .inl hv

/-! ### The steps of the executor -/

/-- What the executor keeps: its invariant, and the futures it knows. -/
theorem tasksInv_step {rt rt' : Runtime} {cfg : SchedulingConfig} {e : Executor.Event}
    (h : Executor.TasksInv rt) (hs : Executor.step cfg rt e = some rt') :
    Executor.TasksInv rt' ∧ ∀ f < rt.pool.spawned, f < rt'.pool.spawned :=
  ⟨h.step hs, fun _ hf => ((Runtime.step_schedule hs).address_eq h.pool hf).1⟩

theorem tasksInv_runList {rt rt' : Runtime} {cfg : SchedulingConfig} {es : List Executor.Event}
    (h : Executor.TasksInv rt) (hs : runList (Executor.step cfg) rt es = some rt') :
    Executor.TasksInv rt' ∧ ∀ f < rt.pool.spawned, f < rt'.pool.spawned := by
  refine (Steps.of_run hs).invariant
    (P := fun r => Executor.TasksInv r ∧ ∀ f < rt.pool.spawned, f < r.pool.spawned)
    ⟨h, fun _ hf => hf⟩ fun r e r' hr _ hstep => ?_
  obtain ⟨hinv, hlt⟩ := tasksInv_step hr.1 hstep
  exact ⟨hinv, fun f hf => hlt f (hr.2 f hf)⟩

/-- Handles are dropped: the ring stays as it is. -/
theorem ReapInv.dropAll {ring : Reactor ℕ} (h : ReapInv ring ring.completion) (l : List ℕ) :
    ReapInv (ring.dropAll l) (ring.dropAll l).completion :=
  { h with alive := fun v hv => h.alive v (Finset.mem_of_mem_filter v hv) }

/-- **The executor moves on**, and the tasks that have ended drop what they await. -/
theorem PileInv.settle (h : PileInv p s) {rt : Runtime} (htasks : Executor.TasksInv rt)
    (hspawned : ∀ f < s.runtime.pool.spawned, f < rt.pool.spawned) :
    PileInv p (s.settle rt) := by
  refine ⟨h.ring.imp_left (·.dropAll _), h.entries, htasks,
    fun f u hu => hspawned f (h.spawned f u ?_), fun u hu => ?_⟩
  · simp only [System.settle, List.mem_append] at hu
    split at hu
    · simpa [or_comm] using hu
    · simpa using hu
  · obtain ⟨f, hf⟩ := h.queued u hu
    refine ⟨f, ?_⟩
    simp only [System.settle, List.mem_append]
    split
    · simpa [or_comm] using hf
    · simpa using hf

/-- **Every step** of tasks that have no more than `n * k` operations, if the queue has as many
entries. -/
theorem PileInv.step (h : PileInv p s) (hsize : n * k ≤ p.entries) {e : SystemEvent}
    (hkeeps : s.Keeps cfg p n k e) (hs : s.step cfg p e = some s') : PileInv p s' := by
  have hwithin := hkeeps s' hs
  obtain ⟨-, hs⟩ := Option.ite_none_left_eq_some.mp hs
  match e with
  | .runtime e =>
    obtain ⟨-, hs⟩ := Option.ite_none_right_eq_some.mp hs
    obtain ⟨rt, hrt, rfl⟩ := Option.map_eq_some_iff.mp hs
    -- the status of a reactor is nothing to the tasks
    have hset := Runtime.schedule_setRunning s.runtime 0 (s.status p)
    have htasks : Executor.TasksInv (s.runtime.setRunning 0 (s.status p)) :=
      ⟨by
        have hpolled : (s.runtime.setRunning 0 (s.status p)).polled = s.runtime.polled :=
          congrArg Executor.Schedule.polled hset
        rw [hpolled]
        exact h.tasks.pool, h.tasks.panicked⟩
    obtain ⟨hinv, hlt⟩ := tasksInv_step htasks hrt
    exact h.settle hinv hlt
  | .push =>
    obtain ⟨f, hf, hs⟩ := Option.bind_eq_some_iff.mp hs
    obtain ⟨ring, hring, rfl⟩ := Option.map_eq_some_iff.mp hs
    exact h.push hsize hf (.inl rfl) hring hwithin
  | .pushPoll =>
    obtain ⟨f, hf, hs⟩ := Option.bind_eq_some_iff.mp hs
    obtain ⟨ring, hring, rfl⟩ := Option.map_eq_some_iff.mp hs
    exact h.push hsize hf (.inr rfl) hring hwithin
  | .poll u =>
    obtain ⟨f, -, hs⟩ := Option.bind_eq_some_iff.mp hs
    obtain ⟨-, hs⟩ := Option.ite_none_right_eq_some.mp hs
    obtain ⟨ring, hring, rfl⟩ := Option.map_eq_some_iff.mp hs
    exact h.poll hring
  | .cancel u =>
    obtain ⟨f, -, hs⟩ := Option.bind_eq_some_iff.mp hs
    obtain ⟨hu, hs⟩ := Option.ite_none_right_eq_some.mp hs
    obtain ⟨ring, hring, rfl⟩ := Option.map_eq_some_iff.mp hs
    exact h.cancel hu hring
  | .submit =>
    obtain ⟨-, hs⟩ := Option.ite_none_right_eq_some.mp hs
    obtain ⟨ring, hring, rfl⟩ := Option.map_eq_some_iff.mp hs
    exact h.of_ring (e := .submit) (fun h => h) hring _
  | .reap =>
    obtain ⟨-, hs⟩ := Option.ite_none_right_eq_some.mp hs
    obtain ⟨ring, hring, hs⟩ := Option.bind_eq_some_iff.mp hs
    have hreaped := h.of_ring (e := .reap) (fun h => h) hring s.lastSubmitTime
    split at hs
    · exact Option.some.inj hs ▸ hreaped
    · obtain ⟨rt, hrt, rfl⟩ := Option.map_eq_some_iff.mp hs
      obtain ⟨hinv, hlt⟩ := tasksInv_runList h.tasks hrt
      exact hreaped.settle hinv hlt
  | .consume j =>
    obtain ⟨ring, hring, rfl⟩ := Option.map_eq_some_iff.mp hs
    exact h.of_ring (e := .consume j) (fun h => h) hring s.lastSubmitTime
  | .cqe u res =>
    obtain ⟨ring, hring, rfl⟩ := Option.map_eq_some_iff.mp hs
    exact h.of_ring (e := .cqe u res) (fun h => h) hring s.lastSubmitTime
  | .tick | .setNeedWakeup b =>
    obtain rfl := Option.some.inj hs
    exact { h with }

/-- The calls under way, and where they are. -/
def places (rt : Runtime) : List (Executor.Call × Executor.Pc) :=
  rt.stack.map fun f => (f.call, f.pc)

/-- The `i`-th task. -/
def pollingTask (i : ℕ) : Executor.Task := ⟨i, .polling, true⟩

/-- **The first `c` tasks** are in the polling queue, none of which has been polled. -/
structure Spawned (c : ℕ) (calls : List (Executor.Call × Executor.Pc)) (rt : Runtime) :
    Prop where
  places : places rt = calls
  panicked : rt.panicked = none
  reactors : rt.reactors = [0]
  queue : rt.queue .polling = List.range' 0 c
  len : rt.pool.len = c
  spawned : rt.pool.spawned = c
  completed : rt.pool.completed = []
  entry : ∀ i < c, rt.pool.entry i = some (some (pollingTask i))
  vacant : ∀ i, c ≤ i → rt.pool.entry i = none
  shutdownRequested : rt.shutdownRequested = false
  reactorOnlyCount : rt.reactorOnlyCount = 0

/-- **The loop over the polling queue** is at `pc` and has come as far as the task `c`. -/
structure Looping (n c : ℕ) (pc : Executor.Pc) (rt : Runtime) : Prop where
  places : places rt = [(.runQueue, pc)]
  panicked : rt.panicked = none
  spawned : rt.pool.spawned = n
  completed : rt.pool.completed = []
  entry : ∀ i, c ≤ i → i < n → rt.pool.entry i = some (some (pollingTask i))

section Executor

variable {rt : Runtime} {c : ℕ} {pc : Executor.Pc}
  {calls : List (Executor.Call × Executor.Pc)}

theorem places_setRunning (rt : Runtime) (r : ℕ) (b : Bool) :
    places (rt.setRunning r b) = places rt := by
  rw [places, Runtime.setRunning, List.map_map]
  rfl

theorem Spawned.setRunning (h : Spawned c calls rt) (r : ℕ) (b : Bool) :
    Spawned c calls (rt.setRunning r b) :=
  { h with places := (places_setRunning rt r b).trans h.places }

theorem Looping.setRunning (h : Looping n c pc rt) (r : ℕ) (b : Bool) :
    Looping n c pc (rt.setRunning r b) :=
  { h with places := (places_setRunning rt r b).trans h.places }

/-- The one call that is under way. -/
theorem exists_frame {call : Executor.Call} (h : places rt = [(call, pc)]) :
    ∃ f, rt.stack = [f] ∧ f.call = call ∧ f.pc = pc := by
  obtain ⟨f, hstack, hf⟩ := List.map_eq_singleton_iff.mp h
  obtain ⟨hcall, hpc⟩ := Prod.mk.inj hf
  exact ⟨f, hstack, hcall, hpc⟩

theorem places_resume (rt : Runtime) (f : Executor.Frame) :
    places (rt.resume f []) = [(f.call, f.pc)] := rfl

theorem step_move {f : Executor.Frame} (hp : rt.panicked = none) (hs : rt.stack = [f])
    (m : Executor.Move) : Executor.step .default rt (.move m) = rt.move .default f [] f.pc m := by
  rw [Executor.step, if_neg (not_not_intro hp)]
  simp only [hs]

/-- A call of `spawn_polling_with_runtime`. -/
theorem Spawned.spawn (h : Spawned c [] rt) :
    ∃ rt', Executor.step .default rt (.spawn .polling c) = some rt' ∧ Spawned (c + 1) [] rt' := by
  have hstack : rt.stack = [] := List.map_eq_nil_iff.mp h.places
  have hcode : rt.code = .outside := by rw [Runtime.code, hstack]
  refine ⟨rt.spawn .polling c, ?_, ?_⟩
  · rw [Executor.step, if_neg (not_not_intro h.panicked)]
    exact if_pos ⟨by rw [hcode]; decide, h.vacant c le_rfl⟩
  · have hentry : ∀ i, (rt.spawn .polling c).pool.entry i =
        if i = c then some (some ⟨rt.pool.spawned, .polling, true⟩) else rt.pool.entry i :=
      Function.update_apply rt.pool.entry c _
    exact {
      places := h.places
      panicked := h.panicked
      reactors := h.reactors
      queue := by
        have hqueue : (rt.spawn .polling c).queue .polling = rt.queue .polling ++ [c] := by
          change Function.update rt.queue .polling (rt.queue .polling ++ [c]) .polling = _
          rw [Function.update_self]
        rw [hqueue, h.queue, List.range'_concat, Nat.zero_add, Nat.one_mul]
      len := congrArg (· + 1) h.len
      spawned := congrArg (· + 1) h.spawned
      completed := h.completed
      entry := fun i hi => by
        rw [hentry, h.spawned]
        split
        · next heq => rw [heq, pollingTask]
        · next hne => exact h.entry i (Nat.lt_of_le_of_ne (Nat.le_of_lt_succ hi) hne)
      vacant := fun i hi => by
        rw [hentry, if_neg (Nat.ne_of_gt hi)]
        exact h.vacant i (Nat.le_of_succ_le hi)
      shutdownRequested := h.shutdownRequested
      reactorOnlyCount := h.reactorOnlyCount }

/-- A call of `run_queue`. -/
theorem Spawned.runQueue (h : Spawned c [] rt) :
    ∃ rt', Executor.step .default rt .runQueue = some rt' ∧
      Spawned c [(.runQueue, .head)] rt' := by
  have hstack : rt.stack = [] := List.map_eq_nil_iff.mp h.places
  have hcode : rt.code = .outside := by rw [Runtime.code, hstack]
  refine ⟨rt.resume (.new .runQueue .head) rt.stack, ?_, { h with places := ?_ }⟩
  · rw [Executor.step, if_neg (not_not_intro h.panicked)]
    exact if_pos (by rw [hcode]; decide)
  · rw [hstack, places_resume]
    rfl

/-- The first iteration drains the polling queue and turns to the reactor. -/
theorem Spawned.iterate (h : Spawned n [(.runQueue, .head)] rt) (hn : n ≠ 0) :
    ∃ rt', Executor.step .default rt (.move .exec) = some rt' ∧
      Looping n 0 (.reactors [0] (some (List.range' 0 n))) rt' := by
  obtain ⟨f, hstack, hcall, hpc⟩ := exists_frame h.places
  refine ⟨rt.iterate .default f [], ?_, ?_⟩
  · rw [step_move h.panicked hstack, hpc]
    refine congrArg some ?_
    rw [Runtime.loopHead, hcall]
    refine if_neg (not_or.mpr ⟨h.len ▸ hn, ?_⟩)
    rw [h.shutdownRequested]
    exact Bool.false_ne_true
  · have hids : rt.queue .polling ≠ [] := by
      rw [h.queue]
      exact fun hnil => hn (List.range'_eq_nil_iff.mp hnil)
    have hoverride : decide (f.call = .runQueue ∧
        SchedulingConfig.default.maxReactorOnly ≤ rt.reactorOnlyCount) = false := by
      rw [h.reactorOnlyCount]
      exact decide_eq_false fun hle => absurd hle.2 (by decide)
    have hpoll : Runtime.shouldPollReactors .default false (rt.queue .polling)
        rt.iterationCount = some true := by
      rw [Runtime.shouldPollReactors, if_neg Bool.false_ne_true, if_pos (.inl hids)]
    rw [Runtime.iterate]
    simp only [List.any_nil, Bool.false_eq_true, if_false, hoverride, hpoll, if_true]
    exact {
      places := by
        rw [places_resume, hcall, h.reactors, h.queue]
      panicked := h.panicked
      spawned := h.spawned
      completed := h.completed
      entry := fun i _ hi => h.entry i hi }

/-- **A step of the call** that leaves the pool as it is. -/
theorem Looping.resume {f : Executor.Frame} {rt' : Runtime} {pc' : Executor.Pc}
    (h : Looping n c pc rt) (hcall : f.call = .runQueue) (hpc : f.pc = pc')
    (hpool : rt'.pool = rt.pool) (hpanicked : rt'.panicked = none) :
    Looping n c pc' (rt'.resume f []) where
  places := by rw [places_resume, hcall, hpc]
  panicked := hpanicked
  spawned := (congrArg Executor.TaskPool.spawned hpool).trans h.spawned
  completed := (congrArg Executor.TaskPool.completed hpool).trans h.completed
  entry := fun i hc hi => by
    have hentry : (rt'.resume f []).pool.entry i = rt.pool.entry i :=
      congrArg (fun P => P.entry i) hpool
    rw [hentry, h.entry i hc hi]

/-- The reactor is polled or not, by its cached status. -/
theorem Looping.nextReactor {d : Option (List ℕ)} (h : Looping n c (.reactors [0] d) rt) :
    ∃ rt', Executor.step .default rt (.move .exec) = some rt' ∧
      (Looping n c (.reactor 0 [] d) rt' ∨ Looping n c (.reactors [] d) rt') := by
  obtain ⟨f, hstack, hcall, hpc⟩ := exists_frame h.places
  refine ⟨rt.nextReactor .default f [] [0] d, ?_, ?_⟩
  · rw [step_move h.panicked hstack, hpc]
    rfl
  · rw [Runtime.nextReactor]
    rcases (f.reactorStatus .default (rt.reactor 0)).1
    · exact .inr (h.resume hcall rfl rfl h.panicked)
    · exact .inl (h.resume hcall rfl rfl h.panicked)

/-- The reactor returns to the loop over the reactors. -/
theorem Looping.reactorDone {left : List ℕ} {d : Option (List ℕ)}
    (h : Looping n c (.reactor 0 left d) rt) :
    ∃ rt', Executor.step .default rt (.move .reactorDone) = some rt' ∧
      Looping n c (.reactors left d) rt' := by
  obtain ⟨f, hstack, hcall, hpc⟩ := exists_frame h.places
  have hstep := step_move h.panicked hstack .reactorDone
  rw [hpc] at hstep
  exact ⟨_, hstep, h.resume hcall rfl rfl h.panicked⟩

/-- The loop over the tasks begins. -/
theorem Looping.drained {ids : List ℕ} (h : Looping n c (.reactors [] (some ids)) rt) :
    ∃ rt', Executor.step .default rt (.move .exec) = some rt' ∧
      Looping n c (.loop (.polling ids)) rt' := by
  obtain ⟨f, hstack, hcall, hpc⟩ := exists_frame h.places
  have hstep := step_move h.panicked hstack .exec
  rw [hpc] at hstep
  exact ⟨_, hstep, h.resume hcall rfl rfl h.panicked⟩

/-- The next task is polled. -/
theorem Looping.poll {ids : List ℕ} (h : Looping n c (.loop (.polling (c :: ids))) rt)
    (hc : c < n) : ∃ rt', Executor.step .default rt (.move .exec) = some rt' ∧
      Looping n (c + 1) (.task (.polling ids) c (pollingTask c)) rt' := by
  obtain ⟨f, hstack, hcall, hpc⟩ := exists_frame h.places
  refine ⟨rt.pollTask f [] (.polling ids) c, ?_, ?_⟩
  · rw [step_move h.panicked hstack, hpc]
    rfl
  · rw [Runtime.pollTask, h.entry c le_rfl hc]
    exact {
      places := by rw [places_resume, hcall]
      panicked := h.panicked
      spawned := h.spawned
      completed := h.completed
      entry := fun i hci hi =>
        (Function.update_of_ne (Nat.ne_of_gt hci) ..).trans (h.entry i (Nat.le_of_succ_le hci) hi) }

/-- A task that has been polled waits. -/
theorem Looping.pending {q : Executor.Pass} {i : ℕ} (h : Looping n c (.task q i (pollingTask i)) rt)
    (hi : i < c) : ∃ rt', Executor.step .default rt (.move .pending) = some rt' ∧
      Looping n c (.loop q) rt' := by
  obtain ⟨f, hstack, hcall, hpc⟩ := exists_frame h.places
  refine ⟨rt.taskPending f [] q i (pollingTask i), ?_, ?_⟩
  · rw [step_move h.panicked hstack, hpc]
    rfl
  · have hstat : (pollingTask i).taskStat = true := rfl
    rw [Runtime.taskPending, if_pos hstat]
    have hspawned : ∀ t, (rt.pool.putBack i t).spawned = rt.pool.spawned ∧
        (rt.pool.putBack i t).completed = rt.pool.completed := by
      intro t
      rw [Executor.TaskPool.putBack]
      split <;> exact ⟨rfl, rfl⟩
    have hentry : ∀ t m, m ≠ i → (rt.pool.putBack i t).entry m = rt.pool.entry m := by
      intro t m hm
      rw [Executor.TaskPool.putBack]
      split
      · exact Function.update_of_ne hm ..
      · rfl
    exact {
      places := by rw [places_resume, hcall]
      panicked := h.panicked
      spawned := (hspawned _).1.trans h.spawned
      completed := (hspawned _).2.trans h.completed
      entry := fun m hcm hm =>
        (hentry _ m (Nat.ne_of_gt (hi.trans_le hcm))).trans (h.entry m hcm hm) }

end Executor

/-- Nothing has been submitted, and `m` SQEs wait. -/
structure Waiting (p : IoUringParams) (m : ℕ) (ring : Reactor ℕ) : Prop where
  panicked : ring.panicked = none
  polling : ring.polling = false
  entries : ring.entries = p.entries
  length : ring.submission.length = m

/-- **The SQEs pile up**: `m` of them wait, the last ones of the task `i`. -/
structure Piling (p : IoUringParams) (n k m : ℕ) (s : System) : Prop where
  ring : Waiting p m s.ring
  dropped : ∀ f, s.dropped f = []
  length : ∀ f, (s.awaited f).length ≤ k
  task : ∃ i j, i < n ∧ j < k ∧ m = i * k + j ∧ (s.awaited i).length = j ∧
    (∀ f, i < f → s.awaited f = []) ∧
      Looping n (i + 1) (.task (.polling (List.range' (i + 1) (n - (i + 1)))) i (pollingTask i))
        s.runtime

/-- The runs of at most `n` tasks with at most `k` operations each. -/
abbrev Run (p : IoUringParams) (n k : ℕ) : System → System → Prop :=
  Steps (System.step .default p) (System.Keeps .default p n k)

/-- One more step of such a run. -/
theorem Run.next {t : System} {e : SystemEvent} (hrun : Run p n k s t)
    (hs : t.step .default p e = some s') (h : s'.Within n k) : Run p n k s s' := by
  refine hrun.tail (fun u hu => ?_) hs
  obtain rfl := Option.some.inj (hs.symm.trans hu)
  exact h

/-- At most `n` tasks have been spawned, and no operation has been dropped. -/
theorem System.within_of (hspawned : s.runtime.pool.spawned ≤ n) (hdropped : ∀ f, s.dropped f = [])
    (hlength : ∀ f, (s.awaited f).length ≤ k) : s.Within n k := by
  constructor
  · calc s.tasks.card ≤ (Finset.range s.runtime.pool.spawned).card :=
          Finset.card_le_card (Finset.filter_subset ..)
      _ = s.runtime.pool.spawned := Finset.card_range _
      _ ≤ n := hspawned
  · intro f
    rw [System.operations, hdropped f, List.filter_nil, List.append_nil]
    exact hlength f

/-- The runtime moves on, and no task has ended. -/
theorem System.settle_eq (s : System) {rt : Runtime} (hcompleted : rt.pool.completed = []) :
    s.settle rt = { s with runtime := rt } := by
  simp [System.settle, Reactor.dropAll, hcompleted]

/-- A step of the executor meanwhile. -/
theorem System.step_runtime {e : Executor.Event} {rt : Runtime} (hring : s.ring.panicked = none)
    (he : ofOthers s e = true)
    (hs : Executor.step cfg (s.runtime.setRunning 0 (s.status p)) e = some rt)
    (hcompleted : rt.pool.completed = []) :
    s.step cfg p (.runtime e) = some { s with runtime := rt } := by
  rw [System.step, if_neg (not_not_intro hring)]
  simp only [he, if_true, hs, Option.map_some]
  rw [s.settle_eq hcompleted]

/-- A step of the executor while the loop goes over the tasks. -/
theorem Looping.step {c c' : ℕ} {pc pc' : Executor.Pc} {e : Executor.Event}
    (h : Looping n c pc s.runtime) (hring : s.ring.panicked = none) (he : ofOthers s e = true)
    (hs : ∀ rt, Looping n c pc rt →
      ∃ rt', Executor.step .default rt e = some rt' ∧ Looping n c' pc' rt') :
    ∃ rt', s.step .default p (.runtime e) = some { s with runtime := rt' } ∧
      Looping n c' pc' rt' := by
  obtain ⟨rt', hstep, hrt'⟩ := hs _ (h.setRunning 0 (s.status p))
  exact ⟨rt', System.step_runtime hring he hstep hrt'.completed, hrt'⟩

theorem Looping.inReactor {c : ℕ} {left : List ℕ} {d : Option (List ℕ)}
    (h : Looping n c (.reactor 0 left d) s.runtime) : s.inReactor = true := by
  obtain ⟨f, hstack, -, hpc⟩ := exists_frame h.places
  rw [System.inReactor, hstack]
  obtain ⟨call, pc, iteration, made, done, poll, stuck, current, past⟩ := f
  obtain rfl : pc = _ := hpc
  rfl

theorem Looping.future {c id : ℕ} {q : Executor.Pass} {t : Executor.Task}
    (h : Looping n c (.task q id t) s.runtime) : s.future = some t.future := by
  obtain ⟨f, hstack, -, hpc⟩ := exists_frame h.places
  rw [System.future, hstack]
  obtain ⟨call, pc, iteration, made, done, poll, stuck, current, past⟩ := f
  obtain rfl : pc = _ := hpc
  rfl

/-- No task awaits an operation, and none has dropped one. -/
def System.Idle (s : System) : Prop := ∀ f, s.awaited f = [] ∧ s.dropped f = []

theorem System.Idle.within (h : s.Idle) (hspawned : s.runtime.pool.spawned ≤ n) (k : ℕ) :
    s.Within n k := by
  refine System.within_of hspawned (fun f => (h f).2) fun f => ?_
  rw [(h f).1]
  exact Nat.zero_le k

/-- **The next task** is polled. -/
theorem exists_polled {i m : ℕ} (hi : i < n) (hring : Waiting p m s.ring)
    (h : Looping n i (.loop (.polling (List.range' i (n - i)))) s.runtime) :
    ∃ rt, s.step .default p (.runtime (.move .exec)) = some { s with runtime := rt } ∧
      Looping n (i + 1)
        (.task (.polling (List.range' (i + 1) (n - (i + 1)))) i (pollingTask i)) rt := by
  obtain ⟨l, hl⟩ : ∃ l, n - i = l + 1 := ⟨n - (i + 1), by omega⟩
  rw [hl, List.range'_succ, show l = n - (i + 1) by omega] at h
  exact h.step hring.panicked rfl fun rt hrt => hrt.poll hi

/-- An SQE is pushed onto a queue of `m`. -/
theorem Waiting.push {m : ℕ} {ring : Reactor ℕ} (h : Waiting p m ring) :
    ring.step .push = some ring.pushSqe ∧ (m < p.entries → Waiting p (m + 1) ring.pushSqe) ∧
      (p.entries ≤ m → ring.pushSqe.panicked = some .submissionQueueFull) := by
  refine ⟨?_, fun hm => ?_, fun hm => ?_⟩
  · exact Reactor.step_push.mpr ⟨h.panicked, h.polling, rfl⟩
  · have hroom : ring.submission.length < ring.entries := by rwa [h.length, h.entries]
    rw [Reactor.pushSqe_of_room hroom]
    exact ⟨h.panicked, h.polling, h.entries, List.length_append.trans (congrArg (· + 1) h.length)⟩
  · have hfull : ¬ring.submission.length < ring.entries := by
      rw [h.length, h.entries]
      exact Nat.not_lt.mpr hm
    rw [Reactor.pushSqe_of_full hfull]

/-- The task that is polled starts an operation, the `j + 1`-st one. -/
theorem Piling.step_push {m : ℕ} (h : Piling p n k m s) : ∃ f,
    s.future = some f ∧ s.step .default p .push = some { s with
      ring := s.ring.pushSqe
      awaited := Function.update s.awaited f (s.awaited f ++ [s.ring.userDataCounter]) } ∧
    ∀ g, (Function.update s.awaited f (s.awaited f ++ [s.ring.userDataCounter]) g).length ≤ k := by
  obtain ⟨i, j, hi, hj, -, hlength, -, hrt⟩ := h.task
  have hfuture : s.future = some i := hrt.future
  refine ⟨i, hfuture, ?_, fun g => ?_⟩
  · rw [System.step, if_neg (not_not_intro h.ring.panicked)]
    simp only [hfuture, Option.bind_some, h.ring.push.1, Option.map_some]
  · by_cases hg : g = i
    · subst hg
      rw [Function.update_self, List.length_append, hlength]
      exact hj
    · rw [Function.update_of_ne hg]
      exact h.length g

/-- **One more operation.** If it was the last one of its task, the next task follows. -/
theorem Piling.push {m : ℕ} (h : Piling p n k m s) (hm : m < p.entries) (hsize : m + 1 < n * k) :
    ∃ s', Run p n k s s' ∧ Piling p n k (m + 1) s' := by
  obtain ⟨f, hf, hpush, hlengths⟩ := h.step_push
  have hring := h.ring.push.2.1 hm
  obtain ⟨i, j, hi, hj, hij, hlength, hlater, hrt⟩ := h.task
  obtain rfl : i = f := Option.some.inj (hrt.future.symm.trans hf)
  set awaited := Function.update s.awaited i (s.awaited i ++ [s.ring.userDataCounter])
    with hawaited
  have hlater' : ∀ g, i < g → awaited g = [] := fun g hg => by
    rw [hawaited, Function.update_of_ne (Nat.ne_of_gt hg)]
    exact hlater g hg
  have hpushed := Run.next (.refl : Run p n k s s) hpush
    (System.within_of hrt.spawned.le h.dropped hlengths)
  rcases Nat.lt_or_eq_of_le hj with hlt | hlast
  · refine ⟨_, hpushed, hring, h.dropped, hlengths, i, j + 1, hi, hlt, ?_, ?_, hlater', hrt⟩
    · rw [hij, Nat.add_assoc]
    · change (awaited i).length = j + 1
      rw [hawaited, Function.update_self, List.length_append, hlength, List.length_singleton]
  · -- the task waits for its operations, and the loop goes on
    have hmul : m + 1 = (i + 1) * k := by rw [hij, Nat.add_assoc, ← hlast, Nat.succ_mul]
    have hnext : i + 1 < n := Nat.lt_of_mul_lt_mul_right (hmul ▸ hsize)
    obtain ⟨rt, hpending, hrt⟩ := Looping.step
      (s := { s with ring := s.ring.pushSqe, awaited := awaited }) (e := .move .pending) hrt
      hring.panicked rfl fun rt hrt => hrt.pending (Nat.lt_succ_self i)
    obtain ⟨rt', hnext', hrt'⟩ := exists_polled
      (s := { s with ring := s.ring.pushSqe, awaited := awaited, runtime := rt }) hnext hring hrt
    have hrun := Run.next hpushed hpending (System.within_of hrt.spawned.le h.dropped hlengths)
    refine ⟨_, Run.next hrun hnext' (System.within_of hrt'.spawned.le h.dropped hlengths), hring,
      h.dropped, hlengths, i + 1, 0, hnext, Nat.zero_lt_of_lt hj, hmul, ?_, fun g hg => ?_, hrt'⟩
    · exact congrArg List.length (hlater' (i + 1) (Nat.lt_succ_self i))
    · exact hlater' g (Nat.lt_of_succ_lt hg)

end Uring

end Pluvio
