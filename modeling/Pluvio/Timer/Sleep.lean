import Pluvio.Runtime.Attached
import Pluvio.Timer.Delay

/-!
# A task that sleeps

A runtime with the timer reactor. A task that polls a `Delay` before its deadline leaves a timer
with its waker, and a poll of the reactor invokes the wakers whose time has come: with the timers
and the delays the reactor is a device of the runtime (`Pluvio.Sleep.device`), and tasks make, poll
and drop delays as they like.

A task that sleeps wakes up (`Pluvio.Sleep.sleeper_wakes`). A timer whose deadline has passed is a
duty of the reactor (`Pluvio.Sleep.expired_duty`), and these are done in time.
-/

namespace Pluvio

namespace Sleep

open Executor (Device Attached AttachedEvent Duty SchedulingConfig Driven Queued Covers firstPoll
  polledNext quiet_polledNext)
open Timer (TimerHandle TimerReactor Delay)

/-! ### The system -/

/-- The timer reactor, the delays of the tasks and the time. A waker is named by its future. -/
structure Timers where
  reactor : TimerReactor ℕ ℕ
  /-- `COUNTER`. -/
  counter : UInt64
  now : ℕ
  /-- The delays that have been made; a dropped one is not there any more. -/
  delays : List (Option (Delay ℕ))

/-- What a task can do with its delays. -/
inductive Event
  /-- `Delay::new_at`. -/
  | sleep (deadline : ℕ)
  /-- The task that is being polled polls a delay. -/
  | pollDelay (i : ℕ)
  | dropDelay (i : ℕ)
  | tick
  /-- `TimerHandle::new` for the reactor of another thread. -/
  | elsewhere

namespace Timers

/-- The timers before the first delay. -/
def new : Timers := ⟨.new, 1, 0, []⟩

/-- One event. Every entry of the map is held in memory, so there are fewer than `2 ^ 64` of
them. -/
def step (d : Timers) (pollee : Option ℕ) : Event → Option Timers
  | .sleep deadline => some { d with delays := d.delays ++ [some (.newAt deadline)] }
  | .pollDelay i => pollee.bind fun f => d.delays[i]?.join.bind fun delay =>
    if d.reactor.timers.len + 1 < 2 ^ 64 then
      let p := delay.poll d.reactor d.counter d.now f
      some { d with
        reactor := p.reactor, counter := p.counter, delays := d.delays.set i (some p.future) }
    else none
  | .dropDelay i => d.delays[i]?.join.map fun delay =>
    { d with reactor := delay.drop d.reactor, delays := d.delays.set i none }
  | .tick => some { d with now := d.now + 1 }
  | .elsewhere => some { d with counter := d.counter + 1 }

/-- `TimerReactor::poll`. -/
def poll (d : Timers) : Timers × List ℕ :=
  let r := d.reactor.wakeExpiredTimers d.now
  ({ d with reactor := r.2.1 }, r.2.2.map (·.2))

end Timers

/-- **The timer reactor**, as the executor sees it. -/
def device : Device Timers Event Unit where
  running d := d.reactor.status = .running
  step := Timers.step
  poll d _ := some d.poll

/-- `COUNTER` gives no number that a timer of the same deadline has. -/
def NoReuse (s : Attached Timers) (e : AttachedEvent Event Unit) : Prop :=
  ∀ i d, e = .device (.pollDelay i) → s.device.delays[i]?.join = some d →
    (⟨d.deadline, s.device.counter⟩ : TimerHandle ℕ) ∉ s.device.reactor.timers.entries.map (·.1)

/-- No delay with this timer is dropped. -/
def Keeps (h : TimerHandle ℕ) (s : Attached Timers) (e : AttachedEvent Event Unit) : Prop :=
  ∀ i d, e = .device (.dropDelay i) → s.device.delays[i]?.join = some d → d.timerHandle ≠ some h

/-! ### The timers -/

section Timers

variable {r : TimerReactor ℕ ℕ} {h : TimerHandle ℕ} {f now : ℕ}

/-- The counter is the number of timers. -/
structure Counted (r : TimerReactor ℕ ℕ) : Prop where
  count : r.timerCountAtomic = UInt64.ofNat r.timers.len
  small : r.timers.len < 2 ^ 64

/-- A reactor with a timer is `Running`. -/
theorem Counted.status (hr : Counted r) (hmem : (h, f) ∈ r.timers.entries) :
    r.status = .running := by
  have hpos : 0 < r.timers.len := List.length_pos_of_mem hmem
  rw [TimerReactor.status, if_pos]
  rw [UInt64.lt_iff_toNat_lt, hr.count, UInt64.toNat_ofNat', Nat.mod_eq_of_lt hr.small]
  exact hpos

/-- `register_timer`, with a new handle. -/
theorem Counted.register (hr : Counted r) (hnew : h ∉ r.timers.entries.map (·.1))
    (hsmall : r.timers.len + 1 < 2 ^ 64) : Counted (r.registerTimer h f) := by
  have hlen : (r.timers.insert h f).len = r.timers.len + 1 :=
    (OrdMap.insert_perm hnew).length_eq
  refine ⟨?_, ?_⟩
  · show r.timerCountAtomic + 1 = UInt64.ofNat (r.timers.insert h f).len
    rw [hlen, hr.count, UInt64.ofNat_add]
    rfl
  · show (r.timers.insert h f).len < 2 ^ 64
    rw [hlen]
    exact hsmall

/-- `cancel_timer`. -/
theorem Counted.cancel (hr : Counted r) (h : TimerHandle ℕ) : Counted (r.cancelTimer h).2 := by
  by_cases hmem : h ∈ r.timers.entries.map (·.1)
  · have hlen := OrdMap.len_remove hmem
    have hget := OrdMap.isSome_get_iff.mpr hmem
    refine ⟨?_, Nat.lt_of_succ_lt (hlen.trans_lt hr.small)⟩
    show (if _ then r.timerCountAtomic - 1 else _) = UInt64.ofNat (r.timers.remove h).len
    rw [if_pos hget, hr.count, ← hlen, UInt64.ofNat_add]
    exact UInt64.add_sub_cancel _ _
  · have hget : ¬(r.timers.get h).isSome = true := mt OrdMap.isSome_get_iff.mp hmem
    have hsame : (r.cancelTimer h).2 = r := by
      rw [TimerReactor.cancelTimer, if_neg hget, OrdMap.remove_eq_self hmem]
    rw [hsame]
    exact hr

/-- `wake_expired_timers`. -/
theorem Counted.poll (hr : Counted r) (now : ℕ) : Counted (r.wakeExpiredTimers now).2.1 := by
  obtain ⟨-, -, hrest, hcount⟩ := r.wakeExpiredTimers_eq now
  have hlen : (r.wakeExpiredTimers now).2.1.timers.len + (r.due now).length = r.timers.len := by
    have hperm := List.filter_append_perm
      (fun e : TimerHandle ℕ × ℕ => decide (now < e.1.deadline)) r.timers.entries
    have hdue : r.due now = r.timers.entries.filter fun e => !decide (now < e.1.deadline) :=
      List.filter_congr fun e _ => by rw [← decide_not, decide_eq_decide, not_lt]
    rw [OrdMap.len, hrest, hdue, ← List.length_append]
    exact hperm.length_eq
  refine ⟨?_, (Nat.le_add_right ..).trans_lt (hlen.trans_lt hr.small)⟩
  rw [hcount, hr.count, ← hlen, UInt64.ofNat_add]
  exact UInt64.add_sub_cancel _ _

end Timers

/-! ### What a step does -/

section Steps

variable {d d' : Timers} {g : Option ℕ} {e : Event} {h : TimerHandle ℕ} {f : ℕ}

/-- **What a step does to the timers**: nothing, or one of two operations. -/
inductive Changes (d : Timers) (e : Event) (d' : Timers) : Prop
  | same (reactor : d'.reactor = d.reactor) (now : d.now ≤ d'.now)
  | register (i : ℕ) (delay : Delay ℕ) (f : ℕ) (event : e = .pollDelay i)
      (there : d.delays[i]?.join = some delay) (small : d.reactor.timers.len + 1 < 2 ^ 64)
      (reactor : d'.reactor = d.reactor.registerTimer ⟨delay.deadline, d.counter⟩ f)
      (now : d'.now = d.now)
  | cancel (i : ℕ) (delay : Delay ℕ) (h : TimerHandle ℕ) (event : e = .dropDelay i)
      (there : d.delays[i]?.join = some delay) (handle : delay.timerHandle = some h)
      (reactor : d'.reactor = (d.reactor.cancelTimer h).2) (now : d'.now = d.now)

theorem changes_of_step (hs : d.step g e = some d') : Changes d e d' := by
  cases e with
  | sleep deadline =>
    obtain rfl := Option.some.inj hs
    exact .same rfl le_rfl
  | pollDelay i =>
    obtain ⟨f, -, hs⟩ := Option.bind_eq_some_iff.mp hs
    obtain ⟨delay, hd, hs⟩ := Option.bind_eq_some_iff.mp hs
    obtain ⟨hsmall, hs⟩ := Option.ite_none_right_eq_some.mp hs
    obtain rfl := Option.some.inj hs
    rcases Timer.Fut.delay_poll_cases d.reactor d.counter d.now f delay with ⟨-, hp⟩ |
      ⟨-, -, hp⟩ | ⟨-, -, hp⟩
    · exact .same (by rw [hp]) le_rfl
    · exact .same (by rw [hp]) le_rfl
    · exact .register i delay f rfl hd hsmall (by rw [hp]) rfl
  | dropDelay i =>
    obtain ⟨delay, hd, rfl⟩ := Option.map_eq_some_iff.mp hs
    cases hh : delay.timerHandle with
    | none => exact .same (by simp only [Delay.drop, hh]) le_rfl
    | some h => exact .cancel i delay h rfl hd hh (by simp only [Delay.drop, hh]) rfl
  | tick =>
    obtain rfl := Option.some.inj hs
    exact .same rfl (Nat.le_succ _)
  | elsewhere =>
    obtain rfl := Option.some.inj hs
    exact .same rfl le_rfl

/-- The counter stays the number of timers. -/
theorem Counted.step (hd : Counted d.reactor)
    (hnew : ∀ i delay, e = .pollDelay i → d.delays[i]?.join = some delay →
      (⟨delay.deadline, d.counter⟩ : TimerHandle ℕ) ∉ d.reactor.timers.entries.map (·.1))
    (hs : d.step g e = some d') : Counted d'.reactor := by
  cases changes_of_step hs with
  | same reactor now =>
    rw [reactor]
    exact hd
  | register i delay f event there small reactor now =>
    rw [reactor]
    exact hd.register (hnew i delay event there) small
  | cancel i delay h event there handle reactor now =>
    rw [reactor]
    exact hd.cancel h

/-- A timer that is due: its deadline has passed. -/
structure Expired (h : TimerHandle ℕ) (f : ℕ) (d : Timers) : Prop where
  counted : Counted d.reactor
  pending : (h, f) ∈ d.reactor.timers.entries
  due : h.deadline ≤ d.now

/-- The timer is not registered any more. -/
def Gone (h : TimerHandle ℕ) (d : Timers) : Prop := h ∉ d.reactor.timers.entries.map (·.1)

/-- **A timer whose deadline has passed** is a duty of the reactor, unless its delay is
dropped. -/
theorem expired_duty (h : TimerHandle ℕ) (f : ℕ) :
    Duty device (fun s e => NoReuse s e ∧ Keeps h s e) (Expired h f) (Gone h) f where
  running d hd := decide_eq_true (hd.counted.status hd.pending)
  step s e d hd hok hs := by
    have hkeys : h ∈ s.device.reactor.timers.entries.map (·.1) := List.mem_map_of_mem hd.pending
    have hnew := fun i delay (he : e = .pollDelay i) =>
      hok.1 i delay (congrArg AttachedEvent.device he)
    refine ⟨hd.counted.step hnew hs, ?_, ?_⟩
    · cases changes_of_step hs with
      | same reactor now =>
        rw [reactor]
        exact hd.pending
      | register i delay g event there small reactor now =>
        rw [reactor]
        refine OrdMap.mem_insert.mpr (.inr ⟨hd.pending, fun heq => ?_⟩)
        exact hnew i delay event there (heq ▸ hkeys)
      | cancel i delay h' event there handle reactor now =>
        rw [reactor]
        refine List.mem_filter.mpr ⟨hd.pending, decide_eq_true fun heq : h = h' => ?_⟩
        refine hok.2 i delay (congrArg AttachedEvent.device event) there ?_
        exact handle.trans (congrArg some heq.symm)
    · cases changes_of_step hs with
      | same reactor now => exact hd.due.trans now
      | register i delay g event there small reactor now => exact now.symm ▸ hd.due
      | cancel i delay h' event there handle reactor now => exact now.symm ▸ hd.due
  poll s x d l hd _ hpoll := by
    obtain ⟨rfl, rfl⟩ := Prod.mk.inj (Option.some.inj hpoll)
    obtain ⟨-, hwoken, hrest, -⟩ := s.device.reactor.wakeExpiredTimers_eq s.device.now
    constructor
    · rw [hwoken]
      exact List.mem_map.mpr ⟨(h, f), TimerReactor.mem_due.mpr ⟨hd.pending, hd.due⟩, rfl⟩
    · intro hgone
      rw [hrest] at hgone
      obtain ⟨a, ha, rfl⟩ := List.mem_map.mp hgone
      exact absurd (of_decide_eq_true (List.mem_filter.mp ha).2) hd.due.not_gt

end Steps

/-! ### Runs -/

section Runs

variable {cfg : SchedulingConfig} {s s' : Attached Timers} {e : AttachedEvent Event Unit}

/-- What holds in every state. -/
structure SystemInv (cfg : SchedulingConfig) (s : Attached Timers) : Prop where
  driven : Driven cfg s.served
  counted : Counted s.device.reactor

/-- Every event keeps the books of the executor, and the timers counted. -/
theorem SystemInv.next (hinv : SystemInv cfg s) (hinterval : 0 < cfg.reactorPollInterval)
    (hok : s.NotNested e ∧ NoReuse s e) (hs : device.next cfg s e = some s') :
    SystemInv cfg s' := by
  refine ⟨hinv.driven.next hinterval hok.1 hs, ?_⟩
  cases Device.next_cases hs with
  | runtime e' event others run device => exact device ▸ hinv.counted
  | device e' event step served =>
    refine hinv.counted.step (fun i delay he => ?_) step
    exact hok.2 i delay (event.trans (congrArg AttachedEvent.device he))
  | poll x l event attended poll run =>
    rw [← (Prod.mk.inj (Option.some.inj poll)).1]
    exact hinv.counted.poll s.device.now

/-- **A task that sleeps wakes up.** In a run in which no task drives the runtime from inside its
own poll, and in which no number is drawn twice, once the deadline of a timer has passed, and
unless its delay is dropped, its waker is invoked before so many iterations have begun; and when
so many more have ended that all the ids in front of it have had their turn, its task has been
polled, or has completed. -/
theorem sleeper_wakes (cfg : SchedulingConfig) (hinterval : 0 < cfg.reactorPollInterval)
    (honly : 0 < cfg.maxReactorOnly) {es es' : List (AttachedEvent Event Unit)}
    {s s' : Attached Timers} {h : TimerHandle ℕ} {f : ℕ}
    (hok : EachStep (device.next cfg) (fun s e => s.NotNested e ∧ NoReuse s e) (.start .new) es)
    (hrun : runList (device.next cfg) (.start .new) es = some s)
    (hok' : EachStep (device.next cfg)
      (fun s e => s.NotNested e ∧ NoReuse s e ∧ Keeps h s e) s es')
    (hrun' : runList (device.next cfg) s es' = some s')
    (hpending : (h, f) ∈ s.device.reactor.timers.entries) (hdue : h.deadline ≤ s.device.now)
    (hlong : s.served.runtime.iterationCount + cfg.statusCacheIterations +
      2 * cfg.reactorPollInterval < s'.served.runtime.iterationCount) :
    ∃ es₁ es₂ t, es' = es₁ ++ es₂ ∧ runList (device.next cfg) s es₁ = some t ∧
      t.served.runtime.iterationCount ≤ s.served.runtime.iterationCount +
        cfg.statusCacheIterations + 2 * cfg.reactorPollInterval ∧
      h ∉ t.device.reactor.timers.entries.map (·.1) ∧ Queued t.served.runtime f ∧
      ∀ k, Covers cfg t.served.runtime k (t.served.runtime.pool.address f).1 →
        t.served.iterations + k < s'.served.iterations →
          t.served.polls f < s'.served.polls f ∨ f ∈ s'.served.runtime.pool.completed := by
  have hinv : SystemInv cfg s :=
    (always_of_invariant (fun _ h => h) (fun _ _ _ h hok hs => h.next hinterval hok hs)
      ⟨Executor.driven_start cfg Timers.new, ⟨rfl, Nat.two_pow_pos 64⟩⟩ hok).last hrun
  exact (expired_duty h f).woken_within hinterval honly hinv.driven
    ⟨hinv.counted, hpending, hdue⟩ hok' hrun' hlong

theorem ok_of_quiet (h : TimerHandle ℕ) {es : List (AttachedEvent Event Unit)}
    (hes : es.all AttachedEvent.quiet = true) (s : Attached Timers) : EachStep (device.next cfg)
      (fun s e => s.NotNested e ∧ NoReuse s e ∧ Keeps h s e) s es := by
  refine eachStep_of_forall (fun e he s => ?_) s
  obtain ⟨hnested, hdevice⟩ := AttachedEvent.quiet_spec (List.all_eq_true.mp hes e he) s
  exact ⟨hnested, fun i d heq => absurd heq (hdevice _), fun i d heq => absurd heq (hdevice _)⟩

/-- A task makes a delay and polls it, and the deadline passes. -/
def fallsAsleep : List (AttachedEvent Event Unit) :=
  firstPoll ++ [.device (.sleep 1), .device (.pollDelay 0), .device .tick]

/-- The task is queued when the reactor has been polled. -/
theorem sleeper_wakes_once : ∃ s s', runList (device.next Executor.everyIteration) (.start .new)
      fallsAsleep = some s ∧
    runList (device.next Executor.everyIteration) s (polledNext ()) = some s' ∧
    ∃ es₁ es₂ t, polledNext () = es₁ ++ es₂ ∧
      runList (device.next Executor.everyIteration) s es₁ = some t ∧
        Queued t.served.runtime 0 := by
  have hasleep : (runList (device.next Executor.everyIteration) (.start .new) fallsAsleep).map
      (fun s => (s.device.reactor.timers.entries.map fun e => (e.1.deadline, e.1.id, e.2),
        s.device.now, s.served.runtime.iterationCount)) = some ([(1, 1, 0)], 1, 1) := by
    decide +kernel
  obtain ⟨s, hs, hasleep⟩ := Option.map_eq_some_iff.mp hasleep
  have hwake : ((runList (device.next Executor.everyIteration) (.start .new) fallsAsleep).bind
      fun s => runList (device.next Executor.everyIteration) s (polledNext ())).map
        (fun s => s.served.runtime.iterationCount) = some 4 := by
    decide +kernel
  rw [hs, Option.bind_some] at hwake
  obtain ⟨s', hs', hcount'⟩ := Option.map_eq_some_iff.mp hwake
  obtain ⟨hpending, hrest⟩ := Prod.mk.inj hasleep
  obtain ⟨hnow, hcount⟩ := Prod.mk.inj hrest
  obtain ⟨⟨h, f⟩, hmem, hh⟩ :
      ∃ e ∈ s.device.reactor.timers.entries, (e.1.deadline, e.1.id, e.2) = (1, 1, 0) :=
    List.mem_map.mp (hpending ▸ List.mem_singleton_self _)
  obtain ⟨hdeadline, hh⟩ := Prod.mk.inj hh
  obtain ⟨-, rfl⟩ := Prod.mk.inj hh
  -- the task draws the first number
  have hnone : (runList (device.next Executor.everyIteration) (.start .new) firstPoll).map
      (fun s => s.device.reactor.timers.entries.map fun e => e.1.deadline) = some [] := by
    decide +kernel
  obtain ⟨u, hu, hentries⟩ := Option.map_eq_some_iff.mp hnone
  have hnil : u.device.reactor.timers.entries = [] := List.map_eq_nil_iff.mp hentries
  have hok : EachStep (device.next Executor.everyIteration)
      (fun s e => s.NotNested e ∧ NoReuse s e) (.start .new) fallsAsleep := by
    have hfirst :
        EachStep (device.next Executor.everyIteration) NoReuse (.start .new) firstPoll := by
      refine eachStep_of_forall (fun e he s i d heq => absurd (heq ▸ he) ?_) _
      simp [firstPoll, Executor.execs]
    refine ((Executor.firstPoll_notNested _).and hfirst).append hu fun v hv =>
      ⟨⟨by rintro _ ⟨⟩, by rintro _ _ ⟨⟩⟩, fun w _ => ⟨⟨by rintro _ ⟨⟩, fun i d _ _ => ?_⟩,
        fun _ _ => ⟨⟨by rintro _ ⟨⟩, by rintro _ _ ⟨⟩⟩, trivial⟩⟩⟩
    obtain ⟨-, hv⟩ := Option.ite_none_left_eq_some.mp hv
    obtain rfl := Option.some.inj hv
    exact hnil ▸ List.not_mem_nil
  have hlong : s.served.runtime.iterationCount + Executor.everyIteration.statusCacheIterations +
      2 * Executor.everyIteration.reactorPollInterval < s'.served.runtime.iterationCount := by
    rw [hcount, hcount']
    decide
  obtain ⟨es₁, es₂, t, hes, hrun₁, -, -, hqueued, -⟩ := sleeper_wakes Executor.everyIteration
    Nat.one_pos (by decide) hok hs (ok_of_quiet h (quiet_polledNext ()) s) hs' hmem
    (by rw [hdeadline, hnow]) hlong
  exact ⟨s, s', hs, hs', es₁, es₂, t, hes, hrun₁, hqueued⟩

end Runs

end Sleep

end Pluvio
