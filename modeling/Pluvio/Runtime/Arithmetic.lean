import Mathlib.Algebra.Group.Nat.Defs
import Mathlib.Tactic.MkIffOfInductiveProp
import Pluvio.Runtime.Frames

/-!
# The arithmetic of the event loops

Two operations of the loops depend on numbers of the configuration that nobody checks: the
remainder by `reactor_poll_interval`, when a loop decides whether to poll the reactors, and
the sum of the iteration and `status_cache_iterations`, when a status is cached. An interval
of `0` divides by zero, and a sum that is too large overflows 64 bits.

The remainder is not taken in the first two iterations, nor while polling tasks are pending,
so that a run may get far before it fails: `Pluvio.Executor.event_loop_arithmetic_iff` says
which configurations never do, in the iterations below `2 ^ 63`. For the others a runtime
with nothing to do is brought to the iteration where they fail
(`Pluvio.Executor.Runtime.reaches_idle`), one iteration at a time, by a polling task that
completes at once: this way no remainder is taken before.
-/

namespace Pluvio

namespace Executor

namespace Runtime

/-! ### Safe arithmetic -/

/-- A loop is about to ask a reactor for its status and to cache it, in the iteration
`i`. -/
def Caches (s : Runtime) (i : ℕ) : Prop :=
  ∃ f below r left drained, s.stack = f :: below ∧ f.pc = .reactors (r :: left) drained ∧
    f.call ≠ .progress ∧ f.iteration = i ∧ (s.reactor r).cacheValidUntil ≤ i

/-- **The arithmetic is sound**: no remainder by zero has been taken, and a status that is
cached in an iteration below `2 ^ 63` is valid until an iteration that has a number. -/
structure Sound (cfg : SchedulingConfig) (s : Runtime) : Prop where
  divides : s.panicked ≠ some .remainderByZero
  fits : ∀ i, s.Caches i → i < 2 ^ 63 → i + cfg.statusCacheIterations < 2 ^ 64

variable {cfg : SchedulingConfig} {s s' : Runtime} {f : Frame} {below : List Frame} {k : ℕ}

/-- The remainder is taken only when there is an interval. -/
theorem interval_eq_zero_of_iterate (hp : s.panicked = none)
    (hpanic : (s.iterate cfg f below).panicked = some .remainderByZero) :
    cfg.reactorPollInterval = 0 := by
  simp only [iterate] at hpanic
  split at hpanic
  · cases hpanic
  · split at hpanic
    · next hnone =>
      unfold shouldPollReactors at hnone
      split_ifs at hnone with _ _ hzero
      exact hzero
    · cases hp.symm.trans hpanic

/-- **A remainder by zero** shows that the interval is zero. -/
theorem interval_eq_zero {e : Event} (h : step cfg s e = some s')
    (hpanic : s'.panicked = some .remainderByZero) : cfg.reactorPollInterval = 0 := by
  obtain ⟨m, f, below, rfl, hs, hraises⟩ := raises_of_step h hpanic
  obtain ⟨hp, h⟩ := Option.ite_none_left_eq_some.mp h
  rw [not_not] at hp
  simp only [hs] at h
  cases hraises with
  | remainderByZero hpc =>
    rw [hpc] at h
    cases m with
    | exec =>
      obtain rfl := Option.some.inj h
      rw [loopHead] at hpanic
      split at hpanic
      · split at hpanic
        · cases hp.symm.trans hpanic
        · exact interval_eq_zero_of_iterate hp hpanic
      · split_ifs at hpanic
        · exact interval_eq_zero_of_iterate hp hpanic
        · cases hp.symm.trans hpanic
        · cases hpanic
      · cases hp.symm.trans hpanic
    | reactorDone | pending | ready | dropped => cases h

/-! ### A runtime with nothing to do -/

/-- Nothing is spawned, registered or under way, after `k` iterations. -/
@[mk_iff] structure Idle (k : ℕ) (s : Runtime) : Prop where
  reactors : s.reactors = []
  queue : s.queue = fun _ => []
  len : s.pool.len = 0
  vacant : s.pool.entry = fun _ => none
  shutdown : s.shutdownRequested = false
  count : s.iterationCount = k
  stack : s.stack = []
  panicked : s.panicked = none

theorem idle_start : Idle 0 start := ⟨rfl, rfl, rfl, rfl, rfl, rfl, rfl, rfl⟩

/-- With polling tasks no remainder is taken. -/
theorem shouldPollReactors_of_polling (safetyOverride : Bool) {ids : List ℕ} (h : ids ≠ [])
    (iteration : ℕ) :
    shouldPollReactors cfg safetyOverride ids iteration = some !safetyOverride := by
  cases safetyOverride
  · exact if_pos (Or.inl h)
  · rfl

/-- `run_queue` is under way at `pc`, in the iteration after `k` others, with the slot of the key
`0` and nothing else; the slot is gone once its task has completed. -/
@[mk_iff] structure Lone (k : ℕ) (slot : Option (Option Task)) (pc : Pc) (s : Runtime) :
    Prop where
  reactors : s.reactors = []
  queue : s.queue = fun _ => []
  len : s.pool.len = if slot = none then 0 else 1
  entry : s.pool.entry = Function.update (fun _ => none) 0 slot
  shutdown : s.shutdownRequested = false
  count : s.iterationCount = k + 1
  panicked : s.panicked = none
  stack : ∃ f, s.stack = [f] ∧ f.call = .runQueue ∧ f.pc = pc ∧
    (slot = none → f.madeProgress = true)

/-- A polling task is spawned, and `run_queue` finds it. -/
theorem Idle.begins (h : Idle k s) (cfg : SchedulingConfig) :
    ∃ s', runList (step cfg) s [.spawn .polling 0, .runQueue, .move .exec, .move .exec] =
      some s' ∧
        Lone k (some (some ⟨s.pool.spawned, .polling, true⟩)) (.loop (.polling [0])) s' := by
  obtain ⟨reactors, reactor, queue, pool, shutdown, count, only, stack, panicked, woken,
    verdicts⟩ := s
  obtain ⟨hreactors, hqueue, hlen, hvacant, hshutdown, hcount, hstack, hpanicked⟩ := h
  dsimp only at *
  subst hreactors hqueue hshutdown hcount hstack hpanicked
  simp [runList, step, code, hvacant, hlen, Runtime.spawn, TaskPool.insert, Runtime.send, resume,
    Frame.new, move, loopHead, iterate, shouldPollReactors_of_polling, nextReactor, lone_iff]

/-- The task is polled, and completes. -/
theorem Lone.completes {t : Task} (h : Lone k (some (some t)) (.loop (.polling [0])) s)
    (ht : t.taskStat = true) (cfg : SchedulingConfig) :
    ∃ s', runList (step cfg) s [.move .exec, .move .ready] = some s' ∧
      Lone k none (.drop (.polling [])) s' := by
  obtain ⟨reactors, reactor, queue, pool, shutdown, count, only, stack, panicked, woken,
    verdicts⟩ := s
  obtain ⟨hreactors, hqueue, hlen, hentry, hshutdown, hcount, hpanicked, f, hstack, hcall, hpc,
    -⟩ := h
  dsimp only at *
  subst hreactors hqueue hshutdown hcount hstack hpanicked
  simp [runList, step, hpc, hentry, hlen, ht, move, nextTask, pollTask, taskReady, resume,
    TaskPool.takeOut, TaskPool.complete, TaskPool.putBack, TaskPool.addTaskStat,
    TaskPool.remove, bind, Except.bind, hcall, lone_iff]

/-- The iteration comes to its end, and so does `run_queue`. -/
theorem Lone.ends (h : Lone k none (.drop (.polling [])) s) (cfg : SchedulingConfig) :
    ∃ s', runList (step cfg) s
      [.move .dropped, .move .exec, .move .exec, .move .exec, .move .exec] = some s' ∧
        Idle (k + 1) s' := by
  obtain ⟨reactors, reactor, queue, pool, shutdown, count, only, stack, panicked, woken,
    verdicts⟩ := s
  obtain ⟨hreactors, hqueue, hlen, hentry, hshutdown, hcount, hpanicked, f, hstack, hcall, hpc,
    hprogress⟩ := h
  dsimp only at *
  subst hreactors hqueue hshutdown hcount hstack hpanicked
  have hprogress := hprogress rfl
  simp [runList, step, hpc, hentry, hlen, hcall, hprogress, move, nextTask, resume, endIteration,
    loopHead, leave, idle_iff]

/-- **One iteration** of a runtime with nothing else to do. -/
theorem Idle.iteration (h : Idle k s) (cfg : SchedulingConfig) :
    ∃ s', Reaches (step cfg) s s' ∧ Idle (k + 1) s' := by
  obtain ⟨s₁, hrun₁, h₁⟩ := h.begins cfg
  obtain ⟨s₂, hrun₂, h₂⟩ := h₁.completes rfl cfg
  obtain ⟨s', hrun₃, h'⟩ := h₂.ends cfg
  exact ⟨s', (Steps.of_run hrun₁).trans ((Steps.of_run hrun₂).trans (.of_run hrun₃)), h'⟩

/-- **Any number of iterations** is reached. -/
theorem reaches_idle (cfg : SchedulingConfig) (k : ℕ) :
    ∃ s, Reaches (step cfg) start s ∧ Idle k s := by
  induction k with
  | zero => exact ⟨start, .refl, idle_start⟩
  | succ k ih =>
    obtain ⟨s, hs, hidle⟩ := ih
    obtain ⟨s', hs', hidle'⟩ := hidle.iteration cfg
    exact ⟨s', hs.trans hs', hidle'⟩

/-- From the third iteration on a loop without polling tasks takes the remainder. -/
theorem Idle.remainder (h : Idle k s) (hk : 2 ≤ k) (hzero : cfg.reactorPollInterval = 0) :
    ∃ s', runList (step cfg) s [.blockOn 0, .move .exec] = some s' ∧
      s'.panicked = some .remainderByZero := by
  obtain ⟨reactors, reactor, queue, pool, shutdown, count, only, stack, panicked, woken,
    verdicts⟩ := s
  obtain ⟨hreactors, hqueue, hlen, hvacant, hshutdown, hcount, hstack, hpanicked⟩ := h
  dsimp only at *
  subst hreactors hqueue hshutdown hcount hstack hpanicked
  have hlate : ¬count ≤ 1 := by omega
  simp [runList, step, code, hvacant, Runtime.spawn, TaskPool.insert, Runtime.send, resume,
    Frame.new, move, loopHead, iterate, shouldPollReactors, hlate, hzero, Runtime.panic]

/-- A reactor that is registered late is asked for its status in the iteration that
follows. -/
theorem Idle.caches (h : Idle k s) (cfg : SchedulingConfig) :
    ∃ s', runList (step cfg) s [.register 0 [0], .spawn .polling 0, .blockOn 1, .move .exec] =
      some s' ∧ s'.Caches k := by
  obtain ⟨reactors, reactor, queue, pool, shutdown, count, only, stack, panicked, woken,
    verdicts⟩ := s
  obtain ⟨hreactors, hqueue, hlen, hvacant, hshutdown, hcount, hstack, hpanicked⟩ := h
  dsimp only at *
  subst hreactors hqueue hshutdown hcount hstack hpanicked
  simp [runList, step, code, hvacant, Runtime.spawn, TaskPool.insert, Runtime.send, resume,
    Frame.new, move, loopHead, iterate, shouldPollReactors_of_polling, Caches,
    ReactorWrapper.new]

end Runtime

/-! ### The configurations that are safe -/

/-- **When the arithmetic of the event loops is sound.** In every state that is reached,
whatever is spawned, woken, registered and called, no loop has taken a remainder by zero, and
a status that is cached in an iteration below `2 ^ 63` is valid until an iteration that fits
into 64 bits, if and only if the interval at which reactors are polled is not zero and a status
is cached for `2 ^ 63` iterations at most. -/
theorem event_loop_arithmetic_iff (cfg : SchedulingConfig) :
    (∀ s, Reaches (step cfg) start s → s.Sound cfg) ↔
      0 < cfg.reactorPollInterval ∧ cfg.statusCacheIterations ≤ 2 ^ 63 := by
  constructor
  · intro h
    refine ⟨Nat.pos_of_ne_zero fun hzero => ?_, Nat.le_of_not_lt fun hlarge => ?_⟩
    · obtain ⟨s, hs, hidle⟩ := Runtime.reaches_idle cfg 2
      obtain ⟨s', hrun, hpanic⟩ := hidle.remainder (Nat.le_refl 2) hzero
      exact (h s' (hs.trans (.of_run hrun))).divides hpanic
    · -- the last iteration that has to be safe
      obtain ⟨s, hs, hidle⟩ := Runtime.reaches_idle cfg (2 ^ 63 - 1)
      obtain ⟨s', hrun, hcaches⟩ := hidle.caches cfg
      have hfits := (h s' (hs.trans (.of_run hrun))).fits _ hcaches (by omega)
      omega
  · rintro ⟨hpos, hle⟩ s hs
    refine ⟨fun hpanic => ?_, fun i _ hi => by omega⟩
    cases hs with
    | refl => cases hpanic
    | tail _ _ hstep => exact Nat.ne_of_gt hpos (Runtime.interval_eq_zero hstep hpanic)

/-- A task that is polled once and does not complete, up to the head of the third iteration
of `block_on`. -/
def threeIterations : List Event :=
  [.blockOn 0, .move .exec, .move .exec, .move .exec, .move .exec, .move .pending, .move .exec,
    .move .exec, .move .exec, .move .exec, .move .exec, .move .exec, .move .exec, .move .exec]

/-- A task that registers a reactor, up to the status of this reactor in the second
iteration. -/
def lateReactor : List Event :=
  [.blockOn 0, .move .exec, .move .exec, .move .exec, .move .exec, .register 0 [0],
    .move .pending, .move .exec, .move .exec, .move .exec]

/-- **Two configurations that fail**: an interval of `0` in the third iteration, and the
largest number of iterations to cache a status for in the second one. -/
theorem event_loop_fails :
    (∃ s, runList (step { SchedulingConfig.default with reactorPollInterval := 0 }) start
      threeIterations = some s ∧
        ¬s.Sound { SchedulingConfig.default with reactorPollInterval := 0 }) ∧
    ∃ s, runList (step { SchedulingConfig.default with statusCacheIterations := 2 ^ 64 - 1 })
      start lateReactor = some s ∧
        ¬s.Sound { SchedulingConfig.default with statusCacheIterations := 2 ^ 64 - 1 } := by
  refine ⟨⟨_, rfl, fun h => h.divides rfl⟩, _, rfl, fun h => ?_⟩
  have hfits := h.fits 1 ⟨_, [], 0, [], _, rfl, rfl, nofun, rfl, by decide⟩ (by decide)
  exact absurd hfits (by decide)

end Executor

end Pluvio
