import Pluvio.Runtime.Frames
import Pluvio.Runtime.Schedule

/-!
# The end of a task

A task ends when its future returns `Ready`, and the code that ends it, five times over
in the loops, goes by the key alone: it takes the statistics of whatever the entry holds
and removes the entry. Keys come back at once, wakers outlive their tasks, and a task
may drive the runtime from inside its own poll.

The law (`Pluvio.Executor.tasks_end_once`) holds in every run, however the calls are
nested. All of it is in the invariant of the pool: a key whose task is being polled is
neither vacant nor handed out again, so the task that is put back and removed is the one
that has just completed.
-/

namespace Pluvio

namespace Executor

variable {cfg : SchedulingConfig} {s s' : Runtime} {e : Event}

/-- **Tasks end once**: no future that is being polled has completed, the futures whose
statistics were taken and the contents of the entries that were removed are the
completed futures, one for one, and neither `task_stat` nor the slab has panicked. -/
structure EndsOnce (s : Runtime) : Prop where
  polled : ∀ f ∈ s.stack, ∀ id t, f.pc.polled = some (id, t) → t.future ∉ s.pool.completed
  once : s.pool.completed.Nodup
  statsTaken : s.pool.statsTaken = s.pool.completed
  removed : s.pool.removed = s.pool.completed.map some
  panicked : ∀ e, s.panicked ≠ some (.pool e)

/-- The pool and the calls under way agree on where the tasks are. -/
structure TasksInv (s : Runtime) : Prop where
  pool : PoolInv s.pool s.polled
  panicked : ∀ e, s.panicked ≠ some (.pool e)

theorem TasksInv.endsOnce (h : TasksInv s) : EndsOnce s where
  polled := fun _ hf id t ht =>
    (h.pool.holds id t (.inr (List.mem_filterMap.mpr ⟨_, hf, ht⟩))).1.2
  once := h.pool.once
  statsTaken := h.pool.stats
  removed := h.pool.removed
  panicked := h.panicked

theorem tasksInv_start : TasksInv start := ⟨.new, nofun⟩

/-- The pool does not fail on a task that is where it belongs. -/
theorem TasksInv.not_raises (h : TasksInv s) {f : Frame} {below : List Frame}
    (hs : s.stack = f :: below) (p : PoolPanic) : ¬s.Raises f below (.pool p) := by
  rintro ⟨⟩
  next pass id t hpc hfail =>
    have hinv := Runtime.polled_of_task hs hpc ▸ h.pool
    rcases hfail with hstat | herr
    · have hstat' := (hinv.holds id t (.inr (List.mem_cons_self ..))).2.2
      exact nomatch hstat.symm.trans hstat'
    · exact nomatch hinv.complete_eq.symm.trans herr

/-- Every step leaves a task either in its entry of the pool or in the poll that has taken it. -/
theorem TasksInv.step (h : TasksInv s) (hs : step cfg s e = some s') : TasksInv s' := by
  refine ⟨(Runtime.step_schedule hs).poolInv h.pool, fun p hp => ?_⟩
  obtain ⟨_, f, below, -, hstack, hraise⟩ := Runtime.raises_of_step hs hp
  exact h.not_raises hstack p hraise

/-- **The end of a task, in every run.** -/
theorem tasks_end_once (cfg : SchedulingConfig) (es : List Event) :
    Always (step cfg) EndsOnce start es :=
  always_of_invariant (fun _ h => TasksInv.endsOnce h) (fun _ _ _ h _ hs => h.step hs)
    tasksInv_start (eachStep_true es)

end Executor

end Pluvio
