import Pluvio.Runtime.Completion

/-!
# Waiting for one task

`block_on_with_name_and_runtime` spawns its future and runs the loop until the pool does
not contain the key of that task. While the future is live the pool does contain it, and
when the call returns the future has completed, so the result is there.

The test goes by the key, though, and a slab that hands out the key it freed last gives
it to the next task that is spawned. When a later task of the same iteration spawns one,
the loop goes on for it. The law (`Pluvio.Executor.block_on_own_task`) says that this is
the only reason why the loop goes on too long.
-/

namespace Pluvio

namespace Executor

variable {cfg : SchedulingConfig} {s s' : Runtime} {e : Event}

/-- The call that waits for `future`, under `key`, is at the head of its loop. -/
def AtHead (s : Runtime) (key future : ℕ) : Prop :=
  ∃ f ∈ s.stack.head?, f.call = .blockOn key future ∧ f.pc = .head

/-- **A call waits for its own future and nothing else**: at the head of the loop the pool
contains the key exactly while the future has not completed, and a call never returns
without its result. This is about the heads of the loop. A poll of an iteration that calls
`progress` may complete the future and empty the queues, and the iteration, which has made no
progress of its own, then ends in the panic over a deadlock, before the next head. -/
def WaitsForOwn (s : Runtime) : Prop :=
  (∀ key future, AtHead s key future →
    (s.pool.entry key ≠ none ↔ future ∉ s.pool.completed)) ∧
  s.panicked ≠ some .noResult

/-- No other live task has the key of a task that is waited for at the head of the loop. -/
def KeyUnused (s : Runtime) : Prop :=
  ∀ key future, AtHead s key future →
    ∀ g, g ≠ future → s.pool.Live g → (s.pool.address g).2 ≠ key

/-- The calls wait for tasks that live under their key. -/
structure BlockInv (s : Runtime) : Prop where
  tasks : TasksInv s
  waits : ∀ key future, Call.blockOn key future ∈ s.calls →
    future < s.pool.spawned ∧ (s.pool.address future).2 = key
  result : s.panicked ≠ some .noResult

theorem blockInv_start : BlockInv start := ⟨tasksInv_start, nofun, nofun⟩

/-- The call under the head is one of the calls. -/
theorem AtHead.mem_calls {key future : ℕ} (h : AtHead s key future) :
    Call.blockOn key future ∈ s.calls := by
  obtain ⟨f, hf, hcall, -⟩ := h
  exact hcall ▸ List.mem_map_of_mem (List.mem_of_mem_head? hf)

/-- A call that is waited for keeps its task and its key. -/
theorem BlockInv.step (h : BlockInv s) (hs : step cfg s e = some s') : BlockInv s' := by
  have hsched := Runtime.step_schedule hs
  refine ⟨h.tasks.step hs, fun key future hmem => ?_, fun hp => ?_⟩
  · -- a call of before, or the one that begins
    have hold : Call.blockOn key future ∈ s.calls →
        future < s'.pool.spawned ∧ (s'.pool.address future).2 = key := fun hmem => by
      obtain ⟨hlt, haddr⟩ := h.waits key future hmem
      obtain ⟨hlt', haddr'⟩ := hsched.address_eq h.tasks.pool hlt
      exact ⟨hlt', (congrArg Prod.snd haddr').trans haddr⟩
    rcases hc : s.called e with _ | c
    · rcases Runtime.calls_of_not_called hc hs with heq | heq <;> rw [heq] at hmem
      · exact hold hmem
      · exact hold (List.mem_of_mem_tail hmem)
    · rw [(Runtime.calls_of_called hc hs).2] at hmem
      rcases List.mem_cons.mp hmem with rfl | hmem
      · cases e with
        | blockOn id =>
          obtain ⟨rfl, rfl⟩ := Call.blockOn.inj (Option.some.inj hc)
          obtain ⟨-, hs⟩ := Option.ite_none_left_eq_some.mp hs
          obtain ⟨-, hs⟩ := Option.ite_none_right_eq_some.mp hs
          obtain rfl := Option.some.inj hs
          have haddr : (s.pool.insert .task id).address s.pool.spawned = (.task, id) :=
            Function.update_self ..
          exact ⟨Nat.lt_succ_self _, congrArg Prod.snd haddr⟩
        | _ => cases hc
      · exact hold hmem
  · obtain ⟨_, f, below, -, hstack, hraise⟩ := Runtime.raises_of_step hs hp
    generalize hpanic : Panic.noResult = p at hraise
    rcases hraise with _ | _ | _ | ⟨key, future, hcall, hentry, hfuture⟩ | _
    case noResult =>
      have hmem : Call.blockOn key future ∈ s.calls := by
        rw [Runtime.calls, hstack, List.map_cons, hcall]
        exact List.mem_cons_self ..
      obtain ⟨hlt, rfl⟩ := h.waits key future hmem
      exact h.tasks.pool.entry_ne_none ⟨hlt, hfuture⟩ hentry
    all_goals cases hpanic

/-- **The head of the loop**: the loop waits for its own future if and only if nobody else
lives under the key. -/
theorem BlockInv.waitsForOwn_iff (h : BlockInv s) : WaitsForOwn s ↔ KeyUnused s := by
  constructor
  · rintro ⟨hwaits, -⟩ key future hhead g hne hg rfl
    -- the future is live too, and a key has one task
    have hfuture := (hwaits _ future hhead).mp (h.tasks.pool.entry_ne_none hg)
    obtain ⟨hlt, haddr⟩ := h.waits _ future hhead.mem_calls
    obtain ⟨t, ht, rfl⟩ := h.tasks.pool.live g hg
    obtain ⟨t', ht', rfl⟩ := h.tasks.pool.live future ⟨hlt, hfuture⟩
    rw [haddr] at ht'
    exact hne (congrArg Task.future (h.tasks.pool.holds_unique ht ht'))
  · refine fun hunused => ⟨fun key future hhead => ?_, h.result⟩
    obtain ⟨hlt, haddr⟩ := h.waits key future hhead.mem_calls
    constructor
    · intro hentry hcompleted
      obtain ⟨g, hg, hkey⟩ := h.tasks.pool.exists_live hentry
      have hne : g ≠ future := by
        rintro rfl
        exact hg.2 hcompleted
      exact hunused key future hhead g hne hg hkey
    · rintro hfuture
      exact haddr ▸ h.tasks.pool.entry_ne_none ⟨hlt, hfuture⟩

/-- **`block_on` waits for its own future**, in every run: exactly as long as, at the head
of its loop, no other live task has the key of its task. -/
theorem block_on_own_task (cfg : SchedulingConfig) (es : List Event) :
    Always (step cfg) WaitsForOwn start es ↔ Always (step cfg) KeyUnused start es :=
  always_congr (fun _ h => BlockInv.waitsForOwn_iff h) (fun _ _ _ h hs => h.step hs) blockInv_start

/-- The awaited task `0` spawns task `1` in its first poll and completes in the second one.
Task `1` is polled after it in the same batch, and spawns task `2`, which gets the key that
has just been freed. -/
def keyReused : List Event :=
  [.blockOn 0, .move .exec, .move .exec, .move .exec, .move .exec, .wake 0, .spawn .task 1,
    .move .pending, .move .exec, .move .exec, .move .exec, .move .exec, .move .exec, .move .exec,
    .move .ready, .move .dropped, .move .exec, .spawn .task 0, .move .ready, .move .dropped,
    .move .exec, .move .exec]

/-- **A loop that goes on after its future has completed**, and polls the task that has its
key. -/
theorem block_on_other_task : ∃ s, runList (step .default) start keyReused = some s ∧
    ¬WaitsForOwn s ∧ AtHead s 0 0 ∧ 0 ∈ s.pool.completed ∧ s.pool.Live 2 ∧
      ∃ s', runList (step .default) s [.move .exec, .move .exec, .move .exec] = some s' ∧
        s'.stack.map Frame.call = [.blockOn 0 0] := by
  refine ⟨_, rfl, fun h => ?_, ⟨_, rfl, rfl, rfl⟩, by decide, by decide, _, rfl, rfl⟩
  exact absurd (by decide) ((h.1 0 0 ⟨_, rfl, rfl, rfl⟩).mp nofun)

end Executor

end Pluvio
