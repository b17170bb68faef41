import Pluvio.Runtime.Executor

/-!
# The calls under way

The stack of a runtime holds the calls that drive it, each above the task from which it
was made. A move belongs to the innermost call: it returns, or it goes on as the same
call, or it panics, for one of the reasons in `Pluvio.Executor.Runtime.Raises`. In the
course of an iteration a call also keeps its stuck counter, and it notes progress
exactly when a poll of a reactor returns or a task completes
(`Pluvio.Executor.Frame.Continues`). Only the end of an iteration
(`Pluvio.Executor.Runtime.endIteration`) moves the counter.
-/

namespace Pluvio

namespace Executor

/-- Progress has been noted when a task has completed or a reactor has been polled. -/
def Frame.Accounted (f : Frame) : Prop :=
  f.madeProgress = (f.current.completed || f.current.reactorPolled)

/-- The call goes on in the same iteration, or begins one. -/
structure Frame.Continues (f f' : Frame) : Prop where
  call : f'.call = f.call
  past : f'.past = f.past
  stuckCounter : f'.stuckCounter = f.stuckCounter
  accounted : f.Accounted → f'.Accounted

/-- The call goes on at another place. -/
theorem Frame.continues_pc (f : Frame) (pc : Pc) : f.Continues { f with pc := pc } :=
  ⟨rfl, rfl, rfl, fun h => h⟩

namespace Runtime

variable {cfg : SchedulingConfig} {s s' : Runtime} {f : Frame} {below : List Frame}

/-- **The reasons for which the call `f` panics.** -/
inductive Raises (s : Runtime) (f : Frame) (below : List Frame) : Panic → Prop
  /-- A frame below goes over the buffer that is to be filled. -/
  | alreadyBorrowed (q : Queue) (g : Frame) : g ∈ below → g.pc.buffer = some q →
      (f.call = .progress → f.pc = .reactors [] none ∧ q = .polling) →
      s.Raises f below (.alreadyBorrowed f.call)
  | remainderByZero : f.pc = .head → s.Raises f below .remainderByZero
  | deadlock : f.pc = .tail → s.Raises f below .deadlock
  /-- The task that is waited for is gone, and its future has not completed. -/
  | noResult (key future : ℕ) : f.call = .blockOn key future → s.pool.entry key = none →
      future ∉ s.pool.completed → s.Raises f below .noResult
  /-- The pool fails on the task that is being polled. -/
  | pool (p : Pass) (id : ℕ) (t : Task) (e : PoolPanic) : f.pc = .task p id t →
      t.taskStat = false ∨ s.pool.complete id t = .error e → s.Raises f below (.pool e)

/-- **A move within an iteration**: the innermost call `f` returns, or goes on, or panics
for a reason. -/
structure Continues (f : Frame) (below : List Frame) (s s' : Runtime) : Prop where
  verdicts : s'.verdicts = s.verdicts
  stack : s'.stack = below ∨ ∃ f', s'.stack = f' :: below ∧ f.Continues f'
  panicked : ∀ p, s'.panicked = some p → s.Raises f below p

theorem continues_leave (hp : s.panicked = none) : Continues f below s (s.leave below) :=
  ⟨rfl, .inl rfl, fun _ h => nomatch hp.symm.trans h⟩

/-- The innermost call goes on, with changes to the runtime that it does not see. -/
theorem continues_of_stack {f' : Frame} (hs' : s'.stack = f' :: below) (hf : f.Continues f')
    (hverdicts : s'.verdicts = s.verdicts) (hp : s'.panicked = none) :
    Continues f below s s' :=
  ⟨hverdicts, .inr ⟨f', hs', hf⟩, fun _ h => nomatch hp.symm.trans h⟩

/-- The thread panics within the innermost call. -/
theorem continues_panic {e : Panic} (hs' : s'.stack = f :: below)
    (hverdicts : s'.verdicts = s.verdicts) (hp : s'.panicked = some e)
    (he : s.Raises f below e) : Continues f below s s' :=
  ⟨hverdicts, .inr ⟨f, hs', f.continues_pc f.pc⟩, fun _ h => Option.some.inj (hp.symm.trans h) ▸ he⟩

theorem continues_iterate (hs : s.stack = f :: below) (hp : s.panicked = none)
    (hpc : f.pc = .head) (hcall : f.call ≠ .progress) :
    Continues f below s (s.iterate cfg f below) := by
  simp only [iterate]
  split
  · next hany =>
    obtain ⟨g, hg, hbuf⟩ := List.any_eq_true.mp hany
    exact continues_panic hs rfl rfl
      (.alreadyBorrowed .polling g hg (of_decide_eq_true hbuf) fun h => absurd h hcall)
  · split
    · exact ⟨rfl, .inr ⟨_, rfl, rfl, rfl, rfl, fun _ => rfl⟩,
        fun _ h => Option.some.inj h ▸ .remainderByZero hpc⟩
    · exact continues_of_stack rfl ⟨rfl, rfl, rfl, fun _ => rfl⟩ rfl hp

theorem continues_loopHead (hs : s.stack = f :: below) (hp : s.panicked = none)
    (hpc : f.pc = .head) : Continues f below s (s.loopHead cfg f below) := by
  rw [loopHead]
  split
  · next hcall =>
    split
    · exact continues_leave hp
    · exact continues_iterate hs hp hpc (by rw [hcall]; nofun)
  · next key future hcall =>
    split_ifs with hentry hfuture
    · exact continues_iterate hs hp hpc (by rw [hcall]; nofun)
    · exact continues_leave hp
    · exact continues_panic hs rfl rfl (.noResult key future hcall (not_not.mp hentry) hfuture)
  · exact continues_leave hp

theorem continues_nextReactor (hs : s.stack = f :: below) (hp : s.panicked = none)
    {left : List ℕ} {drained : Option (List ℕ)} (hpc : f.pc = .reactors left drained) :
    Continues f below s (s.nextReactor cfg f below left drained) := by
  rcases left with - | ⟨r, left⟩
  · rcases drained with - | ids
    · rw [nextReactor]
      split
      · next hany =>
        obtain ⟨g, hg, hbuf⟩ := List.any_eq_true.mp hany
        exact continues_panic hs rfl rfl
          (.alreadyBorrowed .polling g hg (of_decide_eq_true hbuf) fun _ => ⟨hpc, rfl⟩)
      · exact continues_of_stack rfl (f.continues_pc _) rfl hp
    · exact continues_of_stack rfl (f.continues_pc _) rfl hp
  · exact continues_of_stack rfl (f.continues_pc _) rfl hp

theorem panicked_pollTask (s : Runtime) (f : Frame) (below : List Frame) (p : Pass) (id : ℕ) :
    (s.pollTask f below p id).panicked = s.panicked := by
  rw [pollTask]
  split <;> rfl

theorem continues_pollTask (hp : s.panicked = none) (p : Pass) (id : ℕ) :
    Continues f below s (s.pollTask f below p id) := by
  rw [pollTask]
  split
  · exact continues_of_stack rfl (f.continues_pc _) rfl hp
  · exact continues_of_stack rfl (f.continues_pc _) rfl hp
  · exact continues_of_stack rfl ⟨rfl, rfl, rfl, fun h => h⟩ rfl hp

theorem continues_nextTask (hs : s.stack = f :: below) (hp : s.panicked = none) (p : Pass) :
    Continues f below s (s.nextTask cfg f below p) := by
  unfold nextTask
  split
  · exact continues_pollTask hp _ _
  · split_ifs with hcall hany
    · exact continues_of_stack rfl (f.continues_pc _) rfl hp
    · obtain ⟨g, hg, hbuf⟩ := List.any_eq_true.mp hany
      exact continues_panic hs rfl rfl
        (.alreadyBorrowed .task g hg (of_decide_eq_true hbuf) fun h => absurd h hcall)
    · exact continues_of_stack rfl (f.continues_pc _) rfl hp
  · exact continues_pollTask hp _ _
  · exact continues_of_stack rfl (f.continues_pc _) rfl hp
  · next processed =>
    split_ifs
    · split
      · next id rest _ =>
        set s₁ : Runtime := { s with queue := Function.update s.queue .task rest }
        have hpoll : Continues f below s₁ (s₁.pollTask f below (.pull (processed + 1)) id) :=
          continues_pollTask (s := s₁) hp _ _
        refine ⟨hpoll.verdicts, hpoll.stack, fun e he => ?_⟩
        rw [panicked_pollTask] at he
        exact nomatch hp.symm.trans he
      · exact continues_leave hp
    · exact continues_leave hp

/-- The poll of a task ends with `Pending`. -/
theorem continues_taskPending (hs : s.stack = f :: below) (hp : s.panicked = none) {p : Pass}
    {id : ℕ} {t : Task} (hpc : f.pc = .task p id t) :
    Continues f below s (s.taskPending f below p id t) := by
  rw [taskPending]
  split
  · exact continues_of_stack rfl (f.continues_pc _) rfl hp
  · next hstat =>
    exact continues_panic hs rfl rfl
      (.pool p id t _ hpc (.inl (eq_false_of_ne_true hstat)))

/-- The poll of a task ends with `Ready`. -/
theorem continues_taskReady (hs : s.stack = f :: below) (hp : s.panicked = none) {p : Pass}
    {id : ℕ} {t : Task} (hpc : f.pc = .task p id t) :
    Continues f below s (s.taskReady f below p id t) := by
  rw [taskReady]
  split
  · split
    · exact continues_of_stack rfl ⟨rfl, rfl, rfl, fun _ => rfl⟩ rfl hp
    · next e he => exact continues_panic hs rfl rfl (.pool p id t e hpc (.inr he))
  · next hstat =>
    exact continues_panic hs rfl rfl
      (.pool p id t _ hpc (.inl (eq_false_of_ne_true hstat)))

theorem continues_move {m : Move} (hs : s.stack = f :: below) (hp : s.panicked = none)
    (hpc : f.pc ≠ .tail) (h : s.move cfg f below f.pc m = some s') :
    Continues f below s s' := by
  generalize hpc' : f.pc = pc at h hpc
  unfold move at h
  split at h
  · exact Option.some.inj h ▸ continues_loopHead hs hp hpc'
  · exact Option.some.inj h ▸ continues_nextReactor hs hp hpc'
  · refine Option.some.inj h ▸ continues_of_stack rfl ⟨rfl, rfl, rfl, fun _ => ?_⟩ rfl hp
    exact (Bool.or_true _).symm
  · exact Option.some.inj h ▸ continues_nextTask hs hp _
  · exact Option.some.inj h ▸ continues_taskPending hs hp hpc'
  · exact Option.some.inj h ▸ continues_taskReady hs hp hpc'
  · exact Option.some.inj h ▸ continues_of_stack rfl (f.continues_pc _) rfl hp
  · exact absurd rfl hpc
  · exact nomatch h

theorem stack_endIteration (hs : s.stack = f :: below) (hp : s.panicked = none)
    (hpc : f.pc = .tail) :
    ((s.endIteration cfg f below).stack = below ∨
      ∃ f', (s.endIteration cfg f below).stack = f' :: below ∧ f'.call = f.call) ∧
    ∀ p, (s.endIteration cfg f below).panicked = some p → s.Raises f below p := by
  simp only [endIteration]
  split_ifs
  · exact ⟨.inr ⟨_, rfl, rfl⟩, fun _ h => nomatch hp.symm.trans h⟩
  · exact ⟨.inl rfl, fun _ h => nomatch hp.symm.trans h⟩
  · exact ⟨.inr ⟨f, hs, rfl⟩, fun _ h => Option.some.inj h ▸ .deadlock hpc⟩
  · exact ⟨.inr ⟨_, rfl, rfl⟩, fun _ h => nomatch hp.symm.trans h⟩

/-- **A move**: the innermost call returns, or it is the same call afterwards. -/
theorem stack_move {m : Move} (hs : s.stack = f :: below) (hp : s.panicked = none)
    (h : s.move cfg f below f.pc m = some s') :
    (s'.stack = below ∨ ∃ f', s'.stack = f' :: below ∧ f'.call = f.call) ∧
      ∀ p, s'.panicked = some p → s.Raises f below p := by
  by_cases hpc : f.pc = .tail
  · rw [hpc] at h
    rcases m with _ | _ | _ | _ | _
    · exact Option.some.inj h ▸ stack_endIteration hs hp hpc
    all_goals exact nomatch h
  · have hmove := continues_move hs hp hpc h
    exact ⟨hmove.stack.imp_right fun ⟨f', hs', hf⟩ => ⟨f', hs', hf.call⟩, hmove.panicked⟩

/-! ### The calls along a run -/

/-- The calls under way, the innermost one first. -/
def calls (s : Runtime) : List Call := s.stack.map Frame.call

/-- The call that an event begins, if it begins one. -/
def called (s : Runtime) : Event → Option Call
  | .runQueue => some .runQueue
  | .blockOn key => some (.blockOn key s.pool.spawned)
  | .progress => some .progress
  | _ => none

/-- A call is made from outside or from a task. -/
theorem calls_of_called {e : Event} {c : Call} (hc : s.called e = some c)
    (h : step cfg s e = some s') : s.code ∈ [Code.outside, .task] ∧ s'.calls = c :: s.calls := by
  obtain ⟨-, h⟩ := Option.ite_none_left_eq_some.mp h
  match e with
  | .runQueue =>
    obtain ⟨hcode, h⟩ := Option.ite_none_right_eq_some.mp h
    obtain rfl := Option.some.inj h
    obtain rfl := Option.some.inj hc
    exact ⟨hcode, rfl⟩
  | .blockOn key =>
    obtain ⟨⟨hcode, -⟩, h⟩ := Option.ite_none_right_eq_some.mp h
    obtain rfl := Option.some.inj h
    obtain rfl := Option.some.inj hc
    exact ⟨hcode, rfl⟩
  | .progress =>
    obtain ⟨hcode, h⟩ := Option.ite_none_right_eq_some.mp h
    obtain rfl := Option.some.inj h
    obtain rfl := Option.some.inj hc
    exact ⟨hcode, rfl⟩

/-- **The other events** leave the calls under way, or let the innermost one return. -/
theorem calls_of_not_called {e : Event} (hc : s.called e = none) (h : step cfg s e = some s') :
    s'.calls = s.calls ∨ s'.calls = s.calls.tail := by
  obtain ⟨hp, h⟩ := Option.ite_none_left_eq_some.mp h
  match e with
  | .move m =>
    rcases hs : s.stack with - | ⟨f, below⟩
    · simp only [hs] at h
      exact nomatch h
    · simp only [hs] at h
      have hcalls : s.calls = f.call :: below.map Frame.call := congrArg (List.map Frame.call) hs
      rw [hcalls]
      rcases (stack_move hs (not_not.mp hp) h).1 with hs' | ⟨f', hs', hf⟩
      · exact .inr (congrArg (List.map Frame.call) hs')
      · left
        rw [calls, hs', List.map_cons, hf]
  | .spawn q key | .wake future | .requestShutdown | .register r order =>
    obtain ⟨-, h⟩ := Option.ite_none_right_eq_some.mp h
    obtain rfl := Option.some.inj h
    exact .inl rfl
  | .setRunning r running =>
    obtain rfl := Option.some.inj h
    left
    simp only [calls, setRunning, List.map_map]
    rfl

/-- **Panics are raised** by moves of the innermost call. -/
theorem raises_of_step {e : Event} {p : Panic} (h : step cfg s e = some s')
    (hpanic : s'.panicked = some p) :
    ∃ m f below, e = .move m ∧ s.stack = f :: below ∧ s.Raises f below p := by
  obtain ⟨hp, h⟩ := Option.ite_none_left_eq_some.mp h
  rw [not_not] at hp
  match e with
  | .move m =>
    rcases hs : s.stack with - | ⟨f, below⟩
    · simp only [hs] at h
      exact nomatch h
    · simp only [hs] at h
      exact ⟨m, f, below, rfl, rfl, (stack_move hs hp h).2 p hpanic⟩
  | .runQueue | .blockOn key | .progress | .spawn q key | .wake future | .requestShutdown
  | .register r order =>
    obtain ⟨-, h⟩ := Option.ite_none_right_eq_some.mp h
    obtain rfl := Option.some.inj h
    exact nomatch hp.symm.trans hpanic
  | .setRunning r running =>
    obtain rfl := Option.some.inj h
    exact nomatch hp.symm.trans hpanic

end Runtime

end Executor

end Pluvio
