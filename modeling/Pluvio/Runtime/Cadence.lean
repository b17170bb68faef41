import Pluvio.Runtime.Wakeup

/-!
# How often a reactor is polled

`run_queue` and `block_on_with_name_and_runtime` do not poll the reactors in every iteration,
and they do not ask for the status of a reactor each time: an iteration polls the reactors
when there are polling tasks, when it is one of the first two, or when its number is a
multiple of `reactor_poll_interval`; a status is kept for `status_cache_iterations`
iterations; and after too many iterations with nothing but reactors one is made without them.

All the same a reactor that has something to do is not forgotten. While it is registered and
`Running`, no `status_cache_iterations + 2 * reactor_poll_interval` iterations begin without
a poll of it (`Pluvio.Executor.reactor_polled_within`). One interval is not enough: the
iteration that would have polled the reactors may be the one that is made without them.
-/

namespace Pluvio

namespace Executor

/-- A runtime, and how often each reactor has been polled. -/
structure Attended where
  runtime : Runtime
  polls : ℕ → ℕ

/-- The reactor that a frame is polling. -/
def Pc.attended : Pc → Option ℕ
  | .reactor r _ _ => some r
  | _ => none

/-- The reactor that is being polled. -/
def Runtime.attended (s : Runtime) : Option ℕ := s.stack.head?.bind fun f => f.pc.attended

/-- The executor at its start, before any poll of a reactor. -/
def attendedStart : Attended := ⟨start, fun _ => 0⟩

/-- A step of the executor, with the polls of its reactors counted. -/
def attendedStep (cfg : SchedulingConfig) (s : Attended) (e : Event) : Option Attended :=
  (step cfg s.runtime e).map fun rt => {
    runtime := rt
    polls := fun r => s.polls r + if e = .move .exec ∧ rt.attended = some r then 1 else 0 }

/-- No task calls a loop from inside its own poll. -/
def AttendedNotNested (s : Attended) (e : Event) : Prop := NotNested s.runtime e

/-- The reactor `r` stays `Running`, and is not registered again. -/
def StaysRunning (r : ℕ) (e : Event) : Prop :=
  e ≠ .setRunning r false ∧ ∀ order, e ≠ .register r order

/-! ### What the moves do to the reactors -/

section Moves

variable {cfg : SchedulingConfig} {s s' : Runtime} {f f' : Frame} {below : List Frame}

/-- A frame is in an iteration that it has counted. -/
def Frame.Iterating (f : Frame) : Prop := f.call ≠ .progress ∧ f.pc ≠ .head

/-- The reactors that a frame has still to ask. -/
def Pc.due : Pc → List ℕ
  | .reactors left _ | .reactor _ left _ => left
  | _ => []

/-- **A quiet move**, for the reactors: nothing changes but the place of the call. -/
structure Quiet (f : Frame) (s s' : Runtime) : Prop where
  reactors : s'.reactors = s.reactors
  reactor : s'.reactor = s.reactor
  iterationCount : s'.iterationCount = s.iterationCount
  reactorOnlyCount : s'.reactorOnlyCount = s.reactorOnlyCount
  frame : ∀ f' ∈ s'.stack, f'.call = f.call ∧ f'.iteration = f.iteration ∧
    f'.shouldPoll = f.shouldPoll ∧ f'.pc.due = f.pc.due ∧ (f'.pc = .head ↔ f.pc = .head)
  /-- A call that has still reactors to ask does not return. -/
  stays : f.pc.due ≠ [] → s'.stack ≠ []

/-- A move is quiet if the call goes on with the same iteration and the same reactors due. -/
theorem quiet_resume {f₁ : Frame} (hreactors : s'.reactors = s.reactors)
    (hreactor : s'.reactor = s.reactor) (hcount : s'.iterationCount = s.iterationCount)
    (honly : s'.reactorOnlyCount = s.reactorOnlyCount) (hcall : f₁.call = f.call)
    (hiteration : f₁.iteration = f.iteration) (hshould : f₁.shouldPoll = f.shouldPoll)
    (hdue : f₁.pc.due = f.pc.due) (hhead : f.pc ≠ .head) (hhead₁ : f₁.pc ≠ .head) :
    Quiet f s (s'.resume f₁ []) := by
  refine ⟨hreactors, hreactor, hcount, honly, fun f' hf' => ?_, fun _ => List.cons_ne_nil _ _⟩
  obtain rfl := List.mem_singleton.mp hf'
  exact ⟨hcall, hiteration, hshould, hdue, iff_of_false hhead₁ hhead⟩

/-- A move is quiet if the call returns with no reactor due. -/
theorem quiet_leave (hreactors : s'.reactors = s.reactors) (hreactor : s'.reactor = s.reactor)
    (hcount : s'.iterationCount = s.iterationCount)
    (honly : s'.reactorOnlyCount = s.reactorOnlyCount) (hdue : f.pc.due = []) :
    Quiet f s (s'.leave []) :=
  ⟨hreactors, hreactor, hcount, honly, fun _ hf' => (by cases hf'), fun h => absurd hdue h⟩

/-- A panic is quiet: no call is left. -/
theorem quiet_panic {p : Panic} (hs : s.stack = [f]) : Quiet f s (s.panic p) := by
  refine ⟨rfl, rfl, rfl, rfl, fun f' hf' => ?_, fun _ => ?_⟩
  · obtain rfl := List.mem_singleton.mp (hs ▸ hf')
    exact ⟨rfl, rfl, rfl, rfl, .rfl⟩
  · show s.stack ≠ []
    rw [hs]
    exact List.cons_ne_nil _ _

theorem quiet_pollTask (queue : Queue → List ℕ) {p : Pass} {id : ℕ} (hdue : f.pc.due = [])
    (hhead : f.pc ≠ .head) : Quiet f s ({ s with queue := queue }.pollTask f [] p id) := by
  rw [Runtime.pollTask]
  split <;> exact quiet_resume rfl rfl rfl rfl rfl rfl rfl hdue.symm hhead (by simp)

theorem quiet_nextTask {p : Pass} (hs : s.stack = [f]) (hdue : f.pc.due = [])
    (hhead : f.pc ≠ .head) : Quiet f s (s.nextTask cfg f [] p) := by
  unfold Runtime.nextTask
  split
  · exact quiet_pollTask s.queue hdue hhead
  · split_ifs
    · exact quiet_resume rfl rfl rfl rfl rfl rfl rfl hdue.symm hhead (by simp)
    · exact quiet_panic hs
    · exact quiet_resume rfl rfl rfl rfl rfl rfl rfl hdue.symm hhead (by simp)
  · exact quiet_pollTask s.queue hdue hhead
  · exact quiet_resume rfl rfl rfl rfl rfl rfl rfl hdue.symm hhead (by simp)
  · split
    · split
      · exact quiet_pollTask _ hdue hhead
      · exact quiet_leave rfl rfl rfl rfl hdue
    · exact quiet_leave rfl rfl rfl rfl hdue

/-- The reactors have all been asked. -/
theorem quiet_nextReactor {drained : Option (List ℕ)} (hs : s.stack = [f])
    (hpc : f.pc = .reactors [] drained) : Quiet f s (s.nextReactor cfg f [] [] drained) := by
  have hhead : f.pc ≠ .head := by simp [hpc]
  have hdue : f.pc.due = [] := by rw [hpc]; rfl
  cases drained with
  | some ids => exact quiet_resume rfl rfl rfl rfl rfl rfl rfl hdue.symm hhead (by simp)
  | none =>
    rw [Runtime.nextReactor]
    split
    · exact quiet_panic hs
    · exact quiet_resume rfl rfl rfl rfl rfl rfl rfl hdue.symm hhead (by simp)

theorem quiet_taskPending {p : Pass} {id : ℕ} {t : Task} (hs : s.stack = [f])
    (hpc : f.pc = .task p id t) : Quiet f s (s.taskPending f [] p id t) := by
  have hhead : f.pc ≠ .head := by simp [hpc]
  have hdue : f.pc.due = [] := by rw [hpc]; rfl
  rw [Runtime.taskPending]
  split
  · exact quiet_resume rfl rfl rfl rfl rfl rfl rfl hdue.symm hhead (by simp)
  · exact quiet_panic hs

theorem quiet_taskReady {p : Pass} {id : ℕ} {t : Task} (hs : s.stack = [f])
    (hpc : f.pc = .task p id t) : Quiet f s (s.taskReady f [] p id t) := by
  have hhead : f.pc ≠ .head := by simp [hpc]
  have hdue : f.pc.due = [] := by rw [hpc]; rfl
  rw [Runtime.taskReady]
  split
  · split
    · exact quiet_resume rfl rfl rfl rfl rfl rfl rfl hdue.symm hhead (by simp)
    · exact quiet_panic hs
  · exact quiet_panic hs

/-- **The moves of a call**, for the reactors: it is at its head, or asks a reactor, or ends its
iteration, or nothing happens. -/
theorem reactors_move {m : Move} (hs : s.stack = [f])
    (h : s.move cfg f [] f.pc m = some s') :
    (f.pc = .head ∧ s' = s.loopHead cfg f []) ∨
    (∃ r left drained, f.pc = .reactors (r :: left) drained ∧ m = .exec ∧
      s' = s.nextReactor cfg f [] (r :: left) drained) ∨
    (f.pc = .tail ∧ s' = s.endIteration cfg f []) ∨ Quiet f s s' := by
  generalize hpc : f.pc = pc at h
  unfold Runtime.move at h
  split at h <;> cases h
  · exact .inl ⟨rfl, rfl⟩
  · next left drained =>
    rcases left with - | ⟨r, left⟩
    · exact .inr (.inr (.inr (quiet_nextReactor hs hpc)))
    · exact .inr (.inl ⟨r, left, drained, rfl, rfl, rfl⟩)
  · refine .inr (.inr (.inr (quiet_resume rfl rfl rfl rfl rfl rfl rfl ?_ ?_ (by simp))))
    · rw [hpc]
      rfl
    · simp [hpc]
  · exact .inr (.inr (.inr (quiet_nextTask hs (by rw [hpc]; rfl) (by simp [hpc]))))
  · exact .inr (.inr (.inr (quiet_taskPending hs hpc)))
  · exact .inr (.inr (.inr (quiet_taskReady hs hpc)))
  · refine .inr (.inr (.inr (quiet_resume rfl rfl rfl rfl rfl rfl rfl ?_ ?_ (by simp))))
    · rw [hpc]
      rfl
    · simp [hpc]
  · exact .inr (.inr (.inl ⟨rfl, rfl⟩))

/-- **The beginning of an iteration**, whose number is the count before it: it asks all the
reactors, if it polls them; and if its number is a multiple of the interval it does, or the
count of those with nothing but reactors starts again. -/
structure Iterates (cfg : SchedulingConfig) (f : Frame) (s s' : Runtime) : Prop where
  reactors : s'.reactors = s.reactors
  reactor : s'.reactor = s.reactor
  iterationCount : s'.iterationCount = s.iterationCount + 1
  zero : s.reactorOnlyCount = 0 → s'.reactorOnlyCount = 0
  frame : ∃ f', s'.stack = [f'] ∧ f'.call = f.call ∧ f'.iteration = s.iterationCount ∧
    f'.pc ≠ .head ∧ (f'.shouldPoll = true → f'.pc.due = s.reactors) ∧
    (s.iterationCount % cfg.reactorPollInterval = 0 →
      f'.shouldPoll = true ∨ s'.reactorOnlyCount = 0 ∧ cfg.maxReactorOnly ≤ s.reactorOnlyCount)

/-- Whether an iteration polls the reactors: when its number is a multiple of the interval it
does, unless it is made without them. -/
theorem shouldPollReactors_eq (hinterval : 0 < cfg.reactorPollInterval) (safetyOverride : Bool)
    (ids : List ℕ) (n : ℕ) :
    ∃ b, Runtime.shouldPollReactors cfg safetyOverride ids n = some b ∧
      (n % cfg.reactorPollInterval = 0 → b = true ∨ safetyOverride = true) := by
  unfold Runtime.shouldPollReactors
  split_ifs with hoverride hids hzero
  · exact ⟨false, rfl, fun _ => .inr hoverride⟩
  · exact ⟨true, rfl, fun _ => .inl rfl⟩
  · exact absurd hzero hinterval.ne'
  · exact ⟨_, rfl, fun hn => .inl (decide_eq_true hn)⟩

theorem iterates (hinterval : 0 < cfg.reactorPollInterval) (f : Frame) (s : Runtime) :
    Iterates cfg f s (s.iterate cfg f []) := by
  obtain ⟨b, hb, hmul⟩ := shouldPollReactors_eq hinterval
    (decide (f.call = .runQueue ∧ cfg.maxReactorOnly ≤ s.reactorOnlyCount)) (s.queue .polling)
    s.iterationCount
  simp only [Runtime.iterate, List.any_nil, Bool.false_eq_true, if_false, hb]
  refine ⟨rfl, rfl, rfl, fun hzero => ?_, _, rfl, rfl, rfl, by simp, fun hshould => if_pos hshould,
    fun hn => ?_⟩
  · show (if _ then 0 else s.reactorOnlyCount) = 0
    rw [hzero, ite_self]
  · refine (hmul hn).imp_right fun hoverride => ⟨if_pos hoverride, ?_⟩
    exact (of_decide_eq_true hoverride).2

theorem endIteration_eq (cfg : SchedulingConfig) (hs : s.stack = [f]) :
    (s.endIteration cfg f []).reactors = s.reactors ∧
    (s.endIteration cfg f []).reactor = s.reactor ∧
    (s.endIteration cfg f []).iterationCount = s.iterationCount ∧
    (s.endIteration cfg f []).reactorOnlyCount = f.countReactorOnly s.reactorOnlyCount ∧
    (s.endIteration cfg f []).stack.length ≤ 1 ∧
    ∀ f' ∈ (s.endIteration cfg f []).stack, f' = f ∨ f'.pc = .head := by
  simp only [Runtime.endIteration]
  split_ifs
  · exact ⟨rfl, rfl, rfl, rfl, le_rfl, fun f' hf' => .inr (List.mem_singleton.mp hf' ▸ rfl)⟩
  · exact ⟨rfl, rfl, rfl, rfl, Nat.zero_le 1, fun f' hf' => absurd hf' List.not_mem_nil⟩
  · refine ⟨rfl, rfl, rfl, rfl, ?_, fun f' hf' => .inl (List.mem_singleton.mp (hs ▸ hf'))⟩
    show s.stack.length ≤ 1
    rw [hs]
    exact le_rfl
  · exact ⟨rfl, rfl, rfl, rfl, le_rfl, fun f' hf' => .inr (List.mem_singleton.mp hf' ▸ rfl)⟩

/-- **A reactor is asked** for its status. -/
theorem nextReactor_eq (cfg : SchedulingConfig) (f : Frame) (s : Runtime) (r : ℕ) (left : List ℕ)
    (drained : Option (List ℕ)) :
    let status := f.reactorStatus cfg (s.reactor r)
    let s' := s.nextReactor cfg f [] (r :: left) drained
    s'.reactors = s.reactors ∧ s'.reactor = Function.update s.reactor r status.2 ∧
      s'.iterationCount = s.iterationCount ∧ s'.reactorOnlyCount = s.reactorOnlyCount ∧
      ∃ f', s'.stack = [f'] ∧ f'.call = f.call ∧ f'.iteration = f.iteration ∧
        f'.shouldPoll = f.shouldPoll ∧ f'.pc.due = left ∧ f'.pc ≠ .head ∧
        (status.1 = true → s'.attended = some r) := by
  refine ⟨rfl, rfl, rfl, rfl, _, rfl, rfl, rfl, rfl, ?_, ?_, fun hstatus => ?_⟩
  · dsimp only
    split <;> rfl
  · dsimp only
    split <;> simp
  · show Pc.attended (if _ then _ else _) = some r
    rw [if_pos hstatus]
    rfl

end Moves

/-! ### A reactor that stays `Running` -/

section Overdue

variable {cfg : SchedulingConfig} {s s' : Runtime} {e : Event} {f : Frame} {r n₀ M : ℕ}

/-- **A step that does not count**: it begins and ends no iteration, and asks no reactor. -/
structure Rests (s s' : Runtime) : Prop where
  calls : s'.stack.length ≤ 1
  iterationCount : s'.iterationCount = s.iterationCount
  reactorOnlyCount : s'.reactorOnlyCount = s.reactorOnlyCount
  frame : ∀ f' ∈ s'.stack, f'.Iterating → ∃ f ∈ s.stack, f.Iterating ∧ f'.iteration = f.iteration ∧
    f'.shouldPoll = f.shouldPoll ∧ f'.pc.due = f.pc.due
  stays : ∀ f ∈ s.stack, f.Iterating → f.pc.due ≠ [] → ∃ f' ∈ s'.stack, f'.Iterating ∧
    f'.shouldPoll = f.shouldPoll
  cache : ∀ r, (s'.reactor r).cacheValidUntil ≤ (s.reactor r).cacheValidUntil

/-- The reactor is as it was. -/
def SameReactor (r : ℕ) (s s' : Runtime) : Prop :=
  (r ∈ s.reactors → r ∈ s'.reactors) ∧
    ((s.reactor r).running = true → (s'.reactor r).running = true) ∧
    (s'.reactor r).cachedRunning = (s.reactor r).cachedRunning ∧
    (s'.reactor r).cacheValidUntil = (s.reactor r).cacheValidUntil

theorem sameReactor_of_eq (hreactors : s'.reactors = s.reactors)
    (hreactor : s'.reactor = s.reactor) : SameReactor r s s' := by
  rw [SameReactor, hreactors, hreactor]
  exact ⟨id, id, rfl, rfl⟩

/-- The calls are as they were. -/
theorem rests_of_eq (hlen : s.stack.length ≤ 1) (hstack : s'.stack = s.stack)
    (hcount : s'.iterationCount = s.iterationCount)
    (honly : s'.reactorOnlyCount = s.reactorOnlyCount) (hreactor : s'.reactor = s.reactor) :
    Rests s s' := by
  refine ⟨hstack ▸ hlen, hcount, honly, fun f' hf' hf => ⟨f', hstack ▸ hf', hf, rfl, rfl, rfl⟩,
    fun f hf hcounts _ => ⟨f, hstack ▸ hf, hcounts, rfl⟩, fun r => ?_⟩
  rw [hreactor]

/-- A call that begins is before its first iteration, or makes none. -/
theorem rests_call {call : Call} {pc : Pc} (hnil : s.stack = [])
    (hpc : call = .progress ∨ pc = .head) (hstack : s'.stack = [.new call pc])
    (hcount : s'.iterationCount = s.iterationCount)
    (honly : s'.reactorOnlyCount = s.reactorOnlyCount) (hreactor : s'.reactor = s.reactor) :
    Rests s s' := by
  refine ⟨by rw [hstack]; rfl, hcount, honly, fun f' hf' hf => ?_, fun f hf => ?_,
    fun r => by rw [hreactor]⟩
  · obtain rfl := List.mem_singleton.mp (hstack ▸ hf')
    exact hpc.elim (fun h => absurd h hf.1) fun h => absurd h hf.2
  · rw [hnil] at hf
    cases hf

theorem Quiet.rests (h : Quiet f s s') (hs : s.stack = [f]) (hlen : s'.stack.length ≤ 1) :
    Rests s s' := by
  refine ⟨hlen, h.iterationCount, h.reactorOnlyCount, fun f' hf' hf => ?_, fun f' hf' hf hdue => ?_,
    fun r => by rw [h.reactor]⟩
  · obtain ⟨hcall, hiteration, hshould, hdue, hhead⟩ := h.frame f' hf'
    exact ⟨f, hs ▸ List.mem_singleton_self f, ⟨hcall ▸ hf.1, mt hhead.mpr hf.2⟩, hiteration,
      hshould, hdue⟩
  · obtain rfl := List.mem_singleton.mp (hs ▸ hf')
    obtain ⟨f₁, hf₁⟩ := List.exists_mem_of_ne_nil _ (h.stays hdue)
    obtain ⟨hcall, -, hshould, -, hhead⟩ := h.frame f₁ hf₁
    exact ⟨f₁, hf₁, ⟨hcall ▸ hf.1, mt hhead.mp hf.2⟩, hshould⟩

/-- The head of a loop, where no iteration begins. -/
theorem loopHead_cases (cfg : SchedulingConfig) (hs : s.stack = [f]) (hpc : f.pc = .head) :
    Quiet f s (s.loopHead cfg f []) ∨
      f.call ≠ .progress ∧ s.loopHead cfg f [] = s.iterate cfg f [] := by
  have hleave : Quiet f s (s.leave []) := quiet_leave rfl rfl rfl rfl (by rw [hpc]; rfl)
  rw [Runtime.loopHead]
  split
  · next hcall =>
    split
    · exact .inl hleave
    · exact .inr ⟨by simp [hcall], rfl⟩
  · next hcall =>
    split_ifs
    · exact .inr ⟨by simp [hcall], rfl⟩
    · exact .inl hleave
    · exact .inl (quiet_panic hs)
  · exact .inl hleave

/-- **A step that begins and ends no iteration and asks no reactor**, and does no harm to the
reactors that stay `Running`. -/
def Idle (e : Event) (s s' : Runtime) : Prop :=
  Rests s s' ∧ ∀ r, StaysRunning r e → SameReactor r s s'

/-- An event that is not a move. -/
theorem idle_event (hlen : s.stack.length ≤ 1) (hok : NotNested s e)
    (h : step cfg s e = some s') (hmove : ∀ m, e ≠ .move m) : Idle e s s' := by
  obtain ⟨-, h⟩ := Option.ite_none_left_eq_some.mp h
  match e with
  | .move m => exact absurd rfl (hmove m)
  | .runQueue =>
    obtain ⟨hcode, h⟩ := Option.ite_none_right_eq_some.mp h
    obtain rfl := Option.some.inj h
    have hnil := Runtime.stack_eq_nil hcode (hok (Option.some_ne_none _))
    exact ⟨rests_call hnil (.inr rfl) (by rw [hnil]; rfl) rfl rfl rfl,
      fun _ _ => sameReactor_of_eq rfl rfl⟩
  | .blockOn key =>
    obtain ⟨⟨hcode, -⟩, h⟩ := Option.ite_none_right_eq_some.mp h
    obtain rfl := Option.some.inj h
    have hnil := Runtime.stack_eq_nil hcode (hok (Option.some_ne_none _))
    exact ⟨rests_call hnil (.inr rfl) (by rw [hnil]; rfl) rfl rfl rfl,
      fun _ _ => sameReactor_of_eq rfl rfl⟩
  | .progress =>
    obtain ⟨hcode, h⟩ := Option.ite_none_right_eq_some.mp h
    obtain rfl := Option.some.inj h
    have hnil := Runtime.stack_eq_nil hcode (hok (Option.some_ne_none _))
    exact ⟨rests_call hnil (.inl rfl) (by rw [hnil]; rfl) rfl rfl rfl,
      fun _ _ => sameReactor_of_eq rfl rfl⟩
  | .spawn _ _ | .wake _ | .requestShutdown =>
    obtain ⟨-, h⟩ := Option.ite_none_right_eq_some.mp h
    obtain rfl := Option.some.inj h
    exact ⟨rests_of_eq hlen rfl rfl rfl rfl, fun _ _ => sameReactor_of_eq rfl rfl⟩
  | .register r order =>
    obtain ⟨⟨-, hperm⟩, h⟩ := Option.ite_none_right_eq_some.mp h
    obtain rfl := Option.some.inj h
    refine ⟨⟨hlen, rfl, rfl, fun f' hf' hf => ⟨f', hf', hf, rfl, rfl, rfl⟩,
      fun f hf hcounts _ => ⟨f, hf, hcounts, rfl⟩, fun r' => ?_⟩, fun r' hr' => ?_⟩
    · show (Function.update s.reactor r .new r').cacheValidUntil ≤ _
      by_cases hr : r' = r
      · rw [hr, Function.update_self]
        exact Nat.zero_le _
      · rw [Function.update_of_ne hr]
    · -- a reactor that is not the one that is registered keeps its place and its cached status
      have hne : r' ≠ r := fun hr => hr'.2 order (by rw [hr])
      have hsame : Function.update s.reactor r .new r' = s.reactor r' :=
        Function.update_of_ne hne ..
      refine ⟨fun hmem => ?_, ?_⟩
      · exact hperm.mem_iff.mpr (List.mem_cons_of_mem _ ((List.mem_erase_of_ne hne).mpr hmem))
      · show ((s.reactor r').running = true →
            (Function.update s.reactor r .new r').running = true) ∧
          (Function.update s.reactor r .new r').cachedRunning = _ ∧
          (Function.update s.reactor r .new r').cacheValidUntil = _
        rw [hsame]
        exact ⟨id, rfl, rfl⟩
  | .setRunning r running =>
    obtain rfl := Option.some.inj h
    -- the status of a reactor changes, and what is cached of it does not
    have hcell : ∀ r', ((s.setRunning r running).reactor r').cachedRunning =
        (s.reactor r').cachedRunning ∧ ((s.setRunning r running).reactor r').cacheValidUntil =
          (s.reactor r').cacheValidUntil ∧ (StaysRunning r' (.setRunning r running) →
            (s.reactor r').running = true →
              ((s.setRunning r running).reactor r').running = true) := by
      intro r'
      by_cases hr : r' = r
      · subst hr
        simp only [Runtime.setRunning, Function.update_self, true_and]
        exact fun hstays _ => eq_true_of_ne_false fun hfalse => hstays.1 (by rw [hfalse])
      · simp only [Runtime.setRunning, Function.update_of_ne hr, true_and]
        exact fun _ hrunning => hrunning
    refine ⟨⟨by simpa [Runtime.setRunning] using hlen, rfl, rfl, fun f' hf' hf => ?_,
      fun f hf hcounts _ => ⟨_, List.mem_map_of_mem hf, hcounts, rfl⟩,
      fun r' => (hcell r').2.1.le⟩, fun r' hr' => ⟨id, (hcell r').2.2 hr', (hcell r').1,
        (hcell r').2.1⟩⟩
    obtain ⟨f, hmem, rfl⟩ := List.mem_map.mp hf'
    exact ⟨f, hmem, hf, rfl, rfl, rfl⟩

/-- **What a step does**, with one call at most: an iteration begins or ends, a reactor is asked,
or nothing happens that counts. -/
theorem step_cases (hlen : s.stack.length ≤ 1) (hok : NotNested s e)
    (h : step cfg s e = some s') : Idle e s s' ∨
    (∃ f, s.stack = [f] ∧ f.pc = .head ∧ f.call ≠ .progress ∧ s' = s.iterate cfg f []) ∨
    (∃ f r left drained, e = .move .exec ∧ s.stack = [f] ∧ f.pc = .reactors (r :: left) drained ∧
      s' = s.nextReactor cfg f [] (r :: left) drained) ∨
    (∃ f, s.stack = [f] ∧ f.pc = .tail ∧ s' = s.endIteration cfg f []) := by
  by_cases hmove : ∃ m, e = .move m
  · obtain ⟨m, rfl⟩ := hmove
    obtain ⟨hp, h⟩ := Option.ite_none_left_eq_some.mp h
    rcases hs : s.stack with - | ⟨f, below⟩
    · simp only [hs] at h
      cases h
    · simp only [hs] at h
      obtain rfl : below = [] := by
        rw [hs, List.length_cons] at hlen
        exact List.length_eq_zero_iff.mp (by omega)
      have hlen' : s'.stack.length ≤ 1 := by
        rcases (Runtime.stack_move hs (not_not.mp hp) h).1 with hs' | ⟨f', hs', -⟩ <;> rw [hs']
        · exact Nat.zero_le 1
        · exact le_rfl
      have hquiet : Quiet f s s' → Idle (.move m) s s' := fun hquiet =>
        ⟨hquiet.rests hs hlen', fun _ _ => sameReactor_of_eq hquiet.reactors hquiet.reactor⟩
      rcases reactors_move hs h with ⟨hpc, rfl⟩ | ⟨r, left, drained, hpc, rfl, rfl⟩ |
        ⟨hpc, rfl⟩ | hquiet'
      · rcases loopHead_cases cfg hs hpc with hquiet' | ⟨hcall, heq⟩
        · exact .inl (hquiet hquiet')
        · exact .inr (.inl ⟨f, rfl, hpc, hcall, heq⟩)
      · exact .inr (.inr (.inl ⟨f, r, left, drained, rfl, rfl, hpc, rfl⟩))
      · exact .inr (.inr (.inr ⟨f, rfl, hpc, rfl⟩))
      · exact .inl (hquiet hquiet')
  · exact .inl (idle_event hlen hok h fun m he => hmove ⟨m, he⟩)

/-- **The numbers**: the one call is in the last iteration that has been counted, and no status
is kept for too long. -/
structure NumbersInv (cfg : SchedulingConfig) (s : Runtime) : Prop where
  calls : s.stack.length ≤ 1
  current : ∀ f ∈ s.stack, f.Iterating → f.iteration + 1 = s.iterationCount
  cache : ∀ r, (s.reactor r).cacheValidUntil ≤ s.iterationCount + cfg.statusCacheIterations

/-- An iteration is under way that polls the reactors. -/
def PollsReactors (s : Runtime) : Prop := ∃ f ∈ s.stack, f.Iterating ∧ f.shouldPoll = true

/-- **A reactor that has not been polled** since the count was `n₀`, though it was `Running`.
`M` is the first multiple of the interval for which its status is not an old one. -/
structure Overdue (cfg : SchedulingConfig) (r n₀ M : ℕ) (s : Runtime) : Prop where
  registered : r ∈ s.reactors
  running : (s.reactor r).running = true
  stale : (s.reactor r).cachedRunning = false →
    (s.reactor r).cacheValidUntil ≤ n₀ + cfg.statusCacheIterations
  due : ∀ f ∈ s.stack, f.Iterating → f.shouldPoll = true →
    n₀ + cfg.statusCacheIterations ≤ f.iteration → r ∈ f.pc.due
  only : M < s.iterationCount → s.reactorOnlyCount = 0 ∨ PollsReactors s
  bound : s.iterationCount ≤ M + cfg.reactorPollInterval ∨
    s.iterationCount = M + cfg.reactorPollInterval + 1 ∧ PollsReactors s

/-- What a reactor has answered is kept for so many iterations. -/
theorem reactorStatus_cases (cfg : SchedulingConfig) (f : Frame) (w : ReactorWrapper) :
    (f.reactorStatus cfg w).2 = w ∨ f.call ≠ .progress ∧ (f.reactorStatus cfg w).2 = { w with
      cachedRunning := w.running
      cacheValidUntil := f.iteration + cfg.statusCacheIterations } := by
  rw [Frame.reactorStatus]
  split_ifs with hcall
  · exact .inl rfl
  · rw [ReactorWrapper.cachedStatus]
    split_ifs
    · exact .inl rfl
    · exact .inr ⟨hcall, rfl⟩

/-- A reactor that is `Running` is passed over for an old answer only. -/
theorem reactorStatus_running (f : Frame) {w : ReactorWrapper} (hrunning : w.running = true)
    (hstatus : (f.reactorStatus cfg w).1 ≠ true) :
    (f.reactorStatus cfg w).2 = w ∧ w.cachedRunning = false ∧ f.iteration < w.cacheValidUntil := by
  unfold Frame.reactorStatus ReactorWrapper.cachedStatus at hstatus ⊢
  split_ifs at hstatus ⊢ with hcall hcache
  · exact absurd hrunning hstatus
  · exact ⟨rfl, eq_false_of_ne_true hstatus, hcache⟩
  · exact absurd hrunning hstatus

/-- No step lets the numbers of the iterations run apart. -/
theorem NumbersInv.step (h : NumbersInv cfg s) (hinterval : 0 < cfg.reactorPollInterval)
    (hok : NotNested s e) (hs : step cfg s e = some s') : NumbersInv cfg s' := by
  rcases step_cases h.calls hok hs with ⟨hrests, -⟩ | ⟨f, hf, hpc, hcall, rfl⟩ |
    ⟨f, r, left, drained, -, hf, hpc, rfl⟩ | ⟨f, hf, hpc, rfl⟩
  · refine ⟨hrests.calls, fun f' hf' hcounts => ?_, fun r => ?_⟩
    · obtain ⟨f, hmem, hfcounts, hiteration, -⟩ := hrests.frame f' hf' hcounts
      rw [hiteration, hrests.iterationCount]
      exact h.current f hmem hfcounts
    · rw [hrests.iterationCount]
      exact (hrests.cache r).trans (h.cache r)
  · -- an iteration begins, with the next number
    have hit := iterates hinterval f s
    obtain ⟨f₁, hstack, -, hiteration, -⟩ := hit.frame
    refine ⟨by rw [hstack]; rfl, fun f' hf' _ => ?_, fun r => ?_⟩
    · obtain rfl := List.mem_singleton.mp (hstack ▸ hf')
      rw [hiteration, hit.iterationCount]
    · have hcache := h.cache r
      rw [hit.reactor, hit.iterationCount]
      omega
  · obtain ⟨-, hreactor, hcount, -, f₁, hstack, hcall, hiteration, -, -, -⟩ :=
      nextReactor_eq cfg f s r left drained
    have hmem : f ∈ s.stack := hf ▸ List.mem_singleton_self f
    -- a reactor is asked in the iteration of its frame
    have hcurrent : f.call ≠ .progress → f.iteration + 1 = s.iterationCount := fun hcall =>
      h.current f hmem ⟨hcall, by simp [hpc]⟩
    refine ⟨by rw [hstack]; rfl, fun f' hf' hcounts => ?_, fun r' => ?_⟩
    · obtain rfl := List.mem_singleton.mp (hstack ▸ hf')
      rw [hiteration, hcount]
      exact hcurrent (hcall ▸ hcounts.1)
    · have hcache := h.cache r'
      rw [hreactor, hcount]
      by_cases hr : r' = r
      · subst hr
        rw [Function.update_self]
        -- the status is cached for so many iterations from this one on
        rcases reactorStatus_cases cfg f (s.reactor r') with heq | ⟨hcall', heq⟩
        · rw [heq]
          exact hcache
        · have hnumber := hcurrent hcall'
          rw [heq]
          dsimp only
          omega
      · rw [Function.update_of_ne hr]
        exact hcache
  · obtain ⟨-, hreactor, hcount, -, hcalls, hframe⟩ := endIteration_eq cfg hf
    have hmem : f ∈ s.stack := hf ▸ List.mem_singleton_self f
    refine ⟨hcalls, fun f' hf' hcounts => ?_, fun r => ?_⟩
    · rcases hframe f' hf' with rfl | hhead
      · rw [hcount]
        exact h.current f' hmem hcounts
      · exact absurd hhead hcounts.2
    · rw [hreactor, hcount]
      exact h.cache r

/-- Nothing is overdue at first: the iteration that is under way has an earlier number. -/
theorem NumbersInv.overdue (h : NumbersInv cfg s) (hregistered : r ∈ s.reactors)
    (hrunning : (s.reactor r).running = true)
    (hM : s.iterationCount + cfg.statusCacheIterations ≤ M) :
    Overdue cfg r s.iterationCount M s := by
  refine ⟨hregistered, hrunning, fun _ => h.cache r, fun f hf hcounts _ hle => ?_,
    fun hlate => ?_, .inl ?_⟩
  · have hnumber := h.current f hf hcounts
    omega
  · omega
  · omega

/-- Before an iteration and at its end no reactor is still due, so the iteration is not one that
would have polled this one. -/
theorem Overdue.not_pollsReactors (h : Overdue cfg r n₀ M s) (hinv : NumbersInv cfg s) {f : Frame}
    (hf : s.stack = [f]) (hpc : f.pc = .head ∨ f.pc = .tail)
    (hlt : n₀ + cfg.statusCacheIterations < s.iterationCount) : ¬PollsReactors s := by
  rintro ⟨g, hg, hcounts, hshould⟩
  obtain rfl := List.mem_singleton.mp (hf ▸ hg)
  have hnumber := hinv.current g hg hcounts
  have hdue := h.due g hg hcounts hshould (by omega)
  rcases hpc with hpc | hpc <;> rw [hpc] at hdue <;> cases hdue

/-- **A step that rests** leaves the iteration and the reactors that are due as they are. -/
theorem Overdue.rests (h : Overdue cfg r n₀ M s) (hinv : NumbersInv cfg s)
    (hM : n₀ + cfg.statusCacheIterations ≤ M) (hrests : Rests s s')
    (hregistered : r ∈ s.reactors → r ∈ s'.reactors)
    (hrunning : (s.reactor r).running = true → (s'.reactor r).running = true)
    (hcached : (s'.reactor r).cachedRunning = (s.reactor r).cachedRunning)
    (hvalid : (s'.reactor r).cacheValidUntil = (s.reactor r).cacheValidUntil) :
    Overdue cfg r n₀ M s' := by
  have hkeep : M < s.iterationCount → PollsReactors s → PollsReactors s' := by
    rintro hlt ⟨f, hmem, hcounts, hshould⟩
    have hnumber := hinv.current f hmem hcounts
    have hdue := h.due f hmem hcounts hshould (by omega)
    obtain ⟨f', hmem', hcounts', hshould'⟩ := hrests.stays f hmem hcounts (List.ne_nil_of_mem hdue)
    exact ⟨f', hmem', hcounts', hshould'.trans hshould⟩
  refine ⟨hregistered h.registered, hrunning h.running, fun hfalse => ?_,
    fun f' hf' hcounts hshould hle => ?_, fun hlt => ?_, ?_⟩
  · rw [hvalid]
    exact h.stale (hcached ▸ hfalse)
  · obtain ⟨f, hmem, hfcounts, hiteration, hshould', hdue⟩ := hrests.frame f' hf' hcounts
    rw [hdue]
    exact h.due f hmem hfcounts (hshould' ▸ hshould) (hiteration ▸ hle)
  · rw [hrests.iterationCount] at hlt
    rw [hrests.reactorOnlyCount]
    exact (h.only hlt).imp_right (hkeep hlt)
  · rw [hrests.iterationCount]
    exact h.bound.imp_right fun hlast => ⟨hlast.1, hkeep (by omega) hlast.2⟩

/-- **An iteration begins**, and no other one was under way: if it has the number `M` or one more
interval, the reactors are due in it. -/
theorem Overdue.iterate (h : Overdue cfg r n₀ M s) (hinv : NumbersInv cfg s)
    (hinterval : 0 < cfg.reactorPollInterval) (honly : 0 < cfg.maxReactorOnly)
    (hM : n₀ + cfg.statusCacheIterations ≤ M) (hmul : M % cfg.reactorPollInterval = 0) {f : Frame}
    (hf : s.stack = [f]) (hpc : f.pc = .head) (hcall : f.call ≠ .progress) :
    Overdue cfg r n₀ M (s.iterate cfg f []) := by
  have hit := iterates hinterval f s
  obtain ⟨f₁, hstack, hcall₁, hiteration, hhead, hdue, hnumber⟩ := hit.frame
  have hmem : f₁ ∈ (s.iterate cfg f []).stack := hstack ▸ List.mem_singleton_self f₁
  have hbegun : f₁.shouldPoll = true → PollsReactors (s.iterate cfg f []) := fun hshould =>
    ⟨f₁, hmem, ⟨hcall₁ ▸ hcall, hhead⟩, hshould⟩
  have hnot : M < s.iterationCount → ¬PollsReactors s := fun hlt =>
    h.not_pollsReactors hinv hf (.inl hpc) (hM.trans_lt hlt)
  have hzero : M < s.iterationCount → s.reactorOnlyCount = 0 := fun hlt =>
    (h.only hlt).resolve_right (hnot hlt)
  have hbound : s.iterationCount ≤ M + cfg.reactorPollInterval :=
    h.bound.resolve_right fun hlast => hnot (by omega) hlast.2
  refine ⟨hit.reactors ▸ h.registered, hit.reactor ▸ h.running, hit.reactor ▸ h.stale,
    fun f' hf' _ hshould _ => ?_, fun hlt => ?_, ?_⟩
  · obtain rfl := List.mem_singleton.mp (hstack ▸ hf')
    rw [hdue hshould]
    exact h.registered
  · rw [hit.iterationCount] at hlt
    rcases Nat.lt_succ_iff_lt_or_eq.mp hlt with hlt | heq
    · exact .inl (hit.zero (hzero hlt))
    · exact (hnumber (heq ▸ hmul)).elim (fun hshould => .inr (hbegun hshould))
        fun hskip => .inl hskip.1
  · rw [hit.iterationCount]
    rcases hbound.lt_or_eq with hlt | heq
    · exact .inl hlt
    · refine .inr ⟨by rw [heq], hbegun ?_⟩
      have hmul' : s.iterationCount % cfg.reactorPollInterval = 0 := by
        rw [heq, Nat.add_mod_right, hmul]
      refine (hnumber hmul').resolve_right fun hskip => ?_
      have hcount := hzero (by omega)
      omega

/-- **The next reactor is looked at**: if it is this one, it is polled, or its status is an old
one. -/
theorem Overdue.nextReactor (h : Overdue cfg r n₀ M s) {f : Frame} {r' : ℕ} {left : List ℕ}
    {drained : Option (List ℕ)} (hf : s.stack = [f]) (hpc : f.pc = .reactors (r' :: left) drained) :
    Overdue cfg r n₀ M (s.nextReactor cfg f [] (r' :: left) drained) ∨
      (s.nextReactor cfg f [] (r' :: left) drained).attended = some r := by
  obtain ⟨hreactors, hreactor, hcount, honlyCount, f₁, hstack, hcall, hiteration, hshould, hdue,
    hhead, hattended⟩ := nextReactor_eq cfg f s r' left drained
  set s' := s.nextReactor cfg f [] (r' :: left) drained with hs'
  have hmem : f ∈ s.stack := hf ▸ List.mem_singleton_self f
  have hmem₁ : f₁ ∈ s'.stack := hstack ▸ List.mem_singleton_self f₁
  have hcounts : f.Iterating ↔ f₁.Iterating := by
    rw [Frame.Iterating, Frame.Iterating, hcall]
    exact and_congr_right fun _ => iff_of_true (by simp [hpc]) hhead
  have hkeep : PollsReactors s → PollsReactors s' := by
    rintro ⟨g, hg, hgcounts, hgshould⟩
    obtain rfl := List.mem_singleton.mp (hf ▸ hg)
    exact ⟨f₁, hmem₁, hcounts.mp hgcounts, hshould.trans hgshould⟩
  by_cases hasked : r' = r ∧ (f.reactorStatus cfg (s.reactor r')).1 = true
  · right
    rw [← hasked.1]
    exact hattended hasked.2
  -- it is asked and passed over, by a status that is still good in this iteration
  have hpassed : r' = r → s'.reactor r = s.reactor r ∧
      f.iteration < n₀ + cfg.statusCacheIterations := by
    rintro rfl
    have hstatus := fun htrue => hasked ⟨rfl, htrue⟩
    obtain ⟨hkept, hcached, hold⟩ := reactorStatus_running f h.running hstatus
    refine ⟨?_, hold.trans_le (h.stale hcached)⟩
    rw [hreactor, Function.update_self, hkept]
  have hsame : s'.reactor r = s.reactor r := by
    by_cases hr : r' = r
    · exact (hpassed hr).1
    · rw [hreactor, Function.update_of_ne (Ne.symm hr)]
  left
  refine ⟨hreactors ▸ h.registered, hsame ▸ h.running, hsame ▸ h.stale,
    fun f' hf' hcounts' hshould' hle => ?_, fun hlt => ?_, ?_⟩
  · obtain rfl := List.mem_singleton.mp (hstack ▸ hf')
    rw [hiteration] at hle
    have hwaits := h.due f hmem (hcounts.mpr hcounts') (hshould ▸ hshould') hle
    rw [hpc] at hwaits
    rw [hdue]
    rcases List.mem_cons.mp hwaits with hr | hleft
    · exact absurd (hpassed hr.symm).2 hle.not_gt
    · exact hleft
  · rw [hcount] at hlt
    rw [honlyCount]
    exact (h.only hlt).imp_right hkeep
  · rw [hcount]
    exact h.bound.imp_right fun hlast => ⟨hlast.1, hkeep hlast.2⟩

/-- **An iteration ends** that did not poll the reactors: it is not counted as one of nothing
but reactors. -/
theorem Overdue.endIteration (h : Overdue cfg r n₀ M s) (hinv : NumbersInv cfg s)
    (hM : n₀ + cfg.statusCacheIterations ≤ M) {f : Frame} (hf : s.stack = [f])
    (hpc : f.pc = .tail) : Overdue cfg r n₀ M (s.endIteration cfg f []) := by
  obtain ⟨hreactors, hreactor, hcount, honlyCount, -, hframe⟩ := endIteration_eq cfg hf
  have hmem : f ∈ s.stack := hf ▸ List.mem_singleton_self f
  have hnot : M < s.iterationCount → ¬PollsReactors s := fun hlt =>
    h.not_pollsReactors hinv hf (.inr hpc) (hM.trans_lt hlt)
  refine ⟨hreactors ▸ h.registered, hreactor ▸ h.running, hreactor ▸ h.stale,
    fun f' hf' hcounts hshould hle => ?_, fun hlt => ?_, ?_⟩
  · rcases hframe f' hf' with rfl | hhead
    · exact h.due f' hmem hcounts hshould hle
    · exact absurd hhead hcounts.2
  · rw [hcount] at hlt
    have hzero := (h.only hlt).resolve_right (hnot hlt)
    left
    rw [honlyCount, hzero, Frame.countReactorOnly]
    split_ifs with hcall hcompleted hshould
    · rfl
    · rfl
    · exact absurd ⟨f, hmem, ⟨by simp [not_not.mp hcall], by simp [hpc]⟩, hshould⟩ (hnot hlt)
    · rfl
  · rw [hcount]
    exact .inl (h.bound.resolve_right fun hlast => hnot (by omega) hlast.2)

/-- **One step**: the reactor is polled, or is still overdue. -/
theorem Overdue.step (h : Overdue cfg r n₀ M s) (hinv : NumbersInv cfg s)
    (hinterval : 0 < cfg.reactorPollInterval) (honly : 0 < cfg.maxReactorOnly)
    (hM : n₀ + cfg.statusCacheIterations ≤ M) (hmul : M % cfg.reactorPollInterval = 0)
    (hok : NotNested s e) (hstays : StaysRunning r e) (hs : Executor.step cfg s e = some s') :
    Overdue cfg r n₀ M s' ∨
      e = .move .exec ∧ s'.attended = some r ∧ s'.iterationCount = s.iterationCount := by
  rcases step_cases hinv.calls hok hs with ⟨hrests, hsame⟩ | ⟨f, hf, hpc, hcall, rfl⟩ |
    ⟨f, r', left, drained, rfl, hf, hpc, rfl⟩ | ⟨f, hf, hpc, rfl⟩
  · obtain ⟨hregistered, hrunning, hcached, hvalid⟩ := hsame r hstays
    exact .inl (h.rests hinv hM hrests hregistered hrunning hcached hvalid)
  · exact .inl (h.iterate hinv hinterval honly hM hmul hf hpc hcall)
  · have hcount := (nextReactor_eq cfg f s r' left drained).2.2.1
    exact (h.nextReactor hf hpc).imp_right fun hattended => ⟨rfl, hattended, hcount⟩
  · exact .inl (h.endIteration hinv hM hf hpc)

/-- A status is nothing to the numbers. -/
theorem NumbersInv.setRunning (h : NumbersInv cfg s) (r : ℕ) (b : Bool) :
    NumbersInv cfg (s.setRunning r b) := by
  refine ⟨by simpa [Runtime.setRunning] using h.calls, fun f' hf' hcounts => ?_, fun r' => ?_⟩
  · obtain ⟨f, hf, rfl⟩ := List.mem_map.mp hf'
    exact h.current f hf hcounts
  · have hcache := h.cache r'
    by_cases hr : r' = r
    · subst hr
      simpa [Runtime.setRunning] using hcache
    · simpa [Runtime.setRunning, hr] using hcache

theorem notNested_setRunning {b : Bool} (hok : NotNested s e) : NotNested (s.setRunning r b) e := by
  have hpolled : (s.setRunning r b).polled = s.polled :=
    congrArg Schedule.polled (Runtime.schedule_setRunning s r b)
  rw [NotNested, hpolled]
  refine fun hcalled => hok ?_
  cases e with
  | blockOn key => simp [Runtime.called]
  | _ => exact hcalled

/-- A reactor that is `Running` is looked at. -/
theorem Overdue.setRunning (h : Overdue cfg r n₀ M s) :
    Overdue cfg r n₀ M (s.setRunning r true) := by
  have hpolls : PollsReactors s → PollsReactors (s.setRunning r true) := by
    rintro ⟨f, hf, hcounts, hshould⟩
    exact ⟨_, List.mem_map_of_mem hf, hcounts, hshould⟩
  refine ⟨h.registered, ?_, ?_, fun f' hf' hcounts hshould hle => ?_,
    fun hlt => (h.only hlt).imp_right hpolls,
    h.bound.imp_right fun hlast => ⟨hlast.1, hpolls hlast.2⟩⟩
  · simp [Runtime.setRunning]
  · simpa [Runtime.setRunning] using h.stale
  · obtain ⟨f, hf, rfl⟩ := List.mem_map.mp hf'
    exact h.due f hf hcounts hshould hle

/-- A reactor that is registered stays so. -/
theorem NumbersInv.mem_reactors (h : NumbersInv cfg s) (hok : NotNested s e)
    (hs : Executor.step cfg s e = some s') (hr : r ∈ s.reactors) : r ∈ s'.reactors := by
  by_cases hstays : StaysRunning r e
  · rcases step_cases h.calls hok hs with ⟨-, hsame⟩ | ⟨f, -, -, -, rfl⟩ |
      ⟨f, r', left, drained, -, -, -, rfl⟩ | ⟨f, hf, -, rfl⟩
    · exact (hsame r hstays).1 hr
    · simp only [Runtime.iterate]
      split
      · exact hr
      · split <;> exact hr
    · exact hr
    · rw [(endIteration_eq cfg hf).1]
      exact hr
  · -- its status changes, or it is registered once more
    obtain ⟨-, hs⟩ := Option.ite_none_left_eq_some.mp hs
    cases e with
    | setRunning r' b =>
      obtain rfl := Option.some.inj hs
      exact hr
    | register r' order =>
      obtain ⟨⟨-, hperm⟩, hs⟩ := Option.ite_none_right_eq_some.mp hs
      obtain rfl := Option.some.inj hs
      by_cases hne : r = r'
      · exact hperm.mem_iff.mpr (hne ▸ List.mem_cons_self ..)
      · exact hperm.mem_iff.mpr (List.mem_cons_of_mem _ ((List.mem_erase_of_ne hne).mpr hr))
    | _ => exact absurd ⟨by simp, by simp⟩ hstays

/-- The frame that is polling a reactor. -/
theorem attended_eq_some : s.attended = some r ↔
    ∃ f below left drained, s.stack = f :: below ∧ f.pc = .reactor r left drained := by
  rw [Runtime.attended]
  rcases s.stack with - | ⟨f, below⟩
  · simp
  · cases hpc : f.pc <;> simp [Pc.attended, hpc]

theorem attended_setRunning (s : Runtime) (r : ℕ) (b : Bool) :
    (s.setRunning r b).attended = s.attended := by
  rw [Runtime.attended, Runtime.attended, Runtime.setRunning]
  cases s.stack <;> rfl

/-- **While a reactor is being polled**, no iteration begins, and no other move is made. -/
theorem attended_step (h : s.attended = some r) (he : e ≠ .move .reactorDone)
    (hs : Executor.step cfg s e = some s') :
    s'.attended = some r ∧ s'.iterationCount = s.iterationCount := by
  obtain ⟨f, below, left, drained, hstack, hpc⟩ := attended_eq_some.mp h
  have hcode : s.code = .reactor := by simp only [Runtime.code, hstack, hpc]
  obtain ⟨-, hs⟩ := Option.ite_none_left_eq_some.mp hs
  cases e with
  | move m =>
    simp only [hstack, hpc] at hs
    cases m with
    | reactorDone => exact absurd rfl he
    | _ => cases hs
  | runQueue | progress =>
    obtain ⟨hin, -⟩ := Option.ite_none_right_eq_some.mp hs
    simp [hcode] at hin
  | blockOn key =>
    obtain ⟨⟨hin, -⟩, -⟩ := Option.ite_none_right_eq_some.mp hs
    simp [hcode] at hin
  | register r' order =>
    obtain ⟨⟨hin, -⟩, -⟩ := Option.ite_none_right_eq_some.mp hs
    simp [hcode] at hin
  | spawn q key | wake f | requestShutdown =>
    obtain ⟨-, hs⟩ := Option.ite_none_right_eq_some.mp hs
    obtain rfl := Option.some.inj hs
    exact ⟨h, rfl⟩
  | setRunning r' b =>
    obtain rfl := Option.some.inj hs
    exact ⟨(attended_setRunning s r' b).trans h, rfl⟩

end Overdue

/-! ### Every run -/

section Runs

variable {cfg : SchedulingConfig} {s s' : Attended} {e : Event} {r n₀ M p : ℕ}

theorem numbersInv_start (cfg : SchedulingConfig) : NumbersInv cfg start where
  calls := Nat.zero_le 1
  current := fun f hf => by cases hf
  cache := fun _ => Nat.zero_le _

/-- A step, and the polls of the reactors. -/
theorem attendedStep_eq_some (h : attendedStep cfg s e = some s') :
    ∃ rt, step cfg s.runtime e = some rt ∧ s' = {
      runtime := rt
      polls := fun r => s.polls r + if e = .move .exec ∧ rt.attended = some r then 1 else 0 } := by
  obtain ⟨rt, hrt, rfl⟩ := Option.map_eq_some_iff.mp h
  exact ⟨rt, hrt, rfl⟩

/-- **A reactor that waits**: it has been polled since, or is overdue. -/
structure Waits (cfg : SchedulingConfig) (r n₀ M p : ℕ) (s : Attended) : Prop where
  numbers : NumbersInv cfg s.runtime
  le : p ≤ s.polls r
  polled : p < s.polls r ∨ Overdue cfg r n₀ M s.runtime

/-- A step polls the reactor, or leaves it waiting for no longer than it should. -/
theorem Waits.step (h : Waits cfg r n₀ M p s) (hinterval : 0 < cfg.reactorPollInterval)
    (honly : 0 < cfg.maxReactorOnly) (hM : n₀ + cfg.statusCacheIterations ≤ M)
    (hmul : M % cfg.reactorPollInterval = 0) (hok : AttendedNotNested s e)
    (hstays : StaysRunning r e) (hs : attendedStep cfg s e = some s') :
    Waits cfg r n₀ M p s' := by
  obtain ⟨rt, hrt, rfl⟩ := attendedStep_eq_some hs
  refine ⟨h.numbers.step hinterval hok hrt, h.le.trans (Nat.le_add_right ..), ?_⟩
  rcases h.polled with hpolled | hoverdue
  · exact .inl (hpolled.trans_le (Nat.le_add_right ..))
  · rcases hoverdue.step h.numbers hinterval honly hM hmul hok hstays hrt with hoverdue' | hpoll
    · exact .inr hoverdue'
    · left
      simp only [if_pos (And.intro hpoll.1 hpoll.2.1)]
      exact Nat.lt_succ_of_le h.le

/-- The first multiple of an interval. -/
theorem exists_multiple (a : ℕ) {k : ℕ} (hk : 0 < k) : ∃ m, m % k = 0 ∧ a ≤ m ∧ m < a + k := by
  have hdiv := Nat.div_add_mod (a + k - 1) k
  have hmod := Nat.mod_lt (a + k - 1) hk
  exact ⟨k * ((a + k - 1) / k), Nat.mul_mod_right .., by omega, by omega⟩

/-- **No reactor is forgotten**: in a run in which no task drives the runtime from inside its
own poll, a registered reactor that stays `Running` is polled before so many iterations have
begun. -/
theorem reactor_polled_within (cfg : SchedulingConfig) (hinterval : 0 < cfg.reactorPollInterval)
    (honly : 0 < cfg.maxReactorOnly) {es es' : List Event} {s s' : Attended} {r : ℕ}
    (hok : EachStep (attendedStep cfg) AttendedNotNested attendedStart es)
    (hrun : runList (attendedStep cfg) attendedStart es = some s)
    (hok' : EachStep (attendedStep cfg) (fun s e => AttendedNotNested s e ∧ StaysRunning r e) s es')
    (hrun' : runList (attendedStep cfg) s es' = some s') (hregistered : r ∈ s.runtime.reactors)
    (hrunning : (s.runtime.reactor r).running = true)
    (hlong : s.runtime.iterationCount + cfg.statusCacheIterations + 2 * cfg.reactorPollInterval <
      s'.runtime.iterationCount) :
    s.polls r < s'.polls r := by
  have hkeep : ∀ u e u', NumbersInv cfg u.runtime → AttendedNotNested u e →
      attendedStep cfg u e = some u' → NumbersInv cfg u'.runtime := by
    intro u e u' h hok hs
    obtain ⟨rt, hrt, rfl⟩ := attendedStep_eq_some hs
    exact h.step hinterval hok hrt
  have hnumbers : NumbersInv cfg s.runtime :=
    (always_of_invariant (fun _ h => h) hkeep (numbersInv_start cfg) hok).last hrun
  obtain ⟨M, hmul, hM, hlt⟩ :=
    exists_multiple (s.runtime.iterationCount + cfg.statusCacheIterations) hinterval
  have hwaits : Waits cfg r s.runtime.iterationCount M (s.polls r) s' :=
    (always_of_invariant (fun _ h => h)
      (fun _ _ _ h hok hs => Waits.step h hinterval honly hM hmul hok.1 hok.2 hs)
      ⟨hnumbers, le_rfl, .inr (hnumbers.overdue hregistered hrunning hM)⟩ hok').last hrun'
  refine hwaits.polled.resolve_right fun hoverdue => ?_
  rcases hoverdue.bound with hle | ⟨heq, -⟩
  · omega
  · omega

/-- Moves call nothing, and leave the reactors as they are. -/
theorem attendedNotNested_moves (cfg : SchedulingConfig) (s : Attended) (r : ℕ) (ms : List Move) :
    EachStep (attendedStep cfg) (fun s e => AttendedNotNested s e ∧ StaysRunning r e) s
      (ms.map .move) := by
  induction ms generalizing s with
  | nil => trivial
  | cons m ms ih => exact fun s' _ => ⟨⟨absurd rfl, by simp, by simp⟩, ih s'⟩

/-- The reactors are polled in every iteration, and no status is kept. -/
def everyIteration : SchedulingConfig :=
  { SchedulingConfig.default with reactorPollInterval := 1, statusCacheIterations := 0 }

/-- A task is spawned, and a reactor is `Running`. -/
def runningReactor : List Event := [.spawn .task 0, .register 0 [0], .setRunning 0 true]

/-- Three iterations of `run_queue` with a task that stays pending. -/
def threeRounds : List Move :=
  [.exec, .exec, .reactorDone, .exec, .exec, .exec, .pending, .exec, .exec] ++
    [.exec, .exec, .reactorDone, .exec, .exec, .exec, .exec] ++ [.exec, .exec, .reactorDone]

/-- The reactor is polled in one of them. -/
theorem reactor_polled_within_threeRounds :
    ∃ s s', runList (attendedStep everyIteration) attendedStart (runningReactor ++ [.runQueue]) =
        some s ∧
      runList (attendedStep everyIteration) s (threeRounds.map .move) = some s' ∧
        s.polls 0 < s'.polls 0 := by
  have hok : EachStep (attendedStep everyIteration) AttendedNotNested attendedStart
      (runningReactor ++ [.runQueue]) := by
    refine fun s₁ h₁ => ⟨absurd rfl, fun s₂ h₂ => ⟨absurd rfl, fun s₃ h₃ => ⟨absurd rfl,
      fun _ _ => ⟨fun _ => ?_, trivial⟩⟩⟩⟩
    obtain rfl := Option.some.inj h₁
    obtain rfl := Option.some.inj h₂
    obtain rfl := Option.some.inj h₃
    rfl
  refine ⟨_, _, rfl, rfl, reactor_polled_within everyIteration Nat.one_pos (by decide) hok rfl
    (attendedNotNested_moves everyIteration _ 0 threeRounds) rfl ?_ rfl ?_⟩
  · exact List.mem_singleton_self 0
  · exact Nat.le_of_ble_eq_true rfl

end Runs

end Executor

end Pluvio
