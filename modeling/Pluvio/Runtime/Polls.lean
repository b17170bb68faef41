import Pluvio.Runtime.Wakeup

/-!
# Polls of futures

What a step of the executor does to the futures: which polls begin and end, which futures
complete, and which ids still wait. A future that has been woken stays so until its next
poll begins (`Pluvio.Executor.Schedule.Step.woken`), an id that waits does so until then
(`Pluvio.Executor.Schedule.Step.queued`), and a future falls asleep when its poll ends with
`Pending`, and then only (`Pluvio.Executor.Runtime.awake_step`).
-/

namespace Pluvio

namespace Executor

/-- The future whose body runs. -/
def Runtime.running (s : Runtime) : Option ℕ :=
  s.stack.head?.bind fun f => f.pc.polled.map fun polled => polled.2.future

/-- The futures that are being polled. -/
def Runtime.pollees (s : Runtime) : List ℕ := s.polled.map fun polled => polled.2.future

/-- The id of a future waits. -/
def Queued (s : Runtime) (f : ℕ) : Prop := (s.pool.address f).2 ∈ s.waiting (s.pool.address f).1

/-- The future is being polled, or its id waits. -/
def Awake (s : Runtime) (f : ℕ) : Prop := f ∈ s.pollees ∨ Queued s f

/-- A poll of the future has begun. -/
def Began (s s' : Runtime) (f : ℕ) : Prop := f ∈ s'.pollees ∧ f ∉ s.pollees

instance (s s' : Runtime) (f : ℕ) : Decidable (Began s s' f) := inferInstanceAs (Decidable (_ ∧ _))

/-! ### In a schedule -/

section Schedule

variable {v v' : Schedule} {label : Option (ℕ × Bool)}

/-- The futures of a schedule that are being polled. -/
def Schedule.pollees (v : Schedule) : List ℕ := v.polled.map fun polled => polled.2.future

/-- A task in its slot is not being polled. -/
theorem Schedule.not_mem_pollees (hinv : PoolInv v.pool v.polled) {id : ℕ} {t : Task}
    (ht : v.pool.entry id = some (some t)) : t.future ∉ v.pollees := by
  intro hmem
  obtain ⟨⟨id', t'⟩, hpolled, hfuture⟩ := List.mem_map.mp hmem
  obtain ⟨-, haddr, -⟩ := hinv.holds id t (.inl ht)
  obtain ⟨-, haddr', -⟩ := hinv.holds id' t' (.inr hpolled)
  obtain rfl : id' = id := congrArg Prod.snd (haddr'.symm.trans ((congrArg _ hfuture).trans haddr))
  cases ht.symm.trans (hinv.entry_polled hpolled)

/-- **A future that has been woken** stays so until its next poll begins. -/
theorem Schedule.Step.woken (h : v.Step label v') (hinv : PoolInv v.pool v.polled) {f : ℕ}
    (hf : v.woken f = true) : v'.woken f = true ∨ f ∈ v'.pollees ∧ f ∉ v.pollees := by
  cases h with
  | quiet => exact .inl hf
  | wake g hg =>
    left
    by_cases hfg : f = g
    · rw [hfg]
      exact Function.update_self ..
    · exact (Function.update_of_ne hfg ..).trans hf
  | spawn => exact .inl hf
  | take q id b rest hw =>
    rcases hentry : (v.take q rest).pool.entry id with - | - | t
    · rw [Schedule.pollTask_vacant hentry]
      exact .inl hf
    · rw [Schedule.pollTask_empty hentry]
      exact .inl hf
    · rw [Schedule.pollTask_task hentry]
      by_cases hft : f = t.future
      · rw [hft]
        exact .inr ⟨List.mem_cons_self .., Schedule.not_mem_pollees hinv hentry⟩
      · exact .inl ((Function.update_of_ne hft ..).trans hf)
  | pending => exact .inl hf
  | ready => exact .inl hf

/-- More futures have been spawned after a step. -/
theorem Schedule.Step.spawned_le (h : v.Step label v') (hinv : PoolInv v.pool v.polled) :
    v.pool.spawned ≤ v'.pool.spawned := by
  cases h with
  | quiet | wake => exact le_rfl
  | spawn => exact Nat.le_succ _
  | take q id b rest hw =>
    rcases hentry : (v.take q rest).pool.entry id with - | - | t
    · rw [Schedule.pollTask_vacant hentry]
      exact le_rfl
    · rw [Schedule.pollTask_empty hentry]
      exact le_rfl
    · rw [Schedule.pollTask_task hentry]
      exact le_rfl
  | pending id t outer hp =>
    have heq := (hp ▸ hinv).putBack_eq
    rw [heq]
  | ready id t outer P hp hP =>
    obtain rfl := Except.ok.inj ((hp ▸ hinv).complete_eq.symm.trans hP)
    exact le_rfl

/-- **An id that waits** does so until the poll of its future begins. -/
theorem Schedule.Step.queued (h : v.Step label v') (hinv : PoolInv v.pool v.polled) {f : ℕ}
    (hf : v'.pool.Live f)
    (hq : v.pool.Live f → (v.pool.address f).2 ∈ v.waiting (v.pool.address f).1) :
    f ∈ v'.pollees ∨ (v'.pool.address f).2 ∈ v'.waiting (v'.pool.address f).1 := by
  cases h with
  | quiet => exact .inr (hq hf)
  | wake => exact .inr (Schedule.mem_send (hq hf))
  | spawn q id hid =>
    right
    by_cases hnew : f = v.pool.spawned
    · have haddr : (v.spawn q id).pool.address f = (q, id) := by
        rw [hnew]
        exact Function.update_self ..
      rw [haddr]
      exact Schedule.mem_send_self ..
    · have haddr : (v.spawn q id).pool.address f = v.pool.address f :=
        Function.update_of_ne hnew ..
      rw [haddr]
      exact Schedule.mem_send (hq ⟨lt_of_le_of_ne (Nat.le_of_lt_succ hf.1) hnew, hf.2⟩)
  | take q id b rest hw =>
    rcases hentry : (v.take q rest).pool.entry id with - | - | t
    · rw [Schedule.pollTask_vacant hentry] at hf ⊢
      have hne : (v.pool.address f).2 ≠ id := fun heq =>
        hinv.entry_ne_none hf (heq ▸ hentry)
      exact .inr (Schedule.mem_take_of_ne hw (hq hf) hne)
    · rw [Schedule.pollTask_empty hentry] at hf ⊢
      by_cases heq : (v.pool.address f).2 = id
      · -- the future is being polled
        obtain ⟨t, ht | ht, rfl⟩ := hinv.live f hf
        · rw [heq] at ht
          cases ht.symm.trans hentry
        · exact .inl (List.mem_map_of_mem (f := fun polled => polled.2.future) ht)
      · exact .inr (Schedule.mem_take_of_ne hw (hq hf) heq)
    · rw [Schedule.pollTask_task hentry] at hf ⊢
      by_cases heq : (v.pool.address f).2 = id
      · obtain rfl := hinv.entry_live hf (heq ▸ hentry)
        exact .inl (List.mem_cons_self ..)
      · exact .inr (Schedule.mem_take_of_ne hw (hq hf) heq)
  | pending id t outer hp =>
    have heq := (hp ▸ hinv).putBack_eq
    rw [heq] at hf ⊢
    exact .inr (hq hf)
  | ready id t outer P hp hP =>
    obtain rfl := Except.ok.inj ((hp ▸ hinv).complete_eq.symm.trans hP)
    exact .inr (hq ⟨hf.1, List.not_mem_of_not_mem_cons hf.2⟩)

/-- Futures that have completed stay so. -/
theorem Schedule.Step.completed_subset (h : v.Step label v') (hinv : PoolInv v.pool v.polled)
    {f : ℕ} (hf : f ∈ v.pool.completed) : f ∈ v'.pool.completed := by
  cases h with
  | quiet | wake | spawn => exact hf
  | take q id b rest hw =>
    rcases hentry : (v.take q rest).pool.entry id with - | - | t
    · rw [Schedule.pollTask_vacant hentry]
      exact hf
    · rw [Schedule.pollTask_empty hentry]
      exact hf
    · rw [Schedule.pollTask_task hentry]
      exact hf
  | pending id t outer hp =>
    have heq := (hp ▸ hinv).putBack_eq
    rw [heq]
    exact hf
  | ready id t outer P hp hP =>
    obtain rfl := Except.ok.inj ((hp ▸ hinv).complete_eq.symm.trans hP)
    exact List.mem_cons_of_mem _ hf

/-- **The id of a live future is taken**: its poll begins, if no other one is under way. -/
theorem Schedule.Step.began {id : ℕ} {b : Bool} (h : v.Step (some (id, b)) v')
    (hinv : PoolInv v.pool v.polled) (hidle : v.polled = []) {f : ℕ} (hf : v.pool.Live f)
    (hid : (v.pool.address f).2 = id) : f ∈ v'.pollees := by
  cases h with
  | take q id b rest hw =>
    rcases hentry : (v.take q rest).pool.entry id with - | - | t
    · exact absurd (hid ▸ hentry) (hinv.entry_ne_none hf)
    · have hmem := (hinv.empty_iff id).mp hentry
      rw [hidle] at hmem
      cases hmem
    · rw [Schedule.pollTask_task hentry]
      obtain rfl := hinv.entry_live hf (hid ▸ hentry)
      exact List.mem_cons_self ..

end Schedule

/-! ### In a runtime -/

section Runtime

variable {cfg : SchedulingConfig} {s s' : Runtime} {e : Event} {f : Frame} {below : List Frame}

/-- **What a move of the innermost call does to the schedule**: nothing, or a loop goes on to
its next task, or the poll of a task ends. -/
theorem Runtime.move_cases {m : Move} (hs : s.stack = f :: below)
    (h : s.move cfg f below f.pc m = some s') : s'.schedule = s.schedule ∨
      (∃ p, s' = s.nextTask cfg f below p) ∨
      (∃ p id t, m = .pending ∧ s' = s.taskPending f below p id t) ∨ m = .ready := by
  generalize hpc : f.pc = pc at h
  unfold move at h
  split at h
  · obtain rfl := Option.some.inj h
    exact .inl (schedule_loopHead hs hpc)
  · obtain rfl := Option.some.inj h
    exact .inl (schedule_nextReactor hs hpc)
  · obtain rfl := Option.some.inj h
    refine .inl (schedule_resume hs (by rw [hpc]; rfl) ?_)
    rw [hpc]
    funext q
    rcases q with _ | _ <;> rfl
  · obtain rfl := Option.some.inj h
    exact .inr (.inl ⟨_, rfl⟩)
  · obtain rfl := Option.some.inj h
    exact .inr (.inr (.inl ⟨_, _, _, rfl, rfl⟩))
  · exact .inr (.inr (.inr rfl))
  · obtain rfl := Option.some.inj h
    refine .inl (schedule_resume hs (by rw [hpc]; rfl) ?_)
    rw [hpc]
    funext q
    rcases q with _ | _ <;> rfl
  · obtain rfl := Option.some.inj h
    exact .inl (schedule_endIteration hs hpc)
  · cases h

/-- A poll that begins completes nothing. -/
theorem Runtime.completed_pollTask (s : Runtime) (f : Frame) (below : List Frame) (p : Pass)
    (id : ℕ) : (s.pollTask f below p id).pool.completed = s.pool.completed := by
  rw [pollTask]
  split <;> rfl

/-- Nor does the next task of a loop. -/
theorem Runtime.completed_nextTask (p : Pass) :
    (s.nextTask cfg f below p).pool.completed = s.pool.completed := by
  unfold nextTask
  split
  · exact completed_pollTask ..
  · split_ifs <;> rfl
  · exact completed_pollTask ..
  · rfl
  · split
    · split
      · exact completed_pollTask ..
      · rfl
    · rfl

/-- Nor does a poll that ends with `Pending`. -/
theorem Runtime.completed_taskPending (p : Pass) (id : ℕ) (t : Task) :
    (s.taskPending f below p id t).pool.completed = s.pool.completed := by
  rw [taskPending]
  split
  · show (s.pool.putBack id t).completed = _
    rw [TaskPool.putBack]
    split <;> rfl
  · rfl

/-- **Futures complete** when their poll is ready, and then only. -/
theorem Runtime.completed_move {m : Move} (hs : s.stack = f :: below) (hm : m ≠ .ready)
    (h : s.move cfg f below f.pc m = some s') : s'.pool.completed = s.pool.completed := by
  rcases move_cases hs h with heq | ⟨p, rfl⟩ | ⟨p, id, t, -, rfl⟩ | hready
  · exact congrArg (fun v => v.pool.completed) heq
  · exact completed_nextTask p
  · exact completed_taskPending p id t
  · exact absurd hready hm

/-- **The end of a poll**: it is that of the future whose body runs. -/
theorem Runtime.pollees_move {m : Move} {g : ℕ} (hs : s.stack = f :: below)
    (hp : s.panicked = none) (h : s.move cfg f below f.pc m = some s') (hg : g ∈ s.pollees)
    (hg' : g ∉ s'.pollees) : s.running = some g ∧ (m = .pending ∨ m = .ready) := by
  have hbelow : g ∉ below.filterMap fun f => f.pc.polled.map fun polled => polled.2.future := by
    intro hmem
    refine hg' ?_
    rcases (stack_move hs hp h).1 with hs' | ⟨f', hs', -⟩
    · rw [pollees, polled, hs', List.map_filterMap]
      exact hmem
    · rw [pollees, polled, hs', List.map_filterMap, List.filterMap_cons]
      split
      · exact hmem
      · exact List.mem_cons_of_mem _ hmem
  rw [pollees, polled, hs, List.map_filterMap, List.filterMap_cons] at hg
  split at hg
  · exact absurd hg hbelow
  · next g' hg'' =>
    obtain rfl := (List.mem_cons.mp hg).resolve_right hbelow
    have hrunning : s.running = some g := by
      rw [running, hs]
      exact hg''
    refine ⟨hrunning, ?_⟩
    rcases hpc : f.pc with _ | _ | _ | _ | ⟨p, id, t⟩ | _ | _ <;> rw [hpc] at hg'' h
    case task =>
      rcases m with _ | _ | _ | _ | _
      case pending => exact .inl rfl
      case ready => exact .inr rfl
      all_goals cases h
    all_goals cases hg''

/-- **A step that is not the end of a task.** -/
theorem Runtime.completed_step (h : step cfg s e = some s') (he : e ≠ .move .ready) :
    s'.pool.completed = s.pool.completed := by
  obtain ⟨-, h⟩ := Option.ite_none_left_eq_some.mp h
  match e with
  | .move m =>
    rcases hs : s.stack with - | ⟨f, below⟩
    · simp only [hs] at h
      cases h
    · simp only [hs] at h
      exact completed_move hs (fun hm => he (congrArg _ hm)) h
  | .runQueue | .blockOn key | .progress | .spawn q key | .wake future | .requestShutdown
  | .register r order =>
    obtain ⟨-, h⟩ := Option.ite_none_right_eq_some.mp h
    obtain rfl := Option.some.inj h
    rfl
  | .setRunning r running =>
    obtain rfl := Option.some.inj h
    rfl

/-- **The end of a poll** is a move of the innermost call. -/
theorem Runtime.pollees_step {g : ℕ} (h : step cfg s e = some s') (hg : g ∈ s.pollees)
    (hg' : g ∉ s'.pollees) :
    s.running = some g ∧ (e = .move .pending ∨ e = .move .ready) := by
  obtain ⟨hp, h⟩ := Option.ite_none_left_eq_some.mp h
  match e with
  | .move m =>
    rcases hs : s.stack with - | ⟨f, below⟩
    · simp only [hs] at h
      cases h
    · simp only [hs] at h
      obtain ⟨hrunning, hm⟩ := pollees_move hs (not_not.mp hp) h hg hg'
      exact ⟨hrunning, hm.imp (congrArg _) (congrArg _)⟩
  | .runQueue | .blockOn key | .progress | .spawn q key | .wake future | .requestShutdown
  | .register r order =>
    obtain ⟨-, h⟩ := Option.ite_none_right_eq_some.mp h
    obtain rfl := Option.some.inj h
    exact absurd hg hg'
  | .setRunning r running =>
    obtain rfl := Option.some.inj h
    have heq : (s.setRunning r running).pollees = s.pollees :=
      congrArg Schedule.pollees (schedule_setRunning s r running)
    exact absurd (heq ▸ hg) hg'

/-- The future whose body runs, and its task. -/
theorem Runtime.running_eq_some {g : ℕ} (h : s.running = some g) : ∃ f below p id t,
    s.stack = f :: below ∧ f.pc = .task p id t ∧ t.future = g := by
  obtain ⟨f, hf, h⟩ := Option.bind_eq_some_iff.mp h
  obtain ⟨polled, hpolled, rfl⟩ := Option.map_eq_some_iff.mp h
  obtain ⟨below, hs⟩ : ∃ below, s.stack = f :: below :=
    ⟨s.stack.tail, (List.cons_head?_tail hf).symm⟩
  rcases hpc : f.pc with _ | _ | _ | _ | ⟨p, id, t⟩ | _ | _ <;> rw [hpc] at hpolled
  case task =>
    obtain rfl := Option.some.inj hpolled
    exact ⟨f, below, p, id, t, hs, hpc, rfl⟩
  all_goals cases hpolled

/-- **The end of a task**: its future has completed, and nothing else has changed for the
futures. -/
theorem Runtime.ready_step (hinv : TasksInv s) {g : ℕ} (hg : s.running = some g)
    (h : step cfg s (.move .ready) = some s') : s'.pool.completed = g :: s.pool.completed ∧
      s'.pool.spawned = s.pool.spawned ∧ s'.woken = s.woken ∧
        ∀ f, f ∈ s'.pollees → f ∈ s.pollees := by
  obtain ⟨f, below, p, id, t, hs, hpc, rfl⟩ := running_eq_some hg
  obtain ⟨-, h⟩ := Option.ite_none_left_eq_some.mp h
  simp only [hs, hpc] at h
  obtain rfl := Option.some.inj h
  have hpool := polled_of_task hs hpc ▸ hinv.pool
  have hstat := (hpool.holds id t (.inr (List.mem_cons_self ..))).2.2
  rw [taskReady, if_pos hstat, hpool.complete_eq]
  refine ⟨rfl, rfl, rfl, fun g hg => ?_⟩
  have hpolled : s.polled = (id, t) :: below.filterMap (·.pc.polled) := polled_of_task hs hpc
  rw [pollees, hpolled]
  exact List.mem_cons_of_mem _ hg

/-- A future whose body runs is being polled. -/
theorem Runtime.mem_pollees {g : ℕ} (h : s.running = some g) : g ∈ s.pollees := by
  obtain ⟨f, below, p, id, t, hs, hpc, rfl⟩ := running_eq_some h
  rw [pollees, polled_of_task hs hpc]
  exact List.mem_cons_self ..

/-- **A future falls asleep** when its poll ends with `Pending`, and then only. -/
theorem Runtime.awake_step (hinv : TasksInv s) (h : step cfg s e = some s') {g : ℕ}
    (hg : s'.pool.Live g) (hawake : s.pool.Live g → Awake s g) :
    Awake s' g ∨ s.running = some g ∧ e = .move .pending := by
  by_cases hq : s.pool.Live g → Queued s g
  · exact .inl ((step_schedule h).queued hinv.pool hg hq)
  · obtain ⟨hlive, hq⟩ := Classical.not_imp.mp hq
    have hpolled := (hawake hlive).resolve_right hq
    by_cases hpolled' : g ∈ s'.pollees
    · exact .inl (.inl hpolled')
    · obtain ⟨hrunning, he⟩ := pollees_step h hpolled hpolled'
      refine .inr ⟨hrunning, he.resolve_right fun he => ?_⟩
      rw [he] at h
      refine hg.2 ?_
      rw [(ready_step hinv hrunning h).1]
      exact List.mem_cons_self ..

end Runtime

end Executor

end Pluvio
