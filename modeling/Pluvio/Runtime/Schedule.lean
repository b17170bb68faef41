import Pluvio.Runtime.Executor
import Mathlib.Algebra.BigOperators.Group.List.Basic
import Mathlib.Algebra.Order.Group.Multiset

/-!
# What is waiting to be polled

Most of what the loops of the executor do moves ids between a queue and a buffer. For
the tasks it does not matter where an id is: it waits, until a loop takes it. This
module forgets the control of the executor and keeps four things
(`Pluvio.Executor.Schedule`): the pool, the tasks being polled, the ids waiting for each
of the two kinds of tasks, and the mark that says who has been woken.

A schedule has six transitions (`Pluvio.Executor.Schedule.Step`), and every step of
the executor is one of them (`Pluvio.Executor.step_schedule`), labelled with the id it
takes. What is proved about the tasks of a runtime is proved of its schedule.
-/

namespace Pluvio

namespace Executor

/-! ### Schedules -/

/-- A runtime without its control. -/
@[ext]
structure Schedule where
  pool : TaskPool
  /-- The tasks being polled, the innermost one first. -/
  polled : List (ℕ × Task)
  waiting : Queue → Multiset ℕ
  woken : ℕ → Bool

namespace Schedule

/-- One more id waits in a queue. -/
def send (v : Schedule) (q : Queue) (id : ℕ) : Schedule :=
  { v with waiting := Function.update v.waiting q (id ::ₘ v.waiting q) }

/-- An id is taken, and `rest` are left. -/
def take (v : Schedule) (q : Queue) (rest : Multiset ℕ) : Schedule :=
  { v with waiting := Function.update v.waiting q rest }

/-- A waker that is invoked sends the id of its future. -/
def wake (v : Schedule) (f : ℕ) : Schedule :=
  { v with woken := Function.update v.woken f true }.send (v.pool.address f).1
    (v.pool.address f).2

/-- A task is spawned under a key. -/
def spawn (v : Schedule) (q : Queue) (id : ℕ) : Schedule :=
  { v with pool := v.pool.insert q id }.send q id

/-- An id that has been taken is polled, if its task is there. -/
def pollTask (v : Schedule) (id : ℕ) : Schedule :=
  match v.pool.entry id with
  | none | some none => v
  | some (some t) => { v with
      pool := v.pool.takeOut id
      polled := (id, t) :: v.polled
      woken := Function.update v.woken t.future false }

theorem waiting_send_self (v : Schedule) (q : Queue) (id : ℕ) :
    (v.send q id).waiting q = id ::ₘ v.waiting q :=
  Function.update_self ..

theorem waiting_send_of_ne (v : Schedule) {q q' : Queue} (id : ℕ) (hne : q' ≠ q) :
    (v.send q id).waiting q' = v.waiting q' :=
  Function.update_of_ne hne ..

theorem waiting_take_self (v : Schedule) (q : Queue) (rest : Multiset ℕ) :
    (v.take q rest).waiting q = rest :=
  Function.update_self ..

theorem waiting_take_of_ne (v : Schedule) {q q' : Queue} (rest : Multiset ℕ) (hne : q' ≠ q) :
    (v.take q rest).waiting q' = v.waiting q' :=
  Function.update_of_ne hne ..

variable {v : Schedule} {id : ℕ}

theorem pollTask_vacant (h : v.pool.entry id = none) : v.pollTask id = v := by
  rw [pollTask, h]

theorem pollTask_empty (h : v.pool.entry id = some none) : v.pollTask id = v := by
  rw [pollTask, h]

theorem pollTask_task {t : Task} (h : v.pool.entry id = some (some t)) :
    v.pollTask id = { v with
      pool := v.pool.takeOut id
      polled := (id, t) :: v.polled
      woken := Function.update v.woken t.future false } := by
  rw [pollTask, h]

/-- The transitions of a schedule, with the id that is taken, and whether a call of
`progress` takes it. -/
inductive Step (v : Schedule) : Option (ℕ × Bool) → Schedule → Prop
  /-- Nothing that matters to the tasks. -/
  | quiet : v.Step none v
  | wake (f : ℕ) : f < v.pool.spawned → v.Step none (v.wake f)
  | spawn (q : Queue) (id : ℕ) : v.pool.entry id = none → v.Step none (v.spawn q id)
  /-- A loop takes an id. -/
  | take (q : Queue) (id : ℕ) (b : Bool) (rest : Multiset ℕ) : v.waiting q = id ::ₘ rest →
      v.Step (some (id, b)) ((v.take q rest).pollTask id)
  /-- The innermost poll ends with `Pending`. -/
  | pending (id : ℕ) (t : Task) (outer : List (ℕ × Task)) : v.polled = (id, t) :: outer →
      v.Step none { v with pool := v.pool.putBack id t, polled := outer }
  /-- The innermost poll ends with `Ready`. -/
  | ready (id : ℕ) (t : Task) (outer : List (ℕ × Task)) (P : TaskPool) :
      v.polled = (id, t) :: outer → v.pool.complete id t = .ok P →
      v.Step none { v with pool := P, polled := outer }

/-- Nothing has happened to the tasks. -/
theorem Step.of_eq {v' : Schedule} (h : v' = v) : v.Step none v' := h ▸ .quiet

/-- **A transition keeps the tasks where they belong.** -/
theorem Step.poolInv {v' : Schedule} {label : Option (ℕ × Bool)} (h : v.Step label v')
    (hinv : PoolInv v.pool v.polled) : PoolInv v'.pool v'.polled := by
  cases h with
  | quiet => exact hinv
  | wake => exact hinv
  | spawn q id hid => exact hinv.insert q hid
  | take q id b rest hw =>
    rw [pollTask]
    split
    · exact hinv
    · exact hinv
    · next t ht => exact hinv.takeOut ht
  | pending id t outer hp => exact (hp ▸ hinv).putBack
  | ready id t outer P hp hP => exact (hp ▸ hinv).complete hP

/-- Futures are not forgotten, and their addresses stay. -/
theorem Step.address_eq {v' : Schedule} {label : Option (ℕ × Bool)}
    (h : v.Step label v') (hinv : PoolInv v.pool v.polled) {f : ℕ} (hf : f < v.pool.spawned) :
    f < v'.pool.spawned ∧ v'.pool.address f = v.pool.address f := by
  cases h with
  | quiet => exact ⟨hf, rfl⟩
  | wake => exact ⟨hf, rfl⟩
  | spawn q id hid => exact ⟨Nat.lt_succ_of_lt hf, Function.update_of_ne (Nat.ne_of_lt hf) ..⟩
  | take q id b rest hw =>
    rw [pollTask]
    split <;> exact ⟨hf, rfl⟩
  | pending id t outer hp =>
    rw [TaskPool.putBack]
    split <;> exact ⟨hf, rfl⟩
  | ready id t outer P hp hP =>
    obtain rfl := Except.ok.inj ((PoolInv.complete_eq (P := v.pool) (hp ▸ hinv)).symm.trans hP)
    exact ⟨hf, rfl⟩

end Schedule

/-! ### The schedule of a runtime -/

/-- What a loop has still to go over. -/
def Pass.unprocessed : Pass → Queue → List ℕ
  | .polling ids, .polling => ids
  | .batch ids, .task => ids
  | _, _ => []

/-- What a frame has still to go over. -/
def Pc.unprocessed : Pc → Queue → List ℕ
  | .reactors _ drained, .polling | .reactor _ _ drained, .polling => drained.getD []
  | .loop p, q | .task p _ _, q | .drop p, q => p.unprocessed q
  | _, _ => []

/-- The task a frame is polling. -/
def Pc.polled : Pc → Option (ℕ × Task)
  | .task _ id t => some (id, t)
  | _ => none

namespace Runtime

/-- The tasks that are being polled, the innermost one first. -/
def polled (s : Runtime) : List (ℕ × Task) := s.stack.filterMap (·.pc.polled)

/-- The ids in a queue, or in the part of its buffer that a loop has still to go over. -/
def waiting (s : Runtime) (q : Queue) : Multiset ℕ :=
  (s.queue q : Multiset ℕ) + (s.stack.map fun f => (f.pc.unprocessed q : Multiset ℕ)).sum

/-- The schedule of a runtime. -/
def schedule (s : Runtime) : Schedule := ⟨s.pool, s.polled, s.waiting, s.woken⟩

/-- The id the innermost loop takes next. -/
def nextId (s : Runtime) : Pc → Option ℕ
  | .loop (.polling (id :: _)) | .loop (.batch (id :: _)) => some id
  | .loop (.pull processed) =>
    if processed < maxTasksPerCall then (s.queue .task).head? else none
  | _ => none

/-- The id an event takes, and whether a call of `progress` takes it. -/
def taken (s : Runtime) : Event → Option (ℕ × Bool)
  | .move .exec => s.stack.head?.bind fun f =>
    (s.nextId f.pc).map fun id => (id, decide (f.call = .progress))
  | _ => none

variable {s s' : Runtime} {cfg : SchedulingConfig} {f : Frame} {below : List Frame} {p : Pass}

/-- **An id is taken** by the innermost call, in one of the loops over ids. -/
theorem taken_eq_some {e : Event} {id : ℕ} {b : Bool} (h : s.taken e = some (id, b)) :
    e = .move .exec ∧ ∃ f below p, s.stack = f :: below ∧ f.pc = .loop p := by
  unfold taken at h
  split at h
  · obtain ⟨f, hf, hid⟩ := Option.bind_eq_some_iff.mp h
    obtain ⟨id, hid, -⟩ := Option.map_eq_some_iff.mp hid
    obtain ⟨below, hs⟩ : ∃ below, s.stack = f :: below :=
      ⟨s.stack.tail, (List.cons_head?_tail hf).symm⟩
    rcases hpc : f.pc with _ | _ | _ | p | _ | _ | _ <;> rw [hpc] at hid
    case loop => exact ⟨rfl, f, below, p, hs, hpc⟩
    all_goals exact nomatch hid
  · exact nomatch h

/-- The schedule of a runtime with a given innermost frame. -/
theorem schedule_of_stack (hs : s.stack = f :: below) : s.schedule = ⟨s.pool,
    (f.pc.polled.toList ++ below.filterMap (·.pc.polled)), fun q => (s.queue q : Multiset ℕ) +
      (f.pc.unprocessed q + (below.map fun f => (f.pc.unprocessed q : Multiset ℕ)).sum),
    s.woken⟩ := by
  have hpolled : s.polled = f.pc.polled.toList ++ below.filterMap (·.pc.polled) := by
    rw [polled, hs, List.filterMap_cons]
    rcases f.pc.polled with _ | _ <;> rfl
  have hwaiting : s.waiting = fun q => (s.queue q : Multiset ℕ) +
      (f.pc.unprocessed q + (below.map fun f => (f.pc.unprocessed q : Multiset ℕ)).sum) := by
    funext q
    rw [waiting, hs, List.map_cons, List.sum_cons]
  rw [schedule, hpolled, hwaiting]

/-! ### What the parts of the loops do -/

/-- **A quiet move of the innermost frame**: ids go between the queues and its buffer. -/
theorem schedule_eq_of_stack {f' : Frame} (hs : s.stack = f :: below)
    (hs' : s'.stack = f' :: below) (hpool : s'.pool = s.pool) (hwoken : s'.woken = s.woken)
    (hpolled : f'.pc.polled = f.pc.polled)
    (hwaiting : ∀ q, (s'.queue q : Multiset ℕ) + f'.pc.unprocessed q =
      s.queue q + f.pc.unprocessed q) : s'.schedule = s.schedule := by
  rw [schedule_of_stack hs, schedule_of_stack hs', hpool, hwoken, hpolled]
  ext1
  · rfl
  · rfl
  · funext q
    simp only [← add_assoc, hwaiting q]
  · rfl

/-- The innermost frame moves within the control. -/
theorem schedule_resume {f' : Frame} (hs : s.stack = f :: below)
    (hpolled : f'.pc.polled = f.pc.polled) (hwaiting : f'.pc.unprocessed = f.pc.unprocessed) :
    (s.resume f' below).schedule = s.schedule :=
  schedule_eq_of_stack hs rfl rfl rfl hpolled fun q => by rw [hwaiting]; rfl

theorem schedule_leave (hs : s.stack = f :: below) (hpolled : f.pc.polled = none)
    (hwaiting : ∀ q, f.pc.unprocessed q = []) : (s.leave below).schedule = s.schedule := by
  rw [schedule_of_stack hs, hpolled]
  ext1
  · rfl
  · rfl
  · funext q
    simp only [hwaiting, Multiset.coe_nil, zero_add]
    rfl
  · rfl

theorem schedule_iterate (hs : s.stack = f :: below) (hpc : f.pc = .head) :
    (s.iterate cfg f below).schedule = s.schedule := by
  have hdrain : ∀ (s₁ : Runtime) (f₁ : Frame) (left : List ℕ), s₁.pool = s.pool →
      s₁.woken = s.woken →
      s₁.queue = Function.update s.queue .polling [] → s₁.stack = f₁ :: below →
      f₁.pc = .reactors left (some (s.queue .polling)) → s₁.schedule = s.schedule := by
    intro s₁ f₁ left hpool hwoken hqueue hstack hpc₁
    refine schedule_eq_of_stack hs hstack hpool hwoken (by rw [hpc₁, hpc]; rfl) ?_
    rintro (_ | _) <;> simp [hpc, hpc₁, hqueue, Pc.unprocessed]
  simp only [iterate]
  split
  · rfl
  · split
    · exact hdrain _ _ [] rfl rfl rfl rfl rfl
    · exact hdrain _ _ _ rfl rfl rfl rfl rfl

theorem schedule_loopHead (hs : s.stack = f :: below) (hpc : f.pc = .head) :
    (s.loopHead cfg f below).schedule = s.schedule := by
  have hleave : (s.leave below).schedule = s.schedule :=
    schedule_leave hs (by rw [hpc]; rfl) fun q => by rw [hpc]; rfl
  rw [loopHead]
  split
  · split
    · exact hleave
    · exact schedule_iterate hs hpc
  · split_ifs
    · exact schedule_iterate hs hpc
    · exact hleave
    · rfl
  · exact hleave

theorem schedule_nextReactor {left : List ℕ} {drained : Option (List ℕ)}
    (hs : s.stack = f :: below) (hpc : f.pc = .reactors left drained) :
    (s.nextReactor cfg f below left drained).schedule = s.schedule := by
  unfold nextReactor
  split
  · refine schedule_eq_of_stack hs rfl rfl rfl ?_ fun q => ?_
    · rw [hpc]
      dsimp only
      split <;> rfl
    · rw [hpc]
      dsimp only [resume]
      split <;> rcases q with _ | _ <;> rfl
  · refine schedule_resume hs (by rw [hpc]; rfl) ?_
    rw [hpc]
    funext q
    rcases q with _ | _ <;> rfl
  · split
    · rfl
    · refine schedule_eq_of_stack hs rfl rfl rfl (by rw [hpc]; rfl) ?_
      rintro (_ | _) <;> simp [hpc, resume, Pc.unprocessed, Pass.unprocessed]

theorem schedule_endIteration (hs : s.stack = f :: below) (hpc : f.pc = .tail) :
    (s.endIteration cfg f below).schedule = s.schedule := by
  have hpolled : f.pc.polled = none := by rw [hpc]; rfl
  have hwaiting : f.pc.unprocessed = fun _ => [] := by rw [hpc]; rfl
  simp only [endIteration]
  split_ifs
  · exact schedule_eq_of_stack hs rfl rfl rfl hpolled.symm fun q => by rw [hwaiting]; rfl
  · exact schedule_leave hs hpolled fun q => by rw [hwaiting]
  · rfl
  · exact schedule_eq_of_stack hs rfl rfl rfl hpolled.symm fun q => by rw [hwaiting]; rfl

/-- **A loop takes an id** from a queue or from its buffer, and polls it. -/
theorem step_pollTask {q : Queue} {id : ℕ} {queue : Queue → List ℕ}
    (hs : s.stack = f :: below) (hpolled : f.pc.polled = none)
    (hwaiting : ∀ q', (s.queue q' : Multiset ℕ) + f.pc.unprocessed q' =
      (if q' = q then {id} else 0) + ((queue q' : Multiset ℕ) + p.unprocessed q')) :
    s.schedule.Step (some (id, decide (f.call = .progress)))
      ({ s with queue := queue }.pollTask f below p id).schedule := by
  set rest : Queue → Multiset ℕ := fun q' => (queue q' : Multiset ℕ) +
    (p.unprocessed q' + (below.map fun f => (f.pc.unprocessed q' : Multiset ℕ)).sum) with hrest
  have hw : s.schedule.waiting q = id ::ₘ rest q := by
    rw [schedule_of_stack hs]
    simp only [hrest, ← add_assoc, hwaiting q, if_pos, Multiset.singleton_add, Multiset.cons_add]
  have hupdate : Function.update s.schedule.waiting q (rest q) = rest := by
    funext q'
    by_cases hq : q' = q
    · subst hq
      rw [Function.update_self]
    · rw [Function.update_of_ne hq, schedule_of_stack hs]
      simp only [hrest, ← add_assoc, hwaiting q', if_neg hq, zero_add]
  have htake := Schedule.Step.take q id (decide (f.call = .progress)) (rest q) hw
  rw [Schedule.take, hupdate] at htake
  have hpolled' : s.schedule.polled = below.filterMap (·.pc.polled) := by
    rw [schedule_of_stack hs, hpolled]
    rfl
  -- the slot is vacant, or empty during the poll of its task, or has the task
  have heq : ({ s with queue := queue }.pollTask f below p id).schedule =
      { s.schedule with waiting := rest }.pollTask id := by
    rcases hentry : s.pool.entry id with - | - | t
    · rw [Schedule.pollTask_vacant hentry, pollTask, hentry]
      dsimp only
      rw [hpolled']
      exact schedule_of_stack (s := Runtime.resume ..) rfl
    · rw [Schedule.pollTask_empty hentry, pollTask, hentry]
      dsimp only
      rw [hpolled']
      exact schedule_of_stack (s := Runtime.resume ..) rfl
    · rw [Schedule.pollTask_task hentry, pollTask, hentry]
      dsimp only
      rw [hpolled']
      exact schedule_of_stack (s := Runtime.resume ..) rfl
  exact heq ▸ htake

/-- **A loop that has no id to take** goes on to what comes after it. -/
theorem schedule_nextTask (hs : s.stack = f :: below) (hpc : f.pc = .loop p)
    (hid : s.nextId (.loop p) = none) : (s.nextTask cfg f below p).schedule = s.schedule := by
  have hpolled : f.pc.polled = none := by rw [hpc]; rfl
  rcases p with (_ | ⟨id, ids⟩) | (_ | ⟨id, ids⟩) | processed
  · rw [nextTask]
    split_ifs
    · refine schedule_resume hs (by rw [hpc]; rfl) ?_
      rw [hpc]
      funext q
      rcases q with _ | _ <;> rfl
    · rfl
    · refine schedule_eq_of_stack hs rfl rfl rfl (by rw [hpc]; rfl) ?_
      rintro (_ | _)
      · simp only [resume, hpc, Pc.unprocessed, Pass.unprocessed, Function.update_self,
          Multiset.coe_add, Multiset.coe_eq_coe, List.append_nil]
        exact List.perm_append_comm.trans (.of_eq (List.take_append_drop ..))
      · simp [hpc, resume, Pc.unprocessed, Pass.unprocessed]
  · cases hid
  · refine schedule_resume hs (by rw [hpc]; rfl) ?_
    rw [hpc]
    funext q
    rcases q with _ | _ <;> rfl
  · cases hid
  · have hleave : (s.leave below).schedule = s.schedule :=
      schedule_leave hs hpolled fun q => by rw [hpc]; rcases q with _ | _ <;> rfl
    rw [nextTask]
    rw [nextId] at hid
    split_ifs at hid ⊢
    · rw [List.head?_eq_none_iff.mp hid]
      exact hleave
    · exact hleave

/-- **A loop takes its next id.** -/
theorem step_nextTask {id : ℕ} (hs : s.stack = f :: below) (hpc : f.pc = .loop p)
    (hid : s.nextId (.loop p) = some id) : s.schedule.Step (some (id, decide (f.call = .progress)))
      (s.nextTask cfg f below p).schedule := by
  have hpolled : f.pc.polled = none := by rw [hpc]; rfl
  rcases p with (_ | ⟨id', ids⟩) | (_ | ⟨id', ids⟩) | processed
  · cases hid
  · obtain rfl := Option.some.inj hid
    refine step_pollTask (q := .polling) hs hpolled ?_
    rintro (_ | _) <;> simp [hpc, Pc.unprocessed, Pass.unprocessed, Multiset.singleton_add]
  · cases hid
  · obtain rfl := Option.some.inj hid
    refine step_pollTask (q := .task) hs hpolled ?_
    rintro (_ | _) <;> simp [hpc, Pc.unprocessed, Pass.unprocessed, Multiset.singleton_add]
  · rw [nextId] at hid
    rw [nextTask]
    split_ifs at hid ⊢
    obtain ⟨rest, hq⟩ := List.head?_eq_some_iff.mp hid
    simp only [hq]
    refine step_pollTask (q := .task) hs hpolled ?_
    rintro (_ | _) <;> simp [hpc, hq, Pc.unprocessed, Pass.unprocessed, Multiset.singleton_add]

/-- The innermost task is one of those being polled. -/
theorem polled_of_task {id : ℕ} {t : Task} (hs : s.stack = f :: below)
    (hpc : f.pc = .task p id t) : s.polled = (id, t) :: below.filterMap (·.pc.polled) := by
  rw [polled, hs, List.filterMap_cons, hpc]
  rfl

/-- A poll ends with `Pending`. -/
theorem step_taskPending {id : ℕ} {t : Task} (hs : s.stack = f :: below)
    (hpc : f.pc = .task p id t) :
    s.schedule.Step none (s.taskPending f below p id t).schedule := by
  rw [taskPending]
  split
  · have heq := schedule_of_stack (s := { s with pool := s.pool.putBack id t }.resume
      { f with pc := .loop p } below) rfl
    have hstep := Schedule.Step.pending (v := s.schedule) id t _ (polled_of_task hs hpc)
    rw [heq]
    rw [schedule_of_stack hs, hpc] at hstep ⊢
    exact hstep
  · exact .quiet

/-- A poll ends with `Ready`. -/
theorem step_taskReady {id : ℕ} {t : Task} (hs : s.stack = f :: below)
    (hpc : f.pc = .task p id t) :
    s.schedule.Step none (s.taskReady f below p id t).schedule := by
  rw [taskReady]
  split
  · split
    · next P hP =>
      have hstep := Schedule.Step.ready (v := s.schedule) id t _ P (polled_of_task hs hpc) hP
      rw [schedule_of_stack hs, hpc] at hstep ⊢
      rw [schedule_of_stack (s := Runtime.resume ..) rfl]
      exact hstep
    · exact .quiet
  · exact .quiet

/-- **The executor runs on** without taking an id. -/
theorem schedule_exec (hs : s.stack = f :: below) (hid : s.nextId f.pc = none)
    (h : s.move cfg f below f.pc .exec = some s') : s'.schedule = s.schedule := by
  rcases hpc : f.pc with _ | ⟨left, drained⟩ | _ | p | _ | _ | _ <;> rw [hpc] at h hid
  case head => exact Option.some.inj h ▸ schedule_loopHead hs hpc
  case reactors => exact Option.some.inj h ▸ schedule_nextReactor hs hpc
  case loop => exact Option.some.inj h ▸ schedule_nextTask hs hpc hid
  case tail => exact Option.some.inj h ▸ schedule_endIteration hs hpc
  all_goals cases h

/-- **Something returns** that the innermost call has called, a reactor or a destructor. -/
theorem schedule_return {m : Move} (hs : s.stack = f :: below)
    (hm : m = .reactorDone ∨ m = .dropped) (h : s.move cfg f below f.pc m = some s') :
    s'.schedule = s.schedule := by
  have hloop : ∀ f' : Frame, f'.pc.polled = f.pc.polled → f'.pc.unprocessed = f.pc.unprocessed →
      s.resume f' below = s' → s'.schedule = s.schedule := by
    rintro f' hpolled hwaiting rfl
    exact schedule_resume hs hpolled hwaiting
  rcases hm with rfl | rfl
  · rcases hpc : f.pc with _ | _ | _ | _ | _ | _ | _ <;> rw [hpc] at h
    case reactor =>
      refine hloop _ (by rw [hpc]; rfl) ?_ (Option.some.inj h)
      rw [hpc]
      funext q
      rcases q with _ | _ <;> rfl
    all_goals cases h
  · rcases hpc : f.pc with _ | _ | _ | _ | _ | _ | _ <;> rw [hpc] at h
    case drop =>
      refine hloop _ (by rw [hpc]; rfl) ?_ (Option.some.inj h)
      rw [hpc]
      funext q
      rcases q with _ | _ <;> rfl
    all_goals cases h

/-- The poll that ends is that of a task. -/
theorem exists_task {m : Move} (hm : m = .pending ∨ m = .ready)
    (h : s.move cfg f below f.pc m = some s') : ∃ p id t, f.pc = .task p id t := by
  rcases hpc : f.pc with _ | _ | _ | _ | ⟨p, id, t⟩ | _ | _ <;> rw [hpc] at h
  case task => exact ⟨p, id, t, rfl⟩
  all_goals rcases hm with rfl | rfl <;> cases h

theorem step_move {m : Move} (hs : s.stack = f :: below)
    (h : s.move cfg f below f.pc m = some s') :
    s.schedule.Step (s.taken (.move m)) s'.schedule := by
  cases m with
  | exec =>
    have htaken : s.taken (.move .exec) =
        (s.nextId f.pc).map fun id => (id, decide (f.call = .progress)) := by
      rw [taken, hs]
      rfl
    rw [htaken]
    rcases hid : s.nextId f.pc with - | id
    · exact .of_eq (schedule_exec hs hid h)
    · rcases hpc : f.pc with _ | _ | _ | p | _ | _ | _ <;> rw [hpc] at h hid
      case loop => exact Option.some.inj h ▸ step_nextTask hs hpc hid
      all_goals cases hid
  | reactorDone => exact .of_eq (schedule_return hs (.inl rfl) h)
  | dropped => exact .of_eq (schedule_return hs (.inr rfl) h)
  | pending =>
    obtain ⟨p, id, t, hpc⟩ := exists_task (.inl rfl) h
    rw [hpc] at h
    exact Option.some.inj h ▸ step_taskPending hs hpc
  | ready =>
    obtain ⟨p, id, t, hpc⟩ := exists_task (.inr rfl) h
    rw [hpc] at h
    exact Option.some.inj h ▸ step_taskReady hs hpc

/-! ### Steps -/

/-- A call that is not made from a task is made from outside. -/
theorem stack_eq_nil (hcode : s.code ∈ [Code.outside, .task]) (hp : s.polled = []) :
    s.stack = [] := by
  rcases hs : s.stack with - | ⟨f, below⟩
  · rfl
  · rw [code, hs] at hcode
    rcases hpc : f.pc with _ | _ | _ | _ | ⟨p, id, t⟩ | _ | _ <;> simp only [hpc] at hcode
    case task => exact nomatch (polled_of_task hs hpc).symm.trans hp
    all_goals exact absurd hcode (by decide)

theorem schedule_call (s : Runtime) (call : Call) {pc : Pc} (hpolled : pc.polled = none)
    (hwaiting : ∀ q, pc.unprocessed q = []) :
    (s.resume (.new call pc) s.stack).schedule = s.schedule := by
  rw [schedule_of_stack (s := Runtime.resume ..) rfl]
  ext1
  · rfl
  · show pc.polled.toList ++ s.polled = s.polled
    rw [hpolled]
    rfl
  · funext q
    show (s.queue q : Multiset ℕ) + (pc.unprocessed q + _) = s.waiting q
    rw [hwaiting q, Multiset.coe_nil, zero_add]
    rfl
  · rfl

/-- An id is sent to a queue. -/
theorem schedule_send (s : Runtime) (q : Queue) (id : ℕ) :
    (s.send q id).schedule = s.schedule.send q id := by
  ext1
  · rfl
  · rfl
  · funext q'
    by_cases hq : q' = q
    · subst hq
      simp only [schedule, Schedule.send, waiting, send, Function.update_self]
      rw [← Multiset.coe_add, Multiset.coe_singleton, add_right_comm, add_comm,
        Multiset.singleton_add]
    · simp only [schedule, Schedule.send, waiting, send, Function.update_of_ne hq]
  · rfl

/-- The status of a reactor is nothing to the tasks. -/
theorem schedule_setRunning (s : Runtime) (r : ℕ) (running : Bool) :
    (s.setRunning r running).schedule = s.schedule := by
  ext1
  · rfl
  · simp only [schedule, polled, setRunning, List.filterMap_map]
    rfl
  · funext q
    simp only [schedule, waiting, setRunning, List.map_map]
    rfl
  · rfl

/-- **The executor refines its schedule**: every step is a transition of it, and takes the
id that `Pluvio.Executor.Runtime.taken` says. -/
theorem step_schedule {e : Event} (h : step cfg s e = some s') :
    s.schedule.Step (s.taken e) s'.schedule := by
  obtain ⟨-, h⟩ := Option.ite_none_left_eq_some.mp h
  match e with
  | .move m =>
    rcases hs : s.stack with - | ⟨f, below⟩
    · simp only [hs] at h
      exact nomatch h
    · simp only [hs] at h
      exact step_move hs h
  | .runQueue =>
    obtain ⟨-, h⟩ := Option.ite_none_right_eq_some.mp h
    obtain rfl := Option.some.inj h
    exact .of_eq (schedule_call s _ rfl fun _ => rfl)
  | .blockOn key =>
    obtain ⟨⟨-, hkey⟩, h⟩ := Option.ite_none_right_eq_some.mp h
    obtain rfl := Option.some.inj h
    -- the task is spawned, and then the call begins
    have hspawn : (s.spawn .task key).schedule = s.schedule.spawn .task key := schedule_send ..
    have hcall : ((s.spawn .task key).resume (.new (.blockOn key s.pool.spawned) .head)
        s.stack).schedule = (s.spawn .task key).schedule :=
      schedule_call (s.spawn .task key) _ rfl fun _ => rfl
    rw [hcall, hspawn]
    exact Schedule.Step.spawn (v := s.schedule) .task key hkey
  | .progress =>
    obtain ⟨-, h⟩ := Option.ite_none_right_eq_some.mp h
    obtain rfl := Option.some.inj h
    exact .of_eq (schedule_call s _ rfl fun q => by rcases q with _ | _ <;> rfl)
  | .spawn q key =>
    obtain ⟨⟨-, hkey⟩, h⟩ := Option.ite_none_right_eq_some.mp h
    obtain rfl := Option.some.inj h
    rw [Runtime.spawn, schedule_send]
    exact Schedule.Step.spawn (v := s.schedule) q key hkey
  | .wake future =>
    obtain ⟨⟨-, hlt⟩, h⟩ := Option.ite_none_right_eq_some.mp h
    obtain rfl := Option.some.inj h
    rw [Runtime.wake, schedule_send]
    exact Schedule.Step.wake (v := s.schedule) future hlt
  | .requestShutdown | .register r order =>
    obtain ⟨-, h⟩ := Option.ite_none_right_eq_some.mp h
    obtain rfl := Option.some.inj h
    exact .of_eq rfl
  | .setRunning r running =>
    obtain rfl := Option.some.inj h
    exact .of_eq (schedule_setRunning s r running)

end Runtime

end Executor

end Pluvio
