import Pluvio.Oneshot
import Pluvio.Runtime.Polls

/-!
# Join handles

A spawn returns a handle that shares a cell with the task: the future of the task is
wrapped, so that when it is ready its value goes into the cell, as a `Box<dyn Any>`, and the
waker that a poll of the handle has left there is invoked. This module puts the executor and
the cells together.

In every run a handle gives the value of its own task, once, and never an error
(`Pluvio.Executor.joins_once`). And no task sleeps over a join, as long as no task drives
the runtime from inside its own poll: the last one to poll a handle is woken when the value
comes, and its id waits until it is polled again (`Pluvio.Executor.no_joiner_sleeps`).

So tasks whose polls only end with `Pending` to yield, or to join a task that was spawned
later, are never all asleep (`Pluvio.Executor.fork_join_never_deadlocks`).
-/

namespace Pluvio

namespace Executor

variable {ρ : Type*}

/-! ### Handles -/

/-- `Box<dyn Any>`: a value with the identifier of its type. -/
structure Any (ρ : Type*) where
  typeId : ℕ
  value : ρ
  deriving DecidableEq

/-- `downcast`, to the type `T`. -/
def Any.downcast (data : Any ρ) (T : ℕ) : Except (Any ρ) ρ :=
  if data.typeId = T then .ok data.value else .error data

/-- `SharedState`. A waker is the future it wakes. -/
abbrev SharedState (ρ : Type*) := Oneshot ℕ (Except String (Any ρ))

/-- What `JoinHandle<T>::poll` makes of the result it has taken. -/
def JoinHandle.output (T : ℕ) : Except String (Any ρ) → Except String ρ
  | .ok data => match data.downcast T with
    | .ok data => .ok data
    | .error _ => .error "Failed to downcast"
  | .error err => .error err

/-- `JoinHandle<T>::poll`: what it returns if it is ready, and the state afterwards. -/
def JoinHandle.poll (T : ℕ) (shared : SharedState ρ) (waker : ℕ) :
    Option (Except String ρ) × SharedState ρ :=
  let polled := shared.poll waker
  (polled.1.map (output T), polled.2)

/-- The end of `wrapped_future`, whose future is a `Future<Output = T>`: the waker to invoke,
and the state afterwards. -/
def Task.finish (T : ℕ) (shared : SharedState ρ) (res : ρ) : Option ℕ × SharedState ρ :=
  shared.complete (.ok ⟨T, res⟩)

/-- A runtime and the handles of its tasks. -/
structure Joins (ρ : Type*) where
  runtime : Runtime
  /-- The cell of each future. -/
  shared : ℕ → SharedState ρ
  dropped : ℕ → Bool
  /-- What the futures have returned. -/
  returned : ℕ → Option ρ
  /-- What the polls of each handle have returned. -/
  joined : ℕ → List (Except String ρ)
  /-- The future that has polled the handle last, and found nothing, until it is polled
  itself. -/
  waits : ℕ → Option ℕ

/-- What happens to a runtime and its handles. -/
inductive JoinEvent (ρ : Type*)
  | runtime (e : Event)
  /-- The future of the task that is being polled is ready. -/
  | ready (res : ρ)
  /-- The task that is being polled polls the handle of future `g`. -/
  | join (g : ℕ)
  | dropHandle (g : ℕ)

/-- No task has been spawned. -/
def joinsStart : Joins ρ where
  runtime := start
  shared := fun _ => .new
  dropped := fun _ => false
  returned := fun _ => none
  joined := fun _ => []
  waits := fun _ => none

/-- One step, `typeOf g` being the type of what future `g` returns. -/
def joinStep (cfg : SchedulingConfig) (typeOf : ℕ → ℕ) (s : Joins ρ) :
    JoinEvent ρ → Option (Joins ρ)
  | .runtime e =>
    if e = .move .ready then none
    else (step cfg s.runtime e).map fun rt => { s with
      runtime := rt
      waits := fun g => (s.waits g).filter fun f => ¬Began s.runtime rt f }
  | .ready res => s.runtime.running.bind fun f =>
    let finished := Task.finish (typeOf f) (s.shared f) res
    (runList (step cfg) s.runtime (finished.1.toList.map .wake ++ [.move .ready])).map fun rt =>
      { s with
        runtime := rt
        shared := Function.update s.shared f finished.2
        returned := Function.update s.returned f (some res) }
  | .join g => s.runtime.running.bind fun f =>
    if g < s.runtime.pool.spawned ∧ s.dropped g = false then
      let polled := JoinHandle.poll (typeOf g) (s.shared g) f
      some { s with
        shared := Function.update s.shared g polled.2
        joined := Function.update s.joined g (s.joined g ++ polled.1.toList)
        waits := Function.update s.waits g (if polled.1.isNone then some f else none) }
    else none
  | .dropHandle g =>
    if s.runtime.code ≠ .executor then some { s with dropped := Function.update s.dropped g true }
    else none

/-! ### The values -/

section Values

variable {cfg : SchedulingConfig} {typeOf : ℕ → ℕ} {s s' : Joins ρ}

/-- **A handle gives the value of its task, once**: what its polls have returned is nothing,
or the value, without an error; and until then the next poll after the end of the task
returns it. -/
def JoinsOnce (typeOf : ℕ → ℕ) (s : Joins ρ) : Prop :=
  ∀ g, (g ∈ s.runtime.pool.completed ↔ s.returned g ≠ none) ∧
    (s.joined g = [] ∨ ∃ res, s.returned g = some res ∧ s.joined g = [.ok res]) ∧
      ∀ res, s.returned g = some res → s.joined g = [] →
        ∀ w, (JoinHandle.poll (typeOf g) (s.shared g) w).1 = some (.ok res)

/-- The type of a value that comes back is the one it was sent with. -/
theorem JoinHandle.output_ok (T : ℕ) (res : ρ) : output T (.ok ⟨T, res⟩) = .ok res := by
  rw [output, Any.downcast, if_pos rfl]

/-- The cells say what has happened to them. -/
structure CellsInv (typeOf : ℕ → ℕ) (s : Joins ρ) : Prop where
  tasks : TasksInv s.runtime
  completed : ∀ g, g ∈ s.runtime.pool.completed ↔ s.returned g ≠ none
  used : ∀ g, ∃ taken,
    (s.shared g).Used ((s.returned g).map fun res => .ok ⟨typeOf g, res⟩) taken ∧
      s.joined g = taken.map (JoinHandle.output (typeOf g))

theorem CellsInv.joinsOnce (h : CellsInv typeOf s) : JoinsOnce typeOf s := by
  intro g
  obtain ⟨taken, hused, hjoined⟩ := h.used g
  refine ⟨h.completed g, ?_, fun res hres hnil w => ?_⟩
  · rcases hused.taken_eq with rfl | ⟨v, hv, rfl⟩
    · exact .inl hjoined
    · obtain ⟨res, hres, rfl⟩ := Option.map_eq_some_iff.mp hv
      refine .inr ⟨res, hres, ?_⟩
      rw [hjoined, List.map_singleton, JoinHandle.output_ok]
  · obtain rfl := List.map_eq_nil_iff.mp (hjoined.symm.trans hnil)
    rw [hres] at hused
    show ((s.shared g).poll w).1.map _ = _
    rw [hused.poll_fst, Option.map_some, JoinHandle.output_ok]

/-- A waker of a future is invoked. -/
theorem step_wake {rt rt' : Runtime} {f : ℕ} (h : step cfg rt (.wake f) = some rt') :
    f < rt.pool.spawned ∧ rt' = rt.wake f := by
  obtain ⟨-, h⟩ := Option.ite_none_left_eq_some.mp h
  obtain ⟨⟨-, hf⟩, h⟩ := Option.ite_none_right_eq_some.mp h
  exact ⟨hf, (Option.some.inj h).symm⟩

/-- **A step of the executor** under the handles. -/
theorem joinStep_runtime {e : Event} (h : joinStep cfg typeOf s (.runtime e) = some s') :
    e ≠ .move .ready ∧ ∃ rt, step cfg s.runtime e = some rt ∧ s' = { s with
      runtime := rt
      waits := fun g => (s.waits g).filter fun f => ¬Began s.runtime rt f } := by
  obtain ⟨he, h⟩ := Option.ite_none_left_eq_some.mp h
  obtain ⟨rt, hrt, rfl⟩ := Option.map_eq_some_iff.mp h
  exact ⟨he, rt, hrt, rfl⟩

/-- **A task ends**: the waker in its cell is invoked, if there is one, and then its poll is
ready. -/
theorem joinStep_ready {res : ρ} (h : joinStep cfg typeOf s (.ready res) = some s') :
    ∃ f rt₁ rt, s.runtime.running = some f ∧
      ((s.shared f).waker = none ∧ rt₁ = s.runtime ∨
        ∃ w, (s.shared f).waker = some w ∧ step cfg s.runtime (.wake w) = some rt₁) ∧
      step cfg rt₁ (.move .ready) = some rt ∧ s' = { s with
        runtime := rt
        shared := Function.update s.shared f ((s.shared f).complete (.ok ⟨typeOf f, res⟩)).2
        returned := Function.update s.returned f (some res) } := by
  obtain ⟨f, hf, h⟩ := Option.bind_eq_some_iff.mp h
  obtain ⟨rt, hrt, rfl⟩ := Option.map_eq_some_iff.mp h
  rcases hw : (s.shared f).waker with - | w
  · rw [Task.finish, Oneshot.complete, hw] at hrt
    obtain ⟨rt', hrt', hnil⟩ := Option.bind_eq_some_iff.mp hrt
    obtain rfl := Option.some.inj hnil
    exact ⟨f, s.runtime, _, hf, .inl ⟨hw, rfl⟩, hrt', rfl⟩
  · rw [Task.finish, Oneshot.complete, hw] at hrt
    obtain ⟨rt₁, hwake, hrt⟩ := Option.bind_eq_some_iff.mp hrt
    obtain ⟨rt', hrt', hnil⟩ := Option.bind_eq_some_iff.mp hrt
    obtain rfl := Option.some.inj hnil
    exact ⟨f, rt₁, _, hf, .inr ⟨w, hw, hwake⟩, hrt', rfl⟩

/-- A task that polls a handle changes the shared state of the task that is joined, and what its
polls have returned. -/
theorem joinStep_join {g : ℕ} (h : joinStep cfg typeOf s (.join g) = some s') :
    ∃ f, s.runtime.running = some f ∧ g < s.runtime.pool.spawned ∧
      ∃ polled, polled = JoinHandle.poll (typeOf g) (s.shared g) f ∧ s' = { s with
        shared := Function.update s.shared g polled.2
        joined := Function.update s.joined g (s.joined g ++ polled.1.toList)
        waits := Function.update s.waits g (if polled.1.isNone then some f else none) } := by
  obtain ⟨f, hf, h⟩ := Option.bind_eq_some_iff.mp h
  obtain ⟨hg, h⟩ := Option.ite_none_right_eq_some.mp h
  exact ⟨f, hf, hg.1, _, rfl, (Option.some.inj h).symm⟩

/-- A handle that is dropped is not polled again, and changes nothing else. -/
theorem joinStep_dropHandle {g : ℕ} (h : joinStep cfg typeOf s (.dropHandle g) = some s') :
    s' = { s with dropped := Function.update s.dropped g true } := by
  obtain ⟨-, h⟩ := Option.ite_none_right_eq_some.mp h
  exact (Option.some.inj h).symm

/-- A future whose body runs is live. -/
theorem TasksInv.running_live {rt : Runtime} (h : TasksInv rt) {f : ℕ}
    (hf : rt.running = some f) : rt.pool.Live f := by
  obtain ⟨frame, below, p, id, t, hs, hpc, rfl⟩ := Runtime.running_eq_some hf
  exact ((Runtime.polled_of_task hs hpc ▸ h.pool).holds id t (.inr (List.mem_cons_self ..))).1

/-- **The end of a task**, after the waker in its cell. -/
theorem ready_of_wake {rt rt₁ rt' : Runtime} {w : Option ℕ} {f : ℕ} (hinv : TasksInv rt)
    (hf : rt.running = some f) (hwake : w = none ∧ rt₁ = rt ∨
      ∃ g, w = some g ∧ step cfg rt (.wake g) = some rt₁)
    (h : step cfg rt₁ (.move .ready) = some rt') :
    TasksInv rt' ∧ rt'.pool.completed = f :: rt.pool.completed ∧
      rt'.pool.spawned = rt.pool.spawned ∧ (∀ g, rt.woken g = true ∨ w = some g →
        rt'.woken g = true) := by
  obtain ⟨hinv₁, hf₁, hcompleted, hspawned, hwoken⟩ : TasksInv rt₁ ∧ rt₁.running = some f ∧
      rt₁.pool.completed = rt.pool.completed ∧ rt₁.pool.spawned = rt.pool.spawned ∧
        ∀ g, rt.woken g = true ∨ w = some g → rt₁.woken g = true := by
    rcases hwake with ⟨rfl, rfl⟩ | ⟨g, rfl, hwake⟩
    · exact ⟨hinv, hf, rfl, rfl, fun g hg => hg.resolve_right nofun⟩
    · refine ⟨hinv.step hwake, ?_⟩
      obtain ⟨-, rfl⟩ := step_wake hwake
      refine ⟨hf, rfl, rfl, fun g' hg' => ?_⟩
      by_cases heq : g' = g
      · rw [heq]
        exact Function.update_self ..
      · have hold := hg'.resolve_right fun h => heq (Option.some.inj h).symm
        exact (Function.update_of_ne heq ..).trans hold
  obtain ⟨hcompleted', hspawned', hwoken', -⟩ := Runtime.ready_step hinv₁ hf₁ h
  refine ⟨hinv₁.step h, ?_, hspawned'.trans hspawned, fun g hg => ?_⟩
  · rw [hcompleted', hcompleted]
  · rw [hwoken']
    exact hwoken g hg

/-- Every event keeps the cells in step with the tasks that fill them. -/
theorem CellsInv.step {e : JoinEvent ρ} (h : CellsInv typeOf s)
    (hs : joinStep cfg typeOf s e = some s') : CellsInv typeOf s' := by
  cases e with
  | runtime e =>
    obtain ⟨he, rt, hrt, rfl⟩ := joinStep_runtime hs
    refine ⟨h.tasks.step hrt, fun g => ?_, h.used⟩
    rw [← h.completed g, Runtime.completed_step hrt he]
  | ready res =>
    obtain ⟨f, rt₁, rt, hf, hwake, hrt, rfl⟩ := joinStep_ready hs
    obtain ⟨htasks, hcompleted, -⟩ := ready_of_wake h.tasks hf hwake hrt
    have hlive := h.tasks.running_live hf
    have hreturned : s.returned f = none := not_not.mp (mt (h.completed f).mpr hlive.2)
    refine ⟨htasks, fun g => ?_, fun g => ?_⟩
    · by_cases hg : g = f
      · simp [hg, hcompleted]
      · simp [hg, hcompleted, h.completed g]
    · by_cases hg : g = f
      · subst hg
        obtain ⟨taken, hused, hjoined⟩ := h.used g
        rw [hreturned] at hused
        refine ⟨taken, ?_, hjoined⟩
        simp only [Function.update_self, Option.map_some]
        exact hused.complete _
      · simpa only [Function.update_of_ne hg] using h.used g
  | join g =>
    obtain ⟨f, hf, hg, polled, rfl, rfl⟩ := joinStep_join hs
    refine ⟨h.tasks, h.completed, fun g' => ?_⟩
    by_cases heq : g' = g
    · subst heq
      obtain ⟨taken, hused, hjoined⟩ := h.used g'
      refine ⟨taken ++ ((s.shared g').poll f).1.toList, ?_, ?_⟩
      · simp only [Function.update_self]
        exact hused.poll f
      · simp only [Function.update_self, JoinHandle.poll, hjoined, List.map_append,
          Option.toList_map]
    · simpa only [Function.update_of_ne heq] using h.used g'
  | dropHandle g =>
    obtain rfl := joinStep_dropHandle hs
    exact ⟨h.tasks, h.completed, h.used⟩

theorem cellsInv_start : CellsInv typeOf (joinsStart : Joins ρ) where
  tasks := tasksInv_start
  completed := fun _ => iff_of_false (List.not_mem_nil) (not_not.mpr rfl)
  used := fun _ => ⟨[], Oneshot.used_new, rfl⟩

end Values

/-- In every run each handle returns the value of its task at most once, and never an error. -/
theorem joins_once (cfg : SchedulingConfig) (typeOf : ℕ → ℕ) (es : List (JoinEvent ρ)) :
    Always (joinStep cfg typeOf) (JoinsOnce typeOf) joinsStart es :=
  always_of_invariant (fun _ h => CellsInv.joinsOnce h) (fun _ _ _ h _ hs => h.step hs)
    cellsInv_start (eachStep_true es)

/-! ### The wakeups -/

section Wakeups

variable {cfg : SchedulingConfig} {typeOf : ℕ → ℕ} {s s' : Joins ρ} {e : JoinEvent ρ}

/-- No task calls a loop from inside its own poll. -/
def JoinNotNested (s : Joins ρ) (e : JoinEvent ρ) : Prop :=
  ∀ e', e = .runtime e' → NotNested s.runtime e'

/-- Future `f` waits for the value of `g`: its last poll has polled the handle of `g` and
found nothing, and nobody has got the value since. -/
def Joins.WaitsFor (s : Joins ρ) (f g : ℕ) : Prop := s.waits g = some f ∧ s.joined g = []

/-- **No task sleeps over a join**: while a live future waits for the value of another, that
one has not completed, and has the waker; or the id of the one that waits is in its queue or
in the part of the buffer that has not been processed. -/
def NoJoinerSleeps (s : Joins ρ) : Prop :=
  ∀ f g, s.WaitsFor f g → s.runtime.pool.Live f →
    g ∉ s.runtime.pool.completed ∧ (s.shared g).waker = some f ∨ Queued s.runtime f

/-- The wakers that the cells hold. -/
structure WakersInv (typeOf : ℕ → ℕ) (s : Joins ρ) : Prop where
  cells : CellsInv typeOf s
  wake : WakeInv s.runtime
  spawned : ∀ f g, s.waits g = some f → g < s.runtime.pool.spawned
  wakers : ∀ f g, s.WaitsFor f g →
    g ∉ s.runtime.pool.completed ∧ (s.shared g).waker = some f ∨ s.runtime.woken f = true

theorem WakersInv.noJoinerSleeps (h : WakersInv typeOf s) : NoJoinerSleeps s :=
  fun f g hwaits hlive => (h.wakers f g hwaits).imp_right (h.wake.remembers f hlive)

/-- One call at most is under way, also after the end of a task. -/
theorem wakeInv_ready {rt rt₁ rt' : Runtime} {w : Option ℕ} (hinv : WakeInv rt)
    (hwake : w = none ∧ rt₁ = rt ∨ ∃ g, w = some g ∧ step cfg rt (.wake g) = some rt₁)
    (h : step cfg rt₁ (.move .ready) = some rt') : WakeInv rt' := by
  have hinv₁ : WakeInv rt₁ := by
    rcases hwake with ⟨-, rfl⟩ | ⟨g, -, hwake⟩
    · exact hinv
    · exact hinv.step (absurd rfl) hwake
  exact hinv₁.step (absurd rfl) h

/-- Every event leaves the waker of a task that waits where it will be invoked. -/
theorem WakersInv.step (h : WakersInv typeOf s) (hok : JoinNotNested s e)
    (hs : joinStep cfg typeOf s e = some s') : WakersInv typeOf s' := by
  have hcells := h.cells.step hs
  cases e with
  | runtime e =>
    obtain ⟨he, rt, hrt, rfl⟩ := joinStep_runtime hs
    have hsched := Runtime.step_schedule hrt
    refine ⟨hcells, h.wake.step (hok e rfl) hrt, fun f g hwaits => ?_, fun f g hwaits => ?_⟩
    · obtain ⟨hold, -⟩ := Option.filter_eq_some_iff.mp hwaits
      exact (h.spawned f g hold).trans_le (hsched.spawned_le h.wake.tasks.pool)
    · obtain ⟨hold, hbegan⟩ := Option.filter_eq_some_iff.mp hwaits.1
      refine (h.wakers f g ⟨hold, hwaits.2⟩).imp (fun hcell => ?_) (fun hwoken => ?_)
      · rw [Runtime.completed_step hrt he]
        exact hcell
      · -- who still waits has not been polled again, and keeps its wakeup
        have hnot : ¬Began s.runtime rt f := of_decide_eq_true hbegan
        exact (hsched.woken h.wake.tasks.pool hwoken).resolve_right hnot
  | ready res =>
    obtain ⟨f₀, rt₁, rt, hf₀, hwake, hrt, rfl⟩ := joinStep_ready hs
    obtain ⟨-, hcompleted, hspawned, hwoken⟩ := ready_of_wake h.wake.tasks hf₀ hwake hrt
    refine ⟨hcells, wakeInv_ready h.wake hwake hrt, fun f g hwaits => ?_, fun f g hwaits => ?_⟩
    · exact (h.spawned f g hwaits).trans_eq hspawned.symm
    · rcases h.wakers f g hwaits with ⟨hg, hwaker⟩ | hold
      · by_cases heq : g = f₀
        · -- the waker in the cell is invoked
          exact .inr (hwoken f (.inr (heq ▸ hwaker)))
        · refine .inl ⟨?_, ?_⟩
          · rw [hcompleted]
            exact List.not_mem_cons_of_ne_of_not_mem heq hg
          · simp only [Function.update_of_ne heq]
            exact hwaker
      · exact .inr (hwoken f (.inl hold))
  | join g₀ =>
    obtain ⟨f₀, hf₀, hg₀, polled, rfl, rfl⟩ := joinStep_join hs
    refine ⟨hcells, h.wake, fun f g hwaits => ?_, fun f g hwaits => ?_⟩
    · by_cases heq : g = g₀
      · exact heq ▸ hg₀
      · exact h.spawned f g ((Function.update_of_ne heq ..).symm.trans hwaits)
    · by_cases heq : g = g₀
      · subst heq
        obtain ⟨hwaits, hjoined⟩ := hwaits
        simp only [Function.update_self, List.append_eq_nil_iff] at hwaits hjoined
        have hnone : (JoinHandle.poll (typeOf g) (s.shared g) f₀).1 = none := by
          cases hpoll : (JoinHandle.poll (typeOf g) (s.shared g) f₀).1 with
          | none => rfl
          | some res =>
            rw [hpoll] at hjoined
            cases hjoined.2
        rw [hnone] at hwaits
        obtain rfl := Option.some.inj hwaits
        refine .inl ⟨fun hg => ?_, ?_⟩
        · -- a poll after the end of the task would have found its value
          obtain ⟨res, hres⟩ := Option.ne_none_iff_exists'.mp ((h.cells.completed g).mp hg)
          have hpoll := (h.cells.joinsOnce g).2.2 res hres hjoined.1 f₀
          cases hnone.symm.trans hpoll
        · simp only [Function.update_self]
          exact Oneshot.waker_poll (Option.map_eq_none_iff.mp hnone)
      · have hold : s.WaitsFor f g := by
          simpa only [Joins.WaitsFor, Function.update_of_ne heq] using hwaits
        simpa only [Function.update_of_ne heq] using h.wakers f g hold
  | dropHandle g =>
    obtain rfl := joinStep_dropHandle hs
    exact ⟨hcells, h.wake, h.spawned, h.wakers⟩

theorem wakersInv_start : WakersInv typeOf (joinsStart : Joins ρ) where
  cells := cellsInv_start
  wake := ⟨tasksInv_start, Nat.zero_le 1, fun _ hf => absurd hf.1 (Nat.not_lt_zero _)⟩
  spawned := fun _ _ h => by cases h
  wakers := fun _ _ h => by cases h.1

end Wakeups

/-! ### Forks and joins -/

section ForkJoin

variable {cfg : SchedulingConfig} {typeOf : ℕ → ℕ} {s s' : Joins ρ} {e : JoinEvent ρ}

/-- **Forks and joins**: no task calls a loop from inside its own poll, a poll ends with
`Pending` when the task has been woken in it or waits for a task that was spawned later, and
nobody else polls a handle for whose value a task waits. -/
structure ForkJoin (s : Joins ρ) (e : JoinEvent ρ) : Prop where
  notNested : JoinNotNested s e
  pending : e = .runtime (.move .pending) → ∀ f, s.runtime.running = some f →
    s.runtime.woken f = true ∨ ∃ g, f < g ∧ s.WaitsFor f g
  owner : ∀ f g, e = .join g → s.WaitsFor f g → s.runtime.running = some f

/-- **Not everybody sleeps**: if a future is live, some live future is being polled, or its
id waits. -/
def NeverAllAsleep (s : Joins ρ) : Prop :=
  ∀ f, s.runtime.pool.Live f → ∃ g, s.runtime.pool.Live g ∧ Awake s.runtime g

/-- A live future is awake, or waits for a later one. -/
structure ForkJoinInv (typeOf : ℕ → ℕ) (s : Joins ρ) : Prop where
  wakers : WakersInv typeOf s
  awake : ∀ f, s.runtime.pool.Live f → Awake s.runtime f ∨ ∃ g, f < g ∧ s.WaitsFor f g

/-- The futures that wait for each other end in one that does not wait. -/
theorem ForkJoinInv.neverAllAsleep (h : ForkJoinInv typeOf s) : NeverAllAsleep s := by
  intro f hf
  induction hk : s.runtime.pool.spawned - f using Nat.strongRecOn generalizing f with
  | ind k ih =>
  rcases h.awake f hf with hawake | ⟨g, hlt, hwaits⟩
  · exact ⟨f, hf, hawake⟩
  · have hg := h.wakers.spawned f g hwaits.1
    rcases h.wakers.noJoinerSleeps f g hwaits hf with ⟨hcompleted, -⟩ | hqueued
    · exact ih _ (by omega) g ⟨hg, hcompleted⟩ rfl
    · exact ⟨f, hf, .inr hqueued⟩

/-- Every event of a program that only forks and joins leaves each live task awake or waiting
for a later one. -/
theorem ForkJoinInv.step (h : ForkJoinInv typeOf s) (hok : ForkJoin s e)
    (hs : joinStep cfg typeOf s e = some s') : ForkJoinInv typeOf s' := by
  refine ⟨h.wakers.step hok.notNested hs, fun f hf => ?_⟩
  have hinv := h.wakers.wake
  cases e with
  | runtime e =>
    obtain ⟨he, rt, hrt, rfl⟩ := joinStep_runtime hs
    have hkeep : ∀ g, f < g → s.WaitsFor f g → ¬Began s.runtime rt f → ∃ g, f < g ∧
        Joins.WaitsFor { s with
          runtime := rt
          waits := fun g => (s.waits g).filter fun f => ¬Began s.runtime rt f } f g :=
      fun g hlt hwaits hnot => ⟨g, hlt,
        Option.filter_eq_some_iff.mpr ⟨hwaits.1, decide_eq_true hnot⟩, hwaits.2⟩
    by_cases hawake : s.runtime.pool.Live f → Awake s.runtime f
    · rcases Runtime.awake_step hinv.tasks hrt hf hawake with hawake' | ⟨hrunning, rfl⟩
      · exact .inl hawake'
      · have hlive := hinv.tasks.running_live hrunning
        -- the task has returned `Pending`: it was woken, or waits for a later one
        rcases hok.pending rfl f hrunning with hwoken | ⟨g, hlt, hwaits⟩
        · have hqueued : Queued s.runtime f := hinv.remembers f hlive hwoken
          exact .inl ((Runtime.step_schedule hrt).queued hinv.tasks.pool hf fun _ => hqueued)
        · exact .inr (hkeep g hlt hwaits fun hbegan => hbegan.2 (Runtime.mem_pollees hrunning))
    · obtain ⟨hlive, hawake⟩ := Classical.not_imp.mp hawake
      -- the task was asleep: it goes on waiting, unless its next poll has begun
      obtain ⟨g, hlt, hwaits⟩ := (h.awake f hlive).resolve_left hawake
      by_cases hbegan : Began s.runtime rt f
      · exact .inl (.inl hbegan.1)
      · exact .inr (hkeep g hlt hwaits hbegan)
  | ready res =>
    obtain ⟨f₀, rt₁, rt, hf₀, hwake, hrt, rfl⟩ := joinStep_ready hs
    obtain ⟨-, hcompleted, hspawned, -⟩ := ready_of_wake hinv.tasks hf₀ hwake hrt
    have hlive : s.runtime.pool.Live f := by
      refine ⟨hf.1.trans_eq hspawned, fun hmem => hf.2 ?_⟩
      rw [hcompleted]
      exact List.mem_cons_of_mem _ hmem
    refine (h.awake f hlive).imp_left fun hawake => ?_
    obtain ⟨hinv₁, hawake₁⟩ : TasksInv rt₁ ∧ (rt₁.pool.Live f → Awake rt₁ f) := by
      rcases hwake with ⟨-, rfl⟩ | ⟨w, -, hwake⟩
      · exact ⟨hinv.tasks, fun _ => hawake⟩
      · refine ⟨hinv.tasks.step hwake, fun hf₁ => ?_⟩
        exact (Runtime.awake_step hinv.tasks hwake hf₁ fun _ => hawake).resolve_right
          fun h => by cases h.2
    exact (Runtime.awake_step hinv₁ hrt hf hawake₁).resolve_right fun h => by cases h.2
  | join g₀ =>
    obtain ⟨f₀, hf₀, hg₀, polled, rfl, rfl⟩ := joinStep_join hs
    rcases h.awake f hf with hawake | ⟨g, hlt, hwaits⟩
    · exact .inl hawake
    · -- a handle for whose value a task waits is polled by that task only
      by_cases heq : g = g₀
      · exact .inl (.inl (Runtime.mem_pollees (hok.owner f g (heq ▸ rfl) hwaits)))
      · refine .inr ⟨g, hlt, ?_⟩
        simpa only [Joins.WaitsFor, Function.update_of_ne heq] using hwaits
  | dropHandle g =>
    obtain rfl := joinStep_dropHandle hs
    exact h.awake f hf

theorem forkJoinInv_start : ForkJoinInv typeOf (joinsStart : Joins ρ) :=
  ⟨wakersInv_start, fun _ hf => absurd hf.1 (Nat.not_lt_zero _)⟩

end ForkJoin

/-! ### The wakeups, in every run -/

/-- A task that spawns another one. -/
def spawnInside : List (JoinEvent ℕ) :=
  [.runtime (.spawn .task 0), .runtime .runQueue, .runtime (.move .exec), .runtime (.move .exec),
    .runtime (.move .exec), .runtime (.move .exec), .runtime (.spawn .task 1)]

/-- A task that spawns another one and joins it. -/
def forkAndJoin : List (JoinEvent ℕ) := spawnInside ++ [.join 1] ++ [.runtime (.move .pending)]

/-- An event that calls no loop and ends no poll. -/
theorem forkJoin_quiet {ρ : Type*} {s : Joins ρ} {e : Event} (hcall : s.runtime.called e = none)
    (he : e ≠ .move .pending) : ForkJoin s (.runtime e) where
  notNested := fun _ h hcall' => by
    obtain rfl := JoinEvent.runtime.inj h
    exact absurd hcall hcall'
  pending := fun h => absurd (JoinEvent.runtime.inj h) he
  owner := fun _ _ h => by cases h

/-- The one call is made from outside, and the one that sleeps waits for a later one. -/
theorem forkJoin_forkAndJoin :
    EachStep (joinStep .default id) ForkJoin joinsStart forkAndJoin := by
  have hspawn : EachStep (joinStep .default id) ForkJoin joinsStart spawnInside := by
    refine fun s₁ h₁ => ⟨forkJoin_quiet rfl (by decide), fun s₂ h₂ => ⟨?_, ?_⟩⟩
    · obtain rfl := Option.some.inj h₁
      refine ⟨fun _ _ _ => rfl, fun h => ?_, fun _ _ h => ?_⟩ <;> cases h
    · refine fun s₃ _ => ⟨forkJoin_quiet rfl (by decide), fun s₄ _ => ⟨?_, fun s₅ _ => ⟨?_,
        fun s₆ _ => ⟨?_, fun s₇ _ => ⟨?_, trivial⟩⟩⟩⟩⟩ <;> exact forkJoin_quiet rfl (by decide)
  obtain ⟨s, hs, hwaits⟩ : ∃ s, runList (joinStep .default id) joinsStart spawnInside = some s ∧
      s.waits 1 = none := ⟨_, rfl, rfl⟩
  obtain ⟨t, ht, hrunning, hwaits'⟩ : ∃ t, runList (joinStep .default id) joinsStart
      (spawnInside ++ [.join 1]) = some t ∧ t.runtime.running = some 0 ∧ t.WaitsFor 0 1 :=
    ⟨_, rfl, rfl, rfl, rfl⟩
  have hjoin : EachStep (joinStep .default id) ForkJoin s [.join 1] := by
    refine fun _ _ => ⟨⟨fun _ h => ?_, fun h => ?_, fun f g h hg => ?_⟩, trivial⟩
    · cases h
    · cases h
    · obtain rfl := JoinEvent.join.inj h
      cases hwaits.symm.trans hg.1
  have hpending : EachStep (joinStep .default id) ForkJoin t [.runtime (.move .pending)] := by
    refine fun _ _ => ⟨⟨fun e h hcall => ?_, fun _ f hf => ?_, fun _ _ h => ?_⟩, trivial⟩
    · obtain rfl := JoinEvent.runtime.inj h
      exact absurd rfl hcall
    · obtain rfl := Option.some.inj (hrunning.symm.trans hf)
      exact .inr ⟨1, Nat.one_pos, hwaits'⟩
    · cases h
  exact (hspawn.append hs hjoin).append ht hpending

/-- **No joiner sleeps** in a run in which no task drives the runtime from inside its own
poll. -/
theorem no_joiner_sleeps (cfg : SchedulingConfig) (typeOf : ℕ → ℕ) (es : List (JoinEvent ρ))
    (hok : EachStep (joinStep cfg typeOf) JoinNotNested joinsStart es) :
    Always (joinStep cfg typeOf) NoJoinerSleeps joinsStart es :=
  always_of_invariant (fun _ h => WakersInv.noJoinerSleeps h)
    (fun _ _ _ h hok hs => h.step hok hs) wakersInv_start hok

/-- The task that joins has left its waker. -/
theorem no_joiner_sleeps_forkAndJoin :
    Always (joinStep .default id) NoJoinerSleeps joinsStart forkAndJoin ∧
      ∃ s, runList (joinStep .default id) joinsStart forkAndJoin = some s ∧ s.WaitsFor 0 1 ∧
        (s.shared 1).waker = some 0 :=
  ⟨no_joiner_sleeps .default id forkAndJoin (forkJoin_forkAndJoin.mono fun _ _ h => h.notNested),
    _, rfl, ⟨rfl, rfl⟩, rfl⟩

/-- **Forks and joins never deadlock.** -/
theorem fork_join_never_deadlocks (cfg : SchedulingConfig) (typeOf : ℕ → ℕ)
    (es : List (JoinEvent ρ)) (hok : EachStep (joinStep cfg typeOf) ForkJoin joinsStart es) :
    Always (joinStep cfg typeOf) NeverAllAsleep joinsStart es :=
  always_of_invariant (fun _ h => ForkJoinInv.neverAllAsleep h)
    (fun _ _ _ h hok hs => h.step hok hs) forkJoinInv_start hok

/-- The task that joins sleeps, and the other one does not. -/
theorem fork_join_never_deadlocks_forkAndJoin :
    Always (joinStep .default id) NeverAllAsleep joinsStart forkAndJoin ∧
      ∃ s, runList (joinStep .default id) joinsStart forkAndJoin = some s ∧ s.WaitsFor 0 1 ∧
        s.runtime.queue .task = [1] :=
  ⟨fork_join_never_deadlocks .default id forkAndJoin forkJoin_forkAndJoin, _, rfl, ⟨rfl, rfl⟩, rfl⟩

end Executor

end Pluvio
