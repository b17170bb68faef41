import Pluvio.Runtime.Polls

/-!
# The order of the ids, and how long they wait

An id is sent to one of the two queues by a waker or by a spawn, and a loop takes it and
polls its task. Between the two it is in the queue, or in the buffer of one of the calls
under way (`Pluvio.Executor.Runtime.line`). This module keeps a log of what has been sent to
each queue and of what has been taken from it (`Pluvio.Executor.Served`).

No id is lost, and none is taken twice, also where calls are nested
(`Pluvio.Executor.ids_conserved`). With no nested call, ids are taken in the order in which
they were sent (`Pluvio.Executor.first_in_first_out`). And then a live future whose id waits
is polled within a bounded number of iterations, however many ids are sent meanwhile: every
iteration takes all the ids of the polling queue, and of the other queue the first
`task_batch_size` of them (`Pluvio.Executor.no_starvation`).
-/

namespace Pluvio

namespace Executor

/-! ### What an event does to the queues -/

/-- The queue from which a loop takes its ids. -/
def Pass.source : Pass → Queue
  | .polling _ => .polling
  | .batch _ | .pull _ => .task

/-- A frame is about to take an id from the queue. -/
def Pc.TakesFrom (q : Queue) : Pc → Prop
  | .loop p => p.source = q
  | _ => False

instance (q : Queue) (pc : Pc) : Decidable (pc.TakesFrom q) := by
  unfold Pc.TakesFrom
  split <;> infer_instance

namespace Runtime

/-- What an event sends to the queue. -/
def sends (s : Runtime) (q : Queue) : Event → List ℕ
  | .spawn q' key => if q' = q then [key] else []
  | .blockOn key => if Queue.task = q then [key] else []
  | .wake f => if (s.pool.address f).1 = q then [(s.pool.address f).2] else []
  | _ => []

/-- What an event takes from the queue. -/
def takes (s : Runtime) (q : Queue) : Event → List ℕ
  | .move .exec => (s.stack.head?.bind fun f =>
    if f.pc.TakesFrom q then s.nextId f.pc else none).toList
  | _ => []

/-- The event is the end of an iteration. -/
def endsIteration (s : Runtime) (e : Event) : Prop :=
  e = .move .exec ∧ s.stack.head?.map Frame.pc = some .tail

instance (s : Runtime) (e : Event) : Decidable (s.endsIteration e) :=
  inferInstanceAs (Decidable (_ ∧ _))

/-- The ids that wait, those in the buffers first. -/
def line (s : Runtime) (q : Queue) : List ℕ :=
  s.stack.flatMap (fun f => f.pc.unprocessed q) ++ s.queue q

end Runtime

/-- A runtime with a log. -/
structure Served where
  runtime : Runtime
  /-- What has been sent to each queue, in this order. -/
  sent : Queue → List ℕ
  /-- What has been taken from each queue, in this order. -/
  handled : Queue → List ℕ
  /-- How many polls of each future have begun. -/
  polls : ℕ → ℕ
  /-- How many iterations have ended. -/
  iterations : ℕ

/-- The executor at its start, with no id sent or taken. -/
def servedStart : Served := ⟨start, fun _ => [], fun _ => [], fun _ => 0, 0⟩

/-- A step of the executor, with the ids that it sends and takes noted. -/
def servedStep (cfg : SchedulingConfig) (s : Served) (e : Event) : Option Served :=
  (step cfg s.runtime e).map fun rt => {
    runtime := rt
    sent := fun q => s.sent q ++ s.runtime.sends q e
    handled := fun q => s.handled q ++ s.runtime.takes q e
    polls := fun f => s.polls f + if Began s.runtime rt f then 1 else 0
    iterations := s.iterations + if s.runtime.endsIteration e then 1 else 0 }

/-! ### The line -/

namespace Runtime

variable {cfg : SchedulingConfig} {s s' : Runtime} {f : Frame} {below : List Frame} {q : Queue}

/-- **A move and the ids of the innermost call**: what is left of its buffer and of the queue
is what there was, without the id that is taken. -/
def Advances (s : Runtime) (f : Frame) (below : List Frame) (q : Queue) (taken : List ℕ)
    (s' : Runtime) : Prop :=
  ∃ top : List Frame, s'.stack = top ++ below ∧
    taken ++ (top.flatMap (fun g => g.pc.unprocessed q) ++ s'.queue q) =
      f.pc.unprocessed q ++ s.queue q

/-- The innermost call goes on, and takes nothing. -/
theorem advances_resume {f' : Frame} (hs' : s'.stack = f' :: below)
    (h : f'.pc.unprocessed q ++ s'.queue q = f.pc.unprocessed q ++ s.queue q) :
    s.Advances f below q [] s' :=
  ⟨[f'], hs', by rw [List.flatMap_singleton, List.nil_append, h]⟩

theorem advances_leave (h : f.pc.unprocessed q = []) : s.Advances f below q [] (s.leave below) :=
  ⟨[], rfl, by rw [h]; rfl⟩

theorem advances_iterate (hs : s.stack = f :: below) (hpc : f.pc = .head) :
    s.Advances f below q [] (s.iterate cfg f below) := by
  simp only [iterate]
  split
  · exact advances_resume hs rfl
  · split <;>
    · refine advances_resume rfl ?_
      rw [hpc]
      cases q <;> simp [Pc.unprocessed, resume, panic]

theorem advances_loopHead (hs : s.stack = f :: below) (hpc : f.pc = .head) :
    s.Advances f below q [] (s.loopHead cfg f below) := by
  have hleave : s.Advances f below q [] (s.leave below) :=
    advances_leave (by rw [hpc]; rfl)
  rw [loopHead]
  split
  · split
    · exact hleave
    · exact advances_iterate hs hpc
  · split_ifs
    · exact advances_iterate hs hpc
    · exact hleave
    · exact advances_resume hs rfl
  · exact hleave

/-- The reactors of an iteration take no ids. -/
theorem advances_nextReactor {left : List ℕ} {drained : Option (List ℕ)}
    (hs : s.stack = f :: below) (hpc : f.pc = .reactors left drained) :
    s.Advances f below q [] (s.nextReactor cfg f below left drained) := by
  unfold nextReactor
  split
  · refine advances_resume rfl ?_
    rw [hpc]
    dsimp only
    split <;> cases q <;> rfl
  · refine advances_resume rfl ?_
    rw [hpc]
    cases q <;> rfl
  · split
    · exact advances_resume hs rfl
    · refine advances_resume rfl ?_
      rw [hpc]
      cases q <;> simp [Pc.unprocessed, Pass.unprocessed, resume]

/-- **An id is polled**: what is left is left to the innermost call. -/
theorem advances_pollTask (queue : Queue → List ℕ) {p : Pass} {id : ℕ} {taken : List ℕ}
    (h : taken ++ (p.unprocessed q ++ queue q) = f.pc.unprocessed q ++ s.queue q) :
    s.Advances f below q taken ({ s with queue := queue }.pollTask f below p id) := by
  rw [pollTask]
  split <;>
  · refine ⟨[_], rfl, ?_⟩
    rw [List.flatMap_singleton]
    exact h

theorem advances_nextTask {p : Pass} (hs : s.stack = f :: below) (hpc : f.pc = .loop p) :
    s.Advances f below q (if p.source = q then s.nextId (.loop p) else none).toList
      (s.nextTask cfg f below p) := by
  rcases p with (_ | ⟨id, ids⟩) | (_ | ⟨id, ids⟩) | processed
  · have hnone : (if Queue.polling = q then (none : Option ℕ) else none) = none := ite_self _
    show s.Advances f below q (if Queue.polling = q then (none : Option ℕ) else none).toList _
    rw [hnone, nextTask]
    split_ifs
    · refine advances_resume rfl ?_
      rw [hpc]
      cases q <;> rfl
    · exact advances_resume hs rfl
    · refine advances_resume rfl ?_
      rw [hpc]
      cases q <;> simp [Pc.unprocessed, Pass.unprocessed, resume]
  · refine advances_pollTask s.queue ?_
    rw [hpc]
    cases q <;> rfl
  · have hnone : (if Queue.task = q then (none : Option ℕ) else none) = none := ite_self _
    show s.Advances f below q (if Queue.task = q then (none : Option ℕ) else none).toList _
    rw [hnone]
    refine advances_resume rfl ?_
    rw [hpc]
    cases q <;> rfl
  · refine advances_pollTask s.queue ?_
    rw [hpc]
    cases q <;> rfl
  · have hleave : s.Advances f below q [] (s.leave below) :=
      advances_leave (by rw [hpc]; cases q <;> rfl)
    rw [nextTask, nextId]
    split_ifs with hq hprocessed
    · rcases hqueue : s.queue .task with - | ⟨id, rest⟩
      · exact hleave
      · refine advances_pollTask _ ?_
        rw [hpc, ← hq]
        simp [Pass.source, Pc.unprocessed, Pass.unprocessed, hqueue]
    · exact hleave
    · rcases hqueue : s.queue .task with - | ⟨id, rest⟩
      · exact hleave
      · refine advances_pollTask _ ?_
        rw [hpc]
        cases q
        · exact absurd rfl hq
        · rfl
    · exact hleave

theorem advances_taskPending {p : Pass} {id : ℕ} {t : Task} (hs : s.stack = f :: below)
    (hpc : f.pc = .task p id t) : s.Advances f below q [] (s.taskPending f below p id t) := by
  rw [taskPending]
  split
  · refine advances_resume rfl ?_
    rw [hpc]
    rfl
  · exact advances_resume hs rfl

theorem advances_taskReady {p : Pass} {id : ℕ} {t : Task} (hs : s.stack = f :: below)
    (hpc : f.pc = .task p id t) : s.Advances f below q [] (s.taskReady f below p id t) := by
  rw [taskReady]
  split
  · split
    · refine advances_resume rfl ?_
      rw [hpc]
      rfl
    · exact advances_resume hs rfl
  · exact advances_resume hs rfl

theorem advances_endIteration (hs : s.stack = f :: below) (hpc : f.pc = .tail) :
    s.Advances f below q [] (s.endIteration cfg f below) := by
  have hnil : f.pc.unprocessed q = [] := by rw [hpc]; rfl
  simp only [endIteration]
  split_ifs
  · exact advances_resume rfl (by rw [hnil]; rfl)
  · exact ⟨[], rfl, by rw [hnil]; rfl⟩
  · exact advances_resume hs rfl
  · exact advances_resume rfl (by rw [hnil]; rfl)

/-- A move takes the ids that it takes from the front of the line. -/
theorem advances_move {m : Move} (hs : s.stack = f :: below)
    (h : s.move cfg f below f.pc m = some s') :
    s.Advances f below q (s.takes q (.move m)) s' := by
  have htakes : s.takes q (.move .exec) =
      (if f.pc.TakesFrom q then s.nextId f.pc else none).toList := by
    rw [takes, hs]
    rfl
  generalize hpc : f.pc = pc at h htakes
  unfold move at h
  split at h
  · obtain rfl := Option.some.inj h
    exact htakes ▸ advances_loopHead hs hpc
  · obtain rfl := Option.some.inj h
    exact htakes ▸ advances_nextReactor hs hpc
  · obtain rfl := Option.some.inj h
    refine advances_resume rfl ?_
    rw [hpc]
    cases q <;> rfl
  · obtain rfl := Option.some.inj h
    exact htakes ▸ advances_nextTask hs hpc
  · obtain rfl := Option.some.inj h
    exact advances_taskPending hs hpc
  · obtain rfl := Option.some.inj h
    exact advances_taskReady hs hpc
  · obtain rfl := Option.some.inj h
    refine advances_resume rfl ?_
    rw [hpc]
    rfl
  · obtain rfl := Option.some.inj h
    exact htakes ▸ advances_endIteration hs hpc
  · cases h

/-- An id that is sent stands at the end of its line. -/
theorem line_send (s : Runtime) (q q' : Queue) (id : ℕ) :
    (s.send q' id).line q = s.line q ++ if q' = q then [id] else [] := by
  rw [line, line, List.append_assoc]
  refine congrArg (s.stack.flatMap _ ++ ·) ?_
  by_cases hq : q' = q
  · subst hq
    rw [if_pos rfl]
    exact Function.update_self ..
  · rw [if_neg hq, List.append_nil]
    exact Function.update_of_ne (Ne.symm hq) ..

/-- A call that begins has no ids of its own. -/
theorem line_call (s : Runtime) (call : Call) {pc : Pc} (h : pc.unprocessed q = []) :
    (s.resume (.new call pc) s.stack).line q = s.line q := by
  show (pc.unprocessed q ++ _) ++ _ = _
  rw [h]
  rfl

/-- **An event that is not a move** takes nothing. -/
theorem line_event {e : Event} (h : step cfg s e = some s') (he : ∀ m, e ≠ .move m)
    (q : Queue) : s'.line q = s.line q ++ s.sends q e := by
  obtain ⟨-, h⟩ := Option.ite_none_left_eq_some.mp h
  match e with
  | .move m => exact absurd rfl (he m)
  | .runQueue =>
    obtain ⟨-, h⟩ := Option.ite_none_right_eq_some.mp h
    obtain rfl := Option.some.inj h
    exact (line_call s .runQueue rfl).trans (List.append_nil _).symm
  | .progress =>
    obtain ⟨-, h⟩ := Option.ite_none_right_eq_some.mp h
    obtain rfl := Option.some.inj h
    exact (line_call s .progress (by cases q <;> rfl)).trans (List.append_nil _).symm
  | .blockOn key =>
    obtain ⟨-, h⟩ := Option.ite_none_right_eq_some.mp h
    obtain rfl := Option.some.inj h
    exact (line_call (s.spawn .task key) _ rfl).trans (line_send ..)
  | .spawn q' key =>
    obtain ⟨-, h⟩ := Option.ite_none_right_eq_some.mp h
    obtain rfl := Option.some.inj h
    exact line_send ..
  | .wake future =>
    obtain ⟨-, h⟩ := Option.ite_none_right_eq_some.mp h
    obtain rfl := Option.some.inj h
    exact line_send ..
  | .requestShutdown | .register r order =>
    obtain ⟨-, h⟩ := Option.ite_none_right_eq_some.mp h
    obtain rfl := Option.some.inj h
    exact (List.append_nil _).symm
  | .setRunning r running =>
    obtain rfl := Option.some.inj h
    rw [line, setRunning, List.flatMap_map]
    exact (List.append_nil _).symm

/-- **What an event takes from a line**, and what it sends there: with no nested call ids are
taken from the front. -/
theorem line_step {e : Event} (h : step cfg s e = some s') (q : Queue) :
    (s.takes q e ++ s'.line q).Perm (s.line q ++ s.sends q e) ∧
      (s.stack.length ≤ 1 → s.takes q e ++ s'.line q = s.line q ++ s.sends q e) := by
  by_cases hm : ∃ m, e = .move m
  · obtain ⟨m, rfl⟩ := hm
    obtain ⟨-, h⟩ := Option.ite_none_left_eq_some.mp h
    rcases hs : s.stack with - | ⟨f, below⟩
    · simp only [hs] at h
      cases h
    · simp only [hs] at h
      obtain ⟨top, hs', heq⟩ := advances_move (q := q) hs h
      have hline : s.line q ++ s.sends q (.move m) = f.pc.unprocessed q ++
          (below.flatMap (fun g => g.pc.unprocessed q) ++ s.queue q) := by
        have hsends : s.sends q (.move m) = [] := rfl
        rw [hsends, List.append_nil, line, hs, List.flatMap_cons, List.append_assoc]
      have hline' : s'.line q = top.flatMap (fun g => g.pc.unprocessed q) ++
          (below.flatMap (fun g => g.pc.unprocessed q) ++ s'.queue q) := by
        rw [line, hs', List.flatMap_append, List.append_assoc]
      rw [hline, hline']
      constructor
      · refine .trans ?_ (List.perm_append_comm_assoc ..)
        rw [← heq]
        exact (List.Perm.append_left _ (List.perm_append_comm_assoc ..)).trans
          (List.perm_append_comm_assoc ..)
      · intro hlen
        obtain rfl : below = [] := List.length_eq_zero_iff.mp (by simpa using hlen)
        exact heq
  · have htakes : s.takes q e = [] := by
      rw [takes]
      exact fun he => hm ⟨.exec, he⟩
    rw [htakes, List.nil_append, line_event h (fun m he => hm ⟨m, he⟩)]
    exact ⟨.refl _, fun _ => rfl⟩

end Runtime

/-- The line holds the ids that wait. -/
theorem Runtime.coe_line (s : Runtime) (q : Queue) : (s.line q : Multiset ℕ) = s.waiting q := by
  have hflat : ∀ stack : List Frame, (stack.flatMap (fun f => f.pc.unprocessed q) : Multiset ℕ) =
      (stack.map fun f => (f.pc.unprocessed q : Multiset ℕ)).sum := by
    intro stack
    induction stack with
    | nil => rfl
    | cons f below ih =>
      rw [List.flatMap_cons, ← Multiset.coe_add, ih, List.map_cons, List.sum_cons]
  rw [line, ← Multiset.coe_add, hflat, add_comm]
  rfl

/-! ### The log -/

section Log

variable {cfg : SchedulingConfig} {s s' : Served} {e : Event} {q : Queue}

theorem servedStep_eq_some (h : servedStep cfg s e = some s') :
    ∃ rt, step cfg s.runtime e = some rt ∧ s' = {
      runtime := rt
      sent := fun q => s.sent q ++ s.runtime.sends q e
      handled := fun q => s.handled q ++ s.runtime.takes q e
      polls := fun f => s.polls f + if Began s.runtime rt f then 1 else 0
      iterations := s.iterations + if s.runtime.endsIteration e then 1 else 0 } := by
  obtain ⟨rt, hrt, rfl⟩ := Option.map_eq_some_iff.mp h
  exact ⟨rt, hrt, rfl⟩

/-- **No id is lost**, and none is taken twice. -/
def IdsConserved (s : Served) : Prop :=
  ∀ q, (s.sent q).Perm (s.handled q ++ s.runtime.line q)

/-- No step loses an id or takes one twice. -/
theorem IdsConserved.step (h : IdsConserved s) (hs : servedStep cfg s e = some s') :
    IdsConserved s' := by
  obtain ⟨rt, hrt, rfl⟩ := servedStep_eq_some hs
  intro q
  show (s.sent q ++ _).Perm (s.handled q ++ _ ++ _)
  rw [List.append_assoc]
  refine ((h q).append_right _).trans ?_
  rw [List.append_assoc]
  exact (Runtime.line_step hrt q).1.symm.append_left _

/-- No task calls a loop from inside its own poll. -/
def ServedNotNested (s : Served) (e : Event) : Prop := NotNested s.runtime e

/-- **First in, first out**: the ids have been taken in the order in which they were sent, and
the others wait in this order. -/
def InOrder (s : Served) : Prop := ∀ q, s.sent q = s.handled q ++ s.runtime.line q

/-- One call at most is under way, and the ids are in order. -/
structure OrderInv (s : Served) : Prop where
  wake : WakeInv s.runtime
  inOrder : InOrder s

/-- Every step keeps the lines in the order in which the ids were sent. -/
theorem OrderInv.step (h : OrderInv s) (hok : ServedNotNested s e)
    (hs : servedStep cfg s e = some s') : OrderInv s' := by
  obtain ⟨rt, hrt, rfl⟩ := servedStep_eq_some hs
  refine ⟨h.wake.step hok hrt, fun q => ?_⟩
  show s.sent q ++ _ = s.handled q ++ _ ++ _
  rw [List.append_assoc, (Runtime.line_step hrt q).2 h.wake.calls, h.inOrder q,
    List.append_assoc]

theorem orderInv_start : OrderInv servedStart where
  wake := ⟨tasksInv_start, Nat.zero_le 1, fun _ hf => absurd hf.1 (Nat.not_lt_zero _)⟩
  inOrder := fun _ => rfl

end Log

/-! ### What an iteration takes -/

/-- The call has taken its share of the queue in this iteration: the whole of the polling
queue, a batch of the other one. -/
def Pc.Shared (q : Queue) : Pc → Prop
  | .head => False
  | .reactors _ drained | .reactor _ _ drained => q = .polling ∧ drained ≠ none
  | .loop p | .task p _ _ | .drop p => q = .polling ∨ p.buffer = some .task
  | .tail => True

namespace Runtime

variable {cfg : SchedulingConfig} {s s' : Runtime} {f : Frame} {q : Queue} {B : ℕ}
  {taken : List ℕ}

/-- **A move and the share of the one call**: the share is the same, or it has just been
taken, and is no smaller than `B`, or all there is. -/
def Serves (f : Frame) (q : Queue) (B : ℕ) (taken : List ℕ) (s' : Runtime) : Prop :=
  s'.panicked = none → ∀ f', s'.stack = [f'] → f'.pc.Shared q →
    f.pc.Shared q ∧ taken.length + (f'.pc.unprocessed q).length = (f.pc.unprocessed q).length ∨
      min B (s'.line q).length ≤ (f'.pc.unprocessed q).length

/-- The call has returned, or the thread panics. -/
theorem serves_leave : Serves f q B taken (s'.leave []) := by
  intro _ f' hf'
  cases hf'

theorem serves_panic {e : Panic} : Serves f q B taken (s'.panic e) := by
  intro h
  cases h

/-- The call goes on with the same share. -/
theorem serves_resume {f₁ : Frame} (hshared : f₁.pc.Shared q → f.pc.Shared q)
    (h : f₁.pc.Shared q →
      taken.length + (f₁.pc.unprocessed q).length = (f.pc.unprocessed q).length) :
    Serves f q B taken (s'.resume f₁ []) := by
  intro _ f' hf' hf
  obtain rfl : f₁ = f' := List.cons.inj hf' |>.1
  exact .inl ⟨hshared hf, h hf⟩

/-- The call takes its share. -/
theorem serves_share {f₁ : Frame} (h : f₁.pc.Shared q →
    min B ((s'.resume f₁ []).line q).length ≤ (f₁.pc.unprocessed q).length) :
    Serves f q B taken (s'.resume f₁ []) := by
  intro _ f' hf' hf
  obtain rfl : f₁ = f' := List.cons.inj hf' |>.1
  exact .inr (h hf)

theorem serves_loopHead :
    Serves f q B taken (s.loopHead cfg f []) := by
  have hiterate : Serves f q B taken (s.iterate cfg f []) := by
    simp only [iterate]
    split
    · exact serves_panic
    · split
      · exact serves_panic
      · refine serves_share fun hshared => ?_
        obtain ⟨rfl, -⟩ := hshared
        simp [line, resume, Pc.unprocessed]
  rw [loopHead]
  split
  · split
    · exact serves_leave
    · exact hiterate
  · split_ifs
    · exact hiterate
    · exact serves_leave
    · exact serves_panic
  · exact serves_leave

theorem serves_nextReactor {left : List ℕ} {drained : Option (List ℕ)}
    (hpc : f.pc = .reactors left drained) :
    Serves f q B [] (s.nextReactor cfg f [] left drained) := by
  unfold nextReactor
  split
  · refine serves_resume ?_ ?_ <;> rw [hpc] <;> dsimp only
    · split <;> exact id
    · split <;> cases q <;> simp [Pc.unprocessed]
  · refine serves_resume ?_ ?_ <;> rw [hpc] <;> cases q <;>
      simp [Pc.Shared, Pass.buffer, Pc.unprocessed, Pass.unprocessed]
  · split
    · exact serves_panic
    · refine serves_share fun hshared => ?_
      obtain rfl := hshared.resolve_right (by simp [Pass.buffer])
      simp [line, resume, Pc.unprocessed, Pass.unprocessed]

theorem serves_pollTask {p p' : Pass} {id : ℕ} (hpc : f.pc = .loop p)
    (hshared : (Pc.loop p').Shared q → (Pc.loop p).Shared q)
    (h : (Pc.loop p').Shared q → taken.length + (p'.unprocessed q).length =
      (p.unprocessed q).length) :
    Serves f q B taken (s'.pollTask f [] p' id) := by
  rw [pollTask]
  split <;> exact serves_resume (by rw [hpc]; exact hshared) (by rw [hpc]; exact h)

theorem serves_nextTask {p : Pass} (hB : q = .task → B ≤ cfg.taskBatchSize)
    (hpc : f.pc = .loop p) :
    Serves f q B (if p.source = q then s.nextId (.loop p) else none).toList
      (s.nextTask cfg f [] p) := by
  rcases p with (_ | ⟨id, ids⟩) | (_ | ⟨id, ids⟩) | processed
  · have hnone : (if Queue.polling = q then (none : Option ℕ) else none) = none := ite_self _
    show Serves f q B (if Queue.polling = q then (none : Option ℕ) else none).toList _
    rw [hnone, nextTask]
    split_ifs
    · refine serves_resume ?_ ?_ <;> rw [hpc] <;> cases q <;>
        simp [Pc.Shared, Pass.buffer, Pc.unprocessed, Pass.unprocessed]
    · exact serves_panic
    · cases q with
      | task =>
        refine serves_share fun _ => ?_
        have hB := hB rfl
        simp only [line, resume, Pc.unprocessed, Pass.unprocessed, Function.update_self,
          List.flatMap_singleton, List.take_append_drop, List.length_take]
        omega
      | polling =>
        refine serves_resume ?_ ?_ <;> rw [hpc] <;>
          simp [Pc.Shared, Pc.unprocessed, Pass.unprocessed]
  · refine serves_pollTask hpc ?_ ?_ <;> cases q <;>
      simp [Pc.Shared, Pass.buffer, Pass.source, Pass.unprocessed, nextId, Nat.add_comm]
  · have hnone : (if Queue.task = q then (none : Option ℕ) else none) = none := ite_self _
    show Serves f q B (if Queue.task = q then (none : Option ℕ) else none).toList _
    rw [hnone]
    refine serves_resume ?_ ?_ <;> rw [hpc] <;> cases q <;>
      simp [Pc.Shared, Pass.buffer, Pc.unprocessed, Pass.unprocessed]
  · refine serves_pollTask hpc ?_ ?_ <;> cases q <;>
      simp [Pc.Shared, Pass.buffer, Pass.source, Pass.unprocessed, nextId, Nat.add_comm]
  · -- only the polling queue has its share here, and nothing is taken from it
    have hnone : (Pc.loop (.pull processed)).Shared q →
        (if (Pass.pull processed).source = q then s.nextId (.loop (.pull processed)) else none) =
          none := by
      cases q <;> simp [Pc.Shared, Pass.buffer, Pass.source]
    generalize (if (Pass.pull processed).source = q then s.nextId (.loop (.pull processed))
      else none) = o at hnone
    rw [nextTask]
    split_ifs
    · split
      · refine serves_pollTask hpc id fun hshared => ?_
        rw [hnone hshared]
        rfl
      · exact serves_leave
    · exact serves_leave

/-- **A move** that is not the end of an iteration. -/
theorem serves_move {m : Move} (hB : q = .task → B ≤ cfg.taskBatchSize) (hs : s.stack = [f])
    (hpc : f.pc ≠ .tail) (h : s.move cfg f [] f.pc m = some s') :
    Serves f q B (s.takes q (.move m)) s' := by
  have htakes : s.takes q (.move .exec) =
      (if f.pc.TakesFrom q then s.nextId f.pc else none).toList := by
    rw [takes, hs]
    rfl
  generalize hpc' : f.pc = pc at h htakes hpc
  unfold move at h
  split at h
  · obtain rfl := Option.some.inj h
    exact serves_loopHead
  · obtain rfl := Option.some.inj h
    exact htakes ▸ serves_nextReactor hpc'
  · obtain rfl := Option.some.inj h
    refine serves_resume ?_ ?_ <;> rw [hpc'] <;> cases q <;>
      simp [Pc.Shared, Pc.unprocessed, takes]
  · obtain rfl := Option.some.inj h
    exact htakes ▸ serves_nextTask hB hpc'
  · obtain rfl := Option.some.inj h
    rw [taskPending]
    split
    · refine serves_resume ?_ ?_ <;> rw [hpc'] <;> simp [Pc.Shared, Pc.unprocessed, takes]
    · exact serves_panic
  · obtain rfl := Option.some.inj h
    rw [taskReady]
    split
    · split
      · refine serves_resume ?_ ?_ <;> rw [hpc'] <;> simp [Pc.Shared, Pc.unprocessed, takes]
      · exact serves_panic
    · exact serves_panic
  · obtain rfl := Option.some.inj h
    refine serves_resume ?_ ?_ <;> rw [hpc'] <;> simp [Pc.Shared, Pc.unprocessed, takes]
  · exact absurd rfl hpc
  · cases h

/-- A call that is made with no nested one is the only one. -/
theorem serves_call {call : Call} {pc : Pc} (hpc : ¬pc.Shared q)
    (hs' : s'.stack = .new call pc :: s.stack) :
    s'.panicked = none → ∀ f', s'.stack = [f'] → ¬f'.pc.Shared q := by
  intro _ f' hf'
  obtain rfl : Frame.new call pc = f' := (List.cons.inj (hs'.symm.trans hf')).1
  exact hpc

/-- **A step that is not the end of an iteration.** -/
theorem serves_step {e : Event} (hB : q = .task → B ≤ cfg.taskBatchSize)
    (hlen : s.stack.length ≤ 1) (he : ¬s.endsIteration e) (h : step cfg s e = some s')
    (hp' : s'.panicked = none) {f' : Frame} (hf' : s'.stack = [f']) (hshared : f'.pc.Shared q) :
    (∃ f, s.stack = [f] ∧ f.pc.Shared q ∧
      (s.takes q e).length + (f'.pc.unprocessed q).length = (f.pc.unprocessed q).length) ∨
      min B (s'.line q).length ≤ (f'.pc.unprocessed q).length := by
  obtain ⟨-, h⟩ := Option.ite_none_left_eq_some.mp h
  match e with
  | .move m =>
    rcases hs : s.stack with - | ⟨f, below⟩
    · simp only [hs] at h
      cases h
    · simp only [hs] at h
      obtain rfl : below = [] := by
        rw [hs, List.length_cons] at hlen
        exact List.length_eq_zero_iff.mp (by omega)
      -- the move is not the end of an iteration
      have hpc : f.pc ≠ .tail := by
        intro hpc
        rw [hpc] at h
        cases m with
        | exec => exact he ⟨rfl, by rw [hs, ← hpc]; rfl⟩
        | _ => cases h
      exact (serves_move hB hs hpc h hp' f' hf' hshared).imp_left fun hkeep => ⟨f, rfl, hkeep⟩
  | .runQueue =>
    obtain ⟨-, h⟩ := Option.ite_none_right_eq_some.mp h
    obtain rfl := Option.some.inj h
    exact absurd hshared (serves_call id rfl hp' f' hf')
  | .blockOn key =>
    obtain ⟨-, h⟩ := Option.ite_none_right_eq_some.mp h
    obtain rfl := Option.some.inj h
    exact absurd hshared (serves_call (s := s) id rfl hp' f' hf')
  | .progress =>
    obtain ⟨-, h⟩ := Option.ite_none_right_eq_some.mp h
    obtain rfl := Option.some.inj h
    -- `progress` goes over the reactors before it fills the buffer
    have hnot : ¬(Pc.reactors s.reactors none).Shared q := fun h => h.2 rfl
    exact absurd hshared (serves_call hnot rfl hp' f' hf')
  | .spawn _ _ | .wake _ | .requestShutdown | .register _ _ =>
    obtain ⟨-, h⟩ := Option.ite_none_right_eq_some.mp h
    obtain rfl := Option.some.inj h
    exact .inl ⟨f', hf', hshared, Nat.zero_add _⟩
  | .setRunning r running =>
    obtain rfl := Option.some.inj h
    obtain ⟨f, hf, rfl⟩ := List.map_eq_singleton_iff.mp hf'
    exact .inl ⟨f, hf, hshared, Nat.zero_add _⟩

/-- An iteration that ends is that of the one call. -/
theorem tail_of_endsIteration {e : Event} (hlen : s.stack.length ≤ 1)
    (he : s.endsIteration e) : ∃ f, s.stack = [f] ∧ f.pc = .tail := by
  obtain ⟨-, hpc⟩ := he
  rcases hs : s.stack with - | ⟨f, below⟩
  · rw [hs] at hpc
    cases hpc
  · rw [hs] at hlen hpc
    obtain rfl : below = [] := by
      rw [List.length_cons] at hlen
      exact List.length_eq_zero_iff.mp (by omega)
    exact ⟨f, rfl, Option.some.inj hpc⟩

/-- **The end of an iteration**: the next one has no share yet. -/
theorem not_shared_of_endsIteration {e : Event} (hlen : s.stack.length ≤ 1)
    (he : s.endsIteration e) (h : step cfg s e = some s') (hp' : s'.panicked = none) {f' : Frame}
    (hf' : s'.stack = [f']) : ¬f'.pc.Shared q := by
  obtain ⟨f, hs, hpc⟩ := tail_of_endsIteration hlen he
  obtain ⟨rfl, -⟩ := he
  obtain ⟨-, h⟩ := Option.ite_none_left_eq_some.mp h
  simp only [hs, hpc] at h
  obtain rfl := Option.some.inj h
  revert hp' hf'
  simp only [endIteration]
  split_ifs
  · intro _ hf'
    obtain rfl := (List.cons.inj hf').1
    exact id
  · intro _ hf'
    cases hf'
  · intro hp'
    cases hp'
  · intro _ hf'
    obtain rfl := (List.cons.inj hf').1
    exact id

end Runtime

/-! ### How long an id waits -/

section Service

variable {cfg : SchedulingConfig} {s s' : Served} {e : Event} {q : Queue} {B K h₀ n : ℕ}

/-- **The service of a queue**, after `n` iterations have ended: of the first `K` ids, those
have been taken that are among the first `h₀ + (n - 1) * B`, and if the call has taken its
share, those wait in its buffer that are among the next `B`. -/
structure Service (q : Queue) (B K h₀ n : ℕ) (s : Served) : Prop where
  sent : K ≤ (s.sent q).length
  handled : min K (h₀ + (n - 1) * B) ≤ (s.handled q).length
  share : s.runtime.panicked = none → ∀ f, s.runtime.stack = [f] → f.pc.Shared q →
    min K (h₀ + n * B) ≤ (s.handled q).length + (f.pc.unprocessed q).length

/-- With each iteration that ends the ids in front become fewer by a batch. -/
theorem Service.step (h : Service q B K h₀ n s) (hinv : OrderInv s) (hok : ServedNotNested s e)
    (hB : q = .task → B ≤ cfg.taskBatchSize) (hs : servedStep cfg s e = some s') :
    ∃ n', s'.iterations + n = s.iterations + n' ∧ Service q B K h₀ n' s' := by
  have hinv' := hinv.step hok hs
  obtain ⟨rt, hrt, rfl⟩ := servedStep_eq_some hs
  have hsent : K ≤ (s.sent q ++ s.runtime.sends q e).length := by
    rw [List.length_append]
    exact h.sent.trans (Nat.le_add_right ..)
  have hline := congrArg List.length (hinv'.inOrder q)
  simp only [List.length_append] at hline
  have hhandled := h.handled
  have hp : s.runtime.panicked = none := not_not.mp (Option.ite_none_left_eq_some.mp hrt).1
  by_cases hend : s.runtime.endsIteration e
  · refine ⟨n + 1, ?_, hsent, ?_, fun hp' f' hf' hshared => ?_⟩
    · simp only [if_pos hend]
      omega
    · obtain ⟨f, hf, hpc⟩ := Runtime.tail_of_endsIteration hinv.wake.calls hend
      have hshare := h.share hp f hf (hpc ▸ trivial)
      rw [hpc] at hshare
      rw [List.length_append]
      exact hshare.trans (Nat.le_add_right ..)
    · exact absurd hshared
        (Runtime.not_shared_of_endsIteration hinv.wake.calls hend hrt hp' hf')
  · refine ⟨n, by simp only [if_neg hend]; omega, hsent, ?_, fun hp' f' hf' hshared => ?_⟩
    · rw [List.length_append]
      omega
    · simp only [List.length_append] at hsent ⊢
      rcases Runtime.serves_step hB hinv.wake.calls hend hrt hp' hf' hshared with
        ⟨f, hf, hsharedf, hkeep⟩ | hshare
      · have hshare := h.share hp f hf hsharedf
        omega
      · have hmul : n * B ≤ (n - 1) * B + B := by
          rw [← Nat.succ_mul]
          exact Nat.mul_le_mul_right _ (by omega)
        omega

/-- What an event takes, and whether a call of `progress` takes it. -/
theorem Runtime.taken_of_takes {s : Runtime} {id : ℕ} (h : id ∈ s.takes q e) :
    ∃ b, s.taken e = some (id, b) ∧ s.takes q e = [id] := by
  unfold takes at h ⊢
  split at h
  · obtain ⟨f, hf, hid⟩ := Option.bind_eq_some_iff.mp (Option.mem_toList.mp h)
    obtain ⟨hq, hid⟩ := Option.ite_none_right_eq_some.mp hid
    refine ⟨decide (f.call = .progress), ?_, ?_⟩
    · rw [taken, hf, Option.bind_some, hid]
      rfl
    · rw [hf, Option.bind_some, if_pos hq, hid]
      rfl
  · cases h

/-- **The id of a live future is taken**: its poll begins. -/
theorem WakeInv.began {s s' : Runtime} (hinv : WakeInv s) (h : Executor.step cfg s e = some s')
    {f : ℕ} (hf : s.pool.Live f) (htaken : (s.pool.address f).2 ∈ s.takes q e) :
    Began s s' f := by
  obtain ⟨b, htaken, -⟩ := Runtime.taken_of_takes htaken
  have hidle := hinv.idle htaken
  have hstep := Runtime.step_schedule h
  rw [htaken] at hstep
  refine ⟨hstep.began hinv.tasks.pool hidle hf rfl, fun hmem => ?_⟩
  rw [Runtime.pollees, hidle] at hmem
  cases hmem

/-- **A future that waits for its turn**: of the ids `L` that had been sent, its own is among
those that have not been taken, until its poll begins. -/
structure InTurn (f : ℕ) (q : Queue) (id : ℕ) (L : List ℕ) (polls : ℕ) (s : Served) : Prop where
  spawned : f < s.runtime.pool.spawned
  address : s.runtime.pool.address f = (q, id)
  sent : L <+: s.sent q
  le : polls ≤ s.polls f
  turn : polls < s.polls f ∨ f ∈ s.runtime.pool.completed ∨ id ∈ L.drop (s.handled q).length

/-- The first of the ids that are left is taken, and it is another one. -/
theorem mem_drop_of_prefix {id x : ℕ} {L l l' : List ℕ} (hL : L <+: l ++ x :: l')
    (hid : id ∈ L.drop l.length) (hne : id ≠ x) : id ∈ L.drop (l.length + 1) := by
  have hlt : l.length < L.length := by
    by_contra hle
    rw [List.drop_eq_nil_of_le (Nat.le_of_not_lt hle)] at hid
    cases hid
  have hget : L[l.length] = x := by
    rw [hL.getElem hlt, List.getElem_append_right le_rfl]
    simp
  rw [List.drop_eq_getElem_cons hlt, hget] at hid
  exact (List.mem_cons.mp hid).resolve_left hne

/-- An id goes on waiting for its turn, until its task is polled or has completed. -/
theorem InTurn.step {f id polls : ℕ} {L : List ℕ} (h : InTurn f q id L polls s)
    (hinv : OrderInv s) (hok : ServedNotNested s e) (hs : servedStep cfg s e = some s') :
    InTurn f q id L polls s' := by
  have hinv' := hinv.step hok hs
  obtain ⟨rt, hrt, rfl⟩ := servedStep_eq_some hs
  have hsched := Runtime.step_schedule hrt
  have htasks := hinv.wake.tasks.pool
  obtain ⟨hspawned, haddress⟩ := hsched.address_eq htasks h.spawned
  have hL := h.sent.trans (List.prefix_append _ (s.runtime.sends q e))
  refine ⟨hspawned, haddress.trans h.address, hL, h.le.trans (Nat.le_add_right ..), ?_⟩
  rcases h.turn with hpolls | hcompleted | hid
  · exact .inl (hpolls.trans_le (Nat.le_add_right ..))
  · exact .inr (.inl (hsched.completed_subset htasks hcompleted))
  · by_cases hcompleted : f ∈ s.runtime.pool.completed
    · exact .inr (.inl (hsched.completed_subset htasks hcompleted))
    · by_cases htakes : id ∈ s.runtime.takes q e
      · have hbegan : Began s.runtime rt f :=
          hinv.wake.began hrt ⟨h.spawned, hcompleted⟩ (by rw [h.address]; exact htakes)
        left
        simp only [if_pos hbegan]
        exact Nat.lt_succ_of_le h.le
      · refine .inr (.inr ?_)
        have hsent : s.sent q ++ s.runtime.sends q e =
            s.handled q ++ s.runtime.takes q e ++ rt.line q := hinv'.inOrder q
        show id ∈ L.drop (s.handled q ++ s.runtime.takes q e).length
        rcases hx : s.runtime.takes q e with - | ⟨x, l⟩
        · rw [List.append_nil]
          exact hid
        · obtain ⟨-, -, htakes'⟩ := Runtime.taken_of_takes (hx ▸ List.mem_cons_self ..)
          obtain rfl : l = [] := (List.cons.inj (hx.symm.trans htakes')).2
          rw [hx] at hsent htakes
          rw [hsent, List.append_assoc] at hL
          rw [List.length_append]
          exact mem_drop_of_prefix hL hid (List.ne_of_not_mem_cons htakes)

/-- So many iterations, after the present one, go over all the ids that wait for a queue. -/
def Covers (cfg : SchedulingConfig) (s : Runtime) (k : ℕ) : Queue → Prop
  | .polling => 1 ≤ k
  | .task => (s.line .task).length ≤ k * cfg.taskBatchSize

/-- **A future whose id waits** is polled, or has completed, after so many iterations. -/
theorem OrderInv.polled_within {cfg : SchedulingConfig} {es : List Event} {s s' : Served}
    (hinv : OrderInv s) (hok : EachStep (servedStep cfg) ServedNotNested s es)
    (hrun : runList (servedStep cfg) s es = some s') {f k : ℕ} (hf : s.runtime.pool.Live f)
    (hq : Queued s.runtime f) (hk : Covers cfg s.runtime k (s.runtime.pool.address f).1)
    (hn : s.iterations + k < s'.iterations) :
    s.polls f < s'.polls f ∨ f ∈ s'.runtime.pool.completed := by
  rw [Queued] at hq
  rcases haddress : s.runtime.pool.address f with ⟨q, id⟩
  rw [haddress] at hq hk
  have hlen : (s.sent q).length = (s.handled q).length + (s.runtime.line q).length := by
    rw [hinv.inOrder q, List.length_append]
  -- an iteration takes `B` ids, or all of them
  obtain ⟨B, hB, hcover⟩ : ∃ B, (q = .task → B ≤ cfg.taskBatchSize) ∧
      (s.runtime.line q).length ≤ k * B := by
    cases q with
    | task => exact ⟨cfg.taskBatchSize, fun _ => le_rfl, hk⟩
    | polling => exact ⟨_, fun h => (by cases h), Nat.le_mul_of_pos_left _ hk⟩
  have hkeep : ∀ u e u', (OrderInv u ∧ (∃ n, u.iterations = s.iterations + n ∧
      Service q B (s.sent q).length (s.handled q).length n u) ∧
      InTurn f q id (s.sent q) (s.polls f) u) → ServedNotNested u e →
      servedStep cfg u e = some u' → OrderInv u' ∧ (∃ n, u'.iterations = s.iterations + n ∧
      Service q B (s.sent q).length (s.handled q).length n u') ∧
      InTurn f q id (s.sent q) (s.polls f) u' := by
    rintro u e u' ⟨hinv, ⟨n, hn, hservice⟩, hturn⟩ hok hs
    obtain ⟨n', hn', hservice'⟩ := hservice.step hinv hok hB hs
    exact ⟨hinv.step hok hs, ⟨n', by omega, hservice'⟩, hturn.step hinv hok hs⟩
  have hstart : Service q B (s.sent q).length (s.handled q).length 0 s := by
    refine ⟨le_rfl, ?_, fun _ g _ _ => ?_⟩
    · simp
    · simp only [Nat.zero_mul, Nat.add_zero]
      omega
  have hturn : InTurn f q id (s.sent q) (s.polls f) s := by
    refine ⟨hf.1, haddress, List.prefix_rfl, le_rfl, .inr (.inr ?_)⟩
    rw [hinv.inOrder q, List.drop_left, ← Multiset.mem_coe, Runtime.coe_line]
    exact hq
  obtain ⟨-, ⟨n, hiterations, hservice⟩, hturn'⟩ := (always_of_invariant (fun _ h => h) hkeep
    ⟨hinv, ⟨0, rfl, hstart⟩, hturn⟩ hok).last hrun
  -- all the ids that had been sent have been taken
  have hall : (s.sent q).length ≤ (s'.handled q).length := by
    have hhandled := hservice.handled
    have hmul : k * B ≤ (n - 1) * B := Nat.mul_le_mul_right _ (by omega)
    omega
  rcases hturn'.turn with hpolls | hcompleted | hid
  · exact .inl hpolls
  · exact .inr hcompleted
  · rw [List.drop_eq_nil_of_le hall] at hid
    cases hid

end Service

/-! ### Every run -/

/-- In every run the ids sent are those that were taken and those that wait. -/
theorem ids_conserved (cfg : SchedulingConfig) (es : List Event) :
    Always (servedStep cfg) IdsConserved servedStart es :=
  always_of_invariant (fun _ h => h) (fun _ _ _ h _ hs => h.step hs) (fun _ => .refl _)
    (eachStep_true es)

/-- **The order of the ids** in a run in which no task drives the runtime from inside its own
poll. -/
theorem first_in_first_out (cfg : SchedulingConfig) (es : List Event)
    (hok : EachStep (servedStep cfg) ServedNotNested servedStart es) :
    Always (servedStep cfg) InOrder servedStart es :=
  always_of_invariant (fun _ h => OrderInv.inOrder h) (fun _ _ _ h hok hs => h.step hok hs)
    orderInv_start hok

/-- The id of a task that wakes itself is sent twice, and taken once. -/
theorem first_in_first_out_yieldOnce :
    Always (servedStep .default) InOrder servedStart yieldOnce ∧
      ∃ s, runList (servedStep .default) servedStart yieldOnce = some s ∧ s.sent .task = [0, 0] ∧
        s.handled .task = [0] := by
  refine ⟨first_in_first_out .default yieldOnce ?_, _, rfl, rfl, rfl⟩
  refine fun s₁ h₁ => ⟨absurd rfl, fun s₂ _ => ⟨fun _ => ?_, ?_⟩⟩
  · obtain rfl := Option.some.inj h₁
    rfl
  · exact fun _ _ => ⟨absurd rfl, fun _ _ => ⟨absurd rfl, fun _ _ => ⟨absurd rfl, fun _ _ =>
      ⟨absurd rfl, fun _ _ => ⟨absurd rfl, fun _ _ => ⟨absurd rfl, trivial⟩⟩⟩⟩⟩⟩

/-- **No starvation**: in a run in which no task drives the runtime from inside its own poll, a
live future whose id waits is polled, or has completed, after so many iterations. -/
theorem no_starvation (cfg : SchedulingConfig) {es es' : List Event} {s s' : Served}
    (hok : EachStep (servedStep cfg) ServedNotNested servedStart es)
    (hrun : runList (servedStep cfg) servedStart es = some s)
    (hok' : EachStep (servedStep cfg) ServedNotNested s es')
    (hrun' : runList (servedStep cfg) s es' = some s') {f k : ℕ} (hf : s.runtime.pool.Live f)
    (hq : Queued s.runtime f) (hk : Covers cfg s.runtime k (s.runtime.pool.address f).1)
    (hn : s.iterations + k < s'.iterations) :
    s.polls f < s'.polls f ∨ f ∈ s'.runtime.pool.completed := by
  have hinv : OrderInv s :=
    (always_of_invariant (fun _ h => h) (fun _ _ _ h hok hs => h.step hok hs) orderInv_start
      hok).last hrun
  exact hinv.polled_within hok' hrun' hf hq hk hn

/-- Moves of the executor begin no calls. -/
theorem servedNotNested_moves (cfg : SchedulingConfig) (s : Served) (ms : List Move) :
    EachStep (servedStep cfg) ServedNotNested s (ms.map .move) := by
  induction ms generalizing s with
  | nil => trivial
  | cons m ms ih => exact fun s' _ => ⟨absurd rfl, ih s'⟩

/-- Two iterations of `run_queue` with a task that stays pending. -/
def twoIterations : List Event :=
  .runQueue :: [Move.exec, .exec, .exec, .exec, .pending, .exec, .exec, .exec, .exec, .exec,
    .exec, .exec].map .move

/-- The task is polled in the first of them. -/
theorem no_starvation_twoIterations :
    ∃ s s', runList (servedStep .default) servedStart [.spawn .task 0] = some s ∧
      runList (servedStep .default) s twoIterations = some s' ∧
        (s.polls 0 < s'.polls 0 ∨ 0 ∈ s'.runtime.pool.completed) := by
  have hok : EachStep (servedStep .default) ServedNotNested servedStart [.spawn .task 0] :=
    fun _ _ => ⟨absurd rfl, trivial⟩
  -- the one call is made from outside
  have hok' : ∀ s : Served, s.runtime.polled = [] →
      EachStep (servedStep .default) ServedNotNested s twoIterations := fun s hs s₁ _ =>
    ⟨fun _ => hs, servedNotNested_moves .default s₁ _⟩
  refine ⟨_, _, rfl, rfl, no_starvation .default hok rfl (hok' _ rfl) rfl (k := 1) ?_ ?_ ?_ ?_⟩
  · decide
  · rw [Queued, ← Runtime.coe_line]
    exact List.mem_singleton_self 0
  · exact Nat.le_of_ble_eq_true rfl
  · exact Nat.le_of_ble_eq_true rfl

end Executor

end Pluvio
