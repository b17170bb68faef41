import Pluvio.Runtime.Frames

/-!
# Giving up

A loop counts the iterations in which it has made no progress, and gives up when there
have been more than `max_stuck_iterations` of them in a row: `run_queue` returns and
`block_on_with_name_and_runtime` panics. Progress is a task that completes or a reactor
that is polled. A task that is polled and returns `Pending` is none, and a reactor that
is `Running` while its cached status says `Stopped` is none either.

Each call keeps a record of its iterations, and the counter is the length of the run of
iterations without progress at its front (`Pluvio.Executor.StuckInv`). So what a loop
has seen when it gives up is exactly known, and the law
(`Pluvio.Executor.gives_up_idle`) says in which runs it has seen nothing runnable.
-/

namespace Pluvio

namespace Executor

/-! ### The counter of a call -/

/-- An iteration with progress: a task has completed or a reactor was polled. -/
def Iteration.productive (it : Iteration) : Bool := it.completed || it.reactorPolled

/-- An iteration in which nothing was runnable. -/
def Iteration.Idle (it : Iteration) : Prop := it.taskPolled = false ∧ it.running = false

/-- **The counter and the record agree**: the counted iterations are those without progress
since the last one with progress. -/
structure Frame.Counts (maxStuck : ℕ) (f : Frame) : Prop where
  accounted : f.madeProgress = f.current.productive
  le : f.stuckCounter ≤ maxStuck
  length : f.stuckCounter ≤ f.past.length
  counted : ∀ it ∈ f.past.take f.stuckCounter, it.productive = false
  last : ∀ it, f.past[f.stuckCounter]? = some it → it.productive = true

variable {n : ℕ} {f f' : Frame}

/-- A call that begins has counted no iteration. -/
theorem counts_new (n : ℕ) (call : Call) (pc : Pc) : (Frame.new call pc).Counts n where
  accounted := rfl
  le := Nat.zero_le n
  length := Nat.le_refl 0
  counted := nofun
  last := nofun

/-- Within an iteration the counter stays. -/
theorem Frame.Counts.continues (h : f.Counts n) (hf : f.Continues f') : f'.Counts n where
  accounted := hf.accounted h.accounted
  le := hf.stuckCounter ▸ h.le
  length := by rw [hf.stuckCounter, hf.past]; exact h.length
  counted := by rw [hf.stuckCounter, hf.past]; exact h.counted
  last := by rw [hf.stuckCounter, hf.past]; exact h.last

/-- The iterations that are counted when the current one is the last. -/
def Frame.recent (f : Frame) (k : ℕ) : List Iteration := (f.current :: f.past).take k

/-- **The loop has seen enough**: the last `n + 1` iterations are all without progress. -/
def Frame.Exhausted (n : ℕ) (f : Frame) : Prop :=
  (f.recent (n + 1)).length = n + 1 ∧ ∀ it ∈ f.recent (n + 1), it.productive = false

/-- **When the loop gives up**: the counter says so exactly when the record does. -/
theorem Frame.Counts.exhausted_iff (h : f.Counts n) :
    f.Exhausted n ↔ f.madeProgress = false ∧ f.stuckCounter = n := by
  rw [h.accounted]
  constructor
  · rintro ⟨hlen, hall⟩
    refine ⟨hall _ (by rw [recent, List.take_succ_cons]; exact List.mem_cons_self ..), ?_⟩
    by_contra hne
    have hlt : f.stuckCounter < n := Nat.lt_of_le_of_ne h.le hne
    -- the iteration before the counted ones has made progress
    have hpast : f.stuckCounter < f.past.length := by
      rw [recent, List.length_take, List.length_cons] at hlen
      omega
    have hmem : f.past[f.stuckCounter] ∈ f.recent (n + 1) := by
      rw [recent, List.take_succ_cons]
      refine List.mem_cons_of_mem _ (List.mem_take_iff_getElem.mpr ⟨f.stuckCounter, ?_, rfl⟩)
      omega
    exact nomatch (hall _ hmem).symm.trans (h.last _ (List.getElem?_eq_getElem hpast))
  · rintro ⟨hcur, rfl⟩
    rw [Exhausted, recent, List.take_succ_cons]
    refine ⟨?_, List.forall_mem_cons.mpr ⟨hcur, h.counted⟩⟩
    rw [List.length_cons, List.length_take, Nat.min_eq_left h.length]

/-- An iteration with progress sets the counter back. -/
theorem Frame.Counts.progress (h : f.Counts n) (hf : f.madeProgress = true) :
    ({ f with past := f.current :: f.past, pc := .head, stuckCounter := 0 } : Frame).Counts n where
  accounted := h.accounted
  le := Nat.zero_le n
  length := Nat.zero_le _
  counted := nofun
  last := fun _ hit => Option.some.inj hit ▸ h.accounted.symm.trans hf

/-- An iteration without progress counts one more, and sets nothing back. -/
theorem Frame.Counts.stuck (h : f.Counts n) (hf : f.madeProgress = false)
    (hle : f.stuckCounter + 1 ≤ n) : ({ f with
      past := f.current :: f.past
      pc := .head
      stuckCounter := f.stuckCounter + 1 } : Frame).Counts n where
  accounted := h.accounted
  le := hle
  length := Nat.succ_le_succ h.length
  counted := by
    rw [List.take_succ_cons]
    exact List.forall_mem_cons.mpr ⟨h.accounted.symm.trans hf, h.counted⟩
  last := h.last

/-! ### Runs -/

variable {cfg : SchedulingConfig} {s s' : Runtime} {e : Event} {below : List Frame}

/-- **The executor gives up only when nothing is runnable**: in the iterations that a call
has counted when it gave up no task was polled and no reactor was `Running`. -/
def GivesUpIdle (s : Runtime) : Prop := ∀ its ∈ s.verdicts, ∀ it ∈ its, it.Idle

/-- The event ends the last of `max_stuck_iterations + 1` iterations without progress, and
something was runnable in one of them. -/
def EndsBusy (cfg : SchedulingConfig) (s : Runtime) (e : Event) : Prop :=
  e = .move .exec ∧ ∃ f ∈ s.stack.head?, f.pc = .tail ∧ f.Exhausted cfg.maxStuckIterations ∧
    ∃ it ∈ f.recent (cfg.maxStuckIterations + 1), ¬it.Idle

/-- The counters of all calls are right, and so were the verdicts. -/
structure StuckInv (cfg : SchedulingConfig) (s : Runtime) : Prop where
  counts : ∀ f ∈ s.stack, f.Counts cfg.maxStuckIterations
  idle : GivesUpIdle s

theorem stuckInv_start (cfg : SchedulingConfig) : StuckInv cfg start where
  counts := List.forall_mem_nil _
  idle := List.forall_mem_nil _

namespace Runtime

/-- The end of an iteration with progress, or before the counter is full. -/
theorem endIteration_of_not_exhausted (h : f.Counts cfg.maxStuckIterations)
    (hf : ¬f.Exhausted cfg.maxStuckIterations) :
    (s.endIteration cfg f below).verdicts = s.verdicts ∧
      ∃ f', (s.endIteration cfg f below).stack = f' :: below ∧
        f'.Counts cfg.maxStuckIterations := by
  rw [h.exhausted_iff] at hf
  simp only [endIteration]
  split_ifs with hprogress hmax
  · exact ⟨rfl, _, rfl, h.progress hprogress⟩
  · exact absurd ⟨eq_false_of_ne_true hprogress, Nat.le_antisymm h.le (Nat.lt_succ_iff.mp hmax)⟩ hf
  · exact absurd ⟨eq_false_of_ne_true hprogress, Nat.le_antisymm h.le (Nat.lt_succ_iff.mp hmax)⟩ hf
  · exact ⟨rfl, _, rfl, h.stuck (eq_false_of_ne_true hprogress) (Nat.not_lt.mp hmax)⟩

/-- A loop whose counter is exhausted leaves the iterations it has judged by. -/
theorem endIteration_of_exhausted (hs : s.stack = f :: below)
    (h : f.Counts cfg.maxStuckIterations) (hf : f.Exhausted cfg.maxStuckIterations) :
    (s.endIteration cfg f below).verdicts = f.recent (cfg.maxStuckIterations + 1) :: s.verdicts ∧
      ∀ g ∈ (s.endIteration cfg f below).stack, g ∈ s.stack := by
  obtain ⟨hprogress, hcount⟩ := h.exhausted_iff.mp hf
  simp only [endIteration]
  split_ifs with hp hmax
  · cases hprogress.symm.trans hp
  · exact ⟨by rw [hcount]; rfl, fun g hg => hs ▸ List.mem_cons_of_mem _ hg⟩
  · exact ⟨by rw [hcount]; rfl, fun g hg => hg⟩
  · omega

end Runtime

/-- A step without a verdict. -/
theorem StuckInv.of_verdicts_eq (h : StuckInv cfg s) (hverdicts : s'.verdicts = s.verdicts)
    (hcounts : ∀ f ∈ s'.stack, f.Counts cfg.maxStuckIterations) (hbusy : ¬EndsBusy cfg s e) :
    (∀ f ∈ s'.stack, f.Counts cfg.maxStuckIterations) ∧ (GivesUpIdle s' ↔ ¬EndsBusy cfg s e) := by
  refine ⟨hcounts, iff_of_true ?_ hbusy⟩
  rw [GivesUpIdle, hverdicts]
  exact h.idle

theorem StuckInv.endIteration (h : StuckInv cfg s) (hs : s.stack = f :: below)
    (hpc : f.pc = .tail) :
    (∀ g ∈ (s.endIteration cfg f below).stack, g.Counts cfg.maxStuckIterations) ∧
      (GivesUpIdle (s.endIteration cfg f below) ↔ ¬EndsBusy cfg s (.move .exec)) := by
  have hf : f.Counts cfg.maxStuckIterations := h.counts f (hs ▸ List.mem_cons_self ..)
  by_cases hex : f.Exhausted cfg.maxStuckIterations
  · obtain ⟨hverdicts, hstack⟩ := Runtime.endIteration_of_exhausted hs hf hex
    refine ⟨fun g hg => h.counts g (hstack g hg), ?_⟩
    rw [GivesUpIdle, hverdicts, List.forall_mem_cons]
    constructor
    · rintro ⟨hidle, -⟩ ⟨-, f', hf', -, -, it, hit, hbusy⟩
      rw [hs] at hf'
      obtain rfl := Option.some.inj hf'
      exact hbusy (hidle it hit)
    · intro hbusy
      refine ⟨fun it hit => by_contra fun hidle => hbusy ?_, h.idle⟩
      exact ⟨rfl, f, hs ▸ rfl, hpc, hex, it, hit, hidle⟩
  · obtain ⟨hverdicts, f', hstack, hf'⟩ := Runtime.endIteration_of_not_exhausted hf hex
    refine h.of_verdicts_eq hverdicts ?_ ?_
    · rw [hstack]
      exact List.forall_mem_cons.mpr ⟨hf', fun g hg => h.counts g (hs ▸ List.mem_cons_of_mem _ hg)⟩
    · rintro ⟨-, f', hf', -, hex', -⟩
      rw [hs] at hf'
      exact hex (Option.some.inj hf' ▸ hex')

/-- **One step**: it keeps the counters, and gives a verdict on runnable work exactly when
it ends a busy run of iterations. -/
theorem StuckInv.step (h : StuckInv cfg s) (hs : step cfg s e = some s') :
    (∀ f ∈ s'.stack, f.Counts cfg.maxStuckIterations) ∧ (GivesUpIdle s' ↔ ¬EndsBusy cfg s e) := by
  obtain ⟨hp, hs⟩ := Option.ite_none_left_eq_some.mp hs
  match e with
  | .move m =>
    rcases hstack : s.stack with _ | ⟨f, below⟩
    · simp only [hstack] at hs
      exact nomatch hs
    · simp only [hstack] at hs
      by_cases hpc : f.pc = .tail
      · rw [hpc] at hs
        rcases m with _ | _ | _ | _ | _
        · exact Option.some.inj hs ▸ h.endIteration hstack hpc
        all_goals exact nomatch hs
      · -- no other move touches the counter
        have hmove := Runtime.continues_move hstack (not_not.mp hp) hpc hs
        refine h.of_verdicts_eq hmove.verdicts ?_ ?_
        · have hbelow : ∀ g ∈ below, g.Counts cfg.maxStuckIterations := fun g hg =>
            h.counts g (hstack ▸ List.mem_cons_of_mem _ hg)
          rcases hmove.stack with heq | ⟨f', heq, hf'⟩ <;> rw [heq]
          · exact hbelow
          · exact List.forall_mem_cons.mpr
              ⟨(h.counts f (hstack ▸ List.mem_cons_self ..)).continues hf', hbelow⟩
        · rintro ⟨-, f', hf', hpc', -⟩
          rw [hstack] at hf'
          exact hpc (Option.some.inj hf' ▸ hpc')
  | .runQueue | .blockOn key | .progress =>
    obtain ⟨-, hs⟩ := Option.ite_none_right_eq_some.mp hs
    obtain rfl := Option.some.inj hs
    exact h.of_verdicts_eq rfl (List.forall_mem_cons.mpr ⟨counts_new _ _ _, h.counts⟩)
      fun hbusy => nomatch hbusy.1
  | .spawn q key | .wake future | .requestShutdown | .register r order =>
    obtain ⟨-, hs⟩ := Option.ite_none_right_eq_some.mp hs
    obtain rfl := Option.some.inj hs
    exact h.of_verdicts_eq rfl h.counts fun hbusy => nomatch hbusy.1
  | .setRunning r running =>
    obtain rfl := Option.some.inj hs
    refine h.of_verdicts_eq rfl (fun f hf => ?_) fun hbusy => nomatch hbusy.1
    obtain ⟨g, hg, rfl⟩ := List.mem_map.mp hf
    obtain ⟨haccounted, hle, hlength, hcounted, hlast⟩ := h.counts g hg
    exact ⟨haccounted, hle, hlength, hcounted, hlast⟩

/-- **The exact condition for the executor to give up only when nothing is runnable**, for
every run and every `max_stuck_iterations`. -/
theorem gives_up_idle (cfg : SchedulingConfig) (es : List Event) :
    Always (step cfg) GivesUpIdle start es ↔
      EachStep (step cfg) (fun s e => ¬EndsBusy cfg s e) start es := by
  refine always_iff_eachStep (fun s (h : StuckInv cfg s) => h.idle) ?_ ?_ (stuckInv_start cfg)
    (eachStep_true es)
  · rintro s e s' h - hbusy hs
    obtain ⟨hcounts, hiff⟩ := h.step hs
    exact ⟨hcounts, hiff.mpr hbusy⟩
  · rintro s e s' h - hbusy hs hidle
    exact hbusy ((h.step hs).2.mp hidle)

/-- An iteration in which the one task of the runtime is polled, wakes itself and returns
`Pending`. -/
def yieldIteration : List Event :=
  [.move .exec, .move .exec, .move .exec, .move .exec, .wake 0, .move .pending, .move .exec,
    .move .exec]

/-- **A task that keeps yielding is declared stuck**: `run_queue` returns with the task in the
pool, and `block_on` panics. -/
theorem gives_up_on_yielding :
    (∃ s, runList (step { SchedulingConfig.default with maxStuckIterations := 2 }) start
      ([.spawn .task 0, .runQueue] ++ (List.replicate 3 yieldIteration).flatten) = some s ∧
        ¬GivesUpIdle s ∧ s.stack = [] ∧ s.pool.len = 1 ∧ s.shutdownRequested = false) ∧
    ∃ s, runList (step { SchedulingConfig.default with maxStuckIterations := 2 }) start
      ([.blockOn 0] ++ (List.replicate 3 yieldIteration).flatten) = some s ∧
        ¬GivesUpIdle s ∧ s.panicked = some .deadlock := by
  have hbusy : ∀ {s : Runtime}, s.verdicts = [List.replicate 3 ⟨true, false, false, false⟩] →
      ¬GivesUpIdle s := by
    intro s hverdicts hidle
    have hit := hidle _ (hverdicts ▸ List.mem_cons_self ..) _ (List.mem_cons_self ..)
    exact nomatch hit.1
  have hrun : (runList (step { SchedulingConfig.default with maxStuckIterations := 2 }) start
      ([.spawn .task 0, .runQueue] ++ (List.replicate 3 yieldIteration).flatten)).map
        (fun s => (s.verdicts, s.stack, s.pool.len, s.shutdownRequested)) =
      some ([List.replicate 3 ⟨true, false, false, false⟩], [], 1, false) := by decide +kernel
  have hblock : (runList (step { SchedulingConfig.default with maxStuckIterations := 2 }) start
      ([.blockOn 0] ++ (List.replicate 3 yieldIteration).flatten)).map
        (fun s => (s.verdicts, s.panicked)) =
      some ([List.replicate 3 ⟨true, false, false, false⟩], some .deadlock) := by decide +kernel
  obtain ⟨s, hs, heq⟩ := Option.map_eq_some_iff.mp hrun
  obtain ⟨s', hs', heq'⟩ := Option.map_eq_some_iff.mp hblock
  simp only [Prod.mk.injEq] at heq heq'
  exact ⟨⟨s, hs, hbusy heq.1, heq.2⟩, s', hs', hbusy heq'.1, heq'.2⟩

end Executor

end Pluvio
