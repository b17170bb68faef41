import Pluvio.Runs
import Pluvio.Runtime.TaskPool
import Mathlib.Data.List.Perm.Basic

/-!
# The executor

A runtime has two ready queues of task keys, a pool of tasks, registered reactors, and
three loops that drive them: `run_queue`, `block_on_with_name_and_runtime` and
`progress`. A loop is a frame of a stack (`Pluvio.Executor.Frame`), because a task that
is being polled may itself call into the runtime. What runs outside the executor (the
body of a task, a reactor, a destructor, the caller of the loops) is the environment:
it spawns and wakes as it likes, and at some point it gives the control back.

The two buffers into which the loops drain the queues are shared between the frames,
but while a loop goes over one it holds a borrow of it, so what is left of it is kept
in the program counter of the frame (`Pluvio.Executor.Pass`), and a loop that wants to
fill a buffer that a frame below goes over panics.

Some fields say nothing to the executor and are only there to be talked about: which
futures have been woken since their last poll began, what happened in each iteration of a
loop, and which iterations a loop counted when it gave up.
-/

namespace Pluvio

namespace Executor

/-! ### Loops -/

/-- `SchedulingConfig`, and what the loops read from the environment. -/
structure SchedulingConfig where
  taskBatchSize : ℕ
  reactorPollInterval : ℕ
  statusCacheIterations : ℕ
  /-- `PLUVIO_MAX_STUCK_ITERATIONS`. -/
  maxStuckIterations : ℕ
  /-- `PLUVIO_MAX_REACTOR_ONLY`. -/
  maxReactorOnly : ℕ

/-- `SchedulingConfig::default`, with nothing in the environment. -/
def SchedulingConfig.default : SchedulingConfig where
  taskBatchSize := 16
  reactorPollInterval := 8
  statusCacheIterations := 100
  maxStuckIterations := 1000000
  maxReactorOnly := 1000000

/-- `max_tasks_per_call` of `progress`. -/
def maxTasksPerCall : ℕ := 100

/-- A call that drives the runtime. -/
inductive Call
  | runQueue
  /-- The key and the future of the task that is waited for. -/
  | blockOn (key future : ℕ)
  | progress
  deriving DecidableEq

/-- The loops over task ids, with what they have still to go over. -/
inductive Pass
  /-- Over `polling_task_buffer`. -/
  | polling (ids : List ℕ)
  /-- Over `task_buffer`. -/
  | batch (ids : List ℕ)
  /-- The loop of `progress` on the receiver, with the number of ids it has taken. -/
  | pull (processed : ℕ)
  deriving DecidableEq

/-- Where the loop of a call is. -/
inductive Pc
  /-- At the head of the loop. -/
  | head
  /-- Before the next of the reactors; `drained` is the polling buffer, if it has been
  filled. -/
  | reactors (left : List ℕ) (drained : Option (List ℕ))
  /-- Inside `Reactor::poll` of the reactor `r`. -/
  | reactor (r : ℕ) (left : List ℕ) (drained : Option (List ℕ))
  /-- Before the next id of a pass. -/
  | loop (p : Pass)
  /-- Inside the poll of a task. -/
  | task (p : Pass) (id : ℕ) (t : Task)
  /-- Inside the destructor of a task that has been removed. -/
  | drop (p : Pass)
  /-- After the last task of an iteration. -/
  | tail
  deriving DecidableEq

/-- What has happened in one iteration of a loop. -/
structure Iteration where
  taskPolled : Bool
  completed : Bool
  reactorPolled : Bool
  /-- A registered reactor was `Running` at some point of it. -/
  running : Bool
  deriving DecidableEq

/-- A call of one of the loops. -/
structure Frame where
  call : Call
  pc : Pc
  iteration : ℕ
  madeProgress : Bool
  /-- `task_completed_this_iter`. -/
  taskCompleted : Bool
  /-- `should_poll_reactors`. -/
  shouldPoll : Bool
  stuckCounter : ℕ
  current : Iteration
  /-- The iterations before the current one, the last one first. -/
  past : List Iteration
  deriving DecidableEq

/-- The frame of a call that begins. -/
def Frame.new (call : Call) (pc : Pc) : Frame where
  call := call
  pc := pc
  iteration := 0
  madeProgress := false
  taskCompleted := false
  shouldPoll := false
  stuckCounter := 0
  current := ⟨false, false, false, false⟩
  past := []

/-- `reactor_only_count` after an iteration, of which `run_queue` alone keeps count. -/
def Frame.countReactorOnly (f : Frame) (count : ℕ) : ℕ :=
  if f.call ≠ .runQueue then count
  else if f.taskCompleted then 0
  else if f.shouldPoll then count + 1
  else count

/-- The buffer a loop holds a borrow of. -/
def Pass.buffer : Pass → Option Queue
  | .polling _ => some .polling
  | .batch _ => some .task
  | .pull _ => none

/-- The buffer a frame holds a borrow of. -/
def Pc.buffer : Pc → Option Queue
  | .loop p | .task p _ _ | .drop p => p.buffer
  | _ => none

/-! ### The runtime -/

/-- `ReactorWrapper`. The status is what `Reactor::status` would return; `enable` is never
unset. -/
structure ReactorWrapper where
  running : Bool
  cachedRunning : Bool
  cacheValidUntil : ℕ

/-- `register_reactor`. -/
def ReactorWrapper.new : ReactorWrapper := ⟨false, false, 0⟩

/-- `Runtime::get_cached_reactor_status`. -/
def ReactorWrapper.cachedStatus (cfg : SchedulingConfig) (w : ReactorWrapper)
    (currentIteration : ℕ) : Bool × ReactorWrapper :=
  if currentIteration < w.cacheValidUntil then (w.cachedRunning, w)
  else (w.running, { w with
    cachedRunning := w.running
    cacheValidUntil := currentIteration + cfg.statusCacheIterations })

/-- The status by which a loop decides whether to poll a reactor: `progress` does not use
the cache. -/
def Frame.reactorStatus (cfg : SchedulingConfig) (f : Frame) (w : ReactorWrapper) :
    Bool × ReactorWrapper :=
  if f.call = .progress then (w.running, w) else w.cachedStatus cfg f.iteration

/-- The panics of the executor. -/
inductive Panic
  /-- A buffer is borrowed when the call wants to fill it. -/
  | alreadyBorrowed (call : Call)
  /-- `iteration % reactor_poll_interval`. -/
  | remainderByZero
  /-- `"block_on deadlock detected"`. -/
  | deadlock
  /-- `"Task completed but result was not set"`. -/
  | noResult
  | pool (p : PoolPanic)
  deriving DecidableEq

/-- `Runtime`, with the calls that are under way on it, the innermost one first. -/
structure Runtime where
  /-- The registered reactors, in the order in which the map iterates over them. -/
  reactors : List ℕ
  reactor : ℕ → ReactorWrapper
  /-- `task_receiver` and `polling_task_receiver`. -/
  queue : Queue → List ℕ
  pool : TaskPool
  shutdownRequested : Bool
  iterationCount : ℕ
  reactorOnlyCount : ℕ
  stack : List Frame
  panicked : Option Panic
  /-- The futures that have been woken since their last poll began. -/
  woken : ℕ → Bool
  /-- The iterations that have been counted by the loops that gave up. -/
  verdicts : List (List Iteration)

/-- `Runtime::new`. -/
def start : Runtime where
  reactors := []
  reactor := fun _ => .new
  queue := fun _ => []
  pool := .new
  shutdownRequested := false
  iterationCount := 0
  reactorOnlyCount := 0
  stack := []
  panicked := none
  woken := fun _ => false
  verdicts := []

namespace Runtime

/-- The innermost call goes on. -/
def resume (s : Runtime) (f : Frame) (below : List Frame) : Runtime :=
  { s with stack := f :: below }

/-- The innermost call returns to the ones below it. -/
def leave (s : Runtime) (below : List Frame) : Runtime := { s with stack := below }

/-- The thread panics, and does nothing any more. -/
def panic (s : Runtime) (p : Panic) : Runtime := { s with panicked := some p }

/-- `Sender::send` to one of the queues. -/
def send (s : Runtime) (q : Queue) (id : ℕ) : Runtime :=
  { s with queue := Function.update s.queue q (s.queue q ++ [id]) }

/-- Some registered reactor is `Running`. -/
def anyRunning (s : Runtime) : Bool := s.reactors.any fun r => (s.reactor r).running

/-! ### The body of the loops -/

/-- Whether an iteration polls the reactors; `none` where the remainder panics. -/
def shouldPollReactors (cfg : SchedulingConfig) (safetyOverride : Bool) (pollingTasks : List ℕ)
    (iteration : ℕ) : Option Bool :=
  if safetyOverride then some false
  else if pollingTasks ≠ [] ∨ iteration ≤ 1 then some true
  else if cfg.reactorPollInterval = 0 then none
  else some (iteration % cfg.reactorPollInterval = 0)

/-- The beginning of an iteration, up to the reactors. -/
def iterate (cfg : SchedulingConfig) (s : Runtime) (f : Frame) (below : List Frame) : Runtime :=
  let iteration := s.iterationCount
  -- a loop below goes over the buffer that `borrow_mut` asks for
  if below.any (·.pc.buffer = some .polling) then
    { s with iterationCount := iteration + 1 }.panic (.alreadyBorrowed f.call)
  else
    let ids := s.queue .polling
    -- only `run_queue` has the bound on iterations with nothing but reactors
    let safetyOverride := decide (f.call = .runQueue ∧ cfg.maxReactorOnly ≤ s.reactorOnlyCount)
    let s := { s with
      iterationCount := iteration + 1
      queue := Function.update s.queue .polling []
      reactorOnlyCount := if safetyOverride then 0 else s.reactorOnlyCount }
    let f := { f with
      iteration := iteration
      madeProgress := false
      taskCompleted := false
      current := ⟨false, false, false, s.anyRunning⟩ }
    match shouldPollReactors cfg safetyOverride ids iteration with
    | none => (s.resume { f with pc := .reactors [] (some ids) } below).panic .remainderByZero
    | some b => s.resume { f with
        shouldPoll := b
        pc := .reactors (if b then s.reactors else []) (some ids) } below

/-- The head of the loops of `run_queue` and `block_on_with_name_and_runtime`. -/
def loopHead (cfg : SchedulingConfig) (s : Runtime) (f : Frame) (below : List Frame) : Runtime :=
  match f.call with
  | .runQueue =>
    if s.pool.len = 0 ∨ s.shutdownRequested then s.leave below else s.iterate cfg f below
  | .blockOn key future =>
    if s.pool.entry key ≠ none then s.iterate cfg f below
    -- the wrapped future sets the result before it completes
    else if future ∈ s.pool.completed then s.leave below
    else s.panic .noResult
  | .progress => s.leave below

/-- The next reactor, or the end of the reactors: `progress` drains the polling queue
after them. -/
def nextReactor (cfg : SchedulingConfig) (s : Runtime) (f : Frame) (below : List Frame) :
    List ℕ → Option (List ℕ) → Runtime
  | r :: left, drained =>
    -- `progress` asks the reactor itself, the other two the cached status
    let status := f.reactorStatus cfg (s.reactor r)
    let s := { s with reactor := Function.update s.reactor r status.2 }
    s.resume { f with
      pc := if status.1 then .reactor r left drained else .reactors left drained } below
  | [], some ids => s.resume { f with pc := .loop (.polling ids) } below
  | [], none =>
    if below.any (·.pc.buffer = some .polling) then s.panic (.alreadyBorrowed f.call)
    else { s with queue := Function.update s.queue .polling [] }.resume
      { f with pc := .loop (.polling (s.queue .polling)) } below

/-- `Runtime::poll_task`, up to the poll of the future. -/
def pollTask (s : Runtime) (f : Frame) (below : List Frame) (p : Pass) (id : ℕ) : Runtime :=
  match s.pool.entry id with
  | none | some none => s.resume { f with pc := .loop p } below
  | some (some t) =>
    { s with
      pool := s.pool.takeOut id
      woken := Function.update s.woken t.future false }.resume
      { f with pc := .task p id t, current := { f.current with taskPolled := true } } below

/-- The next id of a loop, or what comes after the loop. -/
def nextTask (cfg : SchedulingConfig) (s : Runtime) (f : Frame) (below : List Frame) :
    Pass → Runtime
  | .polling (id :: ids) => s.pollTask f below (.polling ids) id
  | .polling [] =>
    -- `progress` has no batch: it takes its ids one by one from the queue
    if f.call = .progress then s.resume { f with pc := .loop (.pull 0) } below
    else if below.any (·.pc.buffer = some .task) then s.panic (.alreadyBorrowed f.call)
    else { s with
        queue := Function.update s.queue .task ((s.queue .task).drop cfg.taskBatchSize) }.resume
      { f with pc := .loop (.batch ((s.queue .task).take cfg.taskBatchSize)) } below
  | .batch (id :: ids) => s.pollTask f below (.batch ids) id
  | .batch [] => s.resume { f with pc := .tail } below
  | .pull processed =>
    if processed < maxTasksPerCall then
      match s.queue .task with
      | id :: rest =>
        { s with queue := Function.update s.queue .task rest }.pollTask f below
          (.pull (processed + 1)) id
      | [] => s.leave below
    else s.leave below

/-- The poll of a task returns `Pending`. -/
def taskPending (s : Runtime) (f : Frame) (below : List Frame) (p : Pass) (id : ℕ) (t : Task) :
    Runtime :=
  if t.taskStat then
    { s with pool := s.pool.putBack id t }.resume { f with pc := .loop p } below
  else s.panic (.pool .noTaskStat)

/-- The poll of a task returns `Ready`. -/
def taskReady (s : Runtime) (f : Frame) (below : List Frame) (p : Pass) (id : ℕ) (t : Task) :
    Runtime :=
  if t.taskStat then
    match s.pool.complete id t with
    | .ok P => { s with pool := P }.resume { f with
        pc := .drop p
        madeProgress := true
        taskCompleted := f.taskCompleted || decide (p.buffer = some Queue.task)
        current := { f.current with completed := true } } below
    | .error e => s.panic (.pool e)
  else s.panic (.pool .noTaskStat)

/-- The end of an iteration: stuck detection. -/
def endIteration (cfg : SchedulingConfig) (s : Runtime) (f : Frame) (below : List Frame) :
    Runtime :=
  let s := { s with reactorOnlyCount := f.countReactorOnly s.reactorOnlyCount }
  let f := { f with past := f.current :: f.past }
  if f.madeProgress then s.resume { f with pc := .head, stuckCounter := 0 } below
  else if cfg.maxStuckIterations < f.stuckCounter + 1 then
    let s := { s with verdicts := f.past.take (f.stuckCounter + 1) :: s.verdicts }
    if f.call = .runQueue then s.leave below else s.panic .deadlock
  else s.resume { f with pc := .head, stuckCounter := f.stuckCounter + 1 } below

/-! ### Steps -/

end Runtime

/-- A move of the innermost call. -/
inductive Move
  /-- The executor runs up to the next point where something can happen. -/
  | exec
  /-- `Reactor::poll` returns. -/
  | reactorDone
  /-- The future that is being polled returns `Pending`. -/
  | pending
  /-- The future that is being polled returns `Ready`. -/
  | ready
  /-- The destructor of a removed task returns. -/
  | dropped
  deriving DecidableEq

/-- What happens on the thread of the runtime. -/
inductive Event
  | move (m : Move)
  | runQueue
  /-- `block_on_with_name_and_runtime`, and the key the slab gives its task. -/
  | blockOn (key : ℕ)
  | progress
  /-- `spawn_with_runtime` or `spawn_polling_with_runtime`, and the key of the slab. -/
  | spawn (q : Queue) (key : ℕ)
  /-- A waker of the future is invoked. -/
  | wake (future : ℕ)
  | requestShutdown
  /-- `register_reactor`, and the order in which the map iterates from then on. -/
  | register (r : ℕ) (order : List ℕ)
  /-- The status of a reactor changes. -/
  | setRunning (r : ℕ) (running : Bool)
  deriving DecidableEq

/-- What the thread is running. -/
inductive Code
  /-- No call is under way. -/
  | outside
  /-- The future of a task. -/
  | task
  | reactor
  | destructor
  | executor
  deriving DecidableEq

namespace Runtime

/-- What the thread is running. -/
def code (s : Runtime) : Code :=
  match s.stack with
  | [] => .outside
  | f :: _ =>
    match f.pc with
    | .task .. => .task
    | .reactor .. => .reactor
    | .drop .. => .destructor
    | _ => .executor

/-- A move of the frame `f` on top of the frames `below`. -/
def move (cfg : SchedulingConfig) (s : Runtime) (f : Frame) (below : List Frame) :
    Pc → Move → Option Runtime
  | .head, .exec => some (s.loopHead cfg f below)
  | .reactors left drained, .exec => some (s.nextReactor cfg f below left drained)
  | .reactor _ left drained, .reactorDone => some (s.resume { f with
      pc := .reactors left drained
      madeProgress := true
      current := { f.current with reactorPolled := true } } below)
  | .loop p, .exec => some (s.nextTask cfg f below p)
  | .task p id t, .pending => some (s.taskPending f below p id t)
  | .task p id t, .ready => some (s.taskReady f below p id t)
  | .drop p, .dropped => some (s.resume { f with pc := .loop p } below)
  | .tail, .exec => some (s.endIteration cfg f below)
  | _, _ => none

/-- A spawn, of which `block_on_with_name_and_runtime` makes one too. -/
def spawn (s : Runtime) (q : Queue) (key : ℕ) : Runtime :=
  { s with pool := s.pool.insert q key }.send q key

/-- A waker of a future: its key goes to its queue. -/
def wake (s : Runtime) (future : ℕ) : Runtime :=
  { s with woken := Function.update s.woken future true }.send
    (s.pool.address future).1 (s.pool.address future).2

/-- The status of a reactor, seen by the iterations that are under way. -/
def setRunning (s : Runtime) (r : ℕ) (running : Bool) : Runtime :=
  { s with
    reactor := Function.update s.reactor r { s.reactor r with running := running }
    stack := s.stack.map fun f => { f with
      current := { f.current with
        running := f.current.running || (running && decide (r ∈ s.reactors)) } } }

end Runtime

/-- One step. A slab key that is handed out is vacant. -/
def step (cfg : SchedulingConfig) (s : Runtime) (e : Event) : Option Runtime :=
  if s.panicked ≠ none then none
  else match e with
  | .move m =>
    match s.stack with
    | [] => none
    | f :: below => s.move cfg f below f.pc m
  | .runQueue =>
    if s.code ∈ [.outside, .task] then some (s.resume (.new .runQueue .head) s.stack) else none
  | .blockOn key =>
    if s.code ∈ [.outside, .task] ∧ s.pool.entry key = none then
      some ((s.spawn .task key).resume (.new (.blockOn key s.pool.spawned) .head) s.stack)
    else none
  | .progress =>
    if s.code ∈ [.outside, .task] then
      some (s.resume (.new .progress (.reactors s.reactors none)) s.stack)
    else none
  | .spawn q key =>
    if s.code ∈ [.outside, .task, .reactor] ∧ s.pool.entry key = none then some (s.spawn q key)
    else none
  | .wake future =>
    if s.code ≠ .executor ∧ future < s.pool.spawned then some (s.wake future) else none
  | .requestShutdown =>
    if s.code ≠ .executor then some { s with shutdownRequested := true } else none
  | .register r order =>
    if s.code ∈ [.outside, .task] ∧ order.Perm (r :: s.reactors.erase r) then
      some { s with reactors := order, reactor := Function.update s.reactor r .new }
    else none
  | .setRunning r running => some (s.setRunning r running)

end Executor

end Pluvio
