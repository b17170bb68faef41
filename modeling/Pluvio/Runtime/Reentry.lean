import Pluvio.Runtime.Completion

/-!
# Progress from inside a poll

A task may call `progress` while it is being polled, and nothing keeps a reactor that is
being polled, or the destructor of a task, from calling it too. So the machine of this module
(`Pluvio.Executor.nestedStep`) is the executor with calls from everywhere. The call shares
three things with the loops below it: the buffer of polling tasks, the pool, and the ready
queues, in which the key of a task may wait while its slot is empty.

A nested call can go wrong in four ways, and the law of this module
(`Pluvio.Executor.progress_reentrant`) says that there are no others. It panics when it drains
the polling queue while a loop below goes over the polling buffer, and when it polls a task
while a destructor below runs, which holds a borrow of the pool. It loses a wakeup when it
takes the id of a task that is being polled, and the poll ends with `Pending` before the id has
been sent again. And it loses what a loop below has drained, and not yet gone over because it
still polls its reactors: the buffer is filled anew.

What has been taken and what has been sent is kept in a memory beside the executor
(`Pluvio.Executor.Marks`).
-/

namespace Pluvio

namespace Executor

/-! ### Calls from everywhere -/

/-- A reactor is being polled. -/
def Pc.inReactor : Pc → Bool
  | .reactor .. => true
  | _ => false

/-- The loop is in the destructor of a task. -/
def Pc.inDestructor : Pc → Bool
  | .drop _ => true
  | _ => false

/-- The polling buffer has been filled anew. A call that filled it before, and still polls its
reactors, will find these ids in it. -/
def Frame.refill (ids : List ℕ) (f : Frame) : Frame :=
  match f.pc with
  | .reactor r left (some _) => { f with pc := .reactor r left (some ids) }
  | _ => f

namespace Runtime

/-- The map of reactors is borrowed while one of them is polled. -/
def reactorsBorrowed (s : Runtime) : Bool := s.stack.any (·.pc.inReactor)

/-- The pool is borrowed while a task that has been removed from it is dropped. -/
def poolBorrowed (s : Runtime) : Bool := s.stack.any (·.pc.inDestructor)

/-- A call of `progress` is about to poll a task, above a destructor. -/
def pollsBorrowed (s : Runtime) : Bool :=
  match s.stack with
  | [] => false
  | f :: below =>
    decide (f.call = .progress) && (s.nextId f.pc).isSome && below.any (·.pc.inDestructor)

/-- The loop makes another iteration. -/
def goesOn (s : Runtime) : Call → Bool
  | .runQueue => decide (s.pool.len ≠ 0) && !s.shutdownRequested
  | .blockOn key _ => (s.pool.entry key).isSome
  | .progress => false

/-- What the innermost call is about to fill the polling buffer with. -/
def filling (s : Runtime) : Option (List ℕ) :=
  match s.stack with
  | [] => none
  | f :: below =>
    if below.any (·.pc.buffer = some .polling) then none
    else match f.pc with
    | .reactors [] none => some (s.queue .polling)
    | .head => if s.goesOn f.call then some (s.queue .polling) else none
    | _ => none

/-- The calls below the innermost one find these ids in the polling buffer. -/
def refill (s : Runtime) (ids : List ℕ) : Runtime :=
  match s.stack with
  | [] => s
  | f :: below => s.resume f (below.map (Frame.refill ids))

end Runtime

/-- One step, where tasks, reactors and destructors call the runtime. Whatever else needs the
pool above a destructor, or the map of reactors above the poll of one, panics by itself, in
code that is not that of `progress`. -/
def nestedStep (cfg : SchedulingConfig) (s : Runtime) (e : Event) : Option Runtime :=
  if s.panicked ≠ none then none
  else match e with
  | .progress =>
    if s.code ≠ .executor then
      some (s.resume (.new .progress (.reactors s.reactors none)) s.stack)
    else none
  | .runQueue =>
    if s.code ≠ .executor ∧ s.poolBorrowed = false then
      some (s.resume (.new .runQueue .head) s.stack)
    else none
  | .blockOn key =>
    if s.code ≠ .executor ∧ s.poolBorrowed = false ∧ s.pool.entry key = none then
      some ((s.spawn .task key).resume (.new (.blockOn key s.pool.spawned) .head) s.stack)
    else none
  | .spawn q key => if s.poolBorrowed then none else step cfg s (.spawn q key)
  | .register r order => if s.reactorsBorrowed then none else step cfg s (.register r order)
  | .move .exec =>
    -- a poll of a task needs the pool, which the destructor below it keeps borrowed
    if s.pollsBorrowed then some (s.panic (.alreadyBorrowed .progress))
    else (step cfg s (.move .exec)).map fun s' => s.filling.elim s' s'.refill
  | e => step cfg s e

/-! ### What is remembered -/

/-- The ids that wait, in either queue. -/
def Schedule.allWaiting (v : Schedule) : Multiset ℕ := v.waiting .task + v.waiting .polling

/-- The ids in the queues, and in what the loops have still to go over. -/
def Runtime.allWaiting (s : Runtime) : Multiset ℕ := s.waiting .task + s.waiting .polling

/-- The innermost call is one of `progress`. -/
def Runtime.inProgress (s : Runtime) : Bool := s.stack.head?.any fun f => f.call = .progress

/-- The polling buffer is about to be filled anew, and every copy of the id is in what calls
below have filled it with before. -/
def Runtime.throwsAway (s : Runtime) (id : ℕ) : Bool :=
  s.filling.isSome && decide (id ∈ s.allWaiting) && decide (id ∉ (s.refill []).allWaiting)

/-- What has been done to the ids. -/
structure Marks where
  /-- A call of `progress` has taken the id while its task was being polled, or has thrown it
  away, and its task has not been polled since. -/
  skipped : ℕ → Bool
  /-- The last copy of the id has been taken while its task was being polled, or has been thrown
  away, and the id has not been sent since. -/
  missing : ℕ → Bool

namespace Marks

/-- Nothing has been skipped, and nothing is missing. -/
def none : Marks := ⟨fun _ => false, fun _ => false⟩

/-- An id is sent, by a waker or by a spawn. -/
def send (m : Marks) (id : ℕ) : Marks := { m with missing := Function.update m.missing id false }

/-- An id is taken, by a call of `progress` or by another one, and `last` says that no other
copy of it waits. -/
def take (m : Marks) (entry : Option (Option Task)) (id : ℕ) (progress last : Bool) : Marks :=
  match entry with
  | .none => m
  | some .none =>
    { skipped := Function.update m.skipped id (m.skipped id || progress)
      missing := Function.update m.missing id last }
  | some (some _) => { m with skipped := Function.update m.skipped id false }

/-- A task that ends is owed no poll. -/
def ready (m : Marks) (id : ℕ) : Marks :=
  { m with skipped := Function.update m.skipped id false }

/-- The polling buffer is filled anew, by a call of `progress` or by another one. -/
def fill (m : Marks) (entry : ℕ → Option (Option Task)) (progress : Bool) (thrown : ℕ → Bool) :
    Marks where
  skipped := fun id => m.skipped id || (progress && thrown id && (entry id).isSome)
  missing := fun id => m.missing id || thrown id

theorem skipped_fill {m : Marks} {entry : ℕ → Option (Option Task)} {progress : Bool}
    {thrown : ℕ → Bool} {id : ℕ} : (m.fill entry progress thrown).skipped id = true ↔
      m.skipped id = true ∨ progress = true ∧ thrown id = true ∧ (entry id).isSome = true := by
  simp [fill, and_assoc]

/-- What an event does to the ids. -/
def remember (s : Runtime) (e : Event) (m : Marks) : Marks :=
  match e with
  | .wake future => m.send (s.pool.address future).2
  | .spawn _ key | .blockOn key => m.send key
  | .move .ready =>
    match s.polled with
    | [] => m
    | (id, _) :: _ => m.ready id
  | .move .exec =>
    match s.taken (.move .exec) with
    | some (id, progress) =>
      m.take (s.pool.entry id) id progress (decide (s.allWaiting.count id < 2))
    | .none => if s.filling.isSome then m.fill s.pool.entry s.inProgress s.throwsAway else m
  | _ => m

end Marks

/-- The executor with calls from everywhere, and its memory. -/
abbrev markedStep (cfg : SchedulingConfig) : Runtime × Marks → Event → Option (Runtime × Marks) :=
  withMemory (nestedStep cfg) Marks.remember

/-- **`progress` is re-entrant**: no call of it panics over a borrow, and an id that it has
taken without polling the task, or thrown away, waits once the task is in its slot, until the
task is polled or has ended. -/
def Reentrant (r : Runtime × Marks) : Prop :=
  r.1.panicked ≠ some (.alreadyBorrowed .progress) ∧ ∀ id t, r.1.pool.entry id = some (some t) →
    r.2.skipped id = true → id ∈ r.1.allWaiting

/-- The event is the drain of the polling queue in a call of `progress`, above a frame
that goes over the polling buffer. -/
def Runtime.DrainsBorrowed (s : Runtime) (e : Event) : Prop :=
  e = .move .exec ∧ ∃ f below, s.stack = f :: below ∧ f.call = .progress ∧
    f.pc = .reactors [] none ∧ ∃ g ∈ below, g.pc.buffer = some .polling

/-- **The ways to go wrong.** -/
inductive Forgets (r : Runtime × Marks) : Event → Prop
  | drains (e : Event) : r.1.DrainsBorrowed e → Forgets r e
  /-- A call of `progress` polls a task above a destructor. -/
  | polls : r.1.pollsBorrowed = true → Forgets r (.move .exec)
  /-- A poll ends with `Pending`. In the course of it a call of `progress` has taken the id, and
  it has not been sent since its last copy was taken. -/
  | pending (id : ℕ) (t : Task) (outer : List (ℕ × Task)) : r.1.polled = (id, t) :: outer →
      r.2.skipped id = true → r.2.missing id = true → Forgets r (.move .pending)
  /-- All the copies of an id are thrown away, by a call of `progress` or after one has taken
  the id, and the task is in its slot. -/
  | throws (id : ℕ) (t : Task) : r.1.taken (.move .exec) = none → r.1.throwsAway id = true →
      r.1.pool.entry id = some (some t) → (r.1.inProgress = true ∨ r.2.skipped id = true) →
      Forgets r (.move .exec)

/-! ### The marks and what waits -/

/-- **What the marks say**, when these are the entries of the pool and this is what waits. -/
structure Marked (entry : ℕ → Option (Option Task)) (w : Multiset ℕ) (m : Marks) : Prop where
  occupied : ∀ id, m.skipped id = true → entry id ≠ none
  waits : ∀ id t, entry id = some (some t) → m.skipped id = true → id ∈ w
  missing_iff : ∀ id, entry id = some none → m.skipped id = true → (m.missing id = true ↔ id ∉ w)

namespace Marked

variable {entry : ℕ → Option (Option Task)} {w rest : Multiset ℕ} {m : Marks} {id : ℕ}

/-- An id that is sent waits, so nothing is missing of it. -/
theorem send (h : Marked entry w m) (id : ℕ) : Marked entry (id ::ₘ w) (m.send id) := by
  refine ⟨h.occupied, fun id' t ht hs => Multiset.mem_cons_of_mem (h.waits id' t ht hs),
    fun id' ht hs => ?_⟩
  rw [Marks.send]
  by_cases heq : id' = id
  · subst heq
    simp [Function.update_self]
  · simpa [Function.update_of_ne heq, heq] using h.missing_iff id' ht hs

/-- A task is spawned under a vacant key. -/
theorem spawn (h : Marked entry w m) {t : Task} (hid : entry id = none) :
    Marked (Function.update entry id (some (some t))) (id ::ₘ w) (m.send id) := by
  have hsend := h.send id
  have hne : ∀ id', m.skipped id' = true → id' ≠ id := by
    rintro id' hs rfl
    exact h.occupied id' hs hid
  refine ⟨fun id' hs => ?_, fun id' t' ht hs => ?_, fun id' ht hs => ?_⟩
  · rw [Function.update_of_ne (hne id' hs)]
    exact h.occupied id' hs
  · rw [Function.update_of_ne (hne id' hs)] at ht
    exact hsend.waits id' t' ht hs
  · rw [Function.update_of_ne (hne id' hs)] at ht
    exact hsend.missing_iff id' ht hs

/-- **A task is polled, or ends**: what has been skipped is made good. -/
theorem settle (h : Marked entry w m) (hmem : ∀ id', id' ≠ id → (id' ∈ rest ↔ id' ∈ w))
    (slot : Option (Option Task)) : Marked (Function.update entry id slot) rest (m.ready id) := by
  have hold : ∀ id', (m.ready id).skipped id' = true → id' ≠ id ∧ m.skipped id' = true := by
    intro id' hs
    have hs : Function.update m.skipped id false id' = true := hs
    by_cases heq : id' = id
    · subst heq
      cases (Function.update_self ..).symm.trans hs
    · exact ⟨heq, (Function.update_of_ne heq ..).symm.trans hs⟩
  refine ⟨fun id' hs => ?_, fun id' t ht hs => ?_, fun id' ht hs => ?_⟩
  · obtain ⟨hne, hs⟩ := hold id' hs
    rw [Function.update_of_ne hne]
    exact h.occupied id' hs
  · obtain ⟨hne, hs⟩ := hold id' hs
    rw [Function.update_of_ne hne] at ht
    exact (hmem id' hne).mpr (h.waits id' t ht hs)
  · obtain ⟨hne, hs⟩ := hold id' hs
    rw [Function.update_of_ne hne] at ht
    exact (h.missing_iff id' ht hs).trans (not_congr (hmem id' hne).symm)

/-- The id of a task that is gone is taken. -/
theorem take_vacant (h : Marked entry (id ::ₘ rest) m) (hentry : entry id = none) :
    Marked entry rest m := by
  have hmem : ∀ id', m.skipped id' = true → (id' ∈ id ::ₘ rest ↔ id' ∈ rest) := by
    intro id' hs
    have hne : id' ≠ id := by
      rintro rfl
      exact h.occupied id' hs hentry
    rw [Multiset.mem_cons, or_iff_right hne]
  exact ⟨h.occupied, fun id' t ht hs => (hmem id' hs).mp (h.waits id' t ht hs),
    fun id' ht hs => (h.missing_iff id' ht hs).trans (not_congr (hmem id' hs))⟩

/-- **The id of a task that is being polled is taken**, and nothing is done with it. -/
theorem take_empty (h : Marked entry (id ::ₘ rest) m) (hentry : entry id = some none)
    (progress : Bool) : Marked entry rest
      (m.take (some none) id progress (decide ((id ::ₘ rest).count id < 2))) := by
  have hmem : ∀ id', id' ≠ id → (id' ∈ id ::ₘ rest ↔ id' ∈ rest) := fun id' hne => by
    rw [Multiset.mem_cons, or_iff_right hne]
  have hold : ∀ id', id' ≠ id →
      Function.update m.skipped id (m.skipped id || progress) id' = m.skipped id' :=
    fun id' hne => Function.update_of_ne hne ..
  refine ⟨fun id' hs => ?_, fun id' t ht hs => ?_, fun id' ht hs => ?_⟩
  · by_cases heq : id' = id
    · rw [heq, hentry]
      exact Option.some_ne_none _
    · exact h.occupied id' ((hold id' heq).symm.trans hs)
  · have hne : id' ≠ id := by
      rintro rfl
      cases ht.symm.trans hentry
    exact (hmem id' hne).mp (h.waits id' t ht ((hold id' hne).symm.trans hs))
  · by_cases heq : id' = id
    · subst heq
      have hcount : (id' ::ₘ rest).count id' < 2 ↔ id' ∉ rest := by
        rw [Multiset.count_cons_self, ← Multiset.count_eq_zero]
        omega
      rw [← hcount]
      simp [Marks.take, Function.update_self]
    · have hmissing := (h.missing_iff id' ht ((hold id' heq).symm.trans hs)).trans
        (not_congr (hmem id' heq))
      rwa [← Function.update_of_ne heq (decide ((id ::ₘ rest).count id < 2)) m.missing]
        at hmissing

/-- **A poll ends with `Pending`**, and the id has been sent again if it was skipped. -/
theorem pending (h : Marked entry w m) {t : Task} (hentry : entry id = some none)
    (hsent : m.skipped id = true → m.missing id = false) :
    Marked (Function.update entry id (some (some t))) w m := by
  refine ⟨fun id' hs => ?_, fun id' t' ht hs => ?_, fun id' ht hs => ?_⟩
  · by_cases heq : id' = id
    · rw [heq, Function.update_self]
      exact Option.some_ne_none _
    · rw [Function.update_of_ne heq]
      exact h.occupied id' hs
  · by_cases heq : id' = id
    · subst heq
      by_contra hnot
      cases (hsent hs).symm.trans ((h.missing_iff id' hentry hs).mpr hnot)
    · rw [Function.update_of_ne heq] at ht
      exact h.waits id' t' ht hs
  · have hne : id' ≠ id := by
      rintro rfl
      cases (Function.update_self ..).symm.trans ht
    rw [Function.update_of_ne hne] at ht
    exact h.missing_iff id' ht hs

/-- **The buffer is filled anew**, and no id is thrown away that must wait. -/
theorem fill (h : Marked entry w m) {w' : Multiset ℕ} {progress : Bool} {thrown : ℕ → Bool}
    (hsub : ∀ id ∈ w', id ∈ w) (hthrown : ∀ id, thrown id = true ↔ id ∈ w ∧ id ∉ w')
    (hkept : ∀ id t, entry id = some (some t) → thrown id = true →
      ¬(progress = true ∨ m.skipped id = true)) :
    Marked entry w' (m.fill entry progress thrown) := by
  refine ⟨fun id hs => ?_, fun id t ht hs => ?_, fun id ht hs => ?_⟩
  · rcases Marks.skipped_fill.mp hs with hs | ⟨-, -, hsome⟩
    · exact h.occupied id hs
    · exact Option.isSome_iff_ne_none.mp hsome
  · have hnot : thrown id ≠ true := fun hthrow =>
      hkept id t ht hthrow ((Marks.skipped_fill.mp hs).symm.imp_left And.left)
    rcases Marks.skipped_fill.mp hs with hs | ⟨-, hthrow, -⟩
    · by_contra hw
      exact hnot ((hthrown id).mpr ⟨h.waits id t ht hs, hw⟩)
    · exact absurd hthrow hnot
  · have hmissing : (m.fill entry progress thrown).missing id = true ↔
        m.missing id = true ∨ thrown id = true := by
      simp [Marks.fill]
    rw [hmissing]
    constructor
    · rintro (hm | hthrow)
      · rcases Marks.skipped_fill.mp hs with hs | ⟨-, hthrow, -⟩
        · exact fun hw => (h.missing_iff id ht hs).mp hm (hsub id hw)
        · exact ((hthrown id).mp hthrow).2
      · exact ((hthrown id).mp hthrow).2
    · intro hw
      rcases Marks.skipped_fill.mp hs with hs | ⟨-, hthrow, -⟩
      · by_cases hin : id ∈ w
        · exact .inr ((hthrown id).mpr ⟨hin, hw⟩)
        · exact .inl ((h.missing_iff id ht hs).mpr hin)
      · exact .inr hthrow

end Marked

/-! ### The polling buffer -/

namespace Runtime

variable {cfg : SchedulingConfig} {s s' : Runtime} {f : Frame} {below : List Frame}
  {ids : List ℕ} {id : ℕ} {q : Queue}

/-- An id waits in a queue or in the buffer of a call. -/
theorem mem_allWaiting :
    id ∈ s.allWaiting ↔ ∃ q, id ∈ s.queue q ∨ ∃ f ∈ s.stack, id ∈ f.pc.unprocessed q := by
  have hsum : ∀ (q : Queue) (l : List Frame),
      id ∈ (l.map fun f => (f.pc.unprocessed q : Multiset ℕ)).sum ↔
        ∃ f ∈ l, id ∈ f.pc.unprocessed q := by
    intro q l
    induction l with
    | nil => simp
    | cons f l ih => simp [Multiset.mem_add, ih]
  have hmem : ∀ q, id ∈ s.waiting q ↔ id ∈ s.queue q ∨ ∃ f ∈ s.stack, id ∈ f.pc.unprocessed q :=
    fun q => by rw [waiting, Multiset.mem_add, Multiset.mem_coe, hsum]
  rw [allWaiting, Multiset.mem_add, hmem, hmem]
  refine ⟨fun h => h.elim (fun h => ⟨_, h⟩) fun h => ⟨_, h⟩, ?_⟩
  rintro ⟨_ | _, h⟩
  · exact .inl h
  · exact .inr h

/-- The innermost call moves, and leaves the queues and what it has to go over as they are. -/
theorem allWaiting_of_stack {f' : Frame} (hs : s.stack = f :: below) (hs' : s'.stack = f' :: below)
    (hqueue : s'.queue = s.queue) (hwaiting : f'.pc.unprocessed = f.pc.unprocessed) :
    s'.allWaiting = s.allWaiting := by
  simp only [allWaiting, waiting, hs, hs', hqueue, List.map_cons, hwaiting]

/-- A frame polls what it polled when the buffer is filled anew. -/
theorem polled_frameRefill (ids : List ℕ) (f : Frame) : (f.refill ids).pc.polled = f.pc.polled := by
  rw [Frame.refill]
  split
  · next hpc => rw [hpc]; rfl
  · rfl

/-- **What a frame finds in the buffer**: what it is filled with, or what it would have found if it
had been emptied. -/
theorem mem_frameRefill : id ∈ (f.refill ids).pc.unprocessed q →
    id ∈ ids ∨ id ∈ (f.refill []).pc.unprocessed q := by
  unfold Frame.refill
  split
  · rcases q with _ | _
    · exact .inr
    · exact .inl
  · exact .inr

/-- What a frame would still have if the buffer were emptied is not in the buffer. -/
theorem frameRefill_eq (h : id ∈ (f.refill []).pc.unprocessed q) (ids : List ℕ) :
    f.refill ids = f := by
  unfold Frame.refill at h ⊢
  split at h
  · rcases q with _ | _ <;> exact absurd h List.not_mem_nil
  · rfl

theorem stack_refill (hs : s.stack = f :: below) (ids : List ℕ) :
    s.refill ids = s.resume f (below.map (Frame.refill ids)) := by
  rw [refill, hs]

/-- The pool is the same, and so is what is being polled. -/
theorem pool_refill (s : Runtime) (ids : List ℕ) : (s.refill ids).pool = s.pool ∧
    (s.refill ids).polled = s.polled ∧ (s.refill ids).panicked = s.panicked := by
  unfold refill
  split
  · exact ⟨rfl, rfl, rfl⟩
  · next f below hs =>
    refine ⟨rfl, ?_, rfl⟩
    have hbelow : (below.map (Frame.refill ids)).filterMap (·.pc.polled) =
        below.filterMap (·.pc.polled) := by
      rw [List.filterMap_map]
      exact List.filterMap_congr fun g _ => polled_frameRefill ids g
    rw [polled, polled, hs, resume, List.filterMap_cons, List.filterMap_cons, hbelow]

/-- A loop that goes on begins an iteration. -/
theorem loopHead_of_goesOn (h : s.goesOn f.call = true) :
    s.loopHead cfg f below = s.iterate cfg f below := by
  unfold loopHead
  split
  · next hcall =>
    rw [hcall, goesOn] at h
    have hgo : ¬(s.pool.len = 0 ∨ s.shutdownRequested = true) := by simpa using h
    rw [if_neg hgo]
  · next hcall =>
    rw [hcall, goesOn] at h
    rw [if_pos (Option.isSome_iff_ne_none.mp h)]
  · next hcall =>
    rw [hcall] at h
    cases h

/-- **The polling buffer is filled**: the queue has been emptied, and the innermost call has what
was in it. -/
theorem filling_step (hfill : s.filling = some ids) (hs : step cfg s (.move .exec) = some s') :
    ids = s.queue .polling ∧ s'.panicked ≠ some (.alreadyBorrowed .progress) ∧ ∃ f below f',
      s.stack = f :: below ∧ s'.stack = f' :: below ∧ (∀ q, f.pc.unprocessed q = []) ∧
        ∀ q, s'.queue q ++ f'.pc.unprocessed q = s.queue q := by
  obtain ⟨hcalm, hs⟩ := Option.ite_none_left_eq_some.mp hs
  have hcalm : s.panicked ≠ some (.alreadyBorrowed .progress) := by
    rw [not_not.mp hcalm]
    exact (Option.some_ne_none _).symm
  have hqueue : ∀ pc : Pc, pc.unprocessed .task = [] →
      pc.unprocessed .polling = s.queue .polling →
      ∀ q, Function.update s.queue .polling [] q ++ pc.unprocessed q = s.queue q := by
    rintro pc htask hpolling (_ | _)
    · rw [htask, List.append_nil]
      rfl
    · rw [hpolling]
      rfl
  rcases hstack : s.stack with - | ⟨f, below⟩
  · simp [filling, hstack] at hfill
  simp only [hstack] at hs
  simp only [filling, hstack] at hfill
  obtain ⟨hany, hfill⟩ := Option.ite_none_left_eq_some.mp hfill
  rcases hpc : f.pc with _ | ⟨_ | ⟨r, left⟩, _ | drained⟩ | _ | _ | _ | _ | _ <;>
    simp only [hpc] at hs hfill
  case head =>
    obtain ⟨hgo, hfill⟩ := Option.ite_none_right_eq_some.mp hfill
    have hs : s.loopHead cfg f below = s' := Option.some.inj hs
    simp only [loopHead_of_goesOn hgo, iterate, if_neg hany] at hs
    refine ⟨(Option.some.inj hfill).symm, ?_⟩
    split at hs
    all_goals
      subst hs
      refine ⟨?_, f, below, _, rfl, rfl, fun q => by rw [hpc]; rfl, hqueue _ rfl rfl⟩
    · intro h
      cases Option.some.inj h
    · exact hcalm
  case reactors.nil.none =>
    have hs : s.nextReactor cfg f below [] none = s' := Option.some.inj hs
    simp only [nextReactor, if_neg hany] at hs
    subst hs
    refine ⟨(Option.some.inj hfill).symm, hcalm, f, below, _, rfl, rfl, ?_, hqueue _ rfl rfl⟩
    rw [hpc]
    rintro (_ | _) <;> rfl
  all_goals cases hfill

/-- **What waits when the buffer has been filled**: what would wait if it had been emptied. -/
theorem mem_allWaiting_filled (hfill : s.filling = some ids)
    (hs : step cfg s (.move .exec) = some s') :
    id ∈ (s'.refill ids).allWaiting ↔ id ∈ (s.refill []).allWaiting := by
  obtain ⟨rfl, -, f, below, f', hstack, hstack', hnil, hqueue⟩ := filling_step hfill hs
  have hmem : ∀ q, id ∈ s'.queue q ∨ id ∈ f'.pc.unprocessed q ↔ id ∈ s.queue q := fun q => by
    rw [← hqueue q, List.mem_append]
  rw [mem_allWaiting, mem_allWaiting, stack_refill hstack, stack_refill hstack']
  simp only [resume, List.mem_cons, List.mem_map, exists_eq_or_imp, exists_exists_and_eq_and, hnil,
    List.not_mem_nil, false_or]
  constructor
  · rintro ⟨q, hq | hq | ⟨g, hg, hq⟩⟩
    · exact ⟨q, .inl ((hmem q).mp (.inl hq))⟩
    · exact ⟨q, .inl ((hmem q).mp (.inr hq))⟩
    · rcases mem_frameRefill hq with hq | hq
      · exact ⟨.polling, .inl hq⟩
      · exact ⟨q, .inr ⟨g, hg, hq⟩⟩
  · rintro ⟨q, hq | ⟨g, hg, hq⟩⟩
    · exact ⟨q, ((hmem q).mpr hq).imp_right .inl⟩
    · refine ⟨q, .inr (.inr ⟨g, hg, ?_⟩)⟩
      rw [frameRefill_eq hq]
      rwa [frameRefill_eq hq] at hq

/-- Emptying the shared buffer lets no further id wait. -/
theorem mem_allWaiting_of_emptied (h : id ∈ (s.refill []).allWaiting) : id ∈ s.allWaiting := by
  unfold refill at h
  split at h
  · exact h
  · next f below hstack =>
    obtain ⟨q, hq⟩ := mem_allWaiting.mp h
    refine mem_allWaiting.mpr ⟨q, hq.imp_right ?_⟩
    rw [hstack]
    rintro ⟨g, hg, hid⟩
    rcases List.mem_cons.mp hg with rfl | hg
    · exact ⟨g, List.mem_cons_self .., hid⟩
    · obtain ⟨g', hg', rfl⟩ := List.mem_map.mp hg
      exact ⟨g', List.mem_cons_of_mem _ hg', by rwa [frameRefill_eq hid] at hid⟩

/-- **The panics of `progress` over a buffer**, step by step. -/
theorem borrowed_step_iff {e : Event} (h : step cfg s e = some s') :
    s'.panicked = some (.alreadyBorrowed .progress) ↔ s.DrainsBorrowed e := by
  constructor
  · intro hb
    obtain ⟨m, f, below, rfl, hs, hraise⟩ := raises_of_step h hb
    generalize hp : Panic.alreadyBorrowed .progress = p at hraise
    rcases hraise with ⟨q, g, hg, hbuf, hcall⟩ | _ | _ | _ | _
    case alreadyBorrowed =>
      have hprogress := (Panic.alreadyBorrowed.inj hp).symm
      obtain ⟨hpc, rfl⟩ := hcall hprogress
      obtain ⟨-, h⟩ := Option.ite_none_left_eq_some.mp h
      simp only [hs, hpc] at h
      -- the executor alone moves on from the reactors
      rcases m with _ | _ | _ | _ | _
      · exact ⟨rfl, f, below, hs, hprogress, hpc, g, hg, hbuf⟩
      all_goals exact nomatch h
    all_goals exact nomatch hp
  · rintro ⟨rfl, f, below, hs, hcall, hpc, g, hg, hbuf⟩
    obtain ⟨-, h⟩ := Option.ite_none_left_eq_some.mp h
    simp only [hs, hpc] at h
    have hany : below.any (·.pc.buffer = some .polling) = true :=
      List.any_eq_true.mpr ⟨g, hg, decide_eq_true hbuf⟩
    have hpanic : s.nextReactor cfg f below [] none = s.panic (.alreadyBorrowed .progress) := by
      rw [nextReactor, if_pos hany, hcall]
    obtain rfl := hpanic.symm.trans (Option.some.inj h)
    rfl

/-- A move is one of the innermost call. -/
theorem exists_move {m : Move} (h : step cfg s (.move m) = some s') :
    ∃ f below, s.stack = f :: below ∧ s.move cfg f below f.pc m = some s' := by
  obtain ⟨-, h⟩ := Option.ite_none_left_eq_some.mp h
  rcases hs : s.stack with - | ⟨f, below⟩
  · simp only [hs] at h
    cases h
  · simp only [hs] at h
    exact ⟨f, below, rfl, h⟩

end Runtime

/-! ### The law -/

section Law

variable {cfg : SchedulingConfig} {s s' : Runtime} {e : Event} {m : Marks} {id : ℕ}

/-- An id is sent, and waits. -/
theorem Schedule.allWaiting_send (v : Schedule) (q : Queue) (id : ℕ) :
    (v.send q id).allWaiting = id ::ₘ v.allWaiting := by
  have hne : Queue.polling ≠ .task := nofun
  rcases q with _ | _
  · rw [allWaiting, allWaiting, waiting_send_self, waiting_send_of_ne v id hne,
      Multiset.cons_add]
  · rw [allWaiting, allWaiting, waiting_send_self, waiting_send_of_ne v id hne.symm,
      Multiset.add_cons]

/-- An id is taken out of the ids that wait. -/
theorem Schedule.allWaiting_take {v : Schedule} {q : Queue} {rest : Multiset ℕ}
    (hw : v.waiting q = id ::ₘ rest) : v.allWaiting = id ::ₘ (v.take q rest).allWaiting := by
  have hne : Queue.polling ≠ .task := nofun
  rcases q with _ | _
  · rw [allWaiting, allWaiting, hw, waiting_take_self, waiting_take_of_ne v rest hne,
      Multiset.cons_add]
  · rw [allWaiting, allWaiting, hw, waiting_take_self, waiting_take_of_ne v rest hne.symm,
      Multiset.add_cons]

/-- What holds along the runs in which nothing goes wrong. -/
structure ReentryInv (r : Runtime × Marks) : Prop where
  tasks : TasksInv r.1
  calm : r.1.panicked ≠ some (.alreadyBorrowed .progress)
  marked : Marked r.1.pool.entry r.1.allWaiting r.2

/-- The marks say the same of the same schedule. -/
theorem Marked.of_schedule (h : Marked s.pool.entry s.allWaiting m)
    (heq : s'.schedule = s.schedule) : Marked s'.pool.entry s'.allWaiting m := by
  have hpool : s'.pool = s.pool := congrArg Schedule.pool heq
  have hw : s'.allWaiting = s.allWaiting := congrArg Schedule.allWaiting heq
  rwa [hpool, hw]

/-- The tasks are where they were. -/
theorem TasksInv.of_schedule (h : TasksInv s) (heq : s'.schedule = s.schedule)
    (hp : s'.panicked = s.panicked) : TasksInv s' := by
  have hpool : s'.pool = s.pool := congrArg Schedule.pool heq
  have hpolled : s'.polled = s.polled := congrArg Schedule.polled heq
  refine ⟨?_, hp ▸ h.panicked⟩
  rw [hpool, hpolled]
  exact h.pool

/-- **A call** begins, wherever it is made. -/
theorem ReentryInv.call (h : ReentryInv (s, m)) (call : Call) {pc : Pc}
    (hpolled : pc.polled = none) (hwaiting : ∀ q, pc.unprocessed q = []) :
    ReentryInv (s.resume (.new call pc) s.stack, m) := by
  have heq := Runtime.schedule_call s call hpolled hwaiting
  exact ⟨h.tasks.of_schedule heq rfl, h.calm, h.marked.of_schedule heq⟩

/-- **A task is spawned** under a vacant key. -/
theorem ReentryInv.spawn (h : ReentryInv (s, m)) (q : Queue) {key : ℕ}
    (hkey : s.pool.entry key = none) : ReentryInv (s.spawn q key, m.send key) := by
  have heq : (s.spawn q key).schedule = s.schedule.spawn q key := Runtime.schedule_send ..
  have hpolled : (s.spawn q key).polled = s.polled := congrArg Schedule.polled heq
  refine ⟨⟨?_, h.tasks.panicked⟩, h.calm, ?_⟩
  · rw [hpolled]
    exact h.tasks.pool.insert q hkey
  · have hw : (s.spawn q key).allWaiting = key ::ₘ s.allWaiting :=
      (congrArg Schedule.allWaiting heq).trans (Schedule.allWaiting_send ..)
    rw [hw]
    exact h.marked.spawn hkey

/-- A step of the executor itself keeps the tasks, and does not panic where it must not. -/
theorem ReentryInv.of_step (h : ReentryInv (s, m)) (hdrain : ¬s.DrainsBorrowed e)
    (hs : step cfg s e = some s') {m' : Marks} (hmarked : Marked s'.pool.entry s'.allWaiting m') :
    ReentryInv (s', m') :=
  ⟨h.tasks.step hs, fun hb => hdrain ((Runtime.borrowed_step_iff hs).mp hb), hmarked⟩

/-- **A poll ends with `Pending`**: the task is in its slot again. -/
theorem TasksInv.pending (h : TasksInv s)
    (hs : Executor.step cfg s (.move .pending) = some s') :
    ∃ id t outer, s.polled = (id, t) :: outer ∧ s.pool.entry id = some none ∧
      s'.pool.entry = Function.update s.pool.entry id (some (some t)) ∧
        s'.allWaiting = s.allWaiting := by
  obtain ⟨f, below, hstack, hmove⟩ := Runtime.exists_move hs
  obtain ⟨p, id, t, hpc⟩ := Runtime.exists_task (.inl rfl) hmove
  have hpolled := Runtime.polled_of_task hstack hpc
  have hpool := hpolled ▸ h.pool
  have hstat := (hpool.holds id t (.inr (List.mem_cons_self ..))).2.2
  rw [hpc] at hmove
  replace hmove : s.taskPending f below p id t = s' := Option.some.inj hmove
  rw [Runtime.taskPending, if_pos hstat, hpool.putBack_eq] at hmove
  subst hmove
  refine ⟨id, t, _, hpolled, hpool.entry_polled (List.mem_cons_self ..), rfl, ?_⟩
  exact Runtime.allWaiting_of_stack hstack rfl rfl (by rw [hpc]; rfl)

/-- **A poll ends with `Ready`**: the entry is vacant. -/
theorem TasksInv.ready (h : TasksInv s)
    (hs : Executor.step cfg s (.move .ready) = some s') :
    ∃ id t outer, s.polled = (id, t) :: outer ∧
      s'.pool.entry = Function.update s.pool.entry id none ∧ s'.allWaiting = s.allWaiting := by
  obtain ⟨f, below, hstack, hmove⟩ := Runtime.exists_move hs
  obtain ⟨p, id, t, hpc⟩ := Runtime.exists_task (.inr rfl) hmove
  have hpolled := Runtime.polled_of_task hstack hpc
  have hpool := hpolled ▸ h.pool
  have hstat := (hpool.holds id t (.inr (List.mem_cons_self ..))).2.2
  rw [hpc] at hmove
  replace hmove : s.taskReady f below p id t = s' := Option.some.inj hmove
  simp only [Runtime.taskReady, if_pos hstat, hpool.complete_eq] at hmove
  subst hmove
  refine ⟨id, t, _, hpolled, rfl, ?_⟩
  exact Runtime.allWaiting_of_stack hstack rfl rfl (by rw [hpc]; rfl)

/-- **An id is taken** by a loop. -/
theorem ReentryInv.take (h : ReentryInv (s, m)) {progress : Bool}
    (htaken : s.taken e = some (id, progress)) (hs : step cfg s e = some s') :
    Marked s'.pool.entry s'.allWaiting (m.take (s.pool.entry id) id progress
      (decide (s.allWaiting.count id < 2))) := by
  have hstep := Runtime.step_schedule hs
  rw [htaken] at hstep
  generalize hv : s'.schedule = v at hstep
  cases hstep with
  | take q id b rest hw =>
    have hw' : s.allWaiting = id ::ₘ (s.schedule.take q rest).allWaiting :=
      Schedule.allWaiting_take hw
    have hpool : s'.pool = ((s.schedule.take q rest).pollTask id).pool := congrArg Schedule.pool hv
    have hwaits : s'.allWaiting = ((s.schedule.take q rest).pollTask id).allWaiting :=
      congrArg Schedule.allWaiting hv
    have hmarked := h.marked
    rw [hw'] at hmarked
    rw [hpool, hwaits, hw']
    rcases hentry : s.pool.entry id with _ | _ | t
    · rw [Schedule.pollTask_vacant hentry]
      exact hmarked.take_vacant hentry
    · rw [Schedule.pollTask_empty hentry]
      exact hmarked.take_empty hentry progress
    · rw [Schedule.pollTask_task hentry]
      have hother : ∀ id', id' ≠ id → (id' ∈ (s.schedule.take q rest).allWaiting ↔
          id' ∈ id ::ₘ (s.schedule.take q rest).allWaiting) := fun id' hne => by
        rw [Multiset.mem_cons, or_iff_right hne]
      exact hmarked.settle hother (some none)

/-- A call that takes no id polls no task. -/
theorem Runtime.pollsBorrowed_of_taken (h : s.taken (.move .exec) = none) :
    s.pollsBorrowed = false := by
  rw [Runtime.pollsBorrowed]
  rcases hs : s.stack with - | ⟨f, below⟩
  · rfl
  · have hid : s.nextId f.pc = none := by
      rw [Runtime.taken, hs] at h
      exact Option.map_eq_none_iff.mp h
    simp [hid]

/-- A call that takes an id does not fill the buffer. -/
theorem Runtime.filling_of_taken {progress : Bool} (h : s.taken e = some (id, progress)) :
    s.filling = none := by
  obtain ⟨-, f, below, p, hs, hpc⟩ := Runtime.taken_eq_some h
  rw [Runtime.filling, hs]
  simp only [hpc, ite_self]

/-- The executor runs on without taking an id. -/
theorem Runtime.schedule_of_taken (h : s.taken (.move .exec) = none)
    (hs : Executor.step cfg s (.move .exec) = some s') : s'.schedule = s.schedule := by
  obtain ⟨f, below, hstack, hmove⟩ := Runtime.exists_move hs
  refine Runtime.schedule_exec hstack ?_ hmove
  rw [Runtime.taken, hstack] at h
  exact Option.map_eq_none_iff.mp h

/-- **The executor runs on** in a machine with calls from everywhere. -/
theorem nestedStep_exec (hs : nestedStep cfg s (.move .exec) = some s') :
    s.pollsBorrowed = true ∧ s'.panicked = some (.alreadyBorrowed .progress) ∨
      s.pollsBorrowed = false ∧ ∃ s₁, step cfg s (.move .exec) = some s₁ ∧
        s' = s.filling.elim s₁ s₁.refill := by
  obtain ⟨-, hs⟩ := Option.ite_none_left_eq_some.mp hs
  by_cases hpolls : s.pollsBorrowed = true
  · simp only [hpolls, if_true] at hs
    exact .inl ⟨hpolls, Option.some.inj hs ▸ rfl⟩
  · simp only [if_neg hpolls] at hs
    obtain ⟨s₁, hs₁, rfl⟩ := Option.map_eq_some_iff.mp hs
    exact .inr ⟨Bool.eq_false_iff.mpr hpolls, s₁, hs₁, rfl⟩

/-- **The buffer is filled anew**: what is thrown away is what waits no more. -/
theorem Runtime.throwsAway_iff {ids : List ℕ} (hfill : s.filling = some ids)
    (hs : Executor.step cfg s (.move .exec) = some s') :
    s.throwsAway id = true ↔ id ∈ s.allWaiting ∧ id ∉ (s'.refill ids).allWaiting := by
  rw [Runtime.mem_allWaiting_filled hfill hs, Runtime.throwsAway, hfill]
  simp

/-- **The executor runs on**, and nothing goes wrong. -/
theorem ReentryInv.exec (h : ReentryInv (s, m)) (hok : ¬Forgets (s, m) (.move .exec))
    (hs : nestedStep cfg s (.move .exec) = some s') :
    ReentryInv (s', Marks.remember s (.move .exec) m) := by
  have hdrain : ¬s.DrainsBorrowed (.move .exec) := fun hd => hok (.drains _ hd)
  rcases nestedStep_exec hs with ⟨hpolls, -⟩ | ⟨-, s₁, hs₁, rfl⟩
  · exact absurd (.polls hpolls) hok
  simp only [Marks.remember]
  rcases htaken : s.taken (.move .exec) with - | ⟨id, progress⟩
  · have heq := Runtime.schedule_of_taken htaken hs₁
    have hsame := h.of_step hdrain hs₁ (h.marked.of_schedule heq)
    rcases hfill : s.filling with - | ids
    · exact hsame
    · obtain ⟨hpool, hpolled, hpanicked⟩ := s₁.pool_refill ids
      refine ⟨⟨?_, ?_⟩, ?_, ?_⟩
      · exact (hpool ▸ hpolled ▸ hsame.tasks.pool :)
      · exact hpanicked ▸ hsame.tasks.panicked
      · exact hpanicked ▸ hsame.calm
      · have hentry : (s₁.refill ids).pool = s.pool := hpool.trans (congrArg Schedule.pool heq)
        simp only [Option.elim_some, hentry]
        refine h.marked.fill (fun id hid => ?_) (fun id => Runtime.throwsAway_iff hfill hs₁)
          fun id t ht hthrow hbad => hok (.throws id t htaken hthrow ht hbad)
        rw [Runtime.mem_allWaiting_filled hfill hs₁] at hid
        exact Runtime.mem_allWaiting_of_emptied hid
  · rw [Runtime.filling_of_taken htaken]
    exact h.of_step hdrain hs₁ (h.take htaken hs₁)

/-- **A step in which nothing goes wrong** keeps what the marks say. -/
theorem ReentryInv.step (h : ReentryInv (s, m)) (hok : ¬Forgets (s, m) e)
    (hs : nestedStep cfg s e = some s') : ReentryInv (s', Marks.remember s e m) := by
  have hdrain : ¬s.DrainsBorrowed e := fun hd => hok (.drains _ hd)
  have hcalm := (Option.ite_none_left_eq_some.mp hs).1
  match e with
  | .move .exec => exact h.exec hok hs
  | .move .pending =>
    have hs := (Option.ite_none_left_eq_some.mp hs).2
    -- the task is back in its slot; if a call has skipped its id, the id waits again
    obtain ⟨id, t, outer, hpolled, hempty, hentry, hw⟩ := h.tasks.pending hs
    refine h.of_step hdrain hs ?_
    rw [hentry, hw]
    refine h.marked.pending hempty fun hskipped => Bool.eq_false_iff.mpr fun hmissing => ?_
    exact hok (.pending id t outer hpolled hskipped hmissing)
  | .move .ready =>
    have hs := (Option.ite_none_left_eq_some.mp hs).2
    obtain ⟨id, t, outer, hpolled, hentry, hw⟩ := h.tasks.ready hs
    refine h.of_step hdrain hs ?_
    -- a task that has ended owes nothing
    have hmarks : Marks.remember s (.move .ready) m = m.ready id := by
      simp only [Marks.remember, hpolled]
    rw [hmarks, hentry, hw]
    exact h.marked.settle (fun _ _ => Iff.rfl) none
  | .move .reactorDone | .move .dropped =>
    have hs := (Option.ite_none_left_eq_some.mp hs).2
    obtain ⟨f, below, hstack, hmove⟩ := Runtime.exists_move hs
    exact h.of_step hdrain hs
      (h.marked.of_schedule (Runtime.schedule_return hstack (by simp) hmove))
  | .progress =>
    obtain ⟨-, hs⟩ := Option.ite_none_right_eq_some.mp (Option.ite_none_left_eq_some.mp hs).2
    exact Option.some.inj hs ▸ h.call _ rfl fun q => by rcases q with _ | _ <;> rfl
  | .runQueue =>
    obtain ⟨-, hs⟩ := Option.ite_none_right_eq_some.mp (Option.ite_none_left_eq_some.mp hs).2
    exact Option.some.inj hs ▸ h.call _ rfl fun _ => rfl
  | .blockOn key =>
    obtain ⟨⟨-, -, hkey⟩, hs⟩ :=
      Option.ite_none_right_eq_some.mp (Option.ite_none_left_eq_some.mp hs).2
    exact Option.some.inj hs ▸ (h.spawn .task hkey).call _ rfl fun _ => rfl
  | .spawn q key =>
    obtain ⟨-, hs⟩ := Option.ite_none_left_eq_some.mp (Option.ite_none_left_eq_some.mp hs).2
    obtain ⟨⟨-, hkey⟩, hs⟩ :=
      Option.ite_none_right_eq_some.mp (Option.ite_none_left_eq_some.mp hs).2
    exact Option.some.inj hs ▸ h.spawn q hkey
  | .wake future =>
    have hs := (Option.ite_none_left_eq_some.mp hs).2
    refine h.of_step hdrain hs ?_
    obtain ⟨-, hs⟩ := Option.ite_none_right_eq_some.mp (Option.ite_none_left_eq_some.mp hs).2
    obtain rfl := Option.some.inj hs
    have hw : (s.wake future).allWaiting = (s.pool.address future).2 ::ₘ s.allWaiting :=
      (congrArg Schedule.allWaiting (Runtime.schedule_send ..)).trans (Schedule.allWaiting_send ..)
    rw [hw]
    exact h.marked.send _
  | .requestShutdown =>
    have hs := (Option.ite_none_left_eq_some.mp hs).2
    refine h.of_step hdrain hs (h.marked.of_schedule ?_)
    obtain ⟨-, hs⟩ := Option.ite_none_right_eq_some.mp (Option.ite_none_left_eq_some.mp hs).2
    exact Option.some.inj hs ▸ rfl
  | .register r order =>
    obtain ⟨-, hs⟩ := Option.ite_none_left_eq_some.mp (Option.ite_none_left_eq_some.mp hs).2
    refine h.of_step hdrain hs (h.marked.of_schedule ?_)
    obtain ⟨-, hs⟩ := Option.ite_none_right_eq_some.mp (Option.ite_none_left_eq_some.mp hs).2
    exact Option.some.inj hs ▸ rfl
  | .setRunning r running =>
    have hs := (Option.ite_none_left_eq_some.mp hs).2
    refine h.of_step hdrain hs (h.marked.of_schedule ?_)
    obtain rfl := Option.some.inj (Option.ite_none_left_eq_some.mp hs).2
    exact Runtime.schedule_setRunning ..

/-- **What goes wrong** shows: `progress` has panicked over a borrow, or an id is lost. -/
theorem Forgets.not_reentrant (hbad : Forgets (s, m) e) (h : ReentryInv (s, m))
    (hs : nestedStep cfg s e = some s') : ¬Reentrant (s', Marks.remember s e m) := by
  rintro ⟨hpanic, hwaits⟩
  cases hbad with
  | drains _ hdrain =>
    obtain rfl := hdrain.1
    rcases nestedStep_exec hs with ⟨-, hborrowed⟩ | ⟨-, s₁, hs₁, rfl⟩
    · exact hpanic hborrowed
    · have hborrowed := (Runtime.borrowed_step_iff hs₁).mpr hdrain
      rcases hfill : s.filling with - | ids
      · rw [hfill] at hpanic
        exact hpanic hborrowed
      · exact (Runtime.filling_step hfill hs₁).2.1 hborrowed
  | polls hpolls =>
    rcases nestedStep_exec hs with ⟨-, hborrowed⟩ | ⟨hnot, -⟩
    · exact hpanic hborrowed
    · exact Bool.false_ne_true (hnot.symm.trans hpolls)
  | pending id t outer hpolled hskipped hmissing =>
    have hs := (Option.ite_none_left_eq_some.mp hs).2
    obtain ⟨id', t', outer', hpolled', hempty, hentry, hw⟩ := h.tasks.pending hs
    obtain ⟨⟨rfl, rfl⟩, rfl⟩ : (id = id' ∧ t = t') ∧ outer = outer' := by
      simpa using hpolled.symm.trans hpolled'
    refine (h.marked.missing_iff id hempty hskipped).mp hmissing ?_
    exact hw ▸ hwaits id t (by rw [hentry, Function.update_self]) hskipped
  | throws id t htaken hthrow hentry hwho =>
    rcases nestedStep_exec hs with ⟨hpolls, -⟩ | ⟨-, s₁, hs₁, rfl⟩
    · exact Bool.false_ne_true ((Runtime.pollsBorrowed_of_taken htaken).symm.trans hpolls)
    · rcases hfill : s.filling with - | ids
      · rw [Runtime.throwsAway, hfill] at hthrow
        cases hthrow
      · simp only [hfill, Option.elim_some, Marks.remember, htaken, Option.isSome_some,
          if_true] at hwaits
        have heq := Runtime.schedule_of_taken htaken hs₁
        have hpool : (s₁.refill ids).pool = s.pool :=
          (s₁.pool_refill ids).1.trans (congrArg Schedule.pool heq)
        refine ((Runtime.throwsAway_iff hfill hs₁).mp hthrow).2 (hwaits id t ?_ ?_)
        · rw [hpool]
          exact hentry
        · refine Marks.skipped_fill.mpr (hwho.symm.imp_right fun hprogress => ?_)
          exact ⟨hprogress, hthrow, Option.isSome_of_eq_some hentry⟩

/-- **The exact condition for `progress` to be re-entrant**, for every run. -/
theorem progress_reentrant (cfg : SchedulingConfig) (es : List Event) :
    Always (markedStep cfg) Reentrant (start, .none) es ↔
      EachStep (markedStep cfg) (fun r e => ¬Forgets r e) (start, .none) es := by
  refine always_iff_eachStep (fun r (h : ReentryInv r) => ⟨h.calm, h.marked.waits⟩) ?_ ?_
    ⟨tasksInv_start, nofun, nofun, nofun, nofun⟩ (eachStep_true es)
  · rintro ⟨s, m⟩ e r' h - hok hs
    obtain ⟨hs, hm⟩ := withMemory_eq_some.mp hs
    obtain ⟨s', m'⟩ := r'
    obtain rfl : m' = _ := hm
    exact h.step hok hs
  · rintro ⟨s, m⟩ e r' h - hbad hs
    obtain ⟨hs, hm⟩ := withMemory_eq_some.mp hs
    obtain ⟨s', m'⟩ := r'
    obtain rfl : m' = _ := hm
    exact (not_not.mp hbad).not_reentrant h hs

end Law

/-- A polling task that calls `progress` from its poll: the buffer is borrowed by the loop
that polls it. -/
def progressFromPolling : List Event :=
  [.spawn .polling 0, .runQueue, .move .exec, .move .exec, .move .exec, .progress, .move .exec]

/-- A task that wakes itself and calls `progress` from its poll: the call takes its id, and
the task is not polled again. -/
def progressAfterYield : List Event :=
  [.spawn .task 0, .runQueue, .move .exec, .move .exec, .move .exec, .move .exec, .wake 0,
    .progress, .move .exec, .move .exec, .move .exec, .move .exec, .move .pending]

/-- A reactor that calls `progress` from its poll, when the loop below has drained the polling
queue: the call empties the buffer. -/
def progressFromReactor : List Event :=
  [.register 0 [0], .setRunning 0 true, .spawn .polling 0, .runQueue, .move .exec, .move .exec,
    .progress, .move .exec, .move .reactorDone, .move .exec]

/-- **Three of the ways to go wrong**: a panic, and two lost wakeups. -/
theorem progress_not_reentrant :
    (∃ r, runList (markedStep .default) (start, .none) progressFromPolling = some r ∧
      ¬Reentrant r ∧ r.1.panicked = some (.alreadyBorrowed .progress)) ∧
    (∃ r, runList (markedStep .default) (start, .none) progressAfterYield = some r ∧
      ¬Reentrant r ∧ r.1.pool.Live 0 ∧ r.1.woken 0 = true ∧ r.1.queue .task = [] ∧
        r.1.queue .polling = []) ∧
    ∃ r, runList (markedStep .default) (start, .none) progressFromReactor = some r ∧
      ¬Reentrant r ∧ r.1.pool.Live 0 ∧ r.1.queue .task = [] ∧ r.1.queue .polling = [] := by
  refine ⟨⟨_, rfl, fun h => h.1 rfl, rfl⟩, ⟨_, rfl, fun h => ?_, by decide⟩, _, rfl,
    fun h => ?_, by decide⟩
  · exact absurd (h.2 0 _ rfl rfl) (by decide)
  · exact absurd (h.2 0 _ rfl rfl) (by decide)

end Executor

end Pluvio
