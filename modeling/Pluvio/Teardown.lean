import Pluvio.Runtime.Executor
import Pluvio.Runtime.SpscQueue
import Pluvio.Uring.Allocator
import Mathlib.Data.List.Sort

/-!
# Wakers around the end of a runtime

A waker holds a sender of one of the two channels of its runtime, and panics when there
is no receiver any more. A runtime is dropped with the last reference to it, field by
field in the order of their declaration: the receivers come before the pool, so when the
tasks that are still pending are dropped, whatever their destructors wake of that runtime
is sent to a channel without a receiver. The same holds of what a reactor or a task of
another runtime wakes later.

The law (`Pluvio.Teardown.waking_safe_iff`) is that this is the only way to go wrong, and
the invariant behind it is about the places where code of the program runs in the middle
of a drop: in the destructors of the reactors, which come first, and of the tasks, which
come last, and nowhere between (`Pluvio.Teardown.WorldInv.settled`).
-/

namespace Pluvio

namespace Teardown

open Executor (Runtime Queue SchedulingConfig)

/-! ### What a waker does -/

section Channel

variable {slots : Spsc.SlotLimit} {s : Spsc.Inner ℕ} {q : Spsc.Spec ℕ}

/-- **With a receiver**, a send to an unbounded channel succeeds while there is memory for
its values. -/
theorem send_of_receiver (h : Spsc.Refines .unbounded s q)
    (hmem : ¬Spsc.Overflows slots .unbounded q.queue) (id : ℕ) :
    ∃ s', s.send slots id = .ok (s', .ok ()) := by
  rcases h.trySend_cases slots id with ⟨s', -, hsend, -⟩ | ⟨-, -, hmode⟩ | ⟨-, hover⟩
  · refine ⟨s', ?_⟩
    rw [Spsc.Inner.send, hsend]
    rfl
  · cases hmode
  · exact absurd hover hmem

/-- **Without a receiver**, a send gives the value back, and `wake_raw` panics. -/
theorem send_dropReceiver (hmagic : s.magicOk = true) (id : ℕ) :
    s.dropReceiver.send slots id = .ok (s.dropReceiver, .error (.mk id)) := by
  have hmagic' : s.dropReceiver.magicOk = true := hmagic
  rw [Spsc.Inner.send, Spsc.Inner.trySend, hmagic']
  rfl

end Channel

/-! ### Runtimes and their references -/

/-- The fields of `Runtime` that mean something to its drop. -/
inductive Field
  | reactors
  | taskSender
  | pollingTaskSender
  | taskReceiver
  | pollingTaskReceiver
  | taskPool
  deriving DecidableEq

/-- The order of their declaration. -/
def Field.order : List Field :=
  [.reactors, .taskSender, .pollingTaskSender, .taskReceiver, .pollingTaskReceiver, .taskPool]

/-- The receiver of a channel. -/
def receiverField : Queue → Field
  | .task => .taskReceiver
  | .polling => .pollingTaskReceiver

/-- A runtime and what there is of it. -/
structure Cell where
  runtime : Runtime
  /-- The references the program holds, `RUNTIME` not counted. -/
  handles : ℕ
  /-- The fields that have not been dropped. -/
  fields : List Field
  /-- `receiver_alive` of the channels. -/
  receiverAlive : Queue → Bool

/-- `Runtime::new`, before there is a reference. -/
def Cell.new : Cell := ⟨Executor.start, 0, Field.order, fun _ => true⟩

/-- The tasks that are pending, in the order of their keys. -/
def Cell.pending (c : Cell) : List ℕ :=
  ((List.range c.runtime.pool.spawned).filter fun f => decide (c.runtime.pool.Live f)).insertionSort
    fun f g => (c.runtime.pool.address f).2 ≤ (c.runtime.pool.address g).2

/-- The field `a` is dropped, with the fields `left` after it. The tasks and the wakers
have senders of their own. -/
def Cell.dropField (c : Cell) (a : Field) (left : List Field) : Cell :=
  { c with
    fields := left
    receiverAlive := fun q => if receiverField q = a then false else c.receiverAlive q }

/-- A waker of a task. -/
structure Waker where
  runtime : ℕ
  future : ℕ
  deriving DecidableEq

/-- Where the drop of a runtime is. -/
inductive Place
  /-- Before the next field of the runtime is dropped. -/
  | next
  /-- Inside the destructors of the reactors. -/
  | reactors
  /-- Inside the destructor of a task, with those that come after it. -/
  | task (left : List ℕ)
  deriving DecidableEq

/-- Where the drop is when it drops a field: the reactors and the tasks have
destructors. -/
def Cell.placeIn (c : Cell) : Field → Place
  | .reactors => .reactors
  | .taskPool =>
    match c.pending with
    | [] => .next
    | _ :: left => .task left
  | _ => .next

/-- The drop of a runtime that is under way. -/
structure Drop where
  runtime : ℕ
  place : Place
  /-- `set_runtime` or `clear_runtime` has dropped it, and holds a borrow of `RUNTIME`. -/
  borrowed : Bool
  deriving DecidableEq

/-- How a thread panics while runtimes and wakers are dropped. -/
inductive Panic
  /-- `"Failed to send task"`. -/
  | failedToSend
  /-- `RUNTIME` is borrowed. -/
  | alreadyBorrowed
  deriving DecidableEq

/-- The thread: its runtimes, `RUNTIME`, a pool of buffers, and the drops under way, the
innermost one first. -/
structure World where
  cells : ℕ → Cell
  created : ℕ
  current : Option ℕ
  alloc : Uring.Allocator Waker
  /-- The `FixedBuffer`s that are alive. -/
  buffers : List ℕ
  drops : List Drop
  panicked : Option Panic

/-- A pool of buffers and no runtime. -/
def World.start (queueSize : ℕ) : World where
  cells := fun _ => .new
  created := 0
  current := none
  alloc := .new queueSize
  buffers := []
  drops := []
  panicked := none

namespace World

/-- The code of the program runs, that of a destructor included. -/
def userCode (s : World) : Bool :=
  match s.drops with
  | [] => true
  | d :: _ => decide (d.place ≠ .next)

/-- There is a reference to the runtime `r`. -/
def Held (s : World) (r : ℕ) : Prop := (s.cells r).handles ≠ 0 ∨ s.current = some r

instance (s : World) (r : ℕ) : Decidable (s.Held r) := by
  unfold Held
  infer_instance

/-- Another value for the cell `r`. -/
def set (s : World) (r : ℕ) (c : Cell) : World :=
  { s with cells := Function.update s.cells r c }

/-- `RUNTIME` is borrowed. -/
def tlsBorrowed (s : World) : Bool := s.drops.any Drop.borrowed

/-- A reference to `r` is gone. If it was the last one, `r` is dropped; a call that is
under way on `r` has a reference. -/
def release (s : World) (r : ℕ) (borrowed : Bool) : Option World :=
  if s.Held r then some s
  else if (s.cells r).runtime.stack = [] then
    some { s with drops := ⟨r, .next, borrowed⟩ :: s.drops }
  else none

/-- `wake_raw` and `wake_by_ref_raw`. -/
def wake (s : World) (w : Waker) : World :=
  let c := s.cells w.runtime
  if c.receiverAlive (c.runtime.pool.address w.future).1 then
    s.set w.runtime { c with runtime := c.runtime.wake w.future }
  else { s with panicked := some .failedToSend }

/-- One step of the innermost drop. -/
def advance (s : World) (d : Drop) (below : List Drop) : World :=
  let c := s.cells d.runtime
  match d.place with
  | .next =>
    match c.fields with
    | [] => { s with drops := below }
    | a :: left =>
      { s.set d.runtime (c.dropField a left) with
        drops := { d with place := c.placeIn a } :: below }
  | .task (_ :: left) => { s with drops := { d with place := .task left } :: below }
  | .reactors | .task [] => { s with drops := { d with place := .next } :: below }

end World

/-- What happens on the thread. -/
inductive Event
  | newRuntime
  /-- A reference to a runtime is cloned, or dropped. -/
  | clone (r : ℕ)
  | drop (r : ℕ)
  | setRuntime (r : ℕ)
  | clearRuntime
  | getRuntime
  /-- Something happens in a runtime. -/
  | run (r : ℕ) (e : Executor.Event)
  /-- A waker is invoked, by whatever holds it. -/
  | wake (w : Waker)
  /-- A task polls its `LazyAcquire`. -/
  | acquire (f : ℕ) (w : Waker)
  /-- A `FixedBuffer` is dropped. -/
  | dropBuffer (i : ℕ)
  /-- The innermost drop goes on. -/
  | advance

namespace World

/-- A task of the runtime has been spawned for which the waker is. -/
def Wakes (s : World) (w : Waker) : Prop :=
  w.future < (s.cells w.runtime).runtime.pool.spawned

instance (s : World) (w : Waker) : Decidable (s.Wakes w) := by
  unfold Wakes
  infer_instance

/-- The task is being polled for which the waker is. -/
def polls (s : World) (w : Waker) : Bool :=
  match (s.cells w.runtime).runtime.stack with
  | [] => false
  | f :: _ =>
    match f.pc with
    | .task _ _ t => decide (t.future = w.future)
    | _ => false

/-- Destructors return, everything else is done by them or outside. -/
def allows (s : World) : Event → Bool
  | .advance => true
  | _ => s.userCode

/-- An event that does not invoke a waker. -/
def isOther : Executor.Event → Bool
  | .wake _ => false
  | _ => true

/-- The world after an event, if it can happen. -/
def step (cfg : SchedulingConfig) (s : World) (e : Event) : Option World :=
  if s.panicked ≠ none ∨ s.allows e = false then none
  else match e with
  | .newRuntime => some { s with
      cells := Function.update s.cells s.created { s.cells s.created with handles := 1 }
      created := s.created + 1 }
  | .clone r =>
    let c := s.cells r
    if c.handles = 0 then none else some (s.set r { c with handles := c.handles + 1 })
  | .drop r =>
    let c := s.cells r
    if c.handles = 0 then none else (s.set r { c with handles := c.handles - 1 }).release r false
  | .setRuntime r =>
    let c := s.cells r
    if c.handles = 0 then none
    -- `borrow_mut` of the thread local panics while it is borrowed, and so does `borrow`
    else if s.tlsBorrowed then some { s with panicked := some .alreadyBorrowed }
    else
      -- the handle is moved into the thread local, and the one that was there is dropped
      let s' := { s.set r { c with handles := c.handles - 1 } with current := some r }
      match s.current with
      | some r' => s'.release r' true
      | none => some s'
  | .clearRuntime =>
    if s.tlsBorrowed then some { s with panicked := some .alreadyBorrowed }
    else match s.current with
      | some r => { s with current := none }.release r true
      | none => some s
  | .getRuntime =>
    if s.tlsBorrowed then some { s with panicked := some .alreadyBorrowed }
    else match s.current with
      | some r => some (s.set r { s.cells r with handles := (s.cells r).handles + 1 })
      | none => some s
  | .run r e =>
    if s.Held r ∧ isOther e = true then
      (Executor.step cfg (s.cells r).runtime e).map fun runtime =>
        s.set r { s.cells r with runtime }
    else none
  | .wake w =>
    if s.Wakes w ∧ (s.cells w.runtime).runtime.code ≠ .executor then some (s.wake w) else none
  | .acquire f w =>
    if s.polls w then
      match s.alloc.pollAcquire f w with
      | (some i, alloc) => some { s with alloc, buffers := i :: s.buffers }
      | (none, alloc) => some { s with alloc }
    else none
  | .dropBuffer i =>
    if i ∈ s.buffers then
      match s.alloc.dropBuffer i with
      | (some w, alloc) => some ({ s with alloc, buffers := s.buffers.erase i }.wake w)
      | (none, alloc) => some { s with alloc, buffers := s.buffers.erase i }
    else none
  | .advance =>
    match s.drops with
    | [] => none
    | d :: below => some (s.advance d below)

/-- The waker that an event invokes. -/
def invoked (s : World) : Event → Option Waker
  | .wake w => some w
  | .dropBuffer i => (s.alloc.dropBuffer i).1
  | _ => none

/-- **Waking is safe**: a waker that is invoked does not panic, and leaves the other
runtimes as they are. -/
def WakesSafely (cfg : SchedulingConfig) (s : World) (e : Event) : Prop :=
  ∀ w, s.invoked e = some w → ∀ s', s.step cfg e = some s' →
    s'.panicked = none ∧ ∀ r, r ≠ w.runtime → s'.cells r = s.cells r

/-- **The runtime listens**: its drop has not come to the pool. -/
def Listens (s : World) (e : Event) : Prop :=
  ∀ w, s.invoked e = some w → .taskPool ∈ (s.cells w.runtime).fields

end World

/-! ### Code of the program in the middle of a drop -/

/-- The code of the program may run: nothing has been dropped, or the reactors are being
dropped, or the pool is. -/
def Settled (fields : List Field) : Prop :=
  fields = Field.order ∨ fields = Field.order.tail ∨ fields = []

/-- **The invariant of the drops.** -/
structure WorldInv (s : World) : Prop where
  suffix : ∀ r, (s.cells r).fields <:+ Field.order
  alive : ∀ r q, (s.cells r).receiverAlive q = decide (receiverField q ∈ (s.cells r).fields)
  /-- All drops but the innermost are in a destructor. -/
  settled : ∀ r, Settled (s.cells r).fields ∨
    ∃ d below, s.drops = d :: below ∧ d.runtime = r ∧ d.place = .next
  lt : ∀ r, s.Held r → r < s.created
  whole : ∀ r, s.Held r ∨ s.created ≤ r → (s.cells r).fields = Field.order
  dropped : ∀ d ∈ s.drops, ¬s.Held d.runtime ∧ d.runtime < s.created

theorem worldInv_start (queueSize : ℕ) : WorldInv (.start queueSize) where
  suffix := fun _ => List.suffix_refl _
  alive := fun _ q => by rcases q <;> rfl
  settled := fun _ => .inl (.inl rfl)
  lt := fun _ h => h.elim (fun h => absurd rfl h) nofun
  whole := fun _ _ => rfl
  dropped := List.forall_mem_nil _

variable {cfg : SchedulingConfig} {s s' : World} {e : Event}

/-- **Code of the program** finds every runtime settled. -/
theorem WorldInv.settled_of_userCode (h : WorldInv s) (hcode : s.userCode = true) (r : ℕ) :
    Settled (s.cells r).fields := by
  refine (h.settled r).resolve_right ?_
  rintro ⟨d, below, hdrops, -, hplace⟩
  rw [World.userCode, hdrops] at hcode
  exact of_decide_eq_true hcode hplace

/-- Between the reactors and the pool no code of the program runs. -/
theorem Settled.receiver_iff {fields : List Field} (h : Settled fields) (q : Queue) :
    receiverField q ∈ fields ↔ .taskPool ∈ fields := by
  rcases h with rfl | rfl | rfl <;> rcases q <;> decide

/-- **What a step of the program leaves as it is**: it may create a runtime, or begin to
drop one with its last reference. -/
structure Keeps (s s' : World) : Prop where
  fields : ∀ r, (s'.cells r).fields = (s.cells r).fields
  receiverAlive : ∀ r, (s'.cells r).receiverAlive = (s.cells r).receiverAlive
  created : s.created ≤ s'.created
  held : ∀ r, s'.Held r → s.Held r ∨ r = s.created ∧ s.created < s'.created
  drops : s'.drops = s.drops ∨
    ∃ r b, s'.drops = ⟨r, .next, b⟩ :: s.drops ∧ s.Held r ∧ ¬s'.Held r

theorem WorldInv.keeps (h : WorldInv s) (hcode : s.userCode = true) (hk : Keeps s s') :
    WorldInv s' where
  suffix := fun r => (hk.fields r).symm ▸ h.suffix r
  alive := fun r q => by rw [hk.receiverAlive, hk.fields, h.alive]
  settled := fun r => .inl ((hk.fields r).symm ▸ h.settled_of_userCode hcode r)
  lt := fun r hr => by
    rcases hk.held r hr with hr | ⟨rfl, hlt⟩
    · exact (h.lt r hr).trans_le hk.created
    · exact hlt
  whole := fun r hr => by
    rw [hk.fields]
    rcases hr with hr | hr
    · exact h.whole r ((hk.held r hr).imp_right fun hr => hr.1.ge)
    · exact h.whole r (.inr (hk.created.trans hr))
  dropped := fun d hd => by
    have hold : ∀ d ∈ s.drops, ¬s'.Held d.runtime ∧ d.runtime < s'.created := by
      intro d hd
      obtain ⟨hnot, hlt⟩ := h.dropped d hd
      refine ⟨fun hc => ?_, hlt.trans_le hk.created⟩
      rcases hk.held _ hc with hc | ⟨hc, -⟩
      · exact hnot hc
      · exact hlt.ne hc
    rcases hk.drops with hdrops | ⟨r, b, hdrops, hr, hr'⟩
    · exact hold d (hdrops ▸ hd)
    · rw [hdrops] at hd
      rcases List.mem_cons.mp hd with rfl | hd
      · exact ⟨hr', (h.lt r hr).trans_le hk.created⟩
      · exact hold d hd

/-- What comes after the reactors, and after the pool. -/
theorem settled_of_suffix {a : Field} {left : List Field} (h : a :: left <:+ Field.order)
    (ha : a = .reactors ∨ a = .taskPool) : Settled left := by
  simp only [Field.order, List.suffix_cons_iff, List.cons.injEq, List.suffix_nil] at h
  rcases ha with rfl | rfl
  · simp only [reduceCtorEq, false_and, or_false, true_and] at h
    exact .inr (.inl h)
  · simp only [reduceCtorEq, false_and, false_or, or_false, true_and] at h
    exact .inr (.inr h)

/-- The other fields have no destructors. -/
theorem placeIn_eq_next (c : Cell) {a : Field} (ha : ¬(a = .reactors ∨ a = .taskPool)) :
    c.placeIn a = .next := by
  obtain ⟨hreactors, hpool⟩ := not_or.mp ha
  rcases a
  · exact absurd rfl hreactors
  · rfl
  · rfl
  · rfl
  · rfl
  · exact absurd rfl hpool

/-- The innermost drop moves on without dropping a field. -/
theorem WorldInv.place (h : WorldInv s) {ds : List Drop}
    (hruntimes : ∀ d ∈ ds, ∃ d' ∈ s.drops, d'.runtime = d.runtime)
    (hsettled : ∀ r, Settled (s.cells r).fields) : WorldInv { s with drops := ds } where
  suffix := h.suffix
  alive := h.alive
  settled := fun r => .inl (hsettled r)
  lt := h.lt
  whole := h.whole
  dropped := fun d hd => by
    obtain ⟨d', hd', hr⟩ := hruntimes d hd
    exact hr ▸ h.dropped d' hd'

section Field

variable {d : Drop} {below : List Drop} {a : Field} {left : List Field}

theorem cells_set (s : World) (c : Cell) (r r' : ℕ) :
    (s.set r c).cells r' = if r' = r then c else s.cells r' :=
  Function.update_apply s.cells r c r'

/-- Dropping the next field keeps it, when the other runtimes are not in the midst of their
fields. -/
theorem WorldInv.dropField (h : WorldInv s) (hdrops : s.drops = d :: below)
    (hfields : (s.cells d.runtime).fields = a :: left)
    (hothers : ∀ r, r ≠ d.runtime → Settled (s.cells r).fields) :
    WorldInv { s.set d.runtime ((s.cells d.runtime).dropField a left) with
      drops := { d with place := (s.cells d.runtime).placeIn a } :: below } := by
  have hsuffix := hfields ▸ h.suffix d.runtime
  have hnodup : (a :: left).Nodup := hsuffix.sublist.nodup (by decide)
  obtain ⟨hnot, hlt⟩ := h.dropped d (hdrops ▸ List.mem_cons_self ..)
  have hheld : ∀ r, World.Held { s.set d.runtime ((s.cells d.runtime).dropField a left) with
      drops := { d with place := (s.cells d.runtime).placeIn a } :: below } r ↔ s.Held r := by
    intro r
    simp only [World.Held, cells_set]
    split
    · next hr => rw [hr]; rfl
    · exact Iff.rfl
  exact {
    suffix := fun r => by
      simp only [cells_set]
      split
      · exact (List.suffix_cons a left).trans hsuffix
      · exact h.suffix r
    alive := fun r q => by
      simp only [cells_set]
      split
      · -- of the queues the one whose field is dropped is closed, and no other
        simp only [Cell.dropField, h.alive, hfields, List.mem_cons]
        split
        · next hq => rw [hq, decide_eq_false (List.nodup_cons.mp hnodup).1]
        · next hq => exact decide_eq_decide.mpr (or_iff_right hq)
      · exact h.alive r q
    settled := fun r => by
      simp only [cells_set]
      split
      · next hr =>
        -- its reactors and its tasks may run code of their own when they are dropped
        by_cases ha : a = .reactors ∨ a = .taskPool
        · exact .inl (settled_of_suffix hsuffix ha)
        · exact .inr ⟨_, _, rfl, hr.symm, placeIn_eq_next _ ha⟩
      · next hr => exact .inl (hothers r hr)
    lt := fun r hr => h.lt r ((hheld r).mp hr)
    whole := fun r hr => by
      have hr' : s.Held r ∨ s.created ≤ r := hr.imp_left (hheld r).mp
      have hne : r ≠ d.runtime := by
        rintro rfl
        exact hr'.elim hnot hlt.not_ge
      simp only [cells_set, if_neg hne]
      exact h.whole r hr'
    dropped := fun d' hd' => by
      have hold : ∃ d'' ∈ s.drops, d''.runtime = d'.runtime := by
        rcases List.mem_cons.mp hd' with rfl | hd'
        · exact ⟨d, hdrops ▸ List.mem_cons_self .., rfl⟩
        · exact ⟨d', hdrops ▸ List.mem_cons_of_mem _ hd', rfl⟩
      obtain ⟨d'', hd'', hr⟩ := hold
      obtain ⟨hnot', hlt'⟩ := h.dropped d'' hd''
      exact ⟨fun hc => hnot' (hr ▸ (hheld _).mp hc), hr ▸ hlt'⟩ }

theorem WorldInv.advance (h : WorldInv s) (hdrops : s.drops = d :: below) :
    WorldInv (s.advance d below) := by
  have hbelow : ∀ place, ∀ d' ∈ { d with place } :: below,
      ∃ d'' ∈ s.drops, d''.runtime = d'.runtime := by
    intro place d' hd'
    rcases List.mem_cons.mp hd' with rfl | hd'
    · exact ⟨d, hdrops ▸ List.mem_cons_self .., rfl⟩
    · exact ⟨d', hdrops ▸ List.mem_cons_of_mem _ hd', rfl⟩
  have hcode : d.place ≠ .next → ∀ r, Settled (s.cells r).fields := fun hplace =>
    h.settled_of_userCode (by rw [World.userCode, hdrops]; exact decide_eq_true hplace)
  rw [World.advance]
  split
  · next hplace =>
    -- the other runtimes are settled in any case
    have hothers : ∀ r, r ≠ d.runtime → Settled (s.cells r).fields := by
      intro r hr
      refine (h.settled r).resolve_right ?_
      rintro ⟨d', below', hdrops', hr', -⟩
      obtain ⟨rfl, -⟩ := List.cons.inj (hdrops.symm.trans hdrops')
      exact hr hr'.symm
    split
    · next hfields =>
      refine h.place (fun d' hd' => ⟨d', hdrops ▸ List.mem_cons_of_mem _ hd', rfl⟩) fun r => ?_
      by_cases hr : r = d.runtime
      · rw [hr, hfields]
        exact .inr (.inr rfl)
      · exact hothers r hr
    · next a left hfields => exact h.dropField hdrops hfields hothers
  · next hplace => exact h.place (hbelow _) (hcode (by rw [hplace]; nofun))
  · next hplace => exact h.place (hbelow _) (hcode (by rw [hplace]; nofun))
  · next hplace => exact h.place (hbelow _) (hcode (by rw [hplace]; nofun))

end Field

/-! ### Steps of the program -/

theorem Keeps.rfl : Keeps s s where
  fields := fun _ => .refl _
  receiverAlive := fun _ => .refl _
  created := le_rfl
  held := fun _ h => .inl h
  drops := .inl (.refl _)

/-- Another cell with the same fields, and no reference where there was none. -/
theorem keeps_set {r : ℕ} {c : Cell} (hfields : c.fields = (s.cells r).fields)
    (halive : c.receiverAlive = (s.cells r).receiverAlive)
    (hheld : c.handles ≠ 0 → s.Held r) : Keeps s (s.set r c) where
  fields := fun r' => by
    rw [cells_set]
    split
    · next hr => rw [hr, hfields]
    · rfl
  receiverAlive := fun r' => by
    rw [cells_set]
    split
    · next hr => rw [hr, halive]
    · rfl
  created := le_rfl
  held := fun r' hr' => .inl <| by
    rw [World.Held, cells_set] at hr'
    split at hr'
    · next hr => exact hr' |>.elim (fun h => hr ▸ hheld h) .inr
    · exact hr'
  drops := .inl rfl

/-- **A reference is gone**, and with the last one the drop begins. -/
theorem Keeps.release {t : World} {r : ℕ} {b : Bool} (h : Keeps s t) (hdrops : t.drops = s.drops)
    (hheld : s.Held r) (hr : t.release r b = some s') : Keeps s s' := by
  rw [World.release] at hr
  split_ifs at hr with hc hstack
  · exact Option.some.inj hr ▸ h
  · obtain rfl := Option.some.inj hr
    exact {
      fields := h.fields
      receiverAlive := h.receiverAlive
      created := h.created
      held := h.held
      drops := .inr ⟨r, b, congrArg _ hdrops, hheld, hc⟩ }

theorem keeps_wake (s : World) (w : Waker) : Keeps s (s.wake w) := by
  rw [World.wake]
  split
  · exact keeps_set rfl rfl fun h => .inl h
  · exact { Keeps.rfl (s := s) with }

theorem userCode_of_step (he : e ≠ .advance) (hs : s.step cfg e = some s') :
    s.userCode = true := by
  obtain ⟨hcan, -⟩ := Option.ite_none_left_eq_some.mp hs
  have hallows := (not_or.mp hcan).2
  rw [Bool.not_eq_false] at hallows
  rcases e
  case advance => exact absurd rfl he
  all_goals exact hallows

/-- **A step of the program** creates runtimes and begins to drop them. -/
theorem keeps_step (he : e ≠ .advance) (hs : s.step cfg e = some s') : Keeps s s' := by
  obtain ⟨-, hs⟩ := Option.ite_none_left_eq_some.mp hs
  match e with
  | .advance => exact absurd rfl he
  | .newRuntime =>
    obtain rfl := Option.some.inj hs
    exact {
      fields := fun r => by
        simp only [Function.update_apply]
        split
        · next hr => rw [hr]
        · rfl
      receiverAlive := fun r => by
        simp only [Function.update_apply]
        split
        · next hr => rw [hr]
        · rfl
      created := Nat.le_succ _
      held := fun r hr => by
        simp only [World.Held, Function.update_apply] at hr
        split at hr
        · next heq => exact .inr ⟨heq, Nat.lt_succ_self _⟩
        · exact .inl hr
      drops := .inl rfl }
  | .clone r =>
    obtain ⟨hne, hs⟩ := Option.ite_none_left_eq_some.mp hs
    exact Option.some.inj hs ▸ keeps_set rfl rfl fun _ => .inl hne
  | .drop r =>
    obtain ⟨hne, hs⟩ := Option.ite_none_left_eq_some.mp hs
    have hset : Keeps s (s.set r { s.cells r with handles := (s.cells r).handles - 1 }) :=
      keeps_set rfl rfl fun _ => .inl hne
    exact hset.release rfl (.inl hne) hs
  | .setRuntime r =>
    obtain ⟨hne, hs⟩ := Option.ite_none_left_eq_some.mp hs
    split at hs
    · exact Option.some.inj hs ▸ { Keeps.rfl (s := s) with }
    · -- the handle is given to the thread, which drops the one it had
      have hkeeps : Keeps s { s.set r { s.cells r with handles := (s.cells r).handles - 1 } with
          current := some r } := by
        have hset : Keeps s (s.set r { s.cells r with handles := (s.cells r).handles - 1 }) :=
          keeps_set rfl rfl fun _ => .inl hne
        refine { hset with held := fun r' hr' => ?_, drops := .inl rfl }
        rcases hr' with hr' | hr'
        · exact hset.held r' (.inl hr')
        · exact .inl (Option.some.inj hr' ▸ .inl hne)
      dsimp only at hs
      split at hs
      · next r' hcurrent => exact hkeeps.release rfl (.inr hcurrent) hs
      · exact Option.some.inj hs ▸ hkeeps
  | .clearRuntime =>
    dsimp only at hs
    split at hs
    · exact Option.some.inj hs ▸ { Keeps.rfl (s := s) with }
    · split at hs
      · next r hcurrent =>
        refine Keeps.release (t := { s with current := none }) ?_ rfl (.inr hcurrent) hs
        exact { Keeps.rfl (s := s) with
          held := fun r hr => .inl (.inl (hr.resolve_right nofun))
          drops := .inl rfl }
      · exact Option.some.inj hs ▸ Keeps.rfl
  | .getRuntime =>
    dsimp only at hs
    split at hs
    · exact Option.some.inj hs ▸ { Keeps.rfl (s := s) with }
    · split at hs
      · next r hcurrent => exact Option.some.inj hs ▸ keeps_set rfl rfl fun _ => .inr hcurrent
      · exact Option.some.inj hs ▸ Keeps.rfl
  | .run r e =>
    obtain ⟨-, hs⟩ := Option.ite_none_right_eq_some.mp hs
    obtain ⟨runtime, -, rfl⟩ := Option.map_eq_some_iff.mp hs
    exact keeps_set rfl rfl fun h => .inl h
  | .wake w =>
    obtain ⟨-, hs⟩ := Option.ite_none_right_eq_some.mp hs
    exact Option.some.inj hs ▸ keeps_wake s w
  | .acquire f w =>
    obtain ⟨-, hs⟩ := Option.ite_none_right_eq_some.mp hs
    split at hs <;> exact Option.some.inj hs ▸ { Keeps.rfl (s := s) with }
  | .dropBuffer i =>
    obtain ⟨-, hs⟩ := Option.ite_none_right_eq_some.mp hs
    split at hs
    · exact Option.some.inj hs ▸ { keeps_wake { s with alloc := _, buffers := _ } _ with }
    · exact Option.some.inj hs ▸ { Keeps.rfl (s := s) with }

/-- Every step leaves each runtime whole while it is held, and drops its fields in their
order. -/
theorem WorldInv.step (h : WorldInv s) (hs : s.step cfg e = some s') : WorldInv s' := by
  by_cases he : e = .advance
  · subst he
    obtain ⟨-, hs⟩ := Option.ite_none_left_eq_some.mp hs
    dsimp only at hs
    split at hs
    · exact nomatch hs
    · next d below hdrops => exact Option.some.inj hs ▸ h.advance hdrops
  · exact h.keeps (userCode_of_step he hs) (keeps_step he hs)

/-- **A runtime that is held** is whole, so what its executor sends arrives. -/
theorem receiverAlive_of_held {queueSize : ℕ} (h : Reaches (World.step cfg) (.start queueSize) s)
    {r : ℕ} (hr : s.Held r) (q : Queue) : (s.cells r).receiverAlive q = true := by
  have hinv : WorldInv s := h.invariant (worldInv_start queueSize) fun _ _ _ hs _ => hs.step
  rw [hinv.alive, hinv.whole r (.inl hr)]
  rcases q <;> rfl

/-! ### The law -/

/-- **What a waker does**: it is the receiver that matters, and no other runtime is
touched. -/
theorem wake_spec (hs : s.panicked = none) (w : Waker) :
    ((s.wake w).panicked = none ↔
      (s.cells w.runtime).receiverAlive
        ((s.cells w.runtime).runtime.pool.address w.future).1 = true) ∧
      ∀ r, r ≠ w.runtime → (s.wake w).cells r = s.cells r := by
  rw [World.wake]
  split
  · next hc => exact ⟨iff_of_true hs hc, fun r hr => Function.update_of_ne hr ..⟩
  · next hc => exact ⟨iff_of_false nofun hc, fun _ _ => rfl⟩

/-- An event that invokes a waker invokes it on the cells as they are. -/
theorem step_invoked {w : Waker} (hw : s.invoked e = some w) (hs : s.step cfg e = some s') :
    ∃ t : World, t.cells = s.cells ∧ t.panicked = none ∧ s' = t.wake w := by
  obtain ⟨hcan, hs⟩ := Option.ite_none_left_eq_some.mp hs
  have hcalm : s.panicked = none := not_not.mp (not_or.mp hcan).1
  match e with
  | .wake w' =>
    obtain rfl := Option.some.inj hw
    obtain ⟨-, hs⟩ := Option.ite_none_right_eq_some.mp hs
    exact ⟨s, rfl, hcalm, (Option.some.inj hs).symm⟩
  | .dropBuffer i =>
    obtain ⟨-, hs⟩ := Option.ite_none_right_eq_some.mp hs
    split at hs
    · next w' alloc hdrop =>
      obtain rfl : w' = w := Option.some.inj ((congrArg Prod.fst hdrop).symm.trans hw)
      exact ⟨{ s with alloc := alloc, buffers := s.buffers.erase i }, rfl, hcalm,
        (Option.some.inj hs).symm⟩
    · next alloc hdrop => exact nomatch (congrArg Prod.fst hdrop).symm.trans hw

/-- **The law of wakers**: in every run, whatever is created, dropped and woken, each waker
that is invoked is safe if and only if none is invoked once the drop of its runtime has
come to the pool of tasks. -/
theorem waking_safe_iff (cfg : SchedulingConfig) (queueSize : ℕ) (es : List Event) :
    EachStep (World.step cfg) (World.WakesSafely cfg) (.start queueSize) es ↔
      EachStep (World.step cfg) World.Listens (.start queueSize) es := by
  refine eachStep_congr (fun s e s' (h : WorldInv s) hs => ?_) (fun _ _ _ h => h.step)
    (worldInv_start queueSize)
  have hiff : ∀ w, s.invoked e = some w →
      ((s'.panicked = none ∧ ∀ r, r ≠ w.runtime → s'.cells r = s.cells r) ↔
        .taskPool ∈ (s.cells w.runtime).fields) := by
    intro w hw
    obtain ⟨t, hcells, hcalm, rfl⟩ := step_invoked hw hs
    obtain ⟨hpanicked, hframe⟩ := wake_spec hcalm w
    have hcode : s.userCode = true := userCode_of_step (by rintro rfl; exact nomatch hw) hs
    rw [and_iff_left (fun r hr => (hframe r hr).trans (congrFun hcells r)), hpanicked, hcells,
      h.alive, decide_eq_true_iff]
    exact (h.settled_of_userCode hcode _).receiver_iff _
  constructor
  · intro hsafe w hw
    exact (hiff w hw).mp (hsafe w hw s' hs)
  · intro hlistens w hw t ht
    obtain rfl := Option.some.inj (hs.symm.trans ht)
    exact (hiff w hw).mpr (hlistens w hw)

/-- Two tasks are spawned and polled; one of them takes the only buffer, and the other one
waits for it. After `request_shutdown` the loop ends, the runtime is dropped, and with it the
first task. -/
def shutdown : List Event :=
  let exec := Event.run 0 (.move .exec)
  let pending := Event.run 0 (.move .pending)
  [.newRuntime, .run 0 (.spawn .task 0), .run 0 (.spawn .task 1), .run 0 .runQueue, exec, exec,
    exec, exec, .acquire 0 ⟨0, 0⟩, pending, exec, .acquire 1 ⟨0, 1⟩, .run 0 .requestShutdown,
    pending, exec, exec, exec] ++ .drop 0 :: List.replicate 7 .advance

/-- **A panic in a destructor**: the buffer of the task that is dropped wakes the one that
comes after it. -/
theorem not_waking_safe : ¬∀ (cfg : SchedulingConfig) (queueSize : ℕ) (es : List Event),
    EachStep (World.step cfg) (World.WakesSafely cfg) (.start queueSize) es := by
  intro hall
  have hrun : ((runList (World.step .default) (.start 1) shutdown).map fun s =>
      (s.invoked (.dropBuffer 0), (s.step .default (.dropBuffer 0)).map World.panicked)) =
        some (some ⟨0, 1⟩, some (some .failedToSend)) := by decide +kernel
  obtain ⟨s, hs, hlast⟩ := Option.map_eq_some_iff.mp hrun
  obtain ⟨hinvoked, hstep⟩ := Prod.mk.inj hlast
  obtain ⟨s', hs', hpanicked⟩ := Option.map_eq_some_iff.mp hstep
  have hsafe := (hall .default 1 (shutdown ++ [.dropBuffer 0])).last hs hs'
  exact nomatch hpanicked.symm.trans (hsafe _ hinvoked s' hs').1

end Teardown

end Pluvio
