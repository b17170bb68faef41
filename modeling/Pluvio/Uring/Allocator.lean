import Pluvio.Runs
import Mathlib.Data.List.Nodup
import Mathlib.Logic.Function.Basic
import Mathlib.Tactic.Common

/-!
# The fixed buffer pool, and those who wait for a buffer

A `LazyAcquire` that finds no free buffer leaves its waker in its own state and an
entry for that state in a queue; a buffer that comes back takes one entry off the
queue and wakes the waker it finds there. What can go wrong is all in the entries:
nothing ever takes one off the queue but a release, so the entry of a future that was
dropped, or that was polled twice and has its buffer, costs a release its wakeup.

`Pluvio.Uring.no_stranded_waiter` says with which conduct of the callers this never
happens: a future that waits is polled only after a release has taken its entry, and
dropped only then, and only if the buffers that are free are spoken for by others that
were called.
-/

namespace Pluvio

namespace Uring

variable {W : Type*}

/-! ### The allocator -/

/-- The allocator: the free buffers, the last one of the `Vec` first, and the queue of
the states of those who wait, with the waker that each state holds. -/
structure Allocator (W : Type*) where
  buffers : List ℕ
  acquireQueue : List ℕ
  /-- `LazyAcquireState::waker`. -/
  waker : ℕ → Option W

/-- `FixedBufferAllocator::new`: all buffers are free. -/
def Allocator.new (queueSize : ℕ) : Allocator W :=
  ⟨(List.range queueSize).reverse, [], fun _ => none⟩

/-- `FixedBufferAllocator::acquire_inner`. -/
def Allocator.acquireInner (a : Allocator W) : Option (ℕ × Allocator W) :=
  match a.buffers with
  | [] => none
  | i :: rest => some (i, { a with buffers := rest })

/-- `LazyAcquire::poll` of the future whose state is `f`. -/
def Allocator.pollAcquire (a : Allocator W) (f : ℕ) (w : W) : Option ℕ × Allocator W :=
  match a.acquireInner with
  | some (i, a') => (some i, a')
  | none => (none, { a with
      waker := Function.update a.waker f (some w)
      acquireQueue := a.acquireQueue ++ [f] })

/-- `Drop` of the `FixedBuffer` with index `i`, and the waker it wakes. -/
def Allocator.dropBuffer (a : Allocator W) (i : ℕ) : Option W × Allocator W :=
  match a.acquireQueue with
  | [] => (none, { a with buffers := i :: a.buffers })
  | f :: rest => (a.waker f, { a with
      buffers := i :: a.buffers
      acquireQueue := rest
      waker := Function.update a.waker f none })

/-! ### Runs -/

/-- A `LazyAcquire` that is alive: whether its last poll returned `Pending`, and then
with which waker, and whether that waker has been invoked since. -/
inductive LazyAcquire (W : Type*)
  | new
  | pending (waker : W) (woken : Bool)

/-- The waker `w` is invoked. -/
def LazyAcquire.wake [DecidableEq W] (w : W) : LazyAcquire W → LazyAcquire W
  | .new => .new
  | .pending w' woken => .pending w' (woken || w' = w)

/-- The pool, the futures and the buffers. -/
structure Pool (W : Type*) where
  alloc : Allocator W
  futures : ℕ → Option (LazyAcquire W)
  /-- The number of futures created. -/
  created : ℕ
  /-- The indices of the `FixedBuffer`s that are alive. -/
  handles : List ℕ

/-- A new pool, from which nothing has been acquired. -/
def Pool.start (queueSize : ℕ) : Pool W := ⟨.new queueSize, fun _ => none, 0, []⟩

/-- What happens to a pool. -/
inductive PoolEvent (W : Type*)
  /-- A call of `acquire`. -/
  | create
  /-- A poll of a future, with the waker of the task that polls. -/
  | poll (f : ℕ) (w : W)
  /-- A future of `acquire` is dropped. -/
  | drop (f : ℕ)
  | tryAcquire
  /-- A `FixedBuffer` is dropped. -/
  | release (i : ℕ)
  /-- Somebody else invokes a waker. -/
  | wake (w : W)

/-- A waker is invoked, and noted. -/
def Pool.wake [DecidableEq W] (s : Pool W) (w : W) : Pool W :=
  { s with futures := fun f => (s.futures f).map (·.wake w) }

/-- The pool after an event, which needs the future or the buffer it is about. -/
def Pool.step [DecidableEq W] (s : Pool W) : PoolEvent W → Option (Pool W)
  | .create => some { s with
      futures := Function.update s.futures s.created (some .new)
      created := s.created + 1 }
  | .poll f w =>
    if (s.futures f).isSome then
      match s.alloc.pollAcquire f w with
      | (some i, a) => some { s with
          alloc := a
          futures := Function.update s.futures f none
          handles := i :: s.handles }
      | (none, a) => some { s with
          alloc := a
          futures := Function.update s.futures f (some (.pending w false)) }
    else none
  | .drop f =>
    if (s.futures f).isSome then some { s with futures := Function.update s.futures f none }
    else none
  | .tryAcquire =>
    match s.alloc.acquireInner with
    | some (i, a) => some { s with alloc := a, handles := i :: s.handles }
    | none => some s
  | .release i =>
    if i ∈ s.handles then
      match s.alloc.dropBuffer i with
      | (some w, a) => some ({ s with alloc := a, handles := s.handles.erase i }.wake w)
      | (none, a) => some { s with alloc := a, handles := s.handles.erase i }
    else none
  | .wake w => some (s.wake w)

/-- Future `f` is alive and its last poll returned `Pending`. -/
def Pool.Waiting (s : Pool W) (f : ℕ) : Prop := ∃ w woken, s.futures f = some (.pending w woken)

/-- And its waker has been invoked since. -/
def Pool.Woken (s : Pool W) (f : ℕ) : Prop := ∃ w, s.futures f = some (.pending w true)

/-- **Nobody is stranded**: when a buffer is free and somebody waits, somebody who waits
has been woken. -/
def Pool.NotStranded (s : Pool W) : Prop :=
  s.alloc.buffers ≠ [] → (∃ f, s.Waiting f) → ∃ f, s.Woken f

variable {s s' : Pool W} {f i : ℕ} {w : W}

/-- Future `f` waits, and its entry has been taken off the queue: a release has called it. -/
def Pool.Called (s : Pool W) (f : ℕ) : Prop := s.Waiting f ∧ f ∉ s.alloc.acquireQueue

/-- The buffers that are free are not more than the futures that were called, but for `f`. -/
def Pool.SpokenFor (s : Pool W) (f : ℕ) : Prop :=
  ∃ l : List ℕ, l.Nodup ∧ (∀ g ∈ l, g ≠ f ∧ s.Called g) ∧ s.alloc.buffers.length ≤ l.length

/-- **What patient callers do**: a future that waits is polled only after it was called. It
is dropped only then, and only if nobody is in the queue or the buffers that are free are
spoken for by others. -/
def Pool.Patient (s : Pool W) : PoolEvent W → Prop
  | .poll f _ => s.Waiting f → s.Called f
  | .drop f => s.Waiting f → s.Called f ∧ (s.alloc.acquireQueue = [] ∨ s.SpokenFor f)
  | _ => True

/-- The futures after one is gone. -/
theorem update_none_eq_some {futures : ℕ → Option (LazyAcquire W)} {g : ℕ} {x : LazyAcquire W} :
    Function.update futures f none g = some x ↔ g ≠ f ∧ futures g = some x := by
  rw [Function.update_apply]
  split
  · next h => exact iff_of_false nofun fun hc => hc.1 h
  · next h => exact (and_iff_right h).symm

/-- Futures to be created are not there. -/
def Pool.Fresh (s : Pool W) : Prop := ∀ f, s.created ≤ f → s.futures f = none

/-- Another value for a future that is there. -/
theorem Pool.Fresh.update (h : s.Fresh) (hf : (s.futures f).isSome) (x : Option (LazyAcquire W))
    (g : ℕ) (hg : s.created ≤ g) : Function.update s.futures f x g = none := by
  have hne : g ≠ f := fun hc => by
    rw [← hc, h g hg] at hf
    cases hf
  rw [Function.update_of_ne hne, h g hg]

variable [DecidableEq W]

/-- A future that waits, after a waker was invoked. -/
theorem wake_eq_pending {w' : W} {woken' : Bool} :
    (s.wake w).futures f = some (.pending w' woken') ↔
      ∃ woken, s.futures f = some (.pending w' woken) ∧ woken' = (woken || w' = w) := by
  rw [Pool.wake, Option.map_eq_some_iff]
  constructor
  · rintro ⟨x, hx, hw⟩
    cases x with
    | new => cases hw
    | pending w'' woken =>
      obtain ⟨rfl, rfl⟩ := LazyAcquire.pending.inj hw
      exact ⟨woken, hx, rfl⟩
  · rintro ⟨woken, hx, rfl⟩
    exact ⟨_, hx, rfl⟩

/-- Those who wait after a waker was invoked. -/
theorem waiting_wake : (s.wake w).Waiting f ↔ s.Waiting f := by
  simp only [Pool.Waiting, wake_eq_pending]
  constructor
  · rintro ⟨w', -, woken, hx, -⟩
    exact ⟨w', woken, hx⟩
  · rintro ⟨w', woken, hx⟩
    exact ⟨w', _, woken, hx, rfl⟩

/-- A future served, or left waiting. -/
theorem step_poll : s.step (.poll f w) = some s' ↔ (s.futures f).isSome ∧
    ((∃ i rest, s.alloc.buffers = i :: rest ∧ s' = ⟨{ s.alloc with buffers := rest },
        Function.update s.futures f none, s.created, i :: s.handles⟩) ∨
      s.alloc.buffers = [] ∧ s' = ⟨{ s.alloc with
          waker := Function.update s.alloc.waker f (some w)
          acquireQueue := s.alloc.acquireQueue ++ [f] },
        Function.update s.futures f (some (.pending w false)), s.created, s.handles⟩) := by
  rcases hb : s.alloc.buffers with - | ⟨i, rest⟩
  · simp [Pool.step, Allocator.pollAcquire, Allocator.acquireInner, hb, eq_comm (a := s')]
  · simp [Pool.step, Allocator.pollAcquire, Allocator.acquireInner, hb, eq_comm (a := s')]

/-- **Futures are created in turn.** -/
theorem Pool.Fresh.step {e : PoolEvent W} (h : s.Fresh) (hs : s.step e = some s') : s'.Fresh := by
  cases e with
  | create =>
    cases hs
    intro f hf
    exact (Function.update_of_ne (Nat.ne_of_gt hf) ..).trans (h f (Nat.le_of_succ_le hf))
  | poll f w =>
    obtain ⟨hf, ⟨i, rest, -, rfl⟩ | ⟨-, rfl⟩⟩ := step_poll.mp hs
    · exact h.update hf _
    · exact h.update hf _
  | drop f =>
    obtain ⟨hf, hs⟩ := Option.ite_none_right_eq_some.mp hs
    cases hs
    exact h.update hf _
  | tryAcquire =>
    simp only [Pool.step] at hs
    split at hs <;> cases hs <;> exact h
  | release i =>
    obtain ⟨-, hs⟩ := Option.ite_none_right_eq_some.mp hs
    split at hs <;> cases hs
    · exact fun f hf => by simp [Pool.wake, h f hf]
    · exact h
  | wake w =>
    cases hs
    exact fun f hf => by simp [Pool.wake, h f hf]

/-- **What patience keeps.** The entries of the queue are those who wait and have not
been woken by a release, each with its waker, and while there is one, the free buffers
are not more than those a release has woken. -/
structure PatientInv (s : Pool W) : Prop where
  fresh : s.Fresh
  nodup : s.alloc.acquireQueue.Nodup
  entry : ∀ f ∈ s.alloc.acquireQueue,
    ∃ w woken, s.futures f = some (.pending w woken) ∧ s.alloc.waker f = some w
  queued : ∀ f w, s.futures f = some (.pending w false) → f ∈ s.alloc.acquireQueue
  served : s.alloc.acquireQueue ≠ [] → ∃ l : List ℕ, l.Nodup ∧ (∀ f ∈ l, s.Called f) ∧
    s.alloc.buffers.length ≤ l.length

omit [DecidableEq W] in
/-- **Those who wait outside the queue have been woken**, and there is one if a buffer is
free. -/
theorem PatientInv.notStranded (h : PatientInv s) : s.NotStranded := by
  have hwoken : ∀ f, s.Waiting f → f ∉ s.alloc.acquireQueue → s.Woken f := by
    rintro f ⟨w, _ | _, hf⟩ hq
    · exact absurd (h.queued f w hf) hq
    · exact ⟨w, hf⟩
  rintro hfree ⟨f, hf⟩
  by_cases hq : s.alloc.acquireQueue = []
  · exact ⟨f, hwoken f hf (by simp [hq])⟩
  · obtain ⟨l, -, hl, hlen⟩ := h.served hq
    have hpos := List.length_pos_iff.mpr hfree
    obtain ⟨g, hg⟩ := List.exists_mem_of_length_pos (Nat.lt_of_lt_of_le hpos hlen)
    exact ⟨g, hwoken g (hl g hg).1 (hl g hg).2⟩

omit [DecidableEq W] in
/-- A future that has an entry waits. -/
theorem PatientInv.waiting (h : PatientInv s) (hf : f ∈ s.alloc.acquireQueue) : s.Waiting f := by
  obtain ⟨w, woken, hf, -⟩ := h.entry f hf
  exact ⟨w, woken, hf⟩

omit [DecidableEq W] in
/-- **A future outside the queue goes**, when the buffers that are left are spoken for. -/
theorem PatientInv.remove (h : PatientInv s) {buffers hs : List ℕ}
    (hf : f ∉ s.alloc.acquireQueue) (hfresh : (s.futures f).isSome)
    (hserved : s.alloc.acquireQueue ≠ [] → ∃ l : List ℕ, l.Nodup ∧
      (∀ g ∈ l, g ≠ f ∧ s.Called g) ∧ buffers.length ≤ l.length) :
    PatientInv ⟨{ s.alloc with buffers := buffers }, Function.update s.futures f none,
      s.created, hs⟩ := by
  refine ⟨h.fresh.update hfresh none, h.nodup, fun g hg => ?_, fun g w hg => ?_, fun hq => ?_⟩
  · have hne : g ≠ f := fun hc => hf (hc ▸ hg)
    obtain ⟨w, woken, hfut, hw⟩ := h.entry g hg
    exact ⟨w, woken, update_none_eq_some.mpr ⟨hne, hfut⟩, hw⟩
  · exact h.queued g w (update_none_eq_some.mp hg).2
  · obtain ⟨l, hnodup, hl, hle⟩ := hserved hq
    refine ⟨l, hnodup, fun g hg => ?_, hle⟩
    obtain ⟨hne, ⟨w, woken, hfut⟩, hgq⟩ := hl g hg
    exact ⟨⟨w, woken, update_none_eq_some.mpr ⟨hne, hfut⟩⟩, hgq⟩

omit [DecidableEq W] in
/-- The others that were called, when one of them goes with a buffer. -/
theorem PatientInv.others (h : PatientInv s) {rest : List ℕ} (hb : s.alloc.buffers = i :: rest)
    (hq : s.alloc.acquireQueue ≠ []) (f : ℕ) :
    ∃ l : List ℕ, l.Nodup ∧ (∀ g ∈ l, g ≠ f ∧ s.Called g) ∧ rest.length ≤ l.length := by
  obtain ⟨l, hnodup, hl, hle⟩ := h.served hq
  rw [hb, List.length_cons] at hle
  refine ⟨l.erase f, hnodup.erase f, fun g hg => ?_, ?_⟩
  · obtain ⟨hne, hg⟩ := hnodup.mem_erase_iff.mp hg
    exact ⟨hne, hl g hg⟩
  · have hlen : l.length - 1 ≤ (l.erase f).length := by
      rw [List.length_erase]
      split <;> omega
    omega

/-- A future is created, which does not wait. -/
theorem PatientInv.create (h : PatientInv s) (hs : s.step .create = some s') :
    PatientInv s' := by
  have hfresh := h.fresh.step hs
  cases hs
  have hne : ∀ {f}, s.Waiting f → f ≠ s.created := by
    rintro f ⟨w, woken, hf⟩ rfl
    cases (h.fresh _ (Nat.le_refl _)).symm.trans hf
  refine ⟨hfresh, h.nodup, fun f hf => ?_, fun f w hf => ?_, fun hq => ?_⟩
  · obtain ⟨w, woken, hfut, hw⟩ := h.entry f hf
    exact ⟨w, woken, (Function.update_of_ne (hne ⟨w, woken, hfut⟩) ..).trans hfut, hw⟩
  · by_cases hc : f = s.created
    · subst hc
      cases (Function.update_self ..).symm.trans hf
    · exact h.queued f w ((Function.update_of_ne hc ..).symm.trans hf)
  · obtain ⟨l, hnodup, hl, hle⟩ := h.served hq
    refine ⟨l, hnodup, fun g hg => ?_, hle⟩
    obtain ⟨⟨w, woken, hfut⟩, hgq⟩ := hl g hg
    exact ⟨⟨w, woken, (Function.update_of_ne (hne ⟨w, woken, hfut⟩) ..).trans hfut⟩, hgq⟩

omit [DecidableEq W] in
/-- **A future that is not in the queue** is put at its end, if no buffer is free. -/
theorem PatientInv.queue (h : PatientInv s) (hf : (s.futures f).isSome)
    (hfq : f ∉ s.alloc.acquireQueue) (hb : s.alloc.buffers = []) :
    PatientInv ⟨{ s.alloc with
        waker := Function.update s.alloc.waker f (some w)
        acquireQueue := s.alloc.acquireQueue ++ [f] },
      Function.update s.futures f (some (.pending w false)), s.created, s.handles⟩ := by
  refine ⟨h.fresh.update hf _, ?_, fun g hg => ?_, fun g w' hg => ?_,
    fun _ => ⟨[], List.nodup_nil, nofun, ?_⟩⟩
  · exact List.nodup_append.mpr ⟨h.nodup, List.nodup_singleton f, fun a ha b hb hc =>
      hfq (List.mem_singleton.mp hb ▸ hc ▸ ha)⟩
  · rcases List.mem_append.mp hg with hg | hg
    · have hne : g ≠ f := fun hc => hfq (hc ▸ hg)
      obtain ⟨w', woken, hfut, hw⟩ := h.entry g hg
      exact ⟨w', woken, (Function.update_of_ne hne ..).trans hfut,
        (Function.update_of_ne hne ..).trans hw⟩
    · obtain rfl := List.mem_singleton.mp hg
      exact ⟨w, false, Function.update_self .., Function.update_self ..⟩
  · by_cases hne : g = f
    · subst hne
      exact List.mem_append_right _ (List.mem_singleton_self g)
    · exact List.mem_append_left _
        (h.queued g w' ((Function.update_of_ne hne ..).symm.trans hg))
  · simp [hb]

/-- **A buffer comes back**: the one at the front is woken, and is one more that a
release has woken. -/
theorem PatientInv.release (h : PatientInv s) (hs : s.step (.release i) = some s') :
    PatientInv s' := by
  have hfresh := h.fresh.step hs
  obtain ⟨-, hs⟩ := Option.ite_none_right_eq_some.mp hs
  unfold Allocator.dropBuffer at hs
  rcases hq : s.alloc.acquireQueue with - | ⟨g, rest⟩
  · rw [hq] at hs
    cases hs
    refine ⟨hfresh, List.nodup_nil, nofun, fun f w hf => ?_, fun hne => absurd rfl hne⟩
    -- nobody waits, as nobody is in the queue
    have hmem := h.queued f w hf
    rw [hq] at hmem
    cases hmem
  · have hg : g ∈ s.alloc.acquireQueue := hq ▸ List.mem_cons_self
    obtain ⟨w, woken, hfut, hw⟩ := h.entry g hg
    have hnodup := h.nodup
    rw [hq] at hs hnodup
    simp only [hw] at hs
    obtain ⟨hgrest, hrest⟩ := List.nodup_cons.mp hnodup
    cases hs
    refine ⟨hfresh, hrest, fun f hf => ?_, fun f w' hf => ?_, fun hne => ?_⟩
    · -- the others stay in the queue with their wakers
      have hne : f ≠ g := fun hc => hgrest (hc ▸ hf)
      obtain ⟨w', woken', hfut', hw'⟩ := h.entry f (hq ▸ List.mem_cons_of_mem _ hf)
      exact ⟨w', _, wake_eq_pending.mpr ⟨woken', hfut', rfl⟩,
        (Function.update_of_ne hne ..).trans hw'⟩
    · obtain ⟨woken', hfut', hfalse⟩ := wake_eq_pending.mp hf
      obtain ⟨hwoken, hne⟩ := Bool.or_eq_false_iff.mp hfalse.symm
      subst hwoken
      have hmem := h.queued f w' hfut'
      rw [hq] at hmem
      rcases List.mem_cons.mp hmem with rfl | hmem
      · cases hfut.symm.trans hfut'
        exact absurd rfl (of_decide_eq_false hne)
      · exact hmem
    · -- the one that is woken now is one more for the buffer that is one more
      obtain ⟨l, hl, hmem, hle⟩ := h.served (by simp [hq])
      refine ⟨g :: l, List.nodup_cons.mpr ⟨fun hc => (hmem g hc).2 hg, hl⟩, fun f hf => ?_, ?_⟩
      · rcases List.mem_cons.mp hf with rfl | hf
        · exact ⟨waiting_wake.mpr ⟨w, woken, hfut⟩, hgrest⟩
        · obtain ⟨hwait, hnot⟩ := hmem f hf
          exact ⟨waiting_wake.mpr hwait, fun hc => hnot (hq ▸ List.mem_cons_of_mem _ hc)⟩
      · exact Nat.succ_le_succ hle

/-- Somebody else invokes a waker. -/
theorem PatientInv.wake (h : PatientInv s) (w : W) : PatientInv (s.wake w) := by
  have hfresh : (s.wake w).Fresh := fun f hf => by simp [Pool.wake, h.fresh f hf]
  refine ⟨hfresh, h.nodup, fun f hf => ?_, fun f w' hf => ?_, fun hq => ?_⟩
  · obtain ⟨w', woken, hfut, hw⟩ := h.entry f hf
    exact ⟨w', _, wake_eq_pending.mpr ⟨woken, hfut, rfl⟩, hw⟩
  · obtain ⟨woken, hfut, hfalse⟩ := wake_eq_pending.mp hf
    obtain ⟨rfl, -⟩ := Bool.or_eq_false_iff.mp hfalse.symm
    exact h.queued f w' hfut
  · obtain ⟨l, hnodup, hl, hle⟩ := h.served hq
    exact ⟨l, hnodup, fun f hf => ⟨waiting_wake.mpr (hl f hf).1, (hl f hf).2⟩, hle⟩

theorem PatientInv.step {e : PoolEvent W} (h : PatientInv s) (hp : s.Patient e)
    (hs : s.step e = some s') : PatientInv s' := by
  cases e with
  | create => exact h.create hs
  | poll f w =>
    have hfq : f ∉ s.alloc.acquireQueue := fun hf => (hp (h.waiting hf)).2 hf
    obtain ⟨hf, ⟨i, rest, hb, rfl⟩ | ⟨hb, rfl⟩⟩ := step_poll.mp hs
    · exact h.remove hfq hf fun hq => h.others hb hq f
    · exact h.queue hf hfq hb
  | drop f =>
    obtain ⟨hf, hs⟩ := Option.ite_none_right_eq_some.mp hs
    cases hs
    refine h.remove (fun hq => (hp (h.waiting hq)).1.2 hq) hf fun hq => ?_
    by_cases hw : s.Waiting f
    · exact (hp hw).2.resolve_left hq
    · obtain ⟨l, hnodup, hl, hle⟩ := h.served hq
      exact ⟨l, hnodup, fun g hg => ⟨fun hc => hw (hc ▸ (hl g hg).1), hl g hg⟩, hle⟩
  | tryAcquire =>
    have hfresh := h.fresh.step hs
    simp only [Pool.step, Allocator.acquireInner] at hs
    rcases hb : s.alloc.buffers with - | ⟨i, rest⟩ <;> rw [hb] at hs <;> cases hs
    · exact h
    · refine ⟨hfresh, h.nodup, h.entry, h.queued, fun hq => ?_⟩
      obtain ⟨l, hnodup, hl, hle⟩ := h.served hq
      rw [hb, List.length_cons] at hle
      exact ⟨l, hnodup, hl, Nat.le_of_succ_le hle⟩
  | release i => exact h.release hs
  | wake w =>
    cases hs
    exact h.wake w

omit [DecidableEq W] in
/-- A new pool: nobody waits. -/
theorem patientInv_start (queueSize : ℕ) : PatientInv (.start queueSize : Pool W) where
  fresh := fun _ _ => rfl
  nodup := List.nodup_nil
  entry := fun _ hf => absurd hf List.not_mem_nil
  queued := fun _ _ hf => by cases hf
  served := fun hq => absurd rfl hq

/-- **Patience strands nobody**: in a run of a pool of any size in which a future that waits
is polled only after a release has taken its entry off the queue, and dropped only then and
only if nobody is in the queue or the buffers that are free are spoken for by others, nobody
is stranded in any state. -/
theorem no_stranded_waiter (queueSize : ℕ) (es : List (PoolEvent W))
    (hpatient : EachStep Pool.step Pool.Patient (.start queueSize) es) :
    Always Pool.step Pool.NotStranded (.start queueSize) es :=
  always_of_invariant (fun _ h => PatientInv.notStranded h) (fun _ _ _ h hp hs => h.step hp hs)
    (patientInv_start queueSize) hpatient

/-- Two futures wait for the only buffer, and each is polled again when it has been called;
a third one gives up when it has been called. -/
def inTurn : List (PoolEvent ℕ) :=
  [.tryAcquire, .create, .poll 0 0, .create, .poll 1 1, .release 0, .poll 0 0, .release 0,
    .poll 1 1, .create, .poll 2 2, .release 0, .drop 2]

/-- Polls of futures that are not in the queue, and drops when it is empty. -/
def Pool.clear (s : Pool W) : PoolEvent W → Bool
  | .poll f _ => f ∉ s.alloc.acquireQueue
  | .drop _ => s.alloc.acquireQueue = []
  | _ => true

omit [DecidableEq W] in
theorem patient_of_clear {e : PoolEvent W} (h : s.clear e = true) : s.Patient e := by
  cases e with
  | poll f w => exact fun hw => ⟨hw, of_decide_eq_true h⟩
  | drop f =>
    have hq : s.alloc.acquireQueue = [] := of_decide_eq_true h
    exact fun hw => ⟨⟨hw, by simp [hq]⟩, .inl hq⟩
  | create | tryAcquire | release i | wake w => trivial

theorem no_stranded_waiter_inTurn : Always Pool.step Pool.NotStranded (.start 1) inTurn :=
  no_stranded_waiter 1 inTurn ((show EachStep Pool.step (fun s e => s.clear e = true) (.start 1)
    inTurn by decide).mono fun _ _ h => patient_of_clear h)

/-- **A waiter stranded**: of two futures that wait for the only buffer the first is
dropped, and the buffer that comes back spends its wakeup on it. -/
theorem stranded_after_drop : ∃ s, runList Pool.step (Pool.start 1)
    [.tryAcquire, .create, .poll 0 0, .create, .poll 1 1, .drop 0, .release 0] = some s ∧
      ¬Pool.NotStranded (W := ℕ) s := by
  refine ⟨_, rfl, fun h => ?_⟩
  obtain ⟨f, w, hf⟩ := h (List.cons_ne_nil _ _) ⟨1, 1, false, rfl⟩
  rcases f with - | - | f
  · cases hf
  · cases hf
  · cases hf

end Uring

end Pluvio
