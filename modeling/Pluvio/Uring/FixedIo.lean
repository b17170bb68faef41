import Pluvio.Uring.Allocator
import Pluvio.Uring.Reactor
import Mathlib.Data.List.Perm.Basic

/-!
# Who owns a fixed buffer

A `read_fixed` or `write_fixed` moves its buffer into its own frame, pushes an SQE that
names it and awaits the completion. The kernel may access the buffer from then until the
CQE, and nothing but the frame keeps the buffer away from the pool: neither the entry in
the map of completions nor the handle holds it. A frame that is left by a CQE, good or
bad, leaves in time; a frame that is dropped at its await point does not.

`Pluvio.Uring.buffer_ownership_law` says that this is the only way for a buffer to be
reused under the kernel.
-/

namespace Pluvio

namespace Uring

variable {W : Type*}

/-- The future of a `read_fixed` or `write_fixed`, with the buffer in its frame and, once
it has been polled, the handle it awaits. -/
structure FixedOp where
  index : ℕ
  handle : Option ℕ
  deriving DecidableEq

/-- The pool, the buffers that are alive, the operations and the reactor. -/
structure FixedIo (W : Type*) where
  alloc : Allocator W
  /-- The indices of the `FixedBuffer`s that are not in the frame of an operation. -/
  handles : List ℕ
  ops : List FixedOp
  reactor : Reactor W
  /-- The buffer that an SQE names. -/
  named : ℕ → Option ℕ

/-- A new reactor, with its pool. -/
def FixedIo.start (queueSize entries : ℕ) (offload : Bool) : FixedIo W :=
  ⟨.new queueSize, [], [], .start entries offload, fun _ => none⟩

/-- What happens on the thread of the reactor, and in the kernel. -/
inductive FixedEvent (W : Type*)
  /-- A poll of an `acquire` future. -/
  | pollAcquire (f : ℕ) (w : W)
  | tryAcquire
  /-- A `FixedBuffer` is dropped. -/
  | release (i : ℕ)
  /-- `read_fixed` or `write_fixed` is called with a buffer. -/
  | call (i : ℕ)
  | poll (op : FixedOp) (w : W)
  | drop (op : FixedOp)
  /-- Anything else on the reactor: other operations, its polls, and the kernel. -/
  | reactor (e : ReactorEvent W)

/-- `Drop` of a buffer. Whoever is woken is another matter. -/
def FixedIo.dropBuffer (s : FixedIo W) (i : ℕ) : FixedIo W :=
  { s with alloc := (s.alloc.dropBuffer i).2 }

/-- The handle of an operation is dropped. -/
def Reactor.dropHandle (r : Reactor W) (u : ℕ) : Reactor W := { r with alive := r.alive.erase u }

/-- The first poll of an operation. -/
def FixedIo.firstPoll (s : FixedIo W) (op : FixedOp) (w : W) : FixedIo W :=
  let u := s.reactor.userDataCounter
  let pushed := s.reactor.pushSqe
  if pushed.panicked.isSome then
    -- the panic drops the frame
    { s with reactor := pushed, ops := s.ops.erase op }.dropBuffer op.index
  else { s with
    reactor := (pushed.pollHandle u w).2
    ops := ⟨op.index, some u⟩ :: s.ops.erase op
    named := Function.update s.named u (some op.index) }

/-- A later poll, with the handle `u`. -/
def FixedIo.nextPoll (s : FixedIo W) (op : FixedOp) (u : ℕ) (w : W) : FixedIo W :=
  match s.reactor.pollHandle u w with
  | (none, r) => { s with reactor := r }
  | (some (.ok _), r) =>
    { s with
      reactor := r.dropHandle u
      ops := s.ops.erase op
      handles := op.index :: s.handles }
  | (some (.osError _), r) =>
    { s with reactor := r.dropHandle u, ops := s.ops.erase op }.dropBuffer op.index

/-- An operation is dropped, with its handle and its buffer. -/
def FixedIo.dropOp (s : FixedIo W) (op : FixedOp) : FixedIo W :=
  { s with
    reactor := op.handle.elim s.reactor s.reactor.dropHandle
    ops := s.ops.erase op }.dropBuffer op.index

/-- The event is not about the handle of a fixed operation: those are in its frame. -/
def ReactorEvent.Foreign (e : ReactorEvent W) (named : ℕ → Option ℕ) : Prop :=
  match e with
  | .poll u _ => named u = none
  | .drop u => named u = none
  | _ => True

instance (e : ReactorEvent W) (named : ℕ → Option ℕ) : Decidable (e.Foreign named) := by
  unfold ReactorEvent.Foreign
  split <;> infer_instance

/-- The reactor and the allocator after an event, if it can happen. -/
def FixedIo.step (s : FixedIo W) : FixedEvent W → Option (FixedIo W)
  | .reactor e =>
    if e.Foreign s.named then (s.reactor.step e).map fun r => { s with reactor := r } else none
  | .pollAcquire f w =>
    if s.reactor.panicked.isSome ∨ s.reactor.polling then none
    else match s.alloc.pollAcquire f w with
      | (some i, a) => some { s with alloc := a, handles := i :: s.handles }
      | (none, a) => some { s with alloc := a }
  | .tryAcquire =>
    if s.reactor.panicked.isSome ∨ s.reactor.polling then none
    else match s.alloc.acquireInner with
      | some (i, a) => some { s with alloc := a, handles := i :: s.handles }
      | none => some s
  | .release i =>
    if s.reactor.panicked.isSome ∨ s.reactor.polling ∨ i ∉ s.handles then none
    else some ({ s with handles := s.handles.erase i }.dropBuffer i)
  | .call i =>
    if s.reactor.panicked.isSome ∨ s.reactor.polling ∨ i ∉ s.handles then none
    else some { s with handles := s.handles.erase i, ops := ⟨i, none⟩ :: s.ops }
  | .poll op w =>
    if s.reactor.panicked.isSome ∨ s.reactor.polling ∨ op ∉ s.ops then none
    else some (op.handle.elim (s.firstPoll op w) fun u => s.nextPoll op u w)
  | .drop op =>
    if s.reactor.panicked.isSome ∨ s.reactor.polling ∨ op ∉ s.ops then none
    else some (s.dropOp op)

/-- **Ownership**: every buffer is owned once, by the free list, a `FixedBuffer` or an
operation; and one that the kernel may access, because an SQE that names it is in the ring
and has no CQE, is owned by the operation that awaits that completion. -/
structure FixedIo.Owned (queueSize : ℕ) (s : FixedIo W) : Prop where
  once : (s.alloc.buffers ++ s.handles ++ s.ops.map FixedOp.index).Perm (List.range queueSize)
  exclusive : ∀ u i, s.reactor.InRing u → s.named u = some i →
    i ∉ s.alloc.buffers ∧ i ∉ s.handles ∧ ∀ op ∈ s.ops, op.index = i → op.handle = some u

/-! ### The invariant -/

variable {queueSize : ℕ} {s s' : FixedIo W} {op : FixedOp} {u i : ℕ} {w : W}

/-- **The invariant**: what an SQE in the ring names is in the frame of the operation that
awaits it. -/
structure FixedInv (queueSize : ℕ) (s : FixedIo W) : Prop where
  once : (s.alloc.buffers ++ s.handles ++ s.ops.map FixedOp.index).Perm (List.range queueSize)
  framed : ∀ u i, s.reactor.InRing u → s.named u = some i → ⟨i, some u⟩ ∈ s.ops
  named : ∀ op ∈ s.ops, ∀ u, op.handle = some u → s.named u = some op.index
  lt : ∀ u i, s.named u = some i → u < s.reactor.userDataCounter
  reap : s.reactor.panicked = none → ReapInv s.reactor s.reactor.completion

theorem FixedInv.nodup (h : FixedInv queueSize s) :
    (s.alloc.buffers ++ s.handles ++ s.ops.map FixedOp.index).Nodup :=
  h.once.nodup_iff.mpr List.nodup_range

/-- An operation is known by its buffer. -/
theorem FixedInv.eq_of_index_eq (h : FixedInv queueSize s) {op' : FixedOp} (hop : op ∈ s.ops)
    (hop' : op' ∈ s.ops) (hi : op.index = op'.index) : op = op' :=
  List.inj_on_of_nodup_map (List.nodup_append.mp h.nodup).2.1 hop hop' hi

theorem FixedInv.owned (h : FixedInv queueSize s) : s.Owned queueSize := by
  refine ⟨h.once, fun u i hu hi => ?_⟩
  have hop := h.framed u i hu hi
  obtain ⟨-, -, hdisj⟩ := List.nodup_append.mp h.nodup
  have hmem : i ∈ s.ops.map FixedOp.index := List.mem_map.mpr ⟨_, hop, rfl⟩
  refine ⟨fun hc => ?_, fun hc => ?_, fun op' hop' hi' => ?_⟩
  · exact hdisj i (List.mem_append_left _ hc) i hmem rfl
  · exact hdisj i (List.mem_append_right _ hc) i hmem rfl
  · rw [h.eq_of_index_eq hop' hop hi']

/-- The operations that are left when one goes. -/
theorem FixedInv.mem_erase (h : FixedInv queueSize s) {op' : FixedOp} :
    op' ∈ s.ops.erase op ↔ op' ≠ op ∧ op' ∈ s.ops :=
  (List.Nodup.of_map _ (List.nodup_append.mp h.nodup).2.1).mem_erase_iff

/-- Buffers change hands, outside the frames. -/
theorem FixedInv.move (h : FixedInv queueSize s) {alloc : Allocator W} {handles : List ℕ}
    (hperm : (alloc.buffers ++ handles).Perm (s.alloc.buffers ++ s.handles)) :
    FixedInv queueSize { s with alloc, handles } :=
  ⟨(hperm.append_right _).trans h.once, h.framed, h.named, h.lt, h.reap⟩

theorem buffers_dropBuffer (a : Allocator W) (i : ℕ) :
    (a.dropBuffer i).2.buffers = i :: a.buffers := by
  unfold Allocator.dropBuffer
  split <;> rfl

/-- **An operation goes**, and its buffer to the pool or to a handle, when no SQE that
names it is in the ring. -/
theorem FixedInv.leave (h : FixedInv queueSize s) (hop : op ∈ s.ops) {alloc : Allocator W}
    {handles : List ℕ} {reactor : Reactor W}
    (hperm : (alloc.buffers ++ handles).Perm (op.index :: (s.alloc.buffers ++ s.handles)))
    (hring : ∀ v, reactor.InRing v → s.named v ≠ none → s.reactor.InRing v ∧ op.handle ≠ some v)
    (hcounter : s.reactor.userDataCounter ≤ reactor.userDataCounter)
    (hreap : reactor.panicked = none → ReapInv reactor reactor.completion) :
    FixedInv queueSize { s with alloc, handles, reactor, ops := s.ops.erase op } := by
  refine ⟨?_, fun v j hv hj => ?_, fun op' hop' v hv => ?_, fun v j hj => ?_, hreap⟩
  · refine List.Perm.trans ?_ h.once
    have hops : (s.ops.map FixedOp.index).Perm
        (op.index :: (s.ops.erase op).map FixedOp.index) := (List.perm_cons_erase hop).map _
    refine (hperm.append_right _).trans ?_
    rw [List.cons_append]
    exact List.perm_middle.symm.trans ((hops.append_left _).symm)
  · obtain ⟨hring', hne⟩ := hring v hv (by rw [hj]; nofun)
    refine h.mem_erase.mpr ⟨fun hc => hne ?_, h.framed v j hring' hj⟩
    rw [← hc]
  · exact h.named op' (h.mem_erase.mp hop').2 v hv
  · exact Nat.lt_of_lt_of_le (h.lt v j hj) hcounter

/-- **An event of the reactor** that is not about a fixed operation. -/
theorem FixedInv.reactor {e : ReactorEvent W} {r : Reactor W} (h : FixedInv queueSize s)
    (hs : s.reactor.step e = some r) : FixedInv queueSize { s with reactor := r } := by
  obtain ⟨hle, hring⟩ := Reactor.step_inRing hs
  refine ⟨h.once, fun v j hv hj => ?_, h.named, fun v j hj => Nat.lt_of_lt_of_le (h.lt v j hj) hle,
    fun hcalm => ?_⟩
  · rcases hring v hv with hv | rfl
    · exact h.framed v j hv hj
    · exact absurd (h.lt _ j hj) (Nat.lt_irrefl _)
  · have hold := Reactor.panicked_of_step hs
    -- a CQE of a handle that was not polled would have panicked
    have hok : s.reactor.AllPolled e := by
      by_contra hc
      rw [(h.reap hold).step_panicked hc hs] at hcalm
      cases hcalm
    rcases (h.reap hold).step hok hs with hinv | ⟨-, hfull⟩
    · exact hinv
    · rw [hfull] at hcalm
      cases hcalm

/-- **The first poll** pushes the SQE, or panics and drops the frame. -/
theorem FixedInv.firstPoll (h : FixedInv queueSize s) (hop : op ∈ s.ops)
    (hhandle : op.handle = none) (hcalm : s.reactor.panicked = none) :
    FixedInv queueSize (s.firstPoll op w) := by
  have hreap := h.reap hcalm
  unfold FixedIo.firstPoll
  dsimp only
  split
  · next hpanic =>
    refine h.leave hop ?_ (fun v hv hne => ⟨?_, by rw [hhandle]; nofun⟩)
      (by rw [userDataCounter_pushSqe]; exact Nat.le_succ _) fun hc => ?_
    · rw [buffers_dropBuffer]
      exact List.Perm.refl _
    · rcases inRing_pushSqe hv with hv | rfl
      · exact hv
      · obtain ⟨j, hj⟩ := Option.ne_none_iff_exists'.mp hne
        exact absurd (h.lt _ j hj) (Nat.lt_irrefl _)
    · rw [hc] at hpanic
      cases hpanic
  · next hpush =>
    have hpush' := hreap.pushSqe_or.2 (Bool.eq_false_iff.mpr hpush)
    have hnew : ∀ {v j}, s.named v = some j → v ≠ s.reactor.userDataCounter :=
      fun hj hc => Nat.lt_irrefl _ (hc ▸ h.lt _ _ hj)
    refine ⟨?_, fun v j hv hj => ?_, fun op' hop' v hv => ?_, fun v j hj => ?_, fun _ => ?_⟩
    · have hops : (s.ops.map FixedOp.index).Perm
          (op.index :: (s.ops.erase op).map FixedOp.index) := (List.perm_cons_erase hop).map _
      exact (hops.symm.append_left _).trans h.once
    · by_cases hvu : v = s.reactor.userDataCounter
      · subst hvu
        cases (Function.update_self ..).symm.trans hj
        exact List.mem_cons_self
      · have hj : s.named v = some j := (Function.update_of_ne hvu ..).symm.trans hj
        refine List.mem_cons_of_mem _ (h.mem_erase.mpr ⟨fun hc => ?_, ?_⟩)
        · rw [← hc] at hhandle
          cases hhandle
        · exact h.framed v j ((inRing_pushSqe (inRing_pollHandle.mp hv)).resolve_right hvu) hj
    · rcases List.mem_cons.mp hop' with rfl | hop'
      · cases hv
        exact Function.update_self ..
      · have hj := h.named op' (h.mem_erase.mp hop').2 v hv
        exact (Function.update_of_ne (hnew hj) ..).trans hj
    · rw [userDataCounter_pollHandle, userDataCounter_pushSqe]
      by_cases hvu : v = s.reactor.userDataCounter
      · exact Nat.lt_succ_of_le hvu.le
      · exact Nat.lt_succ_of_lt (h.lt v j ((Function.update_of_ne hvu ..).symm.trans hj))
    · rw [completion_pollHandle, completion_pushSqe]
      exact hpush'.pollHandle (by rw [userDataCounter_pushSqe]; exact Nat.lt_succ_self _)

/-- A handle that is dropped leaves the rest. -/
theorem ReapInv.dropHandle {r : Reactor W} {l : List (ℕ × ℤ)} (h : ReapInv r l) (u : ℕ) :
    ReapInv (r.dropHandle u) l :=
  { h with alive := fun v hv => h.alive v (Finset.mem_of_mem_erase hv) }

/-- **A later poll** finds no result, or an SQE that has its CQE. -/
theorem FixedInv.nextPoll (h : FixedInv queueSize s) (hop : op ∈ s.ops)
    (hhandle : op.handle = some u) (hcalm : s.reactor.panicked = none) :
    FixedInv queueSize (s.nextPoll op u w) := by
  have hreap := h.reap hcalm
  have hlt := h.lt u _ (h.named op hop u hhandle)
  have hpoll := hreap.pollHandle (w := w) hlt
  have hcompletion := completion_pollHandle (s := s.reactor) (u := u) (w := w)
  have hcounter := userDataCounter_pollHandle (s := s.reactor) (u := u) (w := w)
  have hring : ∀ v, (s.reactor.pollHandle u w).2.InRing v ↔ s.reactor.InRing v :=
    fun v => inRing_pollHandle
  -- when there is a result the SQE has left the ring
  have hgone : ∀ res r, s.reactor.pollHandle u w = (some res, r) → ¬s.reactor.InRing u := by
    intro res r hr
    rcases hres : (s.reactor.handle u).result with - | res'
    · simp [Reactor.pollHandle, hres] at hr
    · exact hreap.not_inRing hres
  unfold FixedIo.nextPoll
  rcases hr : s.reactor.pollHandle u w with ⟨- | (n | code), r⟩ <;>
    rw [hr] at hpoll hcompletion hcounter hring <;> dsimp only at hpoll hcompletion hcounter hring ⊢
  · exact ⟨h.once, fun v j hv => h.framed v j ((hring v).mp hv), h.named,
      fun v j hj => hcounter.symm ▸ h.lt v j hj, fun _ => hcompletion.symm ▸ hpoll⟩
  · refine h.leave hop (List.perm_middle) (fun v hv _ => ⟨(hring v).mp hv, fun hc => ?_⟩)
      hcounter.ge fun _ => ?_
    · cases hhandle.symm.trans hc
      exact hgone _ r hr ((hring u).mp hv)
    · exact (hcompletion.symm ▸ hpoll).dropHandle u
  · refine h.leave hop ?_ (fun v hv _ => ⟨(hring v).mp hv, fun hc => ?_⟩)
      hcounter.ge fun _ => ?_
    · rw [buffers_dropBuffer]
      exact List.Perm.refl _
    · cases hhandle.symm.trans hc
      exact hgone _ r hr ((hring u).mp hv)
    · exact (hcompletion.symm ▸ hpoll).dropHandle u

/-- **An operation is dropped**, when its SQE has a CQE. -/
theorem FixedInv.dropOp (h : FixedInv queueSize s) (hop : op ∈ s.ops)
    (hdone : ∀ u, op.handle = some u → ¬s.reactor.InRing u) (hcalm : s.reactor.panicked = none) :
    FixedInv queueSize (s.dropOp op) := by
  have hreap := h.reap hcalm
  refine h.leave hop ?_ (fun v hv _ => ?_) ?_ fun _ => ?_
  · rw [buffers_dropBuffer]
    exact List.Perm.refl _
  · have hring : s.reactor.InRing v := by
      rcases hhandle : op.handle with - | u <;> rw [hhandle] at hv <;> exact hv
    exact ⟨hring, fun hc => hdone v hc hring⟩
  · rcases op.handle with - | u <;> exact Nat.le_refl _
  · rcases op.handle with - | u
    · exact hreap
    · exact hreap.dropHandle u

/-! ### The law -/

/-- **The steps that keep the kernel out**: no operation is dropped between the push of its
SQE and the CQE. -/
def FixedIo.Settled (s : FixedIo W) : FixedEvent W → Prop
  | .drop op => ∀ u, op.handle = some u → ¬s.reactor.InRing u
  | _ => True

/-- What may be used is used on the thread, outside the reactor. -/
theorem calm_of_guard {r : Reactor W} {P : Prop} (h : ¬(r.panicked.isSome ∨ r.polling ∨ ¬P)) :
    r.panicked = none ∧ P := by
  obtain ⟨hcalm, h⟩ := not_or.mp h
  exact ⟨Option.not_isSome_iff_eq_none.mp hcalm, not_not.mp (not_or.mp h).2⟩

/-- Every event leaves each buffer with one owner, and those that the ring names with their
operations. -/
theorem FixedInv.step {e : FixedEvent W} (h : FixedInv queueSize s) (hok : s.Settled e)
    (hs : s.step e = some s') : FixedInv queueSize s' := by
  cases e with
  | reactor e =>
    obtain ⟨-, hs⟩ := Option.ite_none_right_eq_some.mp hs
    obtain ⟨r, hr, rfl⟩ := Option.map_eq_some_iff.mp hs
    exact h.reactor hr
  | pollAcquire f w =>
    obtain ⟨-, hs⟩ := Option.ite_none_left_eq_some.mp hs
    unfold Allocator.pollAcquire Allocator.acquireInner at hs
    rcases hb : s.alloc.buffers with - | ⟨i, rest⟩ <;> rw [hb] at hs <;> cases hs
    · exact h.move (by simp [hb])
    · -- the buffer goes from the pool to whoever has asked
      exact h.move (by rw [hb]; exact List.perm_middle)
  | tryAcquire =>
    obtain ⟨-, hs⟩ := Option.ite_none_left_eq_some.mp hs
    unfold Allocator.acquireInner at hs
    rcases hb : s.alloc.buffers with - | ⟨i, rest⟩ <;> rw [hb] at hs <;> cases hs
    · exact h
    · exact h.move (by rw [hb]; exact List.perm_middle)
  | release i =>
    obtain ⟨hguard, hs⟩ := Option.ite_none_left_eq_some.mp hs
    cases hs
    have hmem := (calm_of_guard hguard).2
    refine h.move ?_
    rw [buffers_dropBuffer]
    exact List.perm_middle.symm.trans ((List.perm_cons_erase hmem).symm.append_left _)
  | call i =>
    obtain ⟨hguard, hs⟩ := Option.ite_none_left_eq_some.mp hs
    cases hs
    have hmem := (calm_of_guard hguard).2
    -- the buffer goes with the call, which has no handle yet
    refine ⟨?_, fun v j hv hj => List.mem_cons_of_mem _ (h.framed v j hv hj),
      fun op hop v hv => ?_, h.lt, h.reap⟩
    · refine List.Perm.trans ?_ h.once
      refine List.perm_middle.trans ?_
      rw [← List.cons_append]
      exact (List.perm_middle.symm.trans
        ((List.perm_cons_erase hmem).symm.append_left _)).append_right _
    · rcases List.mem_cons.mp hop with rfl | hop
      · cases hv
      · exact h.named op hop v hv
  | poll op w =>
    obtain ⟨hguard, hs⟩ := Option.ite_none_left_eq_some.mp hs
    cases hs
    obtain ⟨hcalm, hop⟩ := calm_of_guard hguard
    rcases hhandle : op.handle with - | u
    · exact h.firstPoll hop hhandle hcalm
    · exact h.nextPoll hop hhandle hcalm
  | drop op =>
    obtain ⟨hguard, hs⟩ := Option.ite_none_left_eq_some.mp hs
    cases hs
    obtain ⟨hcalm, hop⟩ := calm_of_guard hguard
    exact h.dropOp hop hok hcalm

/-- **An operation dropped too early** leaves its buffer in the pool, and the SQE in the
ring. -/
theorem not_owned_of_not_settled {e : FixedEvent W} (h : FixedInv queueSize s)
    (hbad : ¬s.Settled e) (hs : s.step e = some s') : ¬s'.Owned queueSize := by
  cases e with
  | drop op =>
    obtain ⟨hguard, hs⟩ := Option.ite_none_left_eq_some.mp hs
    cases hs
    have hop := (calm_of_guard hguard).2
    simp only [FixedIo.Settled, not_forall, not_not] at hbad
    obtain ⟨u, hhandle, hring⟩ := hbad
    intro howned
    refine (howned.exclusive u op.index ?_ (h.named op hop u hhandle)).1 ?_
    · show (op.handle.elim s.reactor s.reactor.dropHandle).InRing u
      rw [hhandle]
      exact hring
    · show op.index ∈ (s.alloc.dropBuffer op.index).2.buffers
      rw [buffers_dropBuffer]
      exact List.mem_cons_self
  | _ => exact absurd trivial hbad

/-- **Ownership of the fixed buffers**: in a run of a reactor and a pool of any size, every
buffer is owned once, and a buffer that the kernel may access by its operation alone, in
every state if and only if no operation is dropped between the push of its SQE and the
CQE. -/
theorem buffer_ownership_law (queueSize entries : ℕ) (offload : Bool)
    (es : List (FixedEvent W)) :
    Always FixedIo.step (FixedIo.Owned queueSize) (.start queueSize entries offload) es ↔
      EachStep FixedIo.step FixedIo.Settled (.start queueSize entries offload) es := by
  refine always_iff_eachStep (fun s (h : FixedInv queueSize s) => h.owned) ?_ ?_ ?_
    (eachStep_true es)
  · exact fun s e s' h _ hok hs => h.step hok hs
  · exact fun s e s' h _ hbad hs => not_owned_of_not_settled h hbad hs
  · refine ⟨?_, ?_, nofun, nofun, fun _ => reapInv_start entries offload⟩
    · simp [FixedIo.start, Allocator.new]
    · rintro u i (hu | hu) - <;> cases hu

/-- **A read that times out**: its future is dropped while the SQE is in the ring, and the
next `try_acquire` hands its buffer out. -/
theorem read_fixed_cancelled : ∃ s, runList FixedIo.step (FixedIo.start 1 8 false)
    [.tryAcquire, .call 0, .poll ⟨0, none⟩ 0, .drop ⟨0, some 0⟩, .tryAcquire] = some s ∧
      ¬FixedIo.Owned (W := ℕ) 1 s ∧ s.reactor.InRing 0 ∧ s.named 0 = some 0 ∧ s.handles = [0] := by
  refine ⟨_, rfl, fun h => ?_, .inl (List.mem_singleton_self 0), rfl, rfl⟩
  exact (h.exclusive 0 0 (.inl (List.mem_singleton_self 0)) rfl).2.1 (List.mem_singleton_self 0)

end Uring

end Pluvio
