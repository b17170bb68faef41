import Pluvio.Ucx.Worker

/-!
# Listening workers

Two things a worker that waits for connections should keep right. Its set of listener
ids should be empty only when no `Listener` and no `AmStream` is left, because an empty
set is what lets `deactivate` put it to sleep; and it should have a start time of the
wait exactly while it waits.

Neither holds of all runs. An id stands for all handles that were given it, and the
first of them that is dropped takes it away: `Pluvio.Ucx.listening_law` says that the
set is right as long as no drop leaves only handles whose ids went with earlier drops, or
go with this one. And what
is meant to clear the start time does not: `take` is called on the `Option` that
`as_mut` makes of the pointer to the cell, not on the cell, which is never emptied.
`Pluvio.Ucx.wait_start_law` says that the time is right as long as a worker that has
waited once waits for good.
-/

namespace Pluvio

namespace Ucx

/-! ### Handles and ids -/

/-- One call on a worker, with the counter of its reactor. -/
def callStep (s : Worker × UInt64) (c : Call) : Option (Worker × UInt64) := s.1.call s.2 c

/-- The id of the handle that a call drops. -/
def Call.drops : Call → Option String
  | .dropListener addr => some addr
  | .dropStream id => some (toString id)
  | _ => none

/-- The id of the handle that UCX gives to a call, which a clone of a handle is not. -/
def Call.opens : Call → Option String
  | .createListener addr => some addr
  | .amStream id => some (toString id)
  | _ => none

/-- A call has given out the id, and no handle with it was dropped since; the calls before
are listed with the last one first. -/
def Undropped (id : String) : List Call → Prop
  | [] => False
  | c :: past => c.opens = some id ∨ c.drops ≠ some id ∧ Undropped id past

namespace Worker

/-- A `Listener` or an `AmStream` of the worker is alive. -/
def HasHandle (w : Worker) : Prop := w.listeners ≠ [] ∨ w.streams ≠ []

/-- How many of them are. -/
def handles (w : Worker) : ℕ := w.listeners.length + w.streams.length

/-- One of them has this id. -/
def Named (w : Worker) (id : String) : Prop :=
  id ∈ w.listeners ∨ ∃ stream ∈ w.streams, toString stream = id

/-- **The worker hears**: it has a listener id exactly while it has a handle, and it is
not put to sleep while it has one. -/
def Hears (w : Worker) : Prop :=
  (w.listenerIds ≠ ∅ ↔ w.HasHandle) ∧
    ∀ count, (w.deactivate count).1.state = .inactive → ¬w.HasHandle

/-- The call drops a handle and leaves others, and each of them either has the id of the
dropped one or lost its own to an earlier drop. -/
def Deafens (past : List Call) (w : Worker) (c : Call) : Prop :=
  ∃ id ∈ c.drops, 2 ≤ w.handles ∧ ∀ k, w.Named k → k = id ∨ ¬Undropped k past

/-- The call drops a handle and leaves another one, but no listener id. -/
def DropsLastId (w : Worker) (c : Call) : Prop :=
  ∃ id ∈ c.drops, w.listenerIds ⊆ {id} ∧ 2 ≤ w.handles

/-- The ids are those of handles, and there is one while there is a handle. -/
structure HearsInv (w : Worker) : Prop where
  named : ∀ id ∈ w.listenerIds, w.Named id
  hears : w.HasHandle → w.listenerIds ≠ ∅

variable {w w' : Worker} {count : UInt64} {c : Call} {r : Worker × UInt64} {id : String}

theorem Named.hasHandle (h : w.Named id) : w.HasHandle := by
  rcases h with h | ⟨stream, h, -⟩
  · exact .inl (List.ne_nil_of_mem h)
  · exact .inr (List.ne_nil_of_mem h)

theorem hasHandle_iff : w.HasHandle ↔ 0 < w.handles := by
  rw [HasHandle, handles, ← List.length_pos_iff, ← List.length_pos_iff]
  omega

theorem HearsInv.law (h : w.HearsInv) : w.Hears := by
  have hiff : w.listenerIds ≠ ∅ ↔ w.HasHandle := by
    refine ⟨fun hne => ?_, h.hears⟩
    obtain ⟨id, hid⟩ := Finset.nonempty_iff_ne_empty.mpr hne
    exact (h.named id hid).hasHandle
  refine ⟨hiff, fun count hstate => ?_⟩
  -- only without an id does `deactivate` make the worker inactive
  rw [← hiff, not_not]
  by_contra hne
  rw [deactivate, if_neg hne] at hstate
  cases hstate

theorem hearsInv_new : new.HearsInv where
  named := fun id hid => absurd hid (Finset.notMem_empty id)
  hears := by
    rintro (h | h)
    · exact absurd rfl h
    · exact absurd rfl h

/-- The handles and the ids are the same. -/
structure SameHandles (w w' : Worker) : Prop where
  listenerIds : w'.listenerIds = w.listenerIds
  listeners : w'.listeners = w.listeners
  streams : w'.streams = w.streams

theorem sameHandles_activate (w : Worker) (count : UInt64) :
    SameHandles w (w.activate count).1 := ⟨rfl, rfl, rfl⟩

theorem sameHandles_waitConnect (w : Worker) (count : UInt64) :
    SameHandles w (w.waitConnect count).1 := ⟨rfl, rfl, rfl⟩

theorem sameHandles_deactivate (w : Worker) (count : UInt64) :
    SameHandles w (w.deactivate count).1 := by
  rw [deactivate]
  split <;> exact ⟨rfl, rfl, rfl⟩

/-- What a call can do to the handles and the ids of a worker. -/
inductive HandleEffect (w : Worker) (c : Call) (w' : Worker) : Prop
  | same (hopens : c.opens = none) (hdrops : c.drops = none) (h : SameHandles w w')
  /-- A new handle, whose id is added. -/
  | opened (id : String) (hopens : c.opens = some id) (hdrops : c.drops = none)
      (hids : w'.listenerIds = insert id w.listenerIds) (hnew : w'.Named id)
      (hold : ∀ k, w.Named k → w'.Named k)
  /-- A clone of a handle. -/
  | cloned (hopens : c.opens = none) (hdrops : c.drops = none)
      (hids : w'.listenerIds = w.listenerIds) (hhandle : w.HasHandle)
      (hold : ∀ k, w.Named k → w'.Named k)
  /-- A handle is dropped, and its id goes. -/
  | closed (id : String) (hopens : c.opens = none) (hdrops : c.drops = some id)
      (hids : w'.listenerIds = w.listenerIds.erase id) (hhandles : w'.handles + 1 = w.handles)
      (hold : ∀ k, k ≠ id → w.Named k → w'.Named k)

/-- **Every call is one of them.** -/
theorem call_handleEffect (h : w.call count c = some r) : HandleEffect w c r.1 := by
  cases c with
  | activate =>
    cases h
    exact .same rfl rfl (sameHandles_activate ..)
  | deactivate =>
    cases h
    exact .same rfl rfl (sameHandles_deactivate ..)
  | waitConnect =>
    cases h
    exact .same rfl rfl (sameHandles_waitConnect ..)
  | createListener addr =>
    cases h
    -- a worker that is active waits for connections from here on, which changes no handle
    have hsame : ∃ w', SameHandles w w' ∧ (w.createListener addr count).1 = { w' with
        listenerIds := insert addr w'.listenerIds
        listeners := addr :: w'.listeners } := by
      rw [createListener]
      split
      · exact ⟨_, sameHandles_waitConnect .., rfl⟩
      · exact ⟨w, ⟨rfl, rfl, rfl⟩, rfl⟩
    obtain ⟨w', hsame, heq⟩ := hsame
    rw [heq]
    refine .opened addr rfl rfl (by rw [hsame.listenerIds]) (.inl List.mem_cons_self) fun k hk => ?_
    rcases hk with hk | hk
    · exact .inl (List.mem_cons_of_mem _ (hsame.listeners ▸ hk))
    · exact .inr (hsame.streams ▸ hk)
  | amStream stream =>
    cases h
    refine .opened (toString stream) rfl rfl rfl (.inr ⟨stream, List.mem_cons_self, rfl⟩) ?_
    rintro k (hk | ⟨n, hn, hk⟩)
    · exact .inl hk
    · exact .inr ⟨n, List.mem_cons_of_mem _ hn, hk⟩
  | cloneStream stream =>
    obtain ⟨hmem, h⟩ := Option.ite_none_right_eq_some.mp h
    cases h
    refine .cloned rfl rfl rfl (.inr (List.ne_nil_of_mem hmem)) ?_
    rintro k (hk | ⟨n, hn, hk⟩)
    · exact .inl hk
    · exact .inr ⟨n, List.mem_cons_of_mem _ hn, hk⟩
  | dropListener addr =>
    obtain ⟨hmem, h⟩ := Option.ite_none_right_eq_some.mp h
    cases h
    have hsame := sameHandles_deactivate { w with
      listenerIds := w.listenerIds.erase addr
      listeners := w.listeners.erase addr } count
    refine .closed addr rfl rfl hsame.listenerIds ?_ fun k hne hk => ?_
    · -- the drop takes one handle away, whether or not others have its id
      have hlen : (w.listeners.erase addr).length + 1 = w.listeners.length :=
        List.length_erase_add_one hmem
      rw [handles, handles, dropListener, hsame.listeners, hsame.streams, ← hlen]
      exact Nat.add_right_comm ..
    · rcases hk with hk | hk
      · exact .inl (hsame.listeners ▸ (List.mem_erase_of_ne hne).mpr hk)
      · exact .inr (hsame.streams ▸ hk)
  | dropStream stream =>
    obtain ⟨⟨hmem, -⟩, h⟩ := Option.ite_none_right_eq_some.mp h
    cases h
    have hsame := sameHandles_deactivate { w with
      listenerIds := w.listenerIds.erase (toString stream)
      streams := w.streams.erase stream } count
    refine .closed (toString stream) rfl rfl hsame.listenerIds ?_ fun k hne hk => ?_
    · have hlen : (w.streams.erase stream).length + 1 = w.streams.length :=
        List.length_erase_add_one hmem
      rw [handles, handles, dropStream, hsame.listeners, hsame.streams, ← hlen]
      rfl
    · rcases hk with hk | ⟨n, hn, rfl⟩
      · exact .inl (hsame.listeners ▸ hk)
      · have hn' : n ≠ stream := fun he => hne (by rw [he])
        exact .inr ⟨n, hsame.streams ▸ (List.mem_erase_of_ne hn').mpr hn, rfl⟩
  | start op =>
    obtain ⟨-, h⟩ := Option.ite_none_right_eq_some.mp h
    cases h
    refine .same rfl rfl ?_
    cases op <;> exact ⟨rfl, rfl, rfl⟩
  | finish op =>
    obtain ⟨-, h⟩ := Option.ite_none_right_eq_some.mp h
    cases h
    refine .same rfl rfl ?_
    rw [finishOp]
    split
    · obtain ⟨hids, hlisteners, hstreams⟩ :=
        sameHandles_deactivate { w with ops := w.ops.erase op } count
      exact ⟨hids, hlisteners, hstreams⟩
    · exact ⟨rfl, rfl, rfl⟩
  | cancel op =>
    obtain ⟨-, h⟩ := Option.ite_none_right_eq_some.mp h
    cases h
    exact .same rfl rfl ⟨rfl, rfl, rfl⟩

/-- What is left of a set of ids without one of them. -/
theorem erase_eq_empty {ids : Finset String} {id : String} : ids.erase id = ∅ ↔ ids ⊆ {id} :=
  (Finset.erase_eq_empty_iff ids id).trans Finset.subset_singleton_iff.symm

/-- **A call that does not drop the last id** keeps the ids and the handles together. -/
theorem HearsInv.call (h : w.HearsInv) (hlast : ¬w.DropsLastId c) (hc : w.call count c = some r) :
    r.1.HearsInv := by
  cases call_handleEffect hc with
  | same _ _ hsame =>
    obtain ⟨hids, hlisteners, hstreams⟩ := hsame
    constructor
    · rw [hids]
      intro id hid
      rw [Named, hlisteners, hstreams]
      exact h.named id hid
    · rw [HasHandle, hlisteners, hstreams, hids]
      exact h.hears
  | opened id _ _ hids hnew hold =>
    constructor
    · rw [hids]
      intro k hk
      rcases Finset.mem_insert.mp hk with rfl | hk
      · exact hnew
      · exact hold k (h.named k hk)
    · rw [hids]
      exact fun _ => Finset.insert_ne_empty id w.listenerIds
  | cloned _ _ hids hhandle hold =>
    constructor
    · rw [hids]
      exact fun k hk => hold k (h.named k hk)
    · rw [hids]
      exact fun _ => h.hears hhandle
  | closed id _ hdrops hids hhandles hold =>
    constructor
    · rw [hids]
      intro k hk
      obtain ⟨hne, hk⟩ := Finset.mem_erase.mp hk
      exact hold k hne (h.named k hk)
    · rw [hids, hasHandle_iff]
      intro hpos hempty
      exact hlast ⟨id, hdrops, erase_eq_empty.mp hempty, by omega⟩

/-- A call that drops the last id leaves a handle and no id. -/
theorem DropsLastId.call (hlast : w.DropsLastId c) (hc : w.call count c = some r) :
    ¬r.1.Hears := by
  obtain ⟨id, hid, hsub, htwo⟩ := hlast
  rintro ⟨hiff, -⟩
  cases call_handleEffect hc with
  | closed id' _ hdrops hids hhandles _ =>
    obtain rfl : id = id' := Option.some.inj (hid.symm.trans hdrops)
    refine hiff.mpr (hasHandle_iff.mpr (by omega)) ?_
    rw [hids]
    exact erase_eq_empty.mpr hsub
  | same _ hdrops | opened _ _ hdrops | cloned _ hdrops => cases hid.symm.trans hdrops

/-! ### The ids by the calls -/

/-- The ids are those that calls have given out and no drop has taken. -/
def Recorded (w : Worker) (past : List Call) : Prop :=
  ∀ id, id ∈ w.listenerIds ↔ Undropped id past

theorem recorded_new : new.Recorded [] :=
  fun id => iff_of_false (Finset.notMem_empty id) not_false

/-- A call that gives out no id and drops none. -/
theorem undropped_cons_of_none {past : List Call} (hopens : c.opens = none)
    (hdrops : c.drops = none) : Undropped id (c :: past) ↔ Undropped id past := by
  simp [Undropped, hopens, hdrops]

/-- **Every call** adds the id that it gives out and takes the one that it drops. -/
theorem Recorded.call {past : List Call} (h : w.Recorded past) (hc : w.call count c = some r) :
    r.1.Recorded (c :: past) := by
  intro k
  cases call_handleEffect hc with
  | same hopens hdrops hsame =>
    rw [undropped_cons_of_none hopens hdrops, hsame.listenerIds]
    exact h k
  | opened id hopens hdrops hids _ _ =>
    simp [Undropped, hopens, hdrops, hids, h k, eq_comm]
  | cloned hopens hdrops hids _ _ =>
    rw [undropped_cons_of_none hopens hdrops, hids]
    exact h k
  | closed id hopens hdrops hids _ _ =>
    simp [Undropped, hopens, hdrops, hids, h k, eq_comm]

/-- **The last id** is dropped by the calls that leave only handles without one. -/
theorem dropsLastId_iff {past : List Call} (h : w.HearsInv) (hrec : w.Recorded past) :
    w.DropsLastId c ↔ w.Deafens past c := by
  refine exists_congr fun id => and_congr_right fun _ => ?_
  rw [and_comm]
  refine and_congr_right fun _ => ⟨fun hsub k _ => ?_, fun hnamed k hk => ?_⟩
  · rw [or_iff_not_imp_right, not_not, ← hrec k]
    exact fun hk => Finset.mem_singleton.mp (hsub hk)
  · rcases hnamed k (h.named k hk) with rfl | hnot
    · exact Finset.mem_singleton_self k
    · exact absurd ((hrec k).mp hk) hnot

end Worker

/-- **When a worker hears.** In a run of calls on a worker, it has a listener id exactly
while a `Listener` or an `AmStream` of it is alive, and is put to sleep only when none
is, in every state if and only if no call drops a handle and leaves others each of which
has the id of the dropped one, or an id that a handle was dropped with since it was last
given out. -/
theorem listening_law (count : UInt64) (cs : List Call) :
    Always callStep (fun s => s.1.Hears) (.new, count) cs ↔
      EachStep (withPast callStep) (fun r c => ¬r.1.1.Deafens r.2 c) ((.new, count), []) cs := by
  rw [← always_withMemory []]
  refine always_iff_eachStep (fun (r : (Worker × UInt64) × List Call)
    (h : r.1.1.HearsInv ∧ r.1.1.Recorded r.2) => h.1.law) ?_ ?_
    ⟨Worker.hearsInv_new, Worker.recorded_new⟩ (eachStep_true cs)
  · rintro ⟨⟨w, n⟩, past⟩ c ⟨s', past'⟩ ⟨h, hrec⟩ - hdeaf hs
    obtain ⟨hc, rfl⟩ := withMemory_eq_some.mp hs
    exact ⟨h.call (mt (Worker.dropsLastId_iff h hrec).mp hdeaf) hc, hrec.call hc⟩
  · rintro ⟨⟨w, n⟩, past⟩ c ⟨s', past'⟩ ⟨h, hrec⟩ - hdeaf hs
    obtain ⟨hc, -⟩ := withMemory_eq_some.mp hs
    exact ((Worker.dropsLastId_iff h hrec).mpr (not_not.mp hdeaf)).call hc

/-- **A clone that goes deaf**: a stream is cloned, one of the two handles is dropped, and
the worker is put to sleep although the other one is there. -/
theorem deaf_clone : ∃ s, runList callStep (.new, 0) [.amStream 1, .cloneStream 1, .waitConnect,
    .dropStream 1] = some s ∧ ¬s.1.Hears ∧ s.1.streams = [1] ∧ s.1.state = .inactive := by
  refine ⟨_, rfl, fun h => ?_, by decide⟩
  exact h.1.mpr (.inr nofun) (by decide)

/-! ### The start of a wait -/

/-- A worker with its cell `wait_connect_start`, the instants as numbers. -/
structure WaitingWorker where
  worker : Worker
  waitConnectStart : Option ℕ
  /-- The instant at which it last entered `WaitConnect`, or entered it again. -/
  entered : Option ℕ

/-- `cell.get().as_mut().take()`: `as_mut` makes an `Option` of the pointer to the cell,
and this is what `take` empties. -/
def asMutTake (cell : Option ℕ) : Option (Option ℕ) × Option ℕ := (some cell, cell)

namespace WaitingWorker

/-- `Worker::new`. -/
def new : WaitingWorker := ⟨.new, none, none⟩

/-- `Worker::activate`. -/
def activate (w : WaitingWorker) (count : UInt64) : WaitingWorker × UInt64 :=
  let r := w.worker.activate count
  ({ w with worker := r.1, waitConnectStart := (asMutTake w.waitConnectStart).2 }, r.2)

/-- `Worker::deactivate`. -/
def deactivate (w : WaitingWorker) (count : UInt64) (now : ℕ) : WaitingWorker × UInt64 :=
  let r := w.worker.deactivate count
  if w.worker.listenerIds = ∅ then
    ({ w with worker := r.1, waitConnectStart := (asMutTake w.waitConnectStart).2 }, r.2)
  else (⟨r.1, some now, some now⟩, r.2)

/-- `Worker::wait_connect`. -/
def waitConnect (w : WaitingWorker) (count : UInt64) (now : ℕ) : WaitingWorker × UInt64 :=
  let r := w.worker.waitConnect count
  (⟨r.1, some now, some now⟩, r.2)

/-- `Worker::create_listener`, where UCX has created one. -/
def createListener (w : WaitingWorker) (addr : String) (count : UInt64) (now : ℕ) :
    WaitingWorker × UInt64 :=
  let r := if w.worker.state = .inactive then w.waitConnect count now else (w, count)
  ({ r.1 with worker := { r.1.worker with
      listenerIds := insert addr r.1.worker.listenerIds
      listeners := addr :: r.1.worker.listeners } }, r.2)

/-- `Drop` of a `Listener`. -/
def dropListener (w : WaitingWorker) (addr : String) (count : UInt64) (now : ℕ) :
    WaitingWorker × UInt64 :=
  deactivate { w with worker := { w.worker with
    listenerIds := w.worker.listenerIds.erase addr
    listeners := w.worker.listeners.erase addr } } count now

/-- `Drop` of an `AmStream`. -/
def dropStream (w : WaitingWorker) (id : UInt16) (count : UInt64) (now : ℕ) :
    WaitingWorker × UInt64 :=
  deactivate { w with worker := { w.worker with
    listenerIds := w.worker.listenerIds.erase (toString id)
    streams := w.worker.streams.erase id } } count now

/-- An operation up to its await point. -/
def startOp (w : WaitingWorker) (op : Op) (count : UInt64) (now : ℕ) : WaitingWorker × UInt64 :=
  let w := { w with worker := { w.worker with ops := op :: w.worker.ops } }
  match op with
  | .waitMsg _ => w.waitConnect count now
  | _ => w.activate count

/-- An operation from its await point on. -/
def finishOp (w : WaitingWorker) (op : Op) (count : UInt64) (now : ℕ) : WaitingWorker × UInt64 :=
  let w := { w with worker := { w.worker with ops := w.worker.ops.erase op } }
  if op.Deactivates then w.deactivate count now else (w, count)

/-- One call at the instant `now`. -/
def call (w : WaitingWorker) (count : UInt64) (now : ℕ) (c : Call) :
    Option (WaitingWorker × UInt64) :=
  match c with
  | .activate => some (w.activate count)
  | .deactivate => some (w.deactivate count now)
  | .waitConnect => some (w.waitConnect count now)
  | .createListener addr => some (w.createListener addr count now)
  | .amStream id => some ({ w with worker := w.worker.amStream id }, count)
  | .cloneStream id =>
    if id ∈ w.worker.streams then
      some ({ w with worker := { w.worker with streams := id :: w.worker.streams } }, count)
    else none
  | .dropListener addr =>
    if addr ∈ w.worker.listeners then some (w.dropListener addr count now) else none
  | .dropStream id =>
    if id ∈ w.worker.streams ∧ (.waitMsg id ∈ w.worker.ops → 2 ≤ w.worker.streams.count id) then
      some (w.dropStream id count now)
    else none
  | .start op =>
    if ∀ id ∈ op.stream, id ∈ w.worker.streams then some (w.startOp op count now) else none
  | .finish op => if op ∈ w.worker.ops then some (w.finishOp op count now) else none
  | .cancel op =>
    if op ∈ w.worker.ops then
      some ({ w with worker := { w.worker with ops := w.worker.ops.erase op } }, count)
    else none

/-- One call at an instant, with the counter of the reactor. -/
def step (s : WaitingWorker × UInt64) (e : ℕ × Call) : Option (WaitingWorker × UInt64) :=
  s.1.call s.2 e.1 e.2

/-- **The start time is right**: there is one exactly while the worker waits for
connections, and then it is the instant at which it last entered this state. -/
def StartRight (w : WaitingWorker) : Prop :=
  (w.waitConnectStart.isSome ↔ w.worker.state = .waitConnect) ∧
    (w.worker.state = .waitConnect → w.waitConnectStart = w.entered)

/-- The call makes the worker active, or finds it without a listener id and puts it to
sleep. -/
def Quits (w : WaitingWorker) (c : Call) : Prop :=
  c = .activate ∨ (∃ op, c = .start op ∧ op.stream = none) ∨
    ∃ f ∈ c.deactivates, f w.worker.listenerIds = ∅

/-- The call ends a wait that has begun. -/
def Leaves (w : WaitingWorker) (c : Call) : Prop := w.waitConnectStart ≠ none ∧ w.Quits c

variable {w w' : WaitingWorker} {count : UInt64} {now : ℕ} {c : Call}
  {r : WaitingWorker × UInt64}

/-- What a call can do to the state of a worker and to its start time. -/
inductive StartEffect (w : WaitingWorker) (now : ℕ) (c : Call) (w' : WaitingWorker) : Prop
  | same (hquits : ¬w.Quits c) (hstate : w'.worker.state = w.worker.state)
      (hstart : w'.waitConnectStart = w.waitConnectStart) (hentered : w'.entered = w.entered)
  /-- It enters `WaitConnect`. -/
  | enters (hquits : ¬w.Quits c) (hstate : w'.worker.state = .waitConnect)
      (hstart : w'.waitConnectStart = some now) (hentered : w'.entered = some now)
  /-- It is active or asleep after the call, and the start time is what it was. -/
  | quits (hquits : w.Quits c) (hstate : w'.worker.state ≠ .waitConnect)
      (hstart : w'.waitConnectStart = w.waitConnectStart)

/-- A call that is none of those that quit. -/
theorem not_quits (hactivate : c ≠ .activate) (hstart : ∀ op, c = .start op → op.stream ≠ none)
    (hids : ∀ f, c.deactivates = some f → f w.worker.listenerIds ≠ ∅) : ¬w.Quits c := by
  rintro (hc | ⟨op, hc, hop⟩ | ⟨f, hf, hempty⟩)
  · exact hactivate hc
  · exact hstart op hc hop
  · exact hids f hf hempty

/-- A call that ends in `deactivate`. -/
theorem startEffect_deactivate {f : Finset String → Finset String} (hf : c.deactivates = some f)
    (hother : c ≠ .activate ∧ ∀ op, c ≠ .start op)
    (hids : w'.worker.listenerIds = f w.worker.listenerIds)
    (hstart : w'.waitConnectStart = w.waitConnectStart) :
    StartEffect w now c (w'.deactivate count now).1 := by
  by_cases hempty : w'.worker.listenerIds = ∅
  · rw [deactivate, if_pos hempty, Worker.deactivate, if_pos hempty]
    exact .quits (.inr (.inr ⟨f, hf, hids ▸ hempty⟩)) (fun hstate => by cases hstate) hstart
  · rw [deactivate, if_neg hempty, Worker.deactivate, if_neg hempty]
    refine .enters (not_quits hother.1 (fun op hc => absurd hc (hother.2 op)) fun g hg => ?_)
      rfl rfl rfl
    cases hf.symm.trans hg
    rwa [← hids]

/-- **Every call is one of them.** -/
theorem call_startEffect (h : w.call count now c = some r) : StartEffect w now c r.1 := by
  cases c with
  | activate =>
    cases h
    exact .quits (.inl rfl) nofun rfl
  | deactivate =>
    cases h
    exact startEffect_deactivate rfl ⟨nofun, nofun⟩ rfl rfl
  | waitConnect =>
    cases h
    exact .enters (not_quits nofun nofun nofun) rfl rfl rfl
  | createListener addr =>
    cases h
    rw [createListener]
    split
    · exact .enters (not_quits nofun nofun nofun) rfl rfl rfl
    · exact .same (not_quits nofun nofun nofun) rfl rfl rfl
  | amStream id =>
    cases h
    exact .same (not_quits nofun nofun nofun) rfl rfl rfl
  | cloneStream id =>
    obtain ⟨-, h⟩ := Option.ite_none_right_eq_some.mp h
    cases h
    exact .same (not_quits nofun nofun nofun) rfl rfl rfl
  | dropListener addr =>
    obtain ⟨-, h⟩ := Option.ite_none_right_eq_some.mp h
    cases h
    exact startEffect_deactivate rfl ⟨nofun, nofun⟩ rfl rfl
  | dropStream id =>
    obtain ⟨-, h⟩ := Option.ite_none_right_eq_some.mp h
    cases h
    exact startEffect_deactivate rfl ⟨nofun, nofun⟩ rfl rfl
  | start op =>
    obtain ⟨-, h⟩ := Option.ite_none_right_eq_some.mp h
    cases h
    cases op with
    | waitMsg id =>
      refine .enters (not_quits nofun (fun op hc => ?_) nofun) rfl rfl rfl
      cases hc
      nofun
    | _ => exact .quits (.inr (.inl ⟨_, rfl, rfl⟩)) nofun rfl
  | finish op =>
    obtain ⟨-, h⟩ := Option.ite_none_right_eq_some.mp h
    cases h
    by_cases hop : op.Deactivates
    · rw [finishOp, if_pos hop]
      exact startEffect_deactivate (if_pos hop) ⟨nofun, nofun⟩ rfl rfl
    · rw [finishOp, if_neg hop]
      refine .same (not_quits nofun nofun fun f hf => ?_) rfl rfl rfl
      cases (if_neg hop).symm.trans hf
  | cancel op =>
    obtain ⟨-, h⟩ := Option.ite_none_right_eq_some.mp h
    cases h
    exact .same (not_quits nofun nofun nofun) rfl rfl rfl

/-- **The worker under the clock** is the worker. -/
theorem call_worker (w : WaitingWorker) (count : UInt64) (now : ℕ) (c : Call) :
    (w.call count now c).map (fun r => (r.1.worker, r.2)) = w.worker.call count c := by
  have hdeactivate : ∀ w : WaitingWorker, (((w.deactivate count now).1.worker,
      (w.deactivate count now).2) : Worker × UInt64) = w.worker.deactivate count := by
    intro w
    rw [deactivate]
    split <;> rfl
  cases c with
  | activate | waitConnect | amStream id => rfl
  | deactivate => exact congrArg some (hdeactivate w)
  | createListener addr =>
    refine congrArg some ?_
    dsimp only
    rw [createListener, Worker.createListener]
    split <;> rfl
  | cloneStream id =>
    rw [call, Worker.call]
    split <;> rfl
  | dropListener addr =>
    rw [call, Worker.call]
    split
    · exact congrArg some (hdeactivate _)
    · rfl
  | dropStream id =>
    rw [call, Worker.call]
    split
    · exact congrArg some (hdeactivate _)
    · rfl
  | start op =>
    rw [call, Worker.call]
    split
    · cases op <;> rfl
    · rfl
  | finish op =>
    rw [call, Worker.call]
    split
    · refine congrArg some ?_
      dsimp only
      rw [finishOp, Worker.finishOp]
      dsimp only
      split
      · exact hdeactivate _
      · rfl
    · rfl
  | cancel op =>
    rw [call, Worker.call]
    split <;> rfl

/-- **A call that ends no wait** keeps the start time right. -/
theorem StartRight.call (h : w.StartRight) (hleaves : ¬w.Leaves c)
    (hc : w.call count now c = some r) : r.1.StartRight := by
  cases call_startEffect hc with
  | same _ hstate hstart hentered =>
    rw [StartRight, hstate, hstart, hentered]
    exact h
  | enters _ hstate hstart hentered =>
    rw [StartRight, hstate, hstart, hentered]
    exact ⟨iff_of_true rfl rfl, fun _ => rfl⟩
  | quits hquits hstate hstart =>
    have hnone : w.waitConnectStart = none := by
      by_contra hne
      exact hleaves ⟨hne, hquits⟩
    refine ⟨iff_of_false ?_ hstate, fun hwait => absurd hwait hstate⟩
    rw [hstart, hnone]
    nofun

/-- A call that ends a wait leaves its start time behind. -/
theorem Leaves.call (hleaves : w.Leaves c) (hc : w.call count now c = some r) :
    ¬r.1.StartRight := by
  obtain ⟨hne, hquits⟩ := hleaves
  rintro ⟨hiff, -⟩
  cases call_startEffect hc with
  | same hnot | enters hnot => exact hnot hquits
  | quits _ hstate hstart =>
    refine hstate (hiff.mp ?_)
    rw [hstart]
    exact Option.isSome_iff_ne_none.mpr hne

end WaitingWorker

/-- **When the start time is right.** In a run of calls on a worker there is a start time
exactly while it waits for connections, and it is then the instant at which it last
entered this state, if and only if the worker, once it has waited, is never activated
again and never deactivated without a listener id. -/
theorem wait_start_law (count : UInt64) (es : List (ℕ × Call)) :
    Always WaitingWorker.step (fun s => s.1.StartRight) (.new, count) es ↔
      EachStep WaitingWorker.step (fun s e => ¬s.1.Leaves e.2) (.new, count) es := by
  refine always_iff_eachStep (fun (s : WaitingWorker × UInt64) (h : s.1.StartRight) => h) ?_ ?_
    ⟨iff_of_false nofun nofun, nofun⟩ (eachStep_true es)
  · intro s e s' h _ hleaves hs
    exact h.call hleaves hs
  · intro s e s' _ _ hleaves hs
    exact (not_not.mp hleaves).call hs

/-- **A start time that is left behind**: a worker that waits is activated, and is still
waiting since instant `5`. -/
theorem wait_start_not_cleared : ∃ s, runList WaitingWorker.step (.new, 0)
    [(5, .waitConnect), (7, .activate)] = some s ∧ ¬s.1.StartRight ∧
      s.1.worker.state = .active ∧ s.1.waitConnectStart = some 5 := by
  refine ⟨_, rfl, fun h => ?_, by decide⟩
  exact nomatch h.1.mp rfl

end Ucx

end Pluvio
