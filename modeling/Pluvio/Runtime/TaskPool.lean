import Mathlib.Data.List.Nodup
import Mathlib.Logic.Function.Basic
import Mathlib.Tactic.Common

/-!
# The pool of tasks

The pool is a slab of optional tasks: a key is vacant, or holds a task, or is
occupied and empty, which it is exactly while its task is being polled
(`Pluvio.Executor.TaskPool.takeOut`). A poll that returns `Pending` puts the task
back. A poll that returns `Ready` puts it back as well, takes its statistics and
removes the entry, whatever is there by then
(`Pluvio.Executor.TaskPool.complete`).

Keys are used again, so a task is not its key. The pool therefore remembers which
futures it was given, under which key and queue each of them lives, and what became
of them. The invariant `Pluvio.Executor.PoolInv` ties the three places together in
which a task can be: in its entry, in the hands of one of the polls under way, or
gone, with the future completed.
-/

namespace Pluvio

namespace Executor

/-! ### Tasks and their slab -/

/-- The ready queues: that of the tasks and that of the polling tasks. -/
inductive Queue
  | task
  | polling
  deriving DecidableEq

/-- A task. Futures are numbered in the order in which they are spawned. -/
structure Task where
  future : ℕ
  /-- The queue its wakers send to. -/
  taskSender : Queue
  /-- `task_stat` is `Some`. -/
  taskStat : Bool
  deriving DecidableEq

/-- The ways in which the removal of a task can panic. -/
inductive PoolPanic
  /-- `task_stat.take().unwrap()`. -/
  | noTaskStat
  /-- `Slab::remove` of a vacant key. -/
  | invalidKey
  deriving DecidableEq

/-- The slab of tasks, with its history. -/
structure TaskPool where
  entry : ℕ → Option (Option Task)
  len : ℕ
  /-- How many futures have been spawned. -/
  spawned : ℕ
  /-- The queue and the key of a future. -/
  address : ℕ → Queue × ℕ
  /-- The futures that have returned `Ready`, the last one first. -/
  completed : List ℕ
  /-- The futures whose statistics have been taken. -/
  statsTaken : List ℕ
  /-- What has been in the entries that were removed. -/
  removed : List (Option ℕ)

/-- The empty slab, before the first task. -/
def TaskPool.new : TaskPool where
  entry := fun _ => none
  len := 0
  spawned := 0
  address := fun _ => (.task, 0)
  completed := []
  statsTaken := []
  removed := []

/-- `Slab::insert` of the next future. Which vacant key the slab hands out is left to
the caller. -/
def TaskPool.insert (P : TaskPool) (q : Queue) (key : ℕ) : TaskPool :=
  { P with
    entry := Function.update P.entry key (some (some ⟨P.spawned, q, true⟩))
    len := P.len + 1
    spawned := P.spawned + 1
    address := Function.update P.address P.spawned (q, key) }

/-- The slot of a task that is going to be polled. -/
def TaskPool.takeOut (P : TaskPool) (id : ℕ) : TaskPool :=
  { P with entry := Function.update P.entry id (some none) }

/-- The task goes back into its slot, if there is one. -/
def TaskPool.putBack (P : TaskPool) (id : ℕ) (t : Task) : TaskPool :=
  match P.entry id with
  | some _ => { P with entry := Function.update P.entry id (some (some t)) }
  | none => P

/-- `RuntimeStat::add_task_stat` of the entry. -/
def TaskPool.addTaskStat (P : TaskPool) (id : ℕ) : Except PoolPanic TaskPool :=
  match P.entry id with
  | some (some t) =>
    if t.taskStat then
      .ok { P with
        entry := Function.update P.entry id (some (some { t with taskStat := false }))
        statsTaken := t.future :: P.statsTaken }
    else .error .noTaskStat
  | _ => .ok P

/-- `Slab::remove`. -/
def TaskPool.remove (P : TaskPool) (id : ℕ) : Except PoolPanic TaskPool :=
  match P.entry id with
  | some slot =>
    .ok { P with
      entry := Function.update P.entry id none
      len := P.len - 1
      removed := slot.map Task.future :: P.removed }
  | none => .error .invalidKey

/-- What the event loops do with a task whose poll was `Ready`. -/
def TaskPool.complete (P : TaskPool) (id : ℕ) (t : Task) : Except PoolPanic TaskPool := do
  let P := { P with completed := t.future :: P.completed }
  let P ← (P.putBack id t).addTaskStat id
  P.remove id

/-- The future has been spawned and has not returned `Ready`. -/
def TaskPool.Live (P : TaskPool) (f : ℕ) : Prop := f < P.spawned ∧ f ∉ P.completed

instance (P : TaskPool) (f : ℕ) : Decidable (P.Live f) := by
  unfold TaskPool.Live
  infer_instance

variable {P : TaskPool}

theorem TaskPool.insert_entry_self (q : Queue) (key : ℕ) :
    (P.insert q key).entry key = some (some ⟨P.spawned, q, true⟩) :=
  Function.update_self ..

theorem TaskPool.insert_entry_of_ne (q : Queue) {key id : ℕ} (hne : id ≠ key) :
    (P.insert q key).entry id = P.entry id :=
  Function.update_of_ne hne ..

/-! ### Where the tasks are -/

variable {polled : List (ℕ × Task)}

/-- The task of a key is in its slot, or one of the polls under way has it. -/
def TaskPool.Holds (P : TaskPool) (polled : List (ℕ × Task)) (id : ℕ) (t : Task) : Prop :=
  P.entry id = some (some t) ∨ (id, t) ∈ polled

/-- **Where the tasks are**, when `polled` are the tasks being polled, the innermost one
first. -/
structure PoolInv (P : TaskPool) (polled : List (ℕ × Task)) : Prop where
  /-- No key is polled twice at a time. -/
  nodup : (polled.map Prod.fst).Nodup
  /-- A slot is empty while its task is being polled. -/
  empty_iff : ∀ id, P.entry id = some none ↔ id ∈ polled.map Prod.fst
  /-- A task that is somewhere is live, and it is where it belongs. -/
  holds : ∀ id t, P.Holds polled id t →
    P.Live t.future ∧ P.address t.future = (t.taskSender, id) ∧ t.taskStat = true
  /-- A live future is somewhere. -/
  live : ∀ f, P.Live f → ∃ t, P.Holds polled (P.address f).2 t ∧ t.future = f
  /-- Only spawned futures complete. -/
  spawned : ∀ f ∈ P.completed, f < P.spawned
  /-- A future completes once. -/
  once : P.completed.Nodup
  stats : P.statsTaken = P.completed
  removed : P.removed = P.completed.map some

theorem PoolInv.new : PoolInv .new [] where
  nodup := .nil
  empty_iff := fun _ => by simp [TaskPool.new]
  holds := fun _ _ => by simp [TaskPool.Holds, TaskPool.new]
  live := fun _ h => absurd h.1 (Nat.not_lt_zero _)
  spawned := nofun
  once := .nil
  stats := rfl
  removed := rfl

namespace PoolInv

variable {id : ℕ} {t : Task}

/-- The task being polled is not in its slot. -/
theorem entry_polled (h : PoolInv P polled) (ht : (id, t) ∈ polled) :
    P.entry id = some none :=
  (h.empty_iff id).mpr (List.mem_map_of_mem ht)

/-- A key holds one task at most. -/
theorem holds_unique (h : PoolInv P polled) {t' : Task} (ht : P.Holds polled id t)
    (ht' : P.Holds polled id t') : t = t' := by
  rcases ht with ht | ht <;> rcases ht' with ht' | ht'
  · exact Option.some.inj (Option.some.inj (ht.symm.trans ht'))
  · cases ht.symm.trans (h.entry_polled ht')
  · cases ht'.symm.trans (h.entry_polled ht)
  · exact congrArg Prod.snd (List.inj_on_of_nodup_map h.nodup ht ht' rfl)

/-- The entry of a live future is occupied. -/
theorem entry_ne_none (h : PoolInv P polled) {f : ℕ} (hf : P.Live f) :
    P.entry (P.address f).2 ≠ none := by
  obtain ⟨t, ht | ht, -⟩ := h.live f hf
  · rw [ht]
    nofun
  · rw [h.entry_polled ht]
    nofun

/-- **The task of a live future**, where it is in its slot. -/
theorem entry_live (h : PoolInv P polled) {f : ℕ} (hf : P.Live f)
    (ht : P.entry (P.address f).2 = some (some t)) : t.future = f := by
  obtain ⟨t', ht', rfl⟩ := h.live f hf
  rw [h.holds_unique (.inl ht) ht']

/-- An occupied entry is that of a live future. -/
theorem exists_live (h : PoolInv P polled) (hid : P.entry id ≠ none) :
    ∃ f, P.Live f ∧ (P.address f).2 = id := by
  obtain ⟨slot, hslot⟩ := Option.ne_none_iff_exists'.mp hid
  obtain ⟨t, ht⟩ : ∃ t, P.Holds polled id t := by
    rcases slot with - | t
    · obtain ⟨⟨_, t⟩, ht, rfl⟩ := List.mem_map.mp ((h.empty_iff id).mp hslot)
      exact ⟨t, .inr ht⟩
    · exact ⟨t, .inl hslot⟩
  obtain ⟨hlive, haddr, -⟩ := h.holds id t ht
  exact ⟨t.future, hlive, congrArg Prod.snd haddr⟩

/-- **An insertion** under a vacant key. -/
theorem insert (h : PoolInv P polled) (q : Queue) (hid : P.entry id = none) :
    PoolInv (P.insert q id) polled := by
  have hpolled : ∀ t, (id, t) ∉ polled := fun t ht => by
    cases hid.symm.trans (h.entry_polled ht)
  have hnew : ∀ f, P.Live f → P.address f = (P.insert q id).address f := fun f hf =>
    (Function.update_of_ne (Nat.ne_of_lt hf.1) ..).symm
  have hfresh : P.spawned ∉ P.completed := fun hf => Nat.lt_irrefl _ (h.spawned _ hf)
  have hlive : ∀ f, (P.insert q id).Live f ↔ P.Live f ∨ f = P.spawned := by
    intro f
    show f < P.spawned + 1 ∧ f ∉ P.completed ↔ (f < P.spawned ∧ f ∉ P.completed) ∨ f = P.spawned
    constructor
    · rintro ⟨hlt, hf⟩
      exact (Nat.lt_succ_iff_lt_or_eq.mp hlt).imp (⟨·, hf⟩) fun heq => heq
    · rintro (⟨hlt, hf⟩ | rfl)
      · exact ⟨Nat.lt_succ_of_lt hlt, hf⟩
      · exact ⟨Nat.lt_succ_self _, hfresh⟩
  have hkey : ∀ id' t, id' ≠ id → (P.Holds polled id' t ↔ (P.insert q id).Holds polled id' t) :=
    fun id' t hne => by
      rw [TaskPool.Holds, TaskPool.Holds, TaskPool.insert_entry_of_ne q hne]
  refine ⟨h.nodup, fun id' => ?_, fun id' t ht => ?_, fun f hf => ?_,
    fun f hf => Nat.lt_succ_of_lt (h.spawned f hf), h.once, h.stats, h.removed⟩
  · by_cases heq : id' = id
    · subst heq
      -- the key has a task in its slot, and none that is being polled
      refine iff_of_false ?_ fun hmem => ?_
      · rw [TaskPool.insert_entry_self]
        nofun
      · obtain ⟨⟨_, t⟩, ht, rfl⟩ := List.mem_map.mp hmem
        exact hpolled t ht
    · rw [TaskPool.insert_entry_of_ne q heq]
      exact h.empty_iff id'
  · by_cases heq : id' = id
    · subst heq
      rcases ht with ht | ht
      · rw [TaskPool.insert_entry_self] at ht
        obtain rfl := Option.some.inj (Option.some.inj ht)
        exact ⟨(hlive _).mpr (.inr rfl), Function.update_self .., rfl⟩
      · exact absurd ht (hpolled t)
    · obtain ⟨hl, haddr, hstat⟩ := h.holds id' t ((hkey id' t heq).mpr ht)
      exact ⟨(hlive _).mpr (.inl hl), (hnew _ hl).symm.trans haddr, hstat⟩
  · rcases (hlive f).mp hf with hf | rfl
    · obtain ⟨t, ht, htf⟩ := h.live f hf
      have hne : (P.address f).2 ≠ id := fun heq => h.entry_ne_none hf (heq ▸ hid)
      exact ⟨t, hnew f hf ▸ (hkey _ t hne).mp ht, htf⟩
    · -- the new task is in the slot
      refine ⟨⟨P.spawned, q, true⟩, .inl ?_, rfl⟩
      simp [TaskPool.insert]

/-- **A poll begins**: the task leaves its slot. -/
theorem takeOut (h : PoolInv P polled) (ht : P.entry id = some (some t)) :
    PoolInv (P.takeOut id) ((id, t) :: polled) := by
  have hid : id ∉ polled.map Prod.fst := fun hmem => by
    cases ht.symm.trans ((h.empty_iff id).mpr hmem)
  have hholds : ∀ id' t', (P.takeOut id).Holds ((id, t) :: polled) id' t' ↔
      P.Holds polled id' t' := by
    intro id' t'
    by_cases heq : id' = id
    · subst heq
      simp only [TaskPool.Holds, TaskPool.takeOut, Function.update_self, ht, List.mem_cons,
        Prod.mk.injEq, true_and, Option.some.injEq, reduceCtorEq, false_or, eq_comm (a := t)]
    · simp [TaskPool.Holds, TaskPool.takeOut, heq]
  refine ⟨List.nodup_cons.mpr ⟨hid, h.nodup⟩, fun id' => ?_, fun id' t' ht' => ?_,
    fun f hf => ?_, h.spawned, h.once, h.stats, h.removed⟩
  · by_cases heq : id' = id
    · simp [TaskPool.takeOut, heq]
    · simpa [TaskPool.takeOut, Function.update_of_ne heq, heq] using h.empty_iff id'
  · exact h.holds id' t' ((hholds id' t').mp ht')
  · obtain ⟨t', ht', htf⟩ := h.live f hf
    exact ⟨t', (hholds _ _).mpr ht', htf⟩

/-- The keys of the other polls, when the innermost one ends. -/
theorem not_mem_tail (h : PoolInv P ((id, t) :: polled)) : id ∉ polled.map Prod.fst :=
  (List.nodup_cons.mp h.nodup).1

/-- The innermost poll has an empty slot to put its task back into. -/
theorem putBack_eq (h : PoolInv P ((id, t) :: polled)) :
    P.putBack id t = { P with entry := Function.update P.entry id (some (some t)) } := by
  rw [TaskPool.putBack, h.entry_polled (List.mem_cons_self ..)]

/-- **A poll ends with `Pending`**: the task returns to its slot. -/
theorem putBack (h : PoolInv P ((id, t) :: polled)) : PoolInv (P.putBack id t) polled := by
  have hholds : ∀ id' t', (P.putBack id t).Holds polled id' t' ↔
      P.Holds ((id, t) :: polled) id' t' := by
    intro id' t'
    rw [h.putBack_eq]
    by_cases heq : id' = id
    · subst heq
      have hne : (id', t') ∉ polled := fun hmem => h.not_mem_tail (List.mem_map_of_mem hmem)
      simp only [TaskPool.Holds, Function.update_self, h.entry_polled (List.mem_cons_self ..),
        List.mem_cons, hne, Option.some.injEq, Prod.mk.injEq, true_and, reduceCtorEq, false_or,
        or_false, eq_comm (a := t)]
    · simp [TaskPool.Holds, heq]
  have hrest : (P.putBack id t).Live = P.Live ∧ (P.putBack id t).address = P.address := by
    rw [h.putBack_eq]
    exact ⟨rfl, rfl⟩
  refine ⟨(List.nodup_cons.mp h.nodup).2, fun id' => ?_, fun id' t' ht' => ?_, fun f hf => ?_,
    ?_, ?_, ?_, ?_⟩
  · rw [h.putBack_eq]
    by_cases heq : id' = id
    · subst heq
      simpa using h.not_mem_tail
    · simpa [Function.update_of_ne heq, heq] using h.empty_iff id'
  · rw [hrest.1, hrest.2]
    exact h.holds id' t' ((hholds id' t').mp ht')
  · rw [hrest.1] at hf
    obtain ⟨t', ht', htf⟩ := h.live f hf
    rw [hrest.2]
    exact ⟨t', (hholds _ _).mpr ht', htf⟩
  all_goals rw [h.putBack_eq]
  exacts [h.spawned, h.once, h.stats, h.removed]

/-- **A poll ends with `Ready`**: nothing panics, and what is removed, with its
statistics, is the task that has completed. -/
theorem complete_eq (h : PoolInv P ((id, t) :: polled)) : P.complete id t = .ok { P with
    entry := Function.update P.entry id none
    len := P.len - 1
    completed := t.future :: P.completed
    statsTaken := t.future :: P.statsTaken
    removed := some t.future :: P.removed } := by
  have hstat : t.taskStat = true := (h.holds id t (.inr (List.mem_cons_self ..))).2.2
  have hentry := h.entry_polled (List.mem_cons_self ..)
  simp [TaskPool.complete, TaskPool.putBack, hentry, TaskPool.addTaskStat, hstat,
    TaskPool.remove, bind, Except.bind]

theorem complete (h : PoolInv P ((id, t) :: polled)) {P' : TaskPool}
    (hP' : P.complete id t = .ok P') : PoolInv P' polled := by
  obtain rfl := Except.ok.inj (h.complete_eq.symm.trans hP')
  obtain ⟨hlive, haddr, -⟩ := h.holds id t (.inr (List.mem_cons_self ..))
  -- no other key holds a task of this future
  have hother : ∀ id' t', id' ≠ id → P.Holds ((id, t) :: polled) id' t' →
      t'.future ≠ t.future := by
    rintro id' t' hne ht' heq
    obtain ⟨-, haddr', -⟩ := h.holds id' t' ht'
    rw [heq, haddr] at haddr'
    exact hne (congrArg Prod.snd haddr').symm
  have hholds : ∀ id' t', id' ≠ id → (P.Holds ((id, t) :: polled) id' t' ↔
      (Function.update P.entry id none id' = some (some t') ∨ (id', t') ∈ polled)) := by
    intro id' t' hne
    simp [TaskPool.Holds, hne]
  have hgone : ∀ t', ¬(Function.update P.entry id none id = some (some t') ∨
      (id, t') ∈ polled) := by
    rintro t' (ht' | ht')
    · simp at ht'
    · exact h.not_mem_tail (List.mem_map_of_mem ht')
  refine ⟨(List.nodup_cons.mp h.nodup).2, fun id' => ?_, fun id' t' ht' => ?_, fun f hf => ?_,
    ?_, List.nodup_cons.mpr ⟨hlive.2, h.once⟩, congrArg _ h.stats, congrArg _ h.removed⟩
  · by_cases heq : id' = id
    · subst heq
      simpa using h.not_mem_tail
    · simpa [Function.update_of_ne heq, heq] using h.empty_iff id'
  · by_cases heq : id' = id
    · subst heq
      exact absurd ht' (hgone t')
    · have ht' := (hholds id' t' heq).mpr ht'
      obtain ⟨⟨hlt, hnc⟩, haddr', hstat⟩ := h.holds id' t' ht'
      exact ⟨⟨hlt, List.not_mem_cons_of_ne_of_not_mem (hother id' t' heq ht') hnc⟩, haddr', hstat⟩
  · have hne := List.ne_of_not_mem_cons hf.2
    have hnc := List.not_mem_of_not_mem_cons hf.2
    obtain ⟨t', ht', rfl⟩ := h.live f ⟨hf.1, hnc⟩
    have hid : (P.address t'.future).2 ≠ id := by
      intro heq
      rw [heq] at ht'
      exact hne (congrArg _ (h.holds_unique ht' (.inr (List.mem_cons_self ..))))
    exact ⟨t', (hholds _ _ hid).mp ht', rfl⟩
  · intro f hf
    rcases List.mem_cons.mp hf with rfl | hf
    · exact hlive.1
    · exact h.spawned f hf

end PoolInv

end Executor

end Pluvio
