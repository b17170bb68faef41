import Pluvio.Runtime.Completion

/-!
# Wakeups

A waker sends the key of its task to the queue of its task, and that is all: whether
the task is polled again depends on what the loops do with the id.

A loop that takes an id polls the task of that key, unless the slot is vacant or empty.
A vacant slot is nobody's. An empty one is that of a task being polled, and there the
wakeup would be lost. With no call nested in the poll of a task this cannot happen: a
loop takes ids only between its polls (`Pluvio.Executor.no_lost_wakeup`).
-/

namespace Pluvio

namespace Executor

/-! ### Wakeups in a schedule -/

namespace Schedule

variable {v v' : Schedule} {label : Option (ℕ × Bool)}

/-- A live future that has been woken waits. -/
def Remembers (v : Schedule) : Prop :=
  ∀ f, v.pool.Live f → v.woken f = true → (v.pool.address f).2 ∈ v.waiting (v.pool.address f).1

/-- An id that is not the one taken still waits. -/
theorem mem_take_of_ne {q q' : Queue} {id id' : ℕ} {rest : Multiset ℕ}
    (hw : v.waiting q = id ::ₘ rest) (hmem : id' ∈ v.waiting q') (hne : id' ≠ id) :
    id' ∈ (v.take q rest).waiting q' := by
  by_cases hq : q' = q
  · subst hq
    rw [waiting_take_self]
    exact (Multiset.mem_cons.mp (hw ▸ hmem)).resolve_left hne
  · rwa [waiting_take_of_ne v rest hq]

/-- More ids wait after one has been sent. -/
theorem mem_send {q q' : Queue} {id id' : ℕ} (hmem : id' ∈ v.waiting q') :
    id' ∈ (v.send q id).waiting q' := by
  by_cases hq : q' = q
  · subst hq
    rw [waiting_send_self]
    exact Multiset.mem_cons_of_mem hmem
  · rwa [waiting_send_of_ne v id hq]

theorem mem_send_self (v : Schedule) (q : Queue) (id : ℕ) : id ∈ (v.send q id).waiting q := by
  rw [waiting_send_self]
  exact Multiset.mem_cons_self id _

/-- **A transition and the wakeups**: nothing is forgotten, provided that ids are taken
only while no task is being polled. -/
theorem Step.remembers (h : v.Step label v') (hinv : PoolInv v.pool v.polled)
    (hidle : label ≠ none → v.polled = []) (hrem : v.Remembers) : v'.Remembers := by
  cases h with
  | quiet => exact hrem
  | wake g hg =>
    intro f hf hwoken
    by_cases hfg : f = g
    · subst hfg
      exact mem_send_self ..
    · exact mem_send (hrem f hf ((Function.update_of_ne hfg ..).symm.trans hwoken))
  | spawn q id hid =>
    intro f hf hwoken
    by_cases hnew : f = v.pool.spawned
    · subst hnew
      have haddr : (v.spawn q id).pool.address v.pool.spawned = (q, id) := Function.update_self ..
      rw [haddr]
      exact mem_send_self ..
    · have haddr : (v.spawn q id).pool.address f = v.pool.address f :=
        Function.update_of_ne hnew ..
      rw [haddr]
      exact mem_send (hrem f ⟨lt_of_le_of_ne (Nat.le_of_lt_succ hf.1) hnew, hf.2⟩ hwoken)
  | take q id b rest hw =>
    intro f hf hwoken
    rcases hentry : (v.take q rest).pool.entry id with - | - | t
    · rw [pollTask_vacant hentry] at hf hwoken ⊢
      have hne : (v.pool.address f).2 ≠ id := fun heq =>
        hinv.entry_ne_none hf (heq ▸ hentry)
      exact mem_take_of_ne hw (hrem f hf hwoken) hne
    · -- a task would be in the middle of its poll
      have hmem := (hinv.empty_iff id).mp hentry
      rw [hidle nofun] at hmem
      exact nomatch hmem
    · rw [pollTask_task hentry] at hf hwoken ⊢
      have hne : (v.pool.address f).2 ≠ id := by
        rintro rfl
        obtain rfl := hinv.entry_live hf hentry
        exact absurd ((Function.update_self ..).symm.trans hwoken) nofun
      have hft : f ≠ t.future := by
        rintro rfl
        exact hne (congrArg Prod.snd (hinv.holds id t (.inl hentry)).2.1)
      exact mem_take_of_ne hw (hrem f hf ((Function.update_of_ne hft ..).symm.trans hwoken)) hne
  | pending id t outer hp =>
    have heq := (hp ▸ hinv).putBack_eq
    intro f hf hwoken
    rw [heq] at hf ⊢
    exact hrem f hf hwoken
  | ready id t outer P hp hP =>
    obtain rfl := Except.ok.inj ((hp ▸ hinv).complete_eq.symm.trans hP)
    exact fun f hf hwoken => hrem f ⟨hf.1, List.not_mem_of_not_mem_cons hf.2⟩ hwoken

end Schedule

/-! ### Runs without nested calls -/

variable {cfg : SchedulingConfig} {s s' : Runtime} {e : Event}

/-- No task calls a loop from inside its own poll. -/
def NotNested (s : Runtime) (e : Event) : Prop := s.called e ≠ none → s.polled = []

/-- **No lost wakeup**: a live future that has been woken since its last poll began has its
id in its queue or in the part of the buffer that has not been processed. -/
def NoLostWakeup (s : Runtime) : Prop :=
  ∀ f, s.pool.Live f → s.woken f = true → (s.pool.address f).2 ∈ s.waiting (s.pool.address f).1

/-- At most one call is under way, and no wakeup is lost. -/
structure WakeInv (s : Runtime) : Prop where
  tasks : TasksInv s
  calls : s.stack.length ≤ 1
  remembers : NoLostWakeup s

/-- With one call at most, an id is taken while no task is being polled. -/
theorem WakeInv.idle (h : WakeInv s) {id : ℕ} {b : Bool}
    (htaken : s.taken e = some (id, b)) : s.polled = [] := by
  obtain ⟨-, f, below, p, hs, hpc⟩ := Runtime.taken_eq_some htaken
  have hlen := h.calls
  rw [hs, List.length_cons] at hlen
  obtain rfl : below = [] := List.length_eq_zero_iff.mp (by omega)
  rw [Runtime.polled, hs, List.filterMap_cons, hpc]
  rfl

/-- Without nested calls one call is under way at most. -/
theorem WakeInv.length (h : WakeInv s) (hok : NotNested s e) (hs : step cfg s e = some s') :
    s'.stack.length ≤ 1 := by
  have hlen : ∀ s : Runtime, s.calls.length = s.stack.length := fun s => List.length_map _
  rw [← hlen]
  rcases hc : s.called e with - | c
  · have hle : s.calls.length ≤ 1 := (hlen s).trans_le h.calls
    rcases Runtime.calls_of_not_called hc hs with heq | heq <;> rw [heq]
    · exact hle
    · rw [List.length_tail]
      omega
  · obtain ⟨hcode, hcalls⟩ := Runtime.calls_of_called hc hs
    rw [hcalls, List.length_cons, hlen,
      Runtime.stack_eq_nil hcode (hok (by rw [hc]; nofun)), List.length_nil]

/-- Every step keeps the id of a task that has been woken where it will be handled. -/
theorem WakeInv.step (h : WakeInv s) (hok : NotNested s e) (hs : step cfg s e = some s') :
    WakeInv s' where
  tasks := h.tasks.step hs
  calls := h.length hok hs
  remembers := (Runtime.step_schedule hs).remembers h.tasks.pool
    (fun hne => by
      obtain ⟨⟨id, b⟩, hid⟩ := Option.ne_none_iff_exists'.mp hne
      exact h.idle hid) h.remembers

/-- **No wakeup is lost** in a run in which no task drives the runtime from inside its own
poll. -/
theorem no_lost_wakeup (cfg : SchedulingConfig) (es : List Event)
    (hok : EachStep (step cfg) NotNested start es) :
    Always (step cfg) NoLostWakeup start es :=
  always_of_invariant (fun _ h => WakeInv.remembers h) (fun _ _ _ h hok hs => h.step hok hs)
    ⟨tasksInv_start, Nat.zero_le 1, fun _ hf => absurd hf.1 (Nat.not_lt_zero _)⟩ hok

/-- A task that wakes itself in its first poll. -/
def yieldOnce : List Event :=
  [.spawn .task 0, .runQueue, .move .exec, .move .exec, .move .exec, .move .exec, .wake 0,
    .move .pending]

/-- A task that wakes itself is not forgotten. -/
theorem no_lost_wakeup_yieldOnce : Always (step .default) NoLostWakeup start yieldOnce ∧
    ∃ s, runList (step .default) start yieldOnce = some s ∧ s.woken 0 = true ∧
      s.pool.Live 0 ∧ s.queue .task = [0] := by
  refine ⟨no_lost_wakeup .default yieldOnce ?_, _, rfl, by decide⟩
  -- the one call is made from outside
  refine fun s₁ h₁ => ⟨absurd rfl, fun s₂ h₂ => ⟨fun _ => ?_, fun s₃ _ => ⟨absurd rfl, ?_⟩⟩⟩
  · obtain rfl := Option.some.inj h₁
    rfl
  · exact fun _ _ => ⟨absurd rfl, fun _ _ => ⟨absurd rfl, fun _ _ => ⟨absurd rfl, fun _ _ =>
      ⟨absurd rfl, fun _ _ => ⟨absurd rfl, trivial⟩⟩⟩⟩⟩

end Executor

end Pluvio
