import Pluvio.Runtime.Cadence
import Pluvio.Runtime.Fairness

/-!
# A reactor and its runtime

A reactor is a device of its own (`Pluvio.Executor.Device`): tasks use it while they are polled,
the world changes it, and the executor asks it for its status and polls it now and then, in which
it invokes wakers. With a runtime it is one system (`Pluvio.Executor.Device.next`), in which the
executor goes on as it likes, also with other reactors.

What the executor owes to such a reactor is the same for all of them. A duty of the reactor is
something that keeps it `Running`, and that its next poll does, in which the waker of some future
is invoked (`Pluvio.Executor.Duty`). It is done before so many iterations have begun, because no
reactor that is `Running` is forgotten (`Pluvio.Executor.Overdue`), and from then on the future
waits for its turn, which comes (`Pluvio.Executor.OrderInv.polled_within`). This is
`Pluvio.Executor.Duty.woken_within`.
-/

namespace Pluvio

namespace Executor

/-! ### The system -/

/-- **A reactor**, with what can happen to it and what a poll of it depends on. -/
structure Device (D ε π : Type*) where
  /-- Whether `Reactor::status` is `Running`. -/
  running : D → Bool
  /-- What happens to it between its polls. The future that is being polled is given, if there is
  one: its waker is the one that is left behind. -/
  step : D → Option ℕ → ε → Option D
  /-- `Reactor::poll`, with the futures whose wakers it invokes. -/
  poll : D → π → Option (D × List ℕ)

/-- A runtime, the reactor `0` of which is the device. A waker is named by its future. -/
structure Attached (D : Type*) where
  served : Served
  device : D

/-- What can happen to the executor and to the device that is attached to it. -/
inductive AttachedEvent (ε π : Type*)
  | runtime (e : Event)
  | device (e : ε)
  | poll (x : π)

/-- The reactor is registered, and nothing has happened. -/
def Attached.start {D : Type*} (d : D) : Attached D where
  served := { servedStart with runtime := { Executor.start with reactors := [0] } }
  device := d

/-- The future whose body runs. -/
def pollee (rt : Runtime) : Option ℕ :=
  rt.stack.head?.bind fun f => match f.pc with
    | .task _ _ t => some t.future
    | _ => none

/-- The executor's event is none of the reactor's. -/
def ofOthers (rt : Runtime) : Event → Bool
  | .move .reactorDone => rt.attended ≠ some 0
  | .register r _ | .setRunning r _ => r ≠ 0
  | _ => true

/-- The reactor invokes these wakers and returns. -/
def wakes (l : List ℕ) : List Event := l.map Event.wake ++ [.move .reactorDone]

variable {D ε π : Type*} (dev : Device D ε π)

/-- One step. The executor may ask for the status of the reactor in each of its own. -/
def Device.next (cfg : SchedulingConfig) (s : Attached D) (e : AttachedEvent ε π) :
    Option (Attached D) :=
  if s.served.runtime.panicked ≠ none then none
  else match e with
  | .runtime e =>
    if ofOthers s.served.runtime e then
      (runList (servedStep cfg) s.served [.setRunning 0 (dev.running s.device), e]).map
        fun served => { s with served := served }
    else none
  | .device e => (dev.step s.device (pollee s.served.runtime) e).map fun d =>
    { s with device := d }
  | .poll x =>
    if s.served.runtime.attended = some 0 then
      (dev.poll s.device x).bind fun r =>
        (runList (servedStep cfg) s.served (wakes r.2)).map fun served => ⟨served, r.1⟩
    else none

/-- No task calls a loop from inside its own poll. -/
def Attached.NotNested (s : Attached D) (e : AttachedEvent ε π) : Prop :=
  ∀ e', e = .runtime e' → ServedNotNested s.served e'

/-- A move of the executor, a spawn, or a poll. -/
def AttachedEvent.quiet : AttachedEvent ε π → Bool
  | .runtime (.move _) | .runtime (.spawn _ _) | .poll _ => true
  | _ => false

variable {dev} {cfg : SchedulingConfig} {s s' : Attached D} {e : AttachedEvent ε π}

/-- Such an event calls no loop and is none of the device's. -/
theorem AttachedEvent.quiet_spec (he : e.quiet = true) (s : Attached D) :
    s.NotNested e ∧ ∀ e', e ≠ .device e' := by
  cases e with
  | runtime e =>
    refine ⟨?_, by simp⟩
    rintro _ ⟨⟩ hcalled
    cases e with
    | move m => exact absurd rfl hcalled
    | spawn q key => exact absurd rfl hcalled
    | _ => cases he
  | device e => cases he
  | poll x => exact ⟨by rintro _ ⟨⟩, by simp⟩

/-- **A step** is one of the executor, one of the reactor, or a poll. -/
inductive Device.Next (dev : Device D ε π) (cfg : SchedulingConfig) (s : Attached D)
    (e : AttachedEvent ε π) (s' : Attached D) : Prop
  | runtime (e' : Event) (event : e = .runtime e')
      (others : ofOthers s.served.runtime e' = true)
      (run : runList (servedStep cfg) s.served [.setRunning 0 (dev.running s.device), e'] =
        some s'.served)
      (device : s'.device = s.device)
  | device (e' : ε) (event : e = .device e')
      (step : dev.step s.device (pollee s.served.runtime) e' = some s'.device)
      (served : s'.served = s.served)
  | poll (x : π) (l : List ℕ) (event : e = .poll x)
      (attended : s.served.runtime.attended = some 0)
      (poll : dev.poll s.device x = some (s'.device, l))
      (run : runList (servedStep cfg) s.served (wakes l) = some s'.served)

theorem Device.next_cases (hs : dev.next cfg s e = some s') : dev.Next cfg s e s' := by
  obtain ⟨-, hs⟩ := Option.ite_none_left_eq_some.mp hs
  cases e with
  | runtime e =>
    obtain ⟨hothers, hs⟩ := Option.ite_none_right_eq_some.mp hs
    obtain ⟨served, hserved, rfl⟩ := Option.map_eq_some_iff.mp hs
    exact .runtime e rfl hothers hserved rfl
  | device e =>
    obtain ⟨d, hd, rfl⟩ := Option.map_eq_some_iff.mp hs
    exact .device e rfl hd rfl
  | poll x =>
    obtain ⟨hattended, hs⟩ := Option.ite_none_right_eq_some.mp hs
    obtain ⟨⟨d, l⟩, hpoll, hs⟩ := Option.bind_eq_some_iff.mp hs
    obtain ⟨served, hserved, rfl⟩ := Option.map_eq_some_iff.mp hs
    exact .poll x l rfl hattended hpoll hserved

/-- What a step is for the executor. -/
theorem Device.exists_events (hok : s.NotNested e) (hs : dev.next cfg s e = some s') :
    ∃ es, EachStep (servedStep cfg) ServedNotNested s.served es ∧
      runList (servedStep cfg) s.served es = some s'.served := by
  cases Device.next_cases hs with
  | runtime e' event others run device =>
    refine ⟨[.setRunning 0 (dev.running s.device), e'],
      fun u hu => ⟨absurd rfl, fun _ _ => ⟨?_, trivial⟩⟩, run⟩
    obtain ⟨rt, hrt, rfl⟩ := servedStep_eq_some hu
    obtain ⟨-, hrt⟩ := Option.ite_none_left_eq_some.mp hrt
    obtain rfl := Option.some.inj hrt
    exact notNested_setRunning (hok e' event)
  | device e' event step served => exact ⟨[], trivial, congrArg some served.symm⟩
  | poll x l event attended poll run =>
    refine ⟨_, ?_, run⟩
    have hwakes : ∀ (l : List ℕ) (u : Served),
        EachStep (servedStep cfg) ServedNotNested u (wakes l) := by
      intro l
      induction l with
      | nil => exact fun _ _ _ => ⟨absurd rfl, trivial⟩
      | cons a l ih => exact fun _ u _ => ⟨absurd rfl, ih u⟩
    exact hwakes l s.served

/-- **What a run is for the executor** is a run without nested calls. -/
theorem Device.exists_run {es : List (AttachedEvent ε π)}
    (hok : EachStep (dev.next cfg) Attached.NotNested s es)
    (hrun : runList (dev.next cfg) s es = some s') :
    ∃ es', EachStep (servedStep cfg) ServedNotNested s.served es' ∧
      runList (servedStep cfg) s.served es' = some s'.served := by
  induction es generalizing s with
  | nil => exact ⟨[], trivial, congrArg (some ∘ Attached.served) (Option.some.inj hrun)⟩
  | cons e es ih =>
    obtain ⟨u, hu, hrest⟩ := Option.bind_eq_some_iff.mp hrun
    obtain ⟨hoke, hoks⟩ := hok u hu
    obtain ⟨es₁, hok₁, hrun₁⟩ := Device.exists_events hoke hu
    obtain ⟨es₂, hok₂, hrun₂⟩ := ih hoks hrest
    refine ⟨es₁ ++ es₂, hok₁.append hrun₁ hok₂, ?_⟩
    rw [runList_append, hrun₁]
    exact hrun₂

/-! ### The executor's part -/

/-- What holds of the executor while no task calls a loop from inside its own poll. -/
structure Driven (cfg : SchedulingConfig) (u : Served) : Prop where
  numbers : NumbersInv cfg u.runtime
  order : OrderInv u
  registered : 0 ∈ u.runtime.reactors

theorem driven_start (cfg : SchedulingConfig) (d : D) : Driven cfg (Attached.start d).served where
  numbers := ⟨Nat.zero_le 1, fun _ hf => absurd hf List.not_mem_nil, fun _ => Nat.zero_le _⟩
  order := {
    wake := ⟨⟨.new, tasksInv_start.panicked⟩, Nat.zero_le 1, fun _ hf =>
      absurd hf.1 (Nat.not_lt_zero _)⟩
    inOrder := fun _ => rfl }
  registered := List.mem_singleton_self 0

/-- **A run of the executor.** -/
theorem Driven.run {u u' : Served} {es : List Event} (hu : Driven cfg u)
    (hinterval : 0 < cfg.reactorPollInterval)
    (hok : EachStep (servedStep cfg) ServedNotNested u es)
    (hrun : runList (servedStep cfg) u es = some u') : Driven cfg u' := by
  refine (always_of_invariant (fun _ h => h) ?_ hu hok).last hrun
  intro v e v' hv hok hs
  obtain ⟨rt, hrt, rfl⟩ := servedStep_eq_some hs
  exact ⟨hv.numbers.step hinterval hok hrt, hv.order.step hok hs,
    hv.numbers.mem_reactors hok hrt hv.registered⟩

/-- No event of the device or of the executor begins a nested call, takes an id out of turn, or
registers the device anew. -/
theorem Driven.next (hu : Driven cfg s.served) (hinterval : 0 < cfg.reactorPollInterval)
    (hok : s.NotNested e) (hs : dev.next cfg s e = some s') : Driven cfg s'.served := by
  obtain ⟨es, hok, hrun⟩ := Device.exists_events hok hs
  exact hu.run hinterval hok hrun

/-! ### The wakers that are invoked -/

section Wakers

variable {u u' : Served} {f : ℕ}

/-- An event that takes no id leaves a future queued. -/
theorem queued_step {e : Event} (horder : OrderInv u)
    (hs : servedStep cfg u e = some u') (htakes : ∀ q, u.runtime.takes q e = [])
    (hf : f < u.runtime.pool.spawned) (hq : Queued u.runtime f) :
    f < u'.runtime.pool.spawned ∧ Queued u'.runtime f := by
  obtain ⟨rt, hrt, rfl⟩ := servedStep_eq_some hs
  obtain ⟨hspawned, haddress⟩ :=
    (Runtime.step_schedule hrt).address_eq horder.wake.tasks.pool hf
  refine ⟨hspawned, ?_⟩
  show (rt.pool.address f).2 ∈ rt.waiting (rt.pool.address f).1
  have hline := (Runtime.line_step hrt (u.runtime.pool.address f).1).1
  rw [htakes, List.nil_append] at hline
  rw [Queued, ← Runtime.coe_line, Multiset.mem_coe] at hq
  have heq : rt.pool.address f = u.runtime.pool.address f := haddress
  rw [heq, ← Runtime.coe_line, Multiset.mem_coe, hline.mem_iff]
  exact List.mem_append_left _ hq

/-- A future whose waker is invoked is queued. -/
theorem queued_wake (hs : servedStep cfg u (.wake f) = some u') :
    f < u'.runtime.pool.spawned ∧ Queued u'.runtime f := by
  obtain ⟨rt, hrt, rfl⟩ := servedStep_eq_some hs
  obtain ⟨-, hwake⟩ := Option.ite_none_left_eq_some.mp hrt
  obtain ⟨⟨-, hf⟩, hwake⟩ := Option.ite_none_right_eq_some.mp hwake
  obtain rfl := Option.some.inj hwake
  refine ⟨hf, ?_⟩
  show (u.runtime.pool.address f).2 ∈ (u.runtime.wake f).waiting (u.runtime.pool.address f).1
  have hline := Runtime.line_event hrt (by simp) (u.runtime.pool.address f).1
  rw [← Runtime.coe_line, Multiset.mem_coe, hline, Runtime.sends, if_pos rfl]
  exact List.mem_append_right _ (List.mem_singleton_self _)

/-- When a reactor returns, no iteration begins. -/
theorem iterationCount_reactorDone {rt rt' : Runtime}
    (hs : step cfg rt (.move .reactorDone) = some rt') :
    rt'.iterationCount = rt.iterationCount := by
  obtain ⟨-, hs⟩ := Option.ite_none_left_eq_some.mp hs
  rcases hstack : rt.stack with - | ⟨g, below⟩
  · simp only [hstack] at hs
    cases hs
  · simp only [hstack] at hs
    cases hpc : g.pc with
    | reactor r left drained =>
      rw [hpc] at hs
      obtain rfl := Option.some.inj hs
      rfl
    | _ =>
      rw [hpc] at hs
      cases hs

/-- **Wakers are invoked, and the reactor returns**: their futures are queued, and no iteration
begins. -/
theorem queued_wakes {l : List ℕ} (horder : OrderInv u)
    (hs : runList (servedStep cfg) u (wakes l) = some u') :
    u'.runtime.iterationCount = u.runtime.iterationCount ∧
      ∀ f, f ∈ l ∨ f < u.runtime.pool.spawned ∧ Queued u.runtime f →
        f < u'.runtime.pool.spawned ∧ Queued u'.runtime f := by
  induction l generalizing u with
  | nil =>
    obtain ⟨v, hv, hrest⟩ := Option.bind_eq_some_iff.mp hs
    obtain rfl := Option.some.inj hrest
    refine ⟨?_, fun f hf => ?_⟩
    · obtain ⟨rt, hrt, rfl⟩ := servedStep_eq_some hv
      exact iterationCount_reactorDone hrt
    · obtain ⟨hspawned, hq⟩ := hf.resolve_left List.not_mem_nil
      exact queued_step horder hv (fun _ => rfl) hspawned hq
  | cons a l ih =>
    obtain ⟨v, hv, hrest⟩ := Option.bind_eq_some_iff.mp hs
    obtain ⟨hcount, hqueued⟩ := ih (horder.step (absurd rfl) hv) hrest
    constructor
    · rw [hcount]
      obtain ⟨rt, hrt, rfl⟩ := servedStep_eq_some hv
      obtain ⟨-, hwake⟩ := Option.ite_none_left_eq_some.mp hrt
      obtain ⟨-, hwake⟩ := Option.ite_none_right_eq_some.mp hwake
      obtain rfl := Option.some.inj hwake
      rfl
    · rintro f (hf | ⟨hspawned, hq⟩)
      · rcases List.mem_cons.mp hf with rfl | hf
        · exact hqueued _ (.inr (queued_wake hv))
        · exact hqueued f (.inl hf)
      · exact hqueued f (.inr (queued_step horder hv (fun _ => rfl) hspawned hq))

end Wakers

/-! ### What the executor owes to a reactor -/

/-- **A duty of the reactor** to a future: as long as it is due the reactor is `Running`, nothing
but a poll ends it, and the poll invokes the waker of the future. -/
structure Duty (dev : Device D ε π) (ok : Attached D → AttachedEvent ε π → Prop)
    (due done : D → Prop) (f : ℕ) : Prop where
  running : ∀ d, due d → dev.running d = true
  step : ∀ s e d, due s.device → ok s (.device e) →
    dev.step s.device (pollee s.served.runtime) e = some d → due d
  poll : ∀ s x d l, due s.device → ok s (.poll x) → dev.poll s.device x = some (d, l) →
    f ∈ l ∧ done d

section Duty

variable {ok : Attached D → AttachedEvent ε π → Prop} {due done : D → Prop} {f n₀ M : ℕ}

/-- **The duty is due**: the reactor has still to be polled, or is being polled. -/
structure Waiting (cfg : SchedulingConfig) (due : D → Prop) (n₀ M : ℕ) (s : Attached D) :
    Prop where
  driven : Driven cfg s.served
  due : due s.device
  way : s.served.runtime.attended ≠ some 0 ∧
      Overdue cfg 0 n₀ M (s.served.runtime.setRunning 0 true) ∨
    s.served.runtime.attended = some 0 ∧
      s.served.runtime.iterationCount ≤ M + cfg.reactorPollInterval + 1

/-- The device has done it, in time, and the id of the future waits. -/
structure Woken (cfg : SchedulingConfig) (done : D → Prop) (f M : ℕ) (s : Attached D) : Prop where
  driven : Driven cfg s.served
  done : done s.device
  count : s.served.runtime.iterationCount ≤ M + cfg.reactorPollInterval + 1
  spawned : f < s.served.runtime.pool.spawned
  queued : Queued s.served.runtime f

/-- So many iterations have begun at most. -/
theorem Waiting.count (h : Waiting cfg due n₀ M s) :
    s.served.runtime.iterationCount ≤ M + cfg.reactorPollInterval + 1 := by
  rcases h.way with ⟨-, hoverdue⟩ | ⟨-, hcount⟩
  · exact hoverdue.bound.elim (fun hle => hle.trans (Nat.le_succ _)) fun hlast => hlast.1.le
  · exact hcount

/-- An event that is none of the reactor's leaves its status to it. -/
theorem staysRunning_of_ofOthers {rt : Runtime} {e : Event} (he : ofOthers rt e = true) :
    StaysRunning 0 e := by
  constructor
  · rintro rfl
    simp [ofOthers] at he
  · rintro order rfl
    simp [ofOthers] at he

/-- An event of the executor brings the poll of the device nearer, or is that poll. -/
theorem Waiting.runtime {e : Event} (h : Waiting cfg due n₀ M s)
    (hinterval : 0 < cfg.reactorPollInterval) (honly : 0 < cfg.maxReactorOnly)
    (hM : n₀ + cfg.statusCacheIterations ≤ M) (hmul : M % cfg.reactorPollInterval = 0)
    (hok : ServedNotNested s.served e) (hothers : ofOthers s.served.runtime e = true)
    {served : Served}
    (hs : runList (servedStep cfg) s.served [.setRunning 0 true, e] = some served) :
    served.runtime.attended ≠ some 0 ∧ Overdue cfg 0 n₀ M (served.runtime.setRunning 0 true) ∨
      served.runtime.attended = some 0 ∧
        served.runtime.iterationCount ≤ M + cfg.reactorPollInterval + 1 := by
  obtain ⟨u, hu, hs⟩ := Option.bind_eq_some_iff.mp hs
  obtain ⟨v, hv, hs⟩ := Option.bind_eq_some_iff.mp hs
  obtain rfl := Option.some.inj hs
  obtain ⟨rt₁, hrt₁, rfl⟩ := servedStep_eq_some hu
  obtain ⟨-, hrt₁⟩ := Option.ite_none_left_eq_some.mp hrt₁
  obtain rfl := Option.some.inj hrt₁
  obtain ⟨rt, hrt, rfl⟩ := servedStep_eq_some hv
  rcases h.way with ⟨-, hoverdue⟩ | ⟨hattended, hcount⟩
  · rcases hoverdue.step (h.driven.numbers.setRunning 0 true) hinterval honly hM hmul
      (notNested_setRunning hok) (staysRunning_of_ofOthers hothers) hrt with
      hoverdue' | ⟨-, hattended, heq⟩
    · by_cases hattended : rt.attended = some 0
      · refine .inr ⟨hattended, ?_⟩
        exact hoverdue'.bound.elim (fun hle => hle.trans (Nat.le_succ _)) fun hlast => hlast.1.le
      · exact .inl ⟨hattended, hoverdue'.setRunning⟩
    · exact .inr ⟨hattended, heq.trans_le h.count⟩
  · have hdone : e ≠ .move .reactorDone := by
      rintro rfl
      simp [ofOthers, hattended] at hothers
    obtain ⟨hattended', heq⟩ := attended_step
      ((attended_setRunning ..).trans hattended) hdone hrt
    exact .inr ⟨hattended', heq.trans_le hcount⟩

/-- **One step**: the duty stays due, or it is done. -/
theorem Duty.next (hduty : Duty dev ok due done f) (h : Waiting cfg due n₀ M s)
    (hinterval : 0 < cfg.reactorPollInterval) (honly : 0 < cfg.maxReactorOnly)
    (hM : n₀ + cfg.statusCacheIterations ≤ M) (hmul : M % cfg.reactorPollInterval = 0)
    (hok : s.NotNested e ∧ ok s e) (hs : dev.next cfg s e = some s') :
    Waiting cfg due n₀ M s' ∨ Woken cfg done f M s' := by
  have hdriven := h.driven.next hinterval hok.1 hs
  cases Device.next_cases hs with
  | runtime e' event others run device =>
    rw [hduty.running _ h.due] at run
    exact .inl ⟨hdriven, device ▸ h.due,
      h.runtime hinterval honly hM hmul (hok.1 e' event) others run⟩
  | device e' event step served =>
    subst event
    exact .inl ⟨hdriven, hduty.step s e' _ h.due hok.2 step, served ▸ h.way⟩
  | poll x l event attended poll run =>
    subst event
    obtain ⟨hmem, hdone⟩ := hduty.poll s x _ l h.due hok.2 poll
    obtain ⟨hcount, hqueued⟩ := queued_wakes h.driven.order run
    obtain ⟨hspawned, hq⟩ := hqueued f (.inl hmem)
    exact .inr ⟨hdriven, hdone, hcount.trans_le h.count, hspawned, hq⟩

/-- **A duty is done in time.** In a run in which no task drives the runtime from inside its own
poll, what is due is done before so many iterations have begun; and when so many more have ended
that all the ids in front of the future have had their turn, it has been polled, or has
completed. -/
theorem Duty.woken_within (hduty : Duty dev ok due done f)
    (hinterval : 0 < cfg.reactorPollInterval) (honly : 0 < cfg.maxReactorOnly)
    (hdriven : Driven cfg s.served) (hdue : due s.device) {es : List (AttachedEvent ε π)}
    (hok : EachStep (dev.next cfg) (fun s e => s.NotNested e ∧ ok s e) s es)
    (hrun : runList (dev.next cfg) s es = some s')
    (hlong : s.served.runtime.iterationCount + cfg.statusCacheIterations +
      2 * cfg.reactorPollInterval < s'.served.runtime.iterationCount) :
    ∃ es₁ es₂ t, es = es₁ ++ es₂ ∧ runList (dev.next cfg) s es₁ = some t ∧
      t.served.runtime.iterationCount ≤ s.served.runtime.iterationCount +
        cfg.statusCacheIterations + 2 * cfg.reactorPollInterval ∧
      done t.device ∧ Queued t.served.runtime f ∧
      ∀ k, Covers cfg t.served.runtime k (t.served.runtime.pool.address f).1 →
        t.served.iterations + k < s'.served.iterations →
          t.served.polls f < s'.served.polls f ∨ f ∈ s'.served.runtime.pool.completed := by
  obtain ⟨M, hmul, hM, hlt⟩ := exists_multiple
    (s.served.runtime.iterationCount + cfg.statusCacheIterations) hinterval
  have hstart : Waiting cfg due s.served.runtime.iterationCount M s := by
    refine ⟨hdriven, hdue, ?_⟩
    by_cases hattended : s.served.runtime.attended = some 0
    · exact .inr ⟨hattended, by omega⟩
    · refine .inl ⟨hattended, ?_⟩
      exact (hdriven.numbers.setRunning 0 true).overdue hdriven.registered
        (by simp [Runtime.setRunning]) hM
  rcases exists_first (fun _ _ _ h hok hs => hduty.next h hinterval honly hM hmul hok hs)
    hstart hok hrun with h | ⟨es₁, es₂, t, rfl, hrun₁, hwoken, hok₂, hrun₂⟩
  · have hcount := h.count
    -- the reactor is being polled in the last iteration that may begin without it
    rcases h.way with ⟨-, hoverdue⟩ | ⟨-, -⟩
    · have hbound := hoverdue.bound
      simp only [Runtime.setRunning] at hbound
      omega
    · omega
  · have hcount := hwoken.count
    refine ⟨es₁, es₂, t, rfl, hrun₁, by omega, hwoken.done, hwoken.queued, fun k hk hn => ?_⟩
    obtain ⟨es', hok', hrun'⟩ := Device.exists_run (hok₂.mono fun _ _ h => h.1) hrun₂
    by_cases hcompleted : f ∈ t.served.runtime.pool.completed
    · right
      have hkeep : ∀ u e u', (OrderInv u ∧ f ∈ u.runtime.pool.completed) → ServedNotNested u e →
          servedStep cfg u e = some u' → OrderInv u' ∧ f ∈ u'.runtime.pool.completed := by
        rintro u e u' ⟨horder, hmem⟩ hok hs
        refine ⟨horder.step hok hs, ?_⟩
        obtain ⟨rt, hrt, rfl⟩ := servedStep_eq_some hs
        exact (Runtime.step_schedule hrt).completed_subset horder.wake.tasks.pool hmem
      exact ((always_of_invariant (fun _ h => h) hkeep
        ⟨hwoken.driven.order, hcompleted⟩ hok').last hrun').2
    · exact hwoken.driven.order.polled_within hok' hrun' ⟨hwoken.spawned, hcompleted⟩
        hwoken.queued hk hn

end Duty

/-! ### The first poll of a task -/

/-- So many moves of the executor. -/
def execs (m : ℕ) : List (AttachedEvent ε π) := List.replicate m (.runtime (.move .exec))

/-- A task is spawned, and polled in the first iteration. -/
def firstPoll : List (AttachedEvent ε π) :=
  .runtime (.spawn .task 0) :: .runtime .runQueue :: execs 5

theorem firstPoll_notNested (d : D) :
    EachStep (dev.next cfg) Attached.NotNested (.start d) firstPoll := by
  intro s₁ h₁
  refine ⟨(AttachedEvent.quiet_spec rfl _).1, fun s₂ _ => ⟨?_, ?_⟩⟩
  · rintro _ ⟨⟩ -
    cases h₁
    rfl
  · refine eachStep_of_forall (fun e he s => ?_) s₂
    obtain rfl := List.eq_of_mem_replicate he
    exact (AttachedEvent.quiet_spec rfl s).1

/-- The task waits, and the next iteration polls the reactor, and then the task; two more
begin. -/
def polledNext (x : π) : List (AttachedEvent ε π) :=
  .runtime (.move .pending) :: (execs 4 ++ [.poll x] ++ execs 3 ++ [.runtime (.move .pending)] ++
    execs 9)

theorem quiet_polledNext (x : π) :
    (polledNext x : List (AttachedEvent ε π)).all AttachedEvent.quiet = true := rfl

end Executor

end Pluvio
