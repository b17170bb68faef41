import Mathlib.Data.List.Basic
import Mathlib.Logic.Basic
import Mathlib.Tactic.Push

/-!
# Runs of a partial step function

A machine is a partial function `step : σ → ε → Option σ`: `none` says that the
event is not enabled. Everything proved about the runs of such a machine goes
through five rules: an invariant holds along a run
(`Pluvio.Steps.invariant`), a run whose states all allow its events is a run
under the corresponding guard (`Pluvio.Steps.guarded`), a run given as a
list of events is a run (`Pluvio.Steps.of_run`), runs end when every step makes a
measure smaller (`Pluvio.Steps.exists_stuck`), and the condition under which a
property holds all along a run is exact (`Pluvio.always_iff_eachStep`).

A condition on what the callers of a machine do may speak of what they did before. For
this the machine is taken together with a memory that is fed with its steps and does not act
on it (`Pluvio.withMemory`), so that a property of its states is a property of the states of
the machine itself (`Pluvio.always_withMemory`). The memory that keeps everything is the list
of the events so far (`Pluvio.withPast`).

A machine terminates well (`Pluvio.Terminates`) when its runs are no longer than some
bound and can only stop in a good state.

The guard `ok` of `Pluvio.Steps` restricts the events of a run by the state they
are taken in. It is how an assumption on the schedule enters a statement.
-/

namespace Pluvio

variable {σ ε : Type*}

/-- The states reached from `s₀` by steps whose events are all `ok` in the state
they are taken in. -/
inductive Steps (step : σ → ε → Option σ) (ok : σ → ε → Prop) (s₀ : σ) : σ → Prop
  /-- The run of no step. -/
  | refl : Steps step ok s₀ s₀
  /-- A run goes on with an event that the guard allows. -/
  | tail {s s' : σ} {e : ε} : Steps step ok s₀ s → ok s e → step s e = some s' →
      Steps step ok s₀ s'

/-- The states reached from `s₀` by any steps at all. -/
abbrev Reaches (step : σ → ε → Option σ) (s₀ s : σ) : Prop :=
  Steps step (fun _ _ => True) s₀ s

/-- No event is enabled: the machine has come to its end. -/
def Stuck (step : σ → ε → Option σ) (s : σ) : Prop := ∀ e, step s e = none

/-- `P` holds in every state of the run that a list of events makes. -/
def Always (step : σ → ε → Option σ) (P : σ → Prop) : σ → List ε → Prop
  | s, [] => P s
  | s, e :: es => P s ∧ ∀ s', step s e = some s' → Always step P s' es

/-- Every step of the run that a list of events makes meets `G`, a condition on
the state it is taken in and on its event. -/
def EachStep (step : σ → ε → Option σ) (G : σ → ε → Prop) : σ → List ε → Prop
  | _, [] => True
  | s, e :: es => ∀ s', step s e = some s' → G s e ∧ EachStep step G s' es

/-- The machine together with a memory that is fed with its steps. -/
def withMemory {μ : Type*} (step : σ → ε → Option σ) (remember : σ → ε → μ → μ) (r : σ × μ)
    (e : ε) : Option (σ × μ) :=
  (step r.1 e).map fun s' => (s', remember r.1 e r.2)

/-- The machine together with the events of its run so far, the last one first. -/
abbrev withPast (step : σ → ε → Option σ) : σ × List ε → ε → Option (σ × List ε) :=
  withMemory step fun _ e past => e :: past

/-- The state after a list of events, if they are all enabled in turn. -/
def runList (step : σ → ε → Option σ) : σ → List ε → Option σ
  | s, [] => some s
  | s, e :: es => (step s e).bind fun s' => runList step s' es

/-- **Every run ends, and well**: no run is longer than some bound, and a state that is
reached and where nothing can happen is good. -/
structure Terminates (step : σ → ε → Option σ) (Good : σ → Prop) (s₀ : σ) : Prop where
  bounded : ∃ N, ∀ es s, runList step s₀ es = some s → es.length ≤ N
  good : ∀ s, Reaches step s₀ s → Stuck step s → Good s

section Rules

variable {step : σ → ε → Option σ} {ok : σ → ε → Prop} {s₀ s s' : σ}

/-- **The invariant rule**: what holds at the start and is kept by every step
holds in every state reached. -/
theorem Steps.invariant {P : σ → Prop} (h : Steps step ok s₀ s) (hinit : P s₀)
    (hstep : ∀ s e s', P s → ok s e → step s e = some s' → P s') : P s := by
  induction h with
  | refl => exact hinit
  | tail _ hok hs ih => exact hstep _ _ _ ih hok hs

/-- Two runs, one after the other. -/
theorem Steps.trans (h : Steps step ok s₀ s) (h' : Steps step ok s s') :
    Steps step ok s₀ s' := by
  induction h' with
  | refl => exact h
  | tail _ hok hs ih => exact ih.tail hok hs

/-- One step is a run. -/
theorem Steps.single {e : ε} (hok : ok s e) (hs : step s e = some s') : Steps step ok s s' :=
  Steps.refl.tail hok hs

/-- **Discharging a guard**: if every state reached under the guard meets the
guard at every event enabled there, the guard excludes no run. -/
theorem Steps.guarded {P : σ → Prop} (hP : ∀ s, Steps step ok s₀ s → P s)
    (hok : ∀ s e s', P s → step s e = some s' → ok s e) (h : Reaches step s₀ s) :
    Steps step ok s₀ s := by
  induction h with
  | refl => exact .refl
  | tail _ _ hs ih => exact ih.tail (hok _ _ _ (hP _ ih) hs) hs

/-- A list of enabled events is a run. -/
theorem Steps.of_run {es : List ε} (h : runList step s es = some s') : Reaches step s s' := by
  induction es generalizing s with
  | nil => exact Option.some.inj h ▸ .refl
  | cons e es ih =>
    obtain ⟨t, ht, hrest⟩ := Option.bind_eq_some_iff.mp h
    exact (Steps.single trivial ht).trans (ih hrest)

/-- A condition on a step that is taken, and on the run after it. -/
theorem eachStep_cons {G : σ → ε → Prop} {e : ε} {es : List ε} (hs : step s e = some s') :
    EachStep step G s (e :: es) ↔ G s e ∧ EachStep step G s' es := by
  refine ⟨fun h => h s' hs, fun h t ht => ?_⟩
  obtain rfl := Option.some.inj (hs.symm.trans ht)
  exact h

/-- A condition that can be computed can be computed along a run. -/
instance decidableEachStep {G : σ → ε → Prop} [∀ s e, Decidable (G s e)] :
    ∀ (s : σ) (es : List ε), Decidable (EachStep step G s es)
  | _, [] => isTrue trivial
  | s, e :: es =>
    match hs : step s e with
    | none => isTrue fun _ ht => absurd (hs.symm.trans ht) (Option.some_ne_none _).symm
    | some t =>
      have := decidableEachStep (G := G) t es
      decidable_of_iff' _ (eachStep_cons hs)

/-- The guard that allows everything. -/
theorem eachStep_true (es : List ε) : EachStep step (fun _ _ => True) s es := by
  induction es generalizing s with
  | nil => trivial
  | cons e es ih => exact fun s' _ => ⟨trivial, ih⟩

/-- What holds of every event whatever the state. -/
theorem eachStep_of_forall {G : σ → ε → Prop} {es : List ε} (h : ∀ e ∈ es, ∀ s, G s e) (s : σ) :
    EachStep step G s es := by
  induction es generalizing s with
  | nil => trivial
  | cons e es ih =>
    have hrest := ih fun e he => h e (List.mem_cons_of_mem _ he)
    exact fun s' _ => ⟨h e List.mem_cons_self s, hrest s'⟩

/-- A weaker guard allows as much. -/
theorem EachStep.mono {G H : σ → ε → Prop} {es : List ε} (hGH : ∀ s e, G s e → H s e)
    (h : EachStep step G s es) : EachStep step H s es := by
  induction es generalizing s with
  | nil => trivial
  | cons e es ih => exact fun s' hs => ⟨hGH s e (h s' hs).1, ih (h s' hs).2⟩

/-- A run that meets two guards meets both at once. -/
theorem EachStep.and {G H : σ → ε → Prop} {es : List ε} (h : EachStep step G s es)
    (h' : EachStep step H s es) : EachStep step (fun s e => G s e ∧ H s e) s es := by
  induction es generalizing s with
  | nil => trivial
  | cons e es ih => exact fun s' hs => ⟨⟨(h s' hs).1, (h' s' hs).1⟩, ih (h s' hs).2 (h' s' hs).2⟩

/-- What holds in every state of a run holds in the first one. -/
theorem Always.head {P : σ → Prop} {es : List ε} (h : Always step P s es) : P s := by
  rcases es with - | ⟨e, es⟩
  · exact h
  · exact h.1

/-- Two runs, one after the other, as lists of events. -/
theorem runList_append (es es' : List ε) :
    runList step s (es ++ es') = (runList step s es).bind fun t => runList step t es' := by
  induction es generalizing s with
  | nil => rfl
  | cons e es ih => simp only [List.cons_append, runList, Option.bind_assoc, ih]

/-- What holds in every state of a run holds in the last one. -/
theorem Always.last {P : σ → Prop} {es : List ε} (h : Always step P s es)
    (hrun : runList step s es = some s') : P s' := by
  induction es generalizing s with
  | nil => exact Option.some.inj hrun ▸ h
  | cons e es ih =>
    obtain ⟨t, ht, hrest⟩ := Option.bind_eq_some_iff.mp hrun
    exact ih (h.2 t ht) hrest

/-- **The exact condition of a run property**: when an invariant that gives `P` is
kept by the steps that meet `G`, and a step that does not meet `G` leads from it
to a state without `P`, the runs with `P` in every state are those whose steps all
meet `G`. -/
theorem always_iff_eachStep {P Inv : σ → Prop} {G : σ → ε → Prop} (hP : ∀ s, Inv s → P s)
    (hkeep : ∀ s e s', Inv s → ok s e → G s e → step s e = some s' → Inv s')
    (hbreak : ∀ s e s', Inv s → ok s e → ¬G s e → step s e = some s' → ¬P s')
    {es : List ε} (hinit : Inv s) (hok : EachStep step ok s es) :
    Always step P s es ↔ EachStep step G s es := by
  induction es generalizing s with
  | nil => exact iff_of_true (hP s hinit) trivial
  | cons e es ih =>
    constructor
    · rintro ⟨-, hrest⟩ s' hs
      have hok' := hok s' hs
      have hG : G s e := by
        by_contra hG
        exact hbreak s e s' hinit hok'.1 hG hs (hrest s' hs).head
      exact ⟨hG, (ih (hkeep s e s' hinit hok'.1 hG hs) hok'.2).mp (hrest s' hs)⟩
    · intro hG
      refine ⟨hP s hinit, fun s' hs => ?_⟩
      have hok' := hok s' hs
      exact (ih (hkeep s e s' hinit hok'.1 (hG s' hs).1 hs) hok'.2).mpr (hG s' hs).2

/-- **The invariant rule for lists of events**: what an invariant gives holds in every
state of the run. -/
theorem always_of_invariant {P Inv : σ → Prop} (hP : ∀ s, Inv s → P s)
    (hkeep : ∀ s e s', Inv s → ok s e → step s e = some s' → Inv s') {es : List ε}
    (hinit : Inv s) (hok : EachStep step ok s es) : Always step P s es :=
  (always_iff_eachStep hP (fun s e s' h hok _ => hkeep s e s' h hok)
    (fun _ _ _ _ _ hG => absurd trivial hG) hinit hok).mpr (eachStep_true es)

section Memory

variable {μ : Type*} {remember : σ → ε → μ → μ} {e : ε} {es : List ε}

/-- A step with a memory. -/
theorem withMemory_eq_some {m : μ} {r : σ × μ} :
    withMemory step remember (s, m) e = some r ↔ step s e = some r.1 ∧ r.2 = remember s e m := by
  obtain ⟨s', m'⟩ := r
  simp only [withMemory, Option.map_eq_some_iff, Prod.mk.injEq]
  constructor
  · rintro ⟨u, hu, rfl, rfl⟩
    exact ⟨hu, rfl⟩
  · rintro ⟨hs, rfl⟩
    exact ⟨s', hs, rfl, rfl⟩

/-- **The memory changes no state**: a property of the states holds along the same runs with
a memory beside them. -/
theorem always_withMemory {P : σ → Prop} (m : μ) :
    Always (withMemory step remember) (fun r => P r.1) (s, m) es ↔ Always step P s es := by
  induction es generalizing s m with
  | nil => exact Iff.rfl
  | cons e es ih =>
    refine and_congr Iff.rfl ⟨fun h s' hs => ?_, fun h r hr => ?_⟩
    · exact (ih _).mp (h (s', remember s e m) (withMemory_eq_some.mpr ⟨hs, rfl⟩))
    · obtain ⟨hs, -⟩ := withMemory_eq_some.mp hr
      exact (ih _).mpr (h r.1 hs)

/-- A condition on the steps of the machine, with a memory beside them. -/
theorem EachStep.withMemory {G : σ → ε → Prop} (h : EachStep step G s es) (m : μ) :
    EachStep (withMemory step remember) (fun r e => G r.1 e) (s, m) es := by
  induction es generalizing s m with
  | nil => trivial
  | cons e es ih =>
    intro r hr
    obtain ⟨hs, -⟩ := withMemory_eq_some.mp hr
    exact ⟨(h r.1 hs).1, ih (h r.1 hs).2 r.2⟩

end Memory

/-- Properties that an invariant makes equivalent hold along the same runs. -/
theorem always_congr {P Q Inv : σ → Prop} (hiff : ∀ s, Inv s → (P s ↔ Q s))
    (hkeep : ∀ s e s', Inv s → step s e = some s' → Inv s') {es : List ε} (hinit : Inv s) :
    Always step P s es ↔ Always step Q s es := by
  induction es generalizing s with
  | nil => exact hiff s hinit
  | cons e es ih =>
    exact and_congr (hiff s hinit) (forall₂_congr fun s' hs => ih (hkeep s e s' hinit hs))

/-- Conditions that an invariant makes equivalent are met by the same runs. -/
theorem eachStep_congr {G H : σ → ε → Prop} {Inv : σ → Prop}
    (hiff : ∀ s e s', Inv s → step s e = some s' → (G s e ↔ H s e))
    (hkeep : ∀ s e s', Inv s → step s e = some s' → Inv s') {es : List ε} (hinit : Inv s) :
    EachStep step G s es ↔ EachStep step H s es := by
  induction es generalizing s with
  | nil => exact Iff.rfl
  | cons e es ih =>
    exact forall₂_congr fun s' hs =>
      and_congr (hiff s e s' hinit hs) (ih (hkeep s e s' hinit hs))

/-- Two runs that meet a condition, one after the other. -/
theorem EachStep.append {G : σ → ε → Prop} {es es' : List ε} (h : EachStep step G s es)
    (hrun : runList step s es = some s') (h' : EachStep step G s' es') :
    EachStep step G s (es ++ es') := by
  induction es generalizing s with
  | nil =>
    obtain rfl := Option.some.inj hrun
    exact h'
  | cons e es ih =>
    obtain ⟨t, ht, hrest⟩ := Option.bind_eq_some_iff.mp hrun
    exact fun u hu => ⟨(h u hu).1, ih (h u hu).2 (Option.some.inj (ht.symm.trans hu) ▸ hrest)⟩

/-- The last step of a run that meets a condition. -/
theorem EachStep.last {G : σ → ε → Prop} {es : List ε} {e : ε} {t : σ}
    (h : EachStep step G s (es ++ [e])) (hrun : runList step s es = some s')
    (hs : step s' e = some t) : G s' e := by
  induction es generalizing s with
  | nil =>
    obtain rfl := Option.some.inj hrun
    exact (h t hs).1
  | cons e' es ih =>
    obtain ⟨u, hu, hrest⟩ := Option.bind_eq_some_iff.mp hrun
    exact ih (h u hu).2 hrest

/-- A run under a guard, as a list of events. -/
theorem Steps.exists_run (h : Steps step ok s₀ s) :
    ∃ es, runList step s₀ es = some s ∧ EachStep step ok s₀ es := by
  induction h with
  | refl => exact ⟨[], rfl, trivial⟩
  | @tail s s' e _ hok hs ih =>
    obtain ⟨es, hrun, hes⟩ := ih
    refine ⟨es ++ [e], ?_, hes.append hrun fun t ht => ⟨hok, trivial⟩⟩
    rw [runList_append, hrun, Option.bind_some, runList, hs]
    rfl

/-- **The first time**: what holds, and is kept until something else holds, holds at the end of
the run, or the something else holds at some point of it. -/
theorem exists_first {P Q : σ → Prop} {es : List ε}
    (hstep : ∀ s e s', P s → ok s e → step s e = some s' → P s' ∨ Q s') (hP : P s)
    (hok : EachStep step ok s es) (hrun : runList step s es = some s') :
    P s' ∨ ∃ es₁ es₂ t, es = es₁ ++ es₂ ∧ runList step s es₁ = some t ∧ Q t ∧
      EachStep step ok t es₂ ∧ runList step t es₂ = some s' := by
  induction es generalizing s with
  | nil => exact .inl (Option.some.inj hrun ▸ hP)
  | cons e es ih =>
    obtain ⟨u, hu, hrest⟩ := Option.bind_eq_some_iff.mp hrun
    obtain ⟨hoke, hoks⟩ := hok u hu
    rcases hstep s e u hP hoke hu with hPu | hQu
    · refine (ih hPu hoks hrest).imp_right ?_
      rintro ⟨es₁, es₂, t, rfl, hrun₁, hQ, hok₂, hrun₂⟩
      exact ⟨e :: es₁, es₂, t, rfl, Option.bind_eq_some_iff.mpr ⟨u, hu, hrun₁⟩, hQ, hok₂, hrun₂⟩
    · refine .inr ⟨[e], es, u, rfl, ?_, hQu, hoks, hrest⟩
      rw [runList, hu]
      rfl

/-- **Runs end**: when every step makes a measure smaller, each state has a run from
it to one where nothing the guard allows is enabled. -/
theorem Steps.exists_stuck {P : σ → Prop} {μ : σ → ℕ}
    (hstep : ∀ s e s', P s → ok s e → step s e = some s' → P s' ∧ μ s' < μ s) (hs : P s) :
    ∃ s', Steps step ok s s' ∧ P s' ∧ ∀ e, ok s' e → step s' e = none := by
  induction hk : μ s using Nat.strongRecOn generalizing s with
  | ind k ih =>
  by_cases hstuck : ∀ e, ok s e → step s e = none
  · exact ⟨s, .refl, hs, hstuck⟩
  · push Not at hstuck
    obtain ⟨e, hok, hne⟩ := hstuck
    obtain ⟨t, ht⟩ := Option.ne_none_iff_exists'.mp hne
    obtain ⟨hPt, hlt⟩ := hstep s e t hs hok ht
    obtain ⟨s', hsteps, hrest⟩ := ih (μ t) (hk ▸ hlt) hPt rfl
    exact ⟨s', (Steps.single hok ht).trans hsteps, hrest⟩

/-- **Runs are bounded**: when every step makes a measure smaller, a run has no more
events than the measure is at its start. -/
theorem length_le_of_measure {P : σ → Prop} {μ : σ → ℕ}
    (hstep : ∀ s e s', P s → step s e = some s' → P s' ∧ μ s' < μ s) {es : List ε} (hs : P s)
    (hrun : runList step s es = some s') : es.length ≤ μ s := by
  induction es generalizing s with
  | nil => exact Nat.zero_le _
  | cons e es ih =>
    obtain ⟨t, ht, hrest⟩ := Option.bind_eq_some_iff.mp hrun
    obtain ⟨hPt, hlt⟩ := hstep s e t hs ht
    have hle := ih hPt hrest
    rw [List.length_cons]
    omega

/-- From a state where nothing can happen, no other is reached. -/
theorem Steps.eq_of_stuck (hstuck : Stuck step s₀) (h : Steps step ok s₀ s) : s = s₀ := by
  induction h with
  | refl => rfl
  | tail _ _ hs ih =>
    rw [ih, hstuck] at hs
    cases hs

/-- A machine that has nothing to do terminates. -/
theorem Terminates.of_stuck {Good : σ → Prop} (hstuck : Stuck step s₀) (hgood : Good s₀) :
    Terminates step Good s₀ := by
  refine ⟨⟨0, fun es s hrun => ?_⟩, fun s hs _ => hs.eq_of_stuck hstuck ▸ hgood⟩
  cases es with
  | nil => exact Nat.le_refl 0
  | cons e es =>
    rw [runList, hstuck] at hrun
    cases hrun

/-- A machine that terminates well has a run to a good state. -/
theorem Terminates.exists_good {Good : σ → Prop} (h : Terminates step Good s₀) :
    ∃ s, Reaches step s₀ s ∧ Good s := by
  obtain ⟨N, hN⟩ := h.bounded
  by_contra hno
  -- otherwise every run goes on, and there are runs of any length
  have hlong : ∀ k, ∃ es s, runList step s₀ es = some s ∧ es.length = k := by
    intro k
    induction k with
    | zero => exact ⟨[], s₀, rfl, rfl⟩
    | succ k ih =>
      obtain ⟨es, s, hrun, hlen⟩ := ih
      have hstuck : ¬Stuck step s := fun hstuck =>
        hno ⟨s, .of_run hrun, h.good s (.of_run hrun) hstuck⟩
      unfold Stuck at hstuck
      push Not at hstuck
      obtain ⟨e, he⟩ := hstuck
      obtain ⟨t, ht⟩ := Option.ne_none_iff_exists'.mp he
      refine ⟨es ++ [e], t, ?_, by rw [List.length_append, hlen]; rfl⟩
      rw [runList_append, hrun, Option.bind_some, runList, ht]
      rfl
  obtain ⟨es, s, hrun, hlen⟩ := hlong (N + 1)
  have := hN es s hrun
  omega

end Rules

/-! ### Steps that correspond -/

section Correspond

variable {β γ δ : Type*} {r : γ → δ → Prop}

/-- Two steps that read the same first. -/
theorem rel_bind {o : Option β} {f : β → Option γ} {g : β → Option δ}
    (h : ∀ b, o = some b → Option.Rel r (f b) (g b)) : Option.Rel r (o.bind f) (o.bind g) := by
  cases o with
  | none => exact .none
  | some b => exact h b rfl

/-- Two steps under the same guard. -/
theorem rel_ite {c d : Prop} [Decidable c] [Decidable d] (hcd : c ↔ d) {x : Option γ}
    {y : Option δ} (h : c → Option.Rel r x y) :
    Option.Rel r (if c then x else none) (if d then y else none) := by
  by_cases hc : c
  · rw [if_pos hc, if_pos (hcd.mp hc)]
    exact h hc
  · rw [if_neg hc, if_neg (mt hcd.mpr hc)]
    exact .none

end Correspond

end Pluvio
