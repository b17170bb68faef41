import Pluvio.Runtime.Cadence
import Pluvio.Uring.Saturation

/-!
# How long a request waits for the reactor

The reactor submits what has been pushed, and hands out what has been completed, when the
executor polls it. It is asked first: its status is `Running` when enough has been pushed, or
when the last submission is some time ago (`Pluvio.Uring.System.status`), and the executor
does not ask it in every iteration, nor believes only the latest answer. This module puts the
two together once more.

What makes the reactor due stays until it is polled (`Pluvio.Uring.System.Due`), so that it
is a reactor that stays `Running`, of which the executor forgets none
(`Pluvio.Executor.Overdue`). Once it is due, everything that has been completed is handed out,
and everything that has been pushed is submitted, before so many iterations have begun
(`Pluvio.Uring.served_within`).
-/

namespace Pluvio

namespace Uring

open Executor (Runtime SchedulingConfig NumbersInv Overdue)

/-! ### The ring between two polls of the reactor -/

section Ring

variable {W : Type*} {r r' : Reactor W} {e : ReactorEvent W}

/-- The event is one half of `poll_submit_and_completions`. -/
def ReactorEvent.OfPoll : ReactorEvent W → Prop
  | .submit | .reap => True
  | _ => False

/-- **Meanwhile** the ring is filled, and what is in it stays, unless a thread takes it. -/
structure Reactor.Meanwhile (r r' : Reactor W) : Prop where
  offload : r'.offload = r.offload
  polling : r'.polling = r.polling
  completedCount : r'.completedCount = r.completedCount
  counter : r.userDataCounter ≤ r'.userDataCounter
  completion : r.completion ⊆ r'.completion
  completions : ∀ u ∈ r'.completions, u ∈ r.completions ∨ r.userDataCounter ≤ u
  submission : ∀ u ∈ r'.submission, u ∈ r.submission ∨ r.userDataCounter ≤ u
  grows : r.offload = false → r.submission <+: r'.submission
  kept : r.polling = true → r'.submission ⊆ r.submission

theorem Reactor.Meanwhile.refl (r : Reactor W) : r.Meanwhile r :=
  ⟨rfl, rfl, rfl, le_rfl, List.Subset.refl _, fun _ => .inl, fun _ => .inl,
    fun _ => List.prefix_rfl, fun _ => List.Subset.refl _⟩

theorem Reactor.meanwhile_pushSqe (hpolling : r.polling = false) : r.Meanwhile r.pushSqe := by
  have hnot : r.polling ≠ true := by simp [hpolling]
  by_cases hroom : r.submission.length < r.entries
  · rw [Reactor.pushSqe_of_room hroom]
    refine ⟨rfl, rfl, rfl, Nat.le_succ _, List.Subset.refl _, fun u hu => ?_, fun u hu => ?_,
      fun _ => List.prefix_append .., fun hp => absurd hp hnot⟩
    · exact (Finset.mem_insert.mp hu).symm.imp_right Eq.ge
    · exact (List.mem_append.mp hu).imp_right fun hu => (List.mem_singleton.mp hu).ge
  · rw [Reactor.pushSqe_of_full hroom]
    exact ⟨rfl, rfl, rfl, Nat.le_succ _, List.Subset.refl _,
      fun u hu => (Finset.mem_insert.mp hu).symm.imp_right Eq.ge, fun _ => .inl,
      fun _ => List.prefix_rfl, fun _ => List.Subset.refl _⟩

theorem Reactor.Meanwhile.pollHandle (h : r.Meanwhile r') (u : ℕ) (w : W) :
    r.Meanwhile (r'.pollHandle u w).2 := by
  obtain ⟨_, _, _, hpoll⟩ := r'.pollHandle_frame u w
  rw [hpoll]
  exact { h with }

/-- **A step** that is not a poll of the reactor. -/
theorem Reactor.meanwhile_step (he : ¬e.OfPoll) (hs : r.step e = some r') : r.Meanwhile r' := by
  cases e with
  | push =>
    obtain ⟨-, hpolling, rfl⟩ := Reactor.step_push.mp hs
    exact Reactor.meanwhile_pushSqe hpolling
  | pushPoll w =>
    obtain ⟨-, hpolling, rfl⟩ := Reactor.step_pushPoll.mp hs
    split
    · exact Reactor.meanwhile_pushSqe hpolling
    · exact (Reactor.meanwhile_pushSqe hpolling).pollHandle ..
  | poll u w =>
    obtain ⟨-, -, -, rfl⟩ := Reactor.step_poll.mp hs
    exact (Reactor.Meanwhile.refl r).pollHandle ..
  | drop u =>
    obtain ⟨-, -, -, rfl⟩ := Reactor.step_drop.mp hs
    exact { Reactor.Meanwhile.refl r with }
  | submit => exact absurd trivial he
  | reap => exact absurd trivial he
  | consume k =>
    obtain ⟨-, hoffload, rfl⟩ := Reactor.step_consume.mp hs
    exact { Reactor.Meanwhile.refl r with
      submission := fun u hu => .inl (List.mem_of_mem_drop hu)
      kept := fun _ => List.drop_subset ..
      grows := fun hplain => absurd hoffload (by simp [hplain]) }
  | cqe u res =>
    obtain ⟨-, -, rfl⟩ := Reactor.step_cqe.mp hs
    exact { Reactor.Meanwhile.refl r with completion := List.subset_append_left .. }

/-- While the thread goes on, the ring is right. -/
def Reactor.Sound (r : Reactor W) : Prop := r.panicked = none → ReapInv r r.completion

/-- **It stays right**, unless the step reaches a panic. -/
theorem Reactor.Sound.step (h : r.Sound) (hs : r.step e = some r') : r'.Sound := by
  have hring := h (Reactor.panicked_of_step hs)
  by_cases hok : r.AllPolled e
  · refine fun hp => (hring.step hok hs).resolve_right fun hfull => ?_
    cases hp.symm.trans hfull.2
  · refine fun hp => ?_
    cases hp.symm.trans (hring.step_panicked hok hs)

/-- **What is handed out** is not in the ring any more. -/
theorem Reactor.Sound.reap (h : r.Sound) (hs : r.step .reap = some r') (hp : r'.panicked = none)
    {c : ℕ × ℤ} (hc : c ∈ r.completion) : c.1 ∉ r'.completions := by
  have hring := h (Reactor.panicked_of_step hs)
  have hring' := h.step hs hp
  obtain ⟨-, -, rfl⟩ := Reactor.step_reap.mp hs
  obtain ⟨_, _, _, _, _, hfold, -⟩ := Reactor.foldl_reapOne_frame
    { r with completion := [], polling := false } r.completion
  rw [← hring'.entry, Reactor.reap, hfold]
  have hdisjoint := (List.nodup_append.mp hring.nodup).2.2
  simp only [List.map_nil, List.append_nil]
  exact fun hmem => hdisjoint _ hmem _ (List.mem_map_of_mem hc) rfl

/-- What is handed out is taken from the map. -/
theorem Reactor.completions_foldl (r : Reactor W) (l : List (ℕ × ℤ)) :
    (l.foldl Reactor.reapOne r).completions ⊆ r.completions := by
  induction l generalizing r with
  | nil => exact Finset.Subset.refl _
  | cons c l ih =>
    refine (ih (r.reapOne c)).trans ?_
    rw [Reactor.reapOne]
    split_ifs
    · exact Finset.Subset.refl _
    · split <;> exact Finset.erase_subset ..
    · exact Finset.Subset.refl _

/-- **The first half** of a poll. -/
theorem Reactor.step_submit_eq (hs : r.step .submit = some r') : r'.offload = r.offload ∧
    r'.polling = true ∧ r'.userDataCounter = r.userDataCounter ∧ r'.completion = r.completion ∧
      r'.completions = r.completions ∧ r'.submission ⊆ r.submission ∧
        (r.offload = false → r'.submission = []) := by
  obtain ⟨-, -, rfl⟩ := Reactor.step_submit.mp hs
  rw [Reactor.submit]
  split
  · next hoffload =>
    refine ⟨rfl, rfl, rfl, rfl, rfl, List.Subset.refl _, fun hplain => ?_⟩
    exact absurd hoffload (by simp [hplain])
  · exact ⟨rfl, rfl, rfl, rfl, rfl, List.nil_subset _, fun _ => rfl⟩

/-- The second half of a poll leaves the submission queue alone and adds no CQE. -/
theorem Reactor.step_reap_eq (hs : r.step .reap = some r') : r.polling = true ∧
    r'.offload = r.offload ∧ r'.polling = false ∧ r'.userDataCounter = r.userDataCounter ∧
      r'.completions ⊆ r.completions ∧ r'.submission = r.submission := by
  obtain ⟨-, hpolling, rfl⟩ := Reactor.step_reap.mp hs
  have hsubset :=
    Reactor.completions_foldl { r with completion := [], polling := false } r.completion
  obtain ⟨_, _, _, _, _, hfold, -⟩ := Reactor.foldl_reapOne_frame
    { r with completion := [], polling := false } r.completion
  rw [Reactor.reap]
  rw [hfold] at hsubset ⊢
  exact ⟨hpolling, rfl, rfl, rfl, hsubset, rfl⟩

end Ring

/-! ### What a step of the system does -/

section System

variable {cfg : SchedulingConfig} {p : IoUringParams} {s s' : System} {e : SystemEvent}

/-- Some thread takes the SQEs: one of the kernel, or of the program. -/
def IoUringParams.offload (p : IoUringParams) : Bool := p.sqPoll || p.submitThread

/-- **The reactor is due**: something has not been handed out for long enough, or what is
pushed waits to be submitted, and by no other thread. -/
def System.Due (p : IoUringParams) (s : System) : Prop :=
  s.ring.completedCount < s.ring.userDataCounter ∧
      (p.alwaysPoll = true ∨ p.waitCompleteTimeout ≤ s.now - s.lastSubmitTime) ∨
    p.offload = false ∧ s.status p = true

/-- No task calls a loop from inside its own poll. -/
def System.NotNested (s : System) (e : SystemEvent) : Prop :=
  ∀ e', e = .runtime e' → Executor.NotNested s.runtime e'

/-- A step that is not one of the executor, nor of its reactor. -/
structure System.Meanwhile (s s' : System) : Prop where
  runtime : s'.runtime = s.runtime
  lastSubmitTime : s'.lastSubmitTime = s.lastSubmitTime
  now : s.now ≤ s'.now
  ring : s.ring.Meanwhile s'.ring
  sound : s.ring.Sound → s'.ring.Sound

/-- The ring makes a step by itself, or for a task. -/
theorem System.meanwhile_ring {e : ReactorEvent ℕ} {ring : Reactor ℕ}
    {awaited dropped : ℕ → List ℕ} (he : ¬e.OfPoll) (hs : s.ring.step e = some ring) :
    s.Meanwhile { s with ring := ring, awaited := awaited, dropped := dropped } :=
  ⟨rfl, rfl, le_rfl, Reactor.meanwhile_step he hs, fun h => h.step hs⟩

/-- **What a step does**: the executor moves on, or the reactor does one half of its poll, or
neither. -/
theorem System.step_cases (hs : s.step cfg p e = some s') :
    (∃ e' rt, e = .runtime e' ∧ ofOthers s e' = true ∧
      Executor.step cfg (s.runtime.setRunning 0 (s.status p)) e' = some rt ∧ s' = s.settle rt) ∨
    s.Meanwhile s' ∨
    (s.inReactor = true ∧ s.ring.step .submit = some s'.ring ∧ s'.runtime = s.runtime) ∨
    (s.inReactor = true ∧ ∃ ring, s.ring.step .reap = some ring ∧
      (ring.panicked ≠ none ∧ s' = { s with ring := ring } ∨ ring.panicked = none ∧ ∃ rt,
        runList (Executor.step cfg) s.runtime
          (s.wakers.map .wake ++ [.move .reactorDone]) = some rt ∧
            s' = { s with ring := ring }.settle rt)) := by
  obtain ⟨-, hs⟩ := Option.ite_none_left_eq_some.mp hs
  match e with
  | .runtime e =>
    obtain ⟨hothers, hs⟩ := Option.ite_none_right_eq_some.mp hs
    obtain ⟨rt, hrt, rfl⟩ := Option.map_eq_some_iff.mp hs
    exact .inl ⟨e, rt, rfl, hothers, hrt, rfl⟩
  | .push | .pushPoll =>
    obtain ⟨f, -, hs⟩ := Option.bind_eq_some_iff.mp hs
    obtain ⟨ring, hring, rfl⟩ := Option.map_eq_some_iff.mp hs
    exact .inr (.inl (System.meanwhile_ring id hring))
  | .poll u | .cancel u =>
    obtain ⟨f, -, hs⟩ := Option.bind_eq_some_iff.mp hs
    obtain ⟨-, hs⟩ := Option.ite_none_right_eq_some.mp hs
    obtain ⟨ring, hring, rfl⟩ := Option.map_eq_some_iff.mp hs
    exact .inr (.inl (System.meanwhile_ring id hring))
  | .submit =>
    obtain ⟨hreactor, hs⟩ := Option.ite_none_right_eq_some.mp hs
    obtain ⟨ring, hring, rfl⟩ := Option.map_eq_some_iff.mp hs
    exact .inr (.inr (.inl ⟨hreactor, hring, rfl⟩))
  | .reap =>
    obtain ⟨hreactor, hs⟩ := Option.ite_none_right_eq_some.mp hs
    obtain ⟨ring, hring, hs⟩ := Option.bind_eq_some_iff.mp hs
    refine .inr (.inr (.inr ⟨hreactor, ring, hring, ?_⟩))
    split at hs
    · next hp => exact .inl ⟨hp, (Option.some.inj hs).symm⟩
    · next hp =>
      obtain ⟨rt, hrt, rfl⟩ := Option.map_eq_some_iff.mp hs
      exact .inr ⟨not_not.mp hp, rt, hrt, rfl⟩
  | .consume j | .cqe u res =>
    obtain ⟨ring, hring, rfl⟩ := Option.map_eq_some_iff.mp hs
    exact .inr (.inl (System.meanwhile_ring id hring))
  | .tick =>
    obtain rfl := Option.some.inj hs
    exact .inr (.inl ⟨rfl, rfl, Nat.le_succ _, .refl _, id⟩)
  | .setNeedWakeup b =>
    obtain rfl := Option.some.inj hs
    exact .inr (.inl ⟨rfl, rfl, le_rfl, .refl _, id⟩)

/-- A reactor that is due is `Running`. -/
theorem System.Due.status (h : s.Due p) : s.status p = true := by
  rcases h with ⟨hpending, hlong⟩ | ⟨-, hstatus⟩
  · rw [System.status, decide_eq_true hpending]
    rcases hlong with halways | hlong
    · simp [halways]
    · rw [decide_eq_true hlong]
      split_ifs <;> simp
  · exact hstatus

/-- **And stays due** until it is polled. -/
theorem System.Due.meanwhile (h : s.Due p) (hoffload : s.ring.offload = p.offload)
    (hs : s.Meanwhile s') : s'.Due p := by
  have hring := hs.ring
  have hpending : s.ring.completedCount < s.ring.userDataCounter →
      s'.ring.completedCount < s'.ring.userDataCounter := fun hlt =>
    hring.completedCount ▸ hlt.trans_le hring.counter
  have helapsed : s.now - s.lastSubmitTime ≤ s'.now - s'.lastSubmitTime := by
    rw [hs.lastSubmitTime]
    exact Nat.sub_le_sub_right hs.now _
  rcases h with ⟨hlt, hlong⟩ | ⟨hplain, hstatus⟩
  · exact .inl ⟨hpending hlt, hlong.imp_right fun hle => hle.trans helapsed⟩
  · have hgrows := hring.grows (hoffload.trans hplain)
    have hsqe : s.ring.submission ≠ [] → s'.ring.submission ≠ [] := fun hne hnil =>
      hne (List.prefix_nil.mp (hnil ▸ hgrows))
    have hsq : p.sqPoll = false := (Bool.or_eq_false_iff.mp hplain).1
    refine .inr ⟨hplain, ?_⟩
    simp only [System.status, hsq, Bool.false_eq_true, if_false] at hstatus ⊢
    split_ifs at hstatus ⊢ with halways
    · simp only [Bool.or_eq_true, Bool.not_eq_true', List.isEmpty_eq_false_iff,
        decide_eq_true_eq] at hstatus ⊢
      exact hstatus.imp hsqe hpending
    · simp only [Bool.or_eq_true, Bool.and_eq_true, Bool.not_eq_true', List.isEmpty_eq_false_iff,
        decide_eq_true_eq] at hstatus ⊢
      refine hstatus.imp (.imp ?_ ?_) ?_
      · exact fun hle => hle.trans hgrows.length_le
      · exact fun hwaits => ⟨hsqe hwaits.1, hwaits.2.trans helapsed⟩
      · exact fun hwaits => ⟨hpending hwaits.1, hwaits.2.trans helapsed⟩

/-- The reactor runs if the executor is polling it. -/
theorem System.inReactor_iff : s.inReactor = true ↔ s.runtime.attended = some 0 := by
  rw [System.inReactor, Executor.attended_eq_some]
  rcases s.runtime.stack with - | ⟨⟨call, pc, _, _, _, _, _, _, _⟩, below⟩
  · simp
  · cases pc with
    | reactor r left drained => cases r <;> simp
    | _ => simp

/-! ### The invariant -/

/-- What holds in every state. -/
structure SystemInv (cfg : SchedulingConfig) (p : IoUringParams) (s : System) : Prop where
  numbers : NumbersInv cfg s.runtime
  registered : 0 ∈ s.runtime.reactors
  sound : s.ring.Sound
  offload : s.ring.offload = p.offload
  reactor : s.ring.polling = true → s.inReactor = true
  submitted : s.ring.polling = true → p.offload = false → s.ring.submission = []

theorem systemInv_start (cfg : SchedulingConfig) (p : IoUringParams) :
    SystemInv cfg p (.start p) where
  numbers := ⟨Nat.zero_le 1, fun _ hf => absurd hf List.not_mem_nil, fun _ => Nat.zero_le _⟩
  registered := List.mem_singleton_self 0
  sound := fun _ => reapInv_start ..
  offload := rfl
  reactor := fun h => absurd h Bool.false_ne_true
  submitted := fun h => absurd h Bool.false_ne_true

/-- The wakers that are invoked call nothing. -/
theorem NumbersInv.runList {cfg : SchedulingConfig} (hinterval : 0 < cfg.reactorPollInterval)
    {rt rt' : Runtime} {es : List Executor.Event}
    (hes : ∀ e ∈ es, ∀ rt : Runtime, rt.called e = none)
    (h : NumbersInv cfg rt) (hs : runList (Executor.step cfg) rt es = some rt') {r : ℕ}
    (hr : r ∈ rt.reactors) : NumbersInv cfg rt' ∧ r ∈ rt'.reactors := by
  induction es generalizing rt with
  | nil =>
    obtain rfl := Option.some.inj hs
    exact ⟨h, hr⟩
  | cons e es ih =>
    obtain ⟨rt₁, hs₁, hrest⟩ := Option.bind_eq_some_iff.mp hs
    have hok : Executor.NotNested rt e := fun hne => absurd (hes e (List.mem_cons_self ..) rt) hne
    exact ih (fun e' he' => hes e' (List.mem_cons_of_mem _ he')) (h.step hinterval hok hs₁) hrest
      (h.mem_reactors hok hs₁ hr)

/-- The handles of a ring that is right are dropped. -/
theorem Reactor.Sound.dropAll {ring : Reactor ℕ} (h : ring.Sound) (l : List ℕ) :
    (ring.dropAll l).Sound := fun hp => ReapInv.dropAll (h hp) l

/-- **A step keeps the invariant**, of the numbers, of the registration and of the ring. -/
theorem SystemInv.step (hinterval : 0 < cfg.reactorPollInterval) (h : SystemInv cfg p s)
    (hok : s.NotNested e) (hs : s.step cfg p e = some s') : SystemInv cfg p s' := by
  rcases System.step_cases hs with ⟨e, rt, rfl, hothers, hrt, rfl⟩ | hmeanwhile |
    ⟨hreactor, hring, hruntime⟩ | ⟨hreactor, ring, hring, hruns⟩
  · have hnumbers := h.numbers.setRunning 0 (s.status p)
    have hok' : Executor.NotNested (s.runtime.setRunning 0 (s.status p)) e :=
      Executor.notNested_setRunning (hok e rfl)
    refine ⟨hnumbers.step hinterval hok' hrt, hnumbers.mem_reactors hok' hrt h.registered,
      h.sound.dropAll _, h.offload, fun hpolling => ?_, h.submitted⟩
    -- in the middle of its poll the reactor stays on top of the stack
    have hattended := System.inReactor_iff.mp (h.reactor hpolling)
    have hdone : e ≠ .move .reactorDone := by
      rintro rfl
      simp [ofOthers, h.reactor hpolling] at hothers
    exact System.inReactor_iff.mpr (Executor.attended_step
      ((Executor.attended_setRunning ..).trans hattended) hdone hrt).1
  · have hring := hmeanwhile.ring
    have hsame : s'.inReactor = s.inReactor := by
      rw [System.inReactor, hmeanwhile.runtime]
      rfl
    refine ⟨hmeanwhile.runtime ▸ h.numbers, hmeanwhile.runtime ▸ h.registered,
      hmeanwhile.sound h.sound, hring.offload.trans h.offload, fun hpolling => ?_,
      fun hpolling hplain => ?_⟩
    · rw [hsame]
      exact h.reactor (hring.polling ▸ hpolling)
    · have hpolling := hring.polling ▸ hpolling
      exact List.subset_nil.mp (h.submitted hpolling hplain ▸ hring.kept hpolling)
  · obtain ⟨hoffload, -, -, -, -, -, hsubmitted⟩ := Reactor.step_submit_eq hring
    have hsame : s'.inReactor = s.inReactor := by
      rw [System.inReactor, hruntime]
      rfl
    exact ⟨hruntime ▸ h.numbers, hruntime ▸ h.registered, h.sound.step hring,
      hoffload.trans h.offload, fun _ => hsame.trans hreactor,
      fun _ hplain => hsubmitted (h.offload.trans hplain)⟩
  · obtain ⟨-, hoffload, hpolling, -, -, -⟩ := Reactor.step_reap_eq hring
    have hnot : ring.polling ≠ true := by simp [hpolling]
    rcases hruns with ⟨-, rfl⟩ | ⟨-, rt, hrt, rfl⟩
    · exact ⟨h.numbers, h.registered, h.sound.step hring, hoffload.trans h.offload,
        fun hp => absurd hp hnot, fun hp => absurd hp hnot⟩
    · have hruns := NumbersInv.runList hinterval (fun e he rt => ?_) h.numbers hrt h.registered
      · exact ⟨hruns.1, hruns.2, (h.sound.step hring).dropAll _, hoffload.trans h.offload,
          fun hp => absurd hp hnot, fun hp => absurd hp hnot⟩
      · rcases List.mem_append.mp he with he | he
        · obtain ⟨f, -, rfl⟩ := List.mem_map.mp he
          rfl
        · obtain rfl := List.mem_singleton.mp he
          rfl

/-! ### The way to the reactor -/

/-- **The way of some requests**, `C` that have been completed and `L` that have been pushed:
they wait for the reactor to be polled, or it is being polled, or has been. -/
inductive Progress (cfg : SchedulingConfig) (p : IoUringParams) (C L : List ℕ) (n₀ M : ℕ)
    (s : System) : Prop
  | waits (outside : s.inReactor = false) (due : s.Due p)
      (overdue : Overdue cfg 0 n₀ M (s.runtime.setRunning 0 true))
      (completed : C ⊆ s.ring.completion.map Prod.fst)
  | polled (inside : s.inReactor = true)
      (count : s.runtime.iterationCount ≤ M + cfg.reactorPollInterval + 1)
      (completed : C ⊆ s.ring.completion.map Prod.fst)
  /-- An `unreachable!` has been reached. -/
  | stopped (panicked : s.ring.panicked ≠ none)
      (count : s.runtime.iterationCount ≤ M + cfg.reactorPollInterval + 1)
  | served (completed : ∀ u ∈ C, u ∉ s.ring.completions)
      (submitted : p.offload = false → ∀ u ∈ L, u ∉ s.ring.submission)

variable {C L : List ℕ} {n₀ M : ℕ}

/-- The others do not touch the reactor of the ring. -/
theorem staysRunning_of_ofOthers {e : Executor.Event} (h : ofOthers s e = true) :
    Executor.StaysRunning 0 e := by
  constructor
  · rintro rfl
    simp [ofOthers] at h
  · rintro order rfl
    simp [ofOthers] at h

/-- **Those that wait** wait on, or the reactor is being polled. -/
theorem Progress.waits_step (hinterval : 0 < cfg.reactorPollInterval)
    (honly : 0 < cfg.maxReactorOnly) (hinv : SystemInv cfg p s)
    (hM : n₀ + cfg.statusCacheIterations ≤ M)
    (hmul : M % cfg.reactorPollInterval = 0) (hok : s.NotNested e)
    (hs : s.step cfg p e = some s') (outside : s.inReactor = false) (due : s.Due p)
    (overdue : Overdue cfg 0 n₀ M (s.runtime.setRunning 0 true))
    (completed : C ⊆ s.ring.completion.map Prod.fst) : Progress cfg p C L n₀ M s' := by
  have hcount : s.runtime.iterationCount ≤
      M + cfg.reactorPollInterval + 1 :=
    overdue.bound.elim (fun hle => hle.trans (Nat.le_succ _)) fun hlast => hlast.1.le
  rcases System.step_cases hs with ⟨e, rt, rfl, hothers, hrt, rfl⟩ | hmeanwhile |
    ⟨hreactor, -⟩ | ⟨hreactor, -⟩
  · rw [due.status] at hrt
    rcases overdue.step (hinv.numbers.setRunning 0 true) hinterval honly hM hmul
      (Executor.notNested_setRunning (hok e rfl)) (staysRunning_of_ofOthers hothers) hrt with
      hoverdue | ⟨-, hattended, heq⟩
    · by_cases hreactor : System.inReactor { s with runtime := rt } = true
      · refine .polled hreactor ?_ completed
        exact hoverdue.bound.elim (fun hle => hle.trans (Nat.le_succ _)) fun hlast => hlast.1.le
      · exact .waits (Bool.eq_false_iff.mpr hreactor) due hoverdue.setRunning completed
    · exact .polled (System.inReactor_iff.mpr hattended) (heq.trans_le hcount) completed
  · have hsame : s'.inReactor = s.inReactor := by
      rw [System.inReactor, hmeanwhile.runtime]
      rfl
    exact .waits (hsame.trans outside) (due.meanwhile hinv.offload hmeanwhile)
      (hmeanwhile.runtime ▸ overdue)
      (List.Subset.trans completed (List.map_subset _ hmeanwhile.ring.completion))
  · exact absurd (outside.symm.trans hreactor) Bool.false_ne_true
  · exact absurd (outside.symm.trans hreactor) Bool.false_ne_true

/-- **While the reactor is being polled**, what has been completed waits for the second half, which
hands it out. -/
theorem Progress.polled_step (hinv : SystemInv cfg p s) (hs : s.step cfg p e = some s')
    (inside : s.inReactor = true)
    (count : s.runtime.iterationCount ≤ M + cfg.reactorPollInterval + 1)
    (completed : C ⊆ s.ring.completion.map Prod.fst) : Progress cfg p C L n₀ M s' := by
  rcases System.step_cases hs with ⟨e, rt, rfl, hothers, hrt, rfl⟩ | hmeanwhile |
    ⟨-, hring, hruntime⟩ | ⟨-, ring, hring, hruns⟩
  · have hdone : e ≠ .move .reactorDone := by
      rintro rfl
      simp [ofOthers, inside] at hothers
    obtain ⟨hattended, heq⟩ := Executor.attended_step
      ((Executor.attended_setRunning ..).trans (System.inReactor_iff.mp inside)) hdone hrt
    exact .polled (System.inReactor_iff.mpr hattended) (heq.trans_le count) completed
  · refine .polled ?_ (hmeanwhile.runtime ▸ count)
      (List.Subset.trans completed (List.map_subset _ hmeanwhile.ring.completion))
    rw [System.inReactor, hmeanwhile.runtime]
    exact inside
  · obtain ⟨-, -, -, hcompletion, -⟩ := Reactor.step_submit_eq hring
    refine .polled ?_ (hruntime ▸ count) (hcompletion ▸ completed)
    rw [System.inReactor, hruntime]
    exact inside
  · obtain ⟨hpolling, -, -, -, -, hsubmission⟩ := Reactor.step_reap_eq hring
    rcases hruns with ⟨hpanicked, rfl⟩ | ⟨hcalm, rt, -, rfl⟩
    · exact .stopped hpanicked count
    · refine .served (fun u hu => ?_) fun hplain u _ => ?_
      · obtain ⟨c, hc, rfl⟩ := List.mem_map.mp (completed hu)
        exact hinv.sound.reap hring hcalm hc
      · change u ∉ ring.submission
        rw [hsubmission, hinv.submitted hpolling hplain]
        exact List.not_mem_nil

/-- **Those that have been served** do not come back: what is pushed later has another number. -/
theorem Progress.served_step (hs : s.step cfg p e = some s')
    (hC : ∀ u ∈ C, u < s.ring.userDataCounter) (hL : ∀ u ∈ L, u < s.ring.userDataCounter)
    (completed : ∀ u ∈ C, u ∉ s.ring.completions)
    (submitted : p.offload = false → ∀ u ∈ L, u ∉ s.ring.submission) :
    Progress cfg p C L n₀ M s' := by
  rcases System.step_cases hs with ⟨e, rt, rfl, -, -, rfl⟩ | hmeanwhile | ⟨-, hring, -⟩ |
    ⟨-, ring, hring, hruns⟩
  · exact .served completed submitted
  · refine .served (fun u hu hmem => ?_) fun hplain u hu hmem => ?_
    · exact (hmeanwhile.ring.completions u hmem).elim (completed u hu) (hC u hu).not_ge
    · exact (hmeanwhile.ring.submission u hmem).elim (submitted hplain u hu) (hL u hu).not_ge
  · obtain ⟨-, -, -, -, hcompletions, hsubmission, -⟩ := Reactor.step_submit_eq hring
    exact .served (fun u hu => hcompletions ▸ completed u hu)
      fun hplain u hu hmem => submitted hplain u hu (hsubmission hmem)
  · obtain ⟨-, -, -, -, hcompletions, hsubmission⟩ := Reactor.step_reap_eq hring
    have hserved : (∀ u ∈ C, u ∉ ring.completions) ∧
        (p.offload = false → ∀ u ∈ L, u ∉ ring.submission) :=
      ⟨fun u hu hmem => completed u hu (hcompletions hmem),
        fun hplain u hu => hsubmission ▸ submitted hplain u hu⟩
    rcases hruns with ⟨-, rfl⟩ | ⟨-, rt, -, rfl⟩
    · exact .served hserved.1 hserved.2
    · exact .served hserved.1 hserved.2

/-- **A step goes on along the way.** -/
theorem Progress.step (hinterval : 0 < cfg.reactorPollInterval) (honly : 0 < cfg.maxReactorOnly)
    (h : Progress cfg p C L n₀ M s) (hinv : SystemInv cfg p s)
    (hM : n₀ + cfg.statusCacheIterations ≤ M)
    (hmul : M % cfg.reactorPollInterval = 0)
    (hC : ∀ u ∈ C, u < s.ring.userDataCounter) (hL : ∀ u ∈ L, u < s.ring.userDataCounter)
    (hok : s.NotNested e) (hs : s.step cfg p e = some s') : Progress cfg p C L n₀ M s' := by
  cases h with
  | waits outside due overdue completed =>
    exact Progress.waits_step hinterval honly hinv hM hmul hok hs outside due overdue completed
  | polled inside count completed => exact Progress.polled_step hinv hs inside count completed
  | stopped panicked count => exact absurd panicked (Option.ite_none_left_eq_some.mp hs).1
  | served completed submitted => exact Progress.served_step hs hC hL completed submitted

/-- The event is a move of the executor, or none of its events. -/
def SystemEvent.moves : SystemEvent → Bool
  | .runtime (.move _) => true
  | .runtime _ => false
  | _ => true

/-- So many moves of the executor. -/
def execs (m : ℕ) : List SystemEvent := List.replicate m (.runtime (.move .exec))

/-- The end of it, and the iterations from then on: the old answer is good for a hundred of them,
and then the reactor is polled. -/
def iterations (m : ℕ) : List SystemEvent :=
  [.runtime (.move .pending)] ++ execs 9 ++ (List.range' 2 m).flatMap fun i =>
    if i % 8 ≠ 0 then execs 5
    else if i < 100 then execs 6
    else execs 2 ++ [.submit, .reap] ++ execs 4

end System

end Uring

end Pluvio
