import Pluvio.Runs
import Mathlib.Data.Finset.Card
import Mathlib.Data.List.Nodup
import Mathlib.Logic.Function.Basic
import Mathlib.Tactic.Common

/-!
# The completions of the io_uring reactor

Every SQE that is pushed gets a number, an entry in the map of completions and a state
that it shares with the handle returned. A CQE takes the entry off the map, leaves its
result in the state and wakes the waker it finds there.

There is one at the end of the first poll of the handle and not before. An operation of a
file pushes its SQE in its first poll, which goes on to poll the handle, and is safe; a
`send_to` or `recv_from` of a socket pushes when it is called, and nothing keeps its CQE
from coming before its first poll. `Pluvio.Uring.completion_law` says that this is the only
way to reach an `unreachable!`, and that up to there nothing is lost.
-/

namespace Pluvio

namespace Uring

variable {W : Type*}

/-- The `std::io::Result<i32>` of an operation. -/
inductive IoResult
  | ok (n : ℤ)
  | osError (code : ℤ)
  deriving DecidableEq

/-- The result that a CQE stands for. -/
def IoResult.ofCqe (res : ℤ) : IoResult := if 0 ≤ res then .ok res else .osError (-res)

/-- What a handle and the reactor share. -/
structure HandleState (W : Type*) where
  waker : Option W
  result : Option IoResult

/-- `HandleState::new`. -/
def HandleState.new : HandleState W := ⟨none, none⟩

/-- The panics of the reactor. -/
inductive Panic
  | submissionQueueFull
  | wakerNone
  | unknownUserData
  deriving DecidableEq

/-- The reactor, its ring and its handles. An SQE is known by its `user_data`, which is
also the name of the state it shares. -/
structure Reactor (W : Type*) where
  /-- The number of entries of the submission queue. -/
  entries : ℕ
  /-- Whether a thread of the kernel (`sq_poll`), or of the program
  (`submit_thread`), takes the SQEs. -/
  offload : Bool
  submission : List ℕ
  /-- The SQEs that the kernel has taken and not completed. -/
  kernel : List ℕ
  completion : List (ℕ × ℤ)
  /-- The keys of the map `completions`. -/
  completions : Finset ℕ
  handle : ℕ → HandleState W
  userDataCounter : ℕ
  completedCount : ℕ
  /-- The thread is in `poll_submit_and_completions`, after its submit. -/
  polling : Bool
  panicked : Option Panic
  /-- The handles that have not been dropped, and those that have been polled. -/
  alive : Finset ℕ
  polled : Finset ℕ
  /-- The CQEs that have been processed. -/
  processed : ℕ → Option ℤ
  /-- What the polls of each handle have returned. -/
  resolved : ℕ → List IoResult

/-- A new reactor, with its rings empty. -/
def Reactor.start (entries : ℕ) (offload : Bool) : Reactor W :=
  { entries, offload
    submission := []
    kernel := []
    completion := []
    completions := ∅
    handle := fun _ => .new
    userDataCounter := 0
    completedCount := 0
    polling := false
    panicked := none
    alive := ∅
    polled := ∅
    processed := fun _ => none
    resolved := fun _ => [] }

/-- `IoUringReactor::push_sqe`; the handle is the one of the old counter. -/
def Reactor.pushSqe (s : Reactor W) : Reactor W :=
  let u := s.userDataCounter
  let s := { s with
    userDataCounter := u + 1
    completions := insert u s.completions
    handle := Function.update s.handle u .new }
  if s.submission.length < s.entries then
    { s with submission := s.submission ++ [u], alive := insert u s.alive }
  else { s with panicked := some .submissionQueueFull }

/-- `WaitHandle::poll`, and what it returns if it is ready. -/
def Reactor.pollHandle (s : Reactor W) (u : ℕ) (w : W) : Option IoResult × Reactor W :=
  match (s.handle u).result with
  | some res => (some res, { s with
      handle := Function.update s.handle u { s.handle u with result := none }
      resolved := Function.update s.resolved u (s.resolved u ++ [res]) })
  | none => (none, { s with
      handle := Function.update s.handle u { s.handle u with waker := some w }
      polled := insert u s.polled })

/-- The first half of `poll_submit_and_completions`: what is pending is submitted, or
left to the thread that takes it. -/
def Reactor.submit (s : Reactor W) : Reactor W :=
  if s.offload then { s with polling := true }
  else { s with
    polling := true
    submission := []
    kernel := s.kernel ++ s.submission }

/-- One CQE is handed to its handle. -/
def Reactor.reapOne (s : Reactor W) (cqe : ℕ × ℤ) : Reactor W :=
  if s.panicked.isSome then s
  else if cqe.1 ∈ s.completions then
    let s' := { s with
      completions := s.completions.erase cqe.1
      completedCount := s.completedCount + 1
      handle := Function.update s.handle cqe.1 ⟨none, some (.ofCqe cqe.2)⟩
      processed := Function.update s.processed cqe.1 (some cqe.2) }
    match (s.handle cqe.1).waker with
    | some _ => s'
    -- the handle was never polled, and `unreachable!` is reached
    | none => { s' with panicked := some .wakerNone }
  else { s with panicked := some .unknownUserData }

/-- The second half: the CQEs that are there, in order. -/
def Reactor.reap (s : Reactor W) : Reactor W :=
  s.completion.foldl Reactor.reapOne { s with completion := [], polling := false }

/-- What happens to a reactor. -/
inductive ReactorEvent (W : Type*)
  /-- `UdpSocket::send_to` or `recv_from` is called. -/
  | push
  /-- An operation of a `DmaFile` is polled for the first time: it pushes its SQE and
  polls the handle. -/
  | pushPoll (w : W)
  | poll (u : ℕ) (w : W)
  | drop (u : ℕ)
  | submit
  | reap
  /-- The kernel takes SQEs by itself. -/
  | consume (k : ℕ)
  /-- The kernel completes an operation. -/
  | cqe (u : ℕ) (res : ℤ)

/-- One event. The kernel does as it likes; the rest is one thread. -/
def Reactor.step (s : Reactor W) (e : ReactorEvent W) : Option (Reactor W) :=
  if s.panicked.isSome then none
  else match e with
    | .push => if s.polling then none else some s.pushSqe
    | .pushPoll w =>
      if s.polling then none
      else if s.pushSqe.panicked.isSome then some s.pushSqe
      else some (s.pushSqe.pollHandle s.userDataCounter w).2
    | .poll u w =>
      if s.polling ∨ u ∉ s.alive then none else some (s.pollHandle u w).2
    | .drop u =>
      -- the state of the operation stays with the reactor, and its SQE in the ring
      if s.polling ∨ u ∉ s.alive then none else some { s with alive := s.alive.erase u }
    | .submit => if s.polling then none else some s.submit
    | .reap => if s.polling then some s.reap else none
    | .consume k =>
      if s.offload then some { s with
        submission := s.submission.drop k
        kernel := s.kernel ++ s.submission.take k }
      else none
    | .cqe u res =>
      if u ∈ s.kernel then some { s with
        kernel := s.kernel.erase u
        completion := s.completion ++ [(u, res)] }
      else none

/-- **A handle resolves once**: not before its CQE was processed, and from then on it has
the result, or has returned it. -/
def Reactor.ResolvesOnce (s : Reactor W) (u : ℕ) : Prop :=
  match s.processed u with
  | none => (s.handle u).result = none ∧ s.resolved u = []
  | some res =>
    (s.handle u).result = some (.ofCqe res) ∧ s.resolved u = [] ∨
      (s.handle u).result = none ∧ s.resolved u = [.ofCqe res]

/-- **Completion handling is right**: no `unreachable!` is reached, no result is lost, and
the counters give the number of entries. -/
structure Reactor.Right (s : Reactor W) : Prop where
  reachable : s.panicked ≠ some .wakerNone ∧ s.panicked ≠ some .unknownUserData
  resolves : ∀ u, s.ResolvesOnce u
  counters : s.userDataCounter - s.completedCount = s.completions.card

/-! ### What the operations do -/

variable {s s' : Reactor W} {u : ℕ} {w : W} {l : List (ℕ × ℤ)}

/-- A push into a queue that has room. -/
theorem Reactor.pushSqe_of_room (hroom : s.submission.length < s.entries) : s.pushSqe = { s with
    userDataCounter := s.userDataCounter + 1
    completions := insert s.userDataCounter s.completions
    handle := Function.update s.handle s.userDataCounter .new
    submission := s.submission ++ [s.userDataCounter]
    alive := insert s.userDataCounter s.alive } := if_pos hroom

/-- A push into a queue that is full. -/
theorem Reactor.pushSqe_of_full (hfull : ¬s.submission.length < s.entries) : s.pushSqe = { s with
    userDataCounter := s.userDataCounter + 1
    completions := insert s.userDataCounter s.completions
    handle := Function.update s.handle s.userDataCounter .new
    panicked := some .submissionQueueFull } := if_neg hfull

/-- A handle without a result takes the waker. -/
theorem Reactor.pollHandle_of_none (hres : (s.handle u).result = none) :
    (s.pollHandle u w).2 = { s with
      handle := Function.update s.handle u { s.handle u with waker := some w }
      polled := insert u s.polled } := by
  rw [Reactor.pollHandle, hres]

/-- A handle with a result returns it. -/
theorem Reactor.pollHandle_of_some {res : IoResult} (hres : (s.handle u).result = some res) :
    (s.pollHandle u w).2 = { s with
      handle := Function.update s.handle u { s.handle u with result := none }
      resolved := Function.update s.resolved u (s.resolved u ++ [res]) } := by
  rw [Reactor.pollHandle, hres]

/-- **A poll leaves all but the handles.** -/
theorem Reactor.pollHandle_frame (s : Reactor W) (u : ℕ) (w : W) : ∃ handle polled resolved,
    (s.pollHandle u w).2 = { s with handle, polled, resolved } := by
  rcases hres : (s.handle u).result with - | res
  · exact ⟨_, _, _, Reactor.pollHandle_of_none hres⟩
  · exact ⟨_, _, _, Reactor.pollHandle_of_some hres⟩

/-- **The CQEs that are processed leave the ring**, and do not make it full. -/
theorem Reactor.foldl_reapOne_frame (s : Reactor W) (l : List (ℕ × ℤ)) :
    ∃ completions completedCount handle processed panicked, l.foldl Reactor.reapOne s =
        { s with completions, completedCount, handle, processed, panicked } ∧
      (s.panicked ≠ some .submissionQueueFull → panicked ≠ some .submissionQueueFull) := by
  induction l generalizing s with
  | nil => exact ⟨_, _, _, _, _, rfl, id⟩
  | cons c l ih =>
    have hone : ∃ completions completedCount handle processed panicked, s.reapOne c =
          { s with completions, completedCount, handle, processed, panicked } ∧
        (s.panicked ≠ some .submissionQueueFull → panicked ≠ some .submissionQueueFull) := by
      rw [Reactor.reapOne]
      split_ifs
      · exact ⟨_, _, _, _, _, rfl, id⟩
      · rcases (s.handle c.1).waker with - | w
        · exact ⟨_, _, _, _, _, rfl, fun _ => nofun⟩
        · exact ⟨_, _, _, _, _, rfl, id⟩
      · exact ⟨_, _, _, _, _, rfl, fun _ => nofun⟩
    obtain ⟨_, _, _, _, _, hone, hfull⟩ := hone
    obtain ⟨_, _, _, _, _, hfold, hfull'⟩ := ih (s.reapOne c)
    rw [List.foldl_cons]
    rw [hone] at hfold hfull' ⊢
    exact ⟨_, _, _, _, _, hfold, fun h => hfull' (hfull h)⟩

/-! ### What a step does -/

theorem Reactor.panicked_of_step {e : ReactorEvent W} (hs : s.step e = some s') :
    s.panicked = none :=
  Option.not_isSome_iff_eq_none.mp (Option.ite_none_left_eq_some.mp hs).1

theorem Reactor.step_push :
    s.step .push = some s' ↔ s.panicked = none ∧ s.polling = false ∧ s' = s.pushSqe := by
  simp [Reactor.step, @eq_comm _ s']

theorem Reactor.step_pushPoll : s.step (.pushPoll w) = some s' ↔
    s.panicked = none ∧ s.polling = false ∧
      s' = if s.pushSqe.panicked.isSome then s.pushSqe
        else (s.pushSqe.pollHandle s.userDataCounter w).2 := by
  simp only [Reactor.step, ← apply_ite some]
  simp [@eq_comm _ s']

theorem Reactor.step_poll : s.step (.poll u w) = some s' ↔
    s.panicked = none ∧ s.polling = false ∧ u ∈ s.alive ∧ s' = (s.pollHandle u w).2 := by
  simp [Reactor.step, @eq_comm _ s', and_assoc]

theorem Reactor.step_drop : s.step (.drop u) = some s' ↔ s.panicked = none ∧
    s.polling = false ∧ u ∈ s.alive ∧ s' = { s with alive := s.alive.erase u } := by
  simp [Reactor.step, @eq_comm _ s', and_assoc]

theorem Reactor.step_submit :
    s.step .submit = some s' ↔ s.panicked = none ∧ s.polling = false ∧ s' = s.submit := by
  simp [Reactor.step, @eq_comm _ s']

theorem Reactor.step_reap :
    s.step .reap = some s' ↔ s.panicked = none ∧ s.polling = true ∧ s' = s.reap := by
  simp [Reactor.step, @eq_comm _ s']

theorem Reactor.step_consume {k : ℕ} : s.step (.consume k) = some s' ↔
    s.panicked = none ∧ s.offload = true ∧ s' = { s with
      submission := s.submission.drop k
      kernel := s.kernel ++ s.submission.take k } := by
  simp [Reactor.step, @eq_comm _ s']

theorem Reactor.step_cqe {res : ℤ} : s.step (.cqe u res) = some s' ↔
    s.panicked = none ∧ u ∈ s.kernel ∧ s' = { s with
      kernel := s.kernel.erase u
      completion := s.completion ++ [(u, res)] } := by
  simp [Reactor.step, @eq_comm _ s']

/-! ### The invariant -/

/-- **The invariant**, with `l` the CQEs that have not been processed. An operation in the
ring or in `l` has an entry, and its waker is there exactly if its handle has been
polled. -/
structure ReapInv (s : Reactor W) (l : List (ℕ × ℤ)) : Prop where
  calm : s.panicked = none
  nodup : (s.submission ++ s.kernel ++ l.map Prod.fst).Nodup
  entry : ∀ u, u ∈ s.submission ++ s.kernel ++ l.map Prod.fst ↔ u ∈ s.completions
  lt : ∀ u ∈ s.completions, u < s.userDataCounter
  counters : s.userDataCounter = s.completedCount + s.completions.card
  unprocessed : ∀ u ∈ s.completions, s.processed u = none
  waker : ∀ u ∈ s.completions, (s.handle u).waker = none ↔ u ∉ s.polled
  resolves : ∀ u, s.ResolvesOnce u
  fresh : ∀ u, s.userDataCounter ≤ u → s.processed u = none ∧ s.resolved u = [] ∧ u ∉ s.polled
  alive : ∀ u ∈ s.alive, u < s.userDataCounter

theorem ReapInv.right (h : ReapInv s l) : s.Right := by
  refine ⟨?_, h.resolves, ?_⟩
  · rw [h.calm]
    exact ⟨nofun, nofun⟩
  · rw [h.counters, Nat.add_sub_cancel_left]

/-- Whether a handle resolves once is a matter of its own. -/
theorem Reactor.ResolvesOnce.congr (h : s.ResolvesOnce u) (hp : s'.processed u = s.processed u)
    (hh : (s'.handle u).result = (s.handle u).result) (hr : s'.resolved u = s.resolved u) :
    s'.ResolvesOnce u := by
  unfold Reactor.ResolvesOnce
  rw [hp, hh, hr]
  exact h

theorem result_update_new (handle : ℕ → HandleState W) (u : ℕ) :
    (Function.update handle u .new u).result = none := by
  rw [Function.update_self]
  rfl

theorem result_update_of_ne {v : ℕ} (handle : ℕ → HandleState W) (hv : v ≠ u)
    (x : HandleState W) : (Function.update handle u x v).result = (handle v).result := by
  rw [Function.update_of_ne hv]

theorem resolvesOnce_of_none (hp : s.processed u = none) (hh : (s.handle u).result = none)
    (hr : s.resolved u = []) : s.ResolvesOnce u := by
  rw [Reactor.ResolvesOnce, hp]
  exact ⟨hh, hr⟩

/-- An operation without a CQE has no result. -/
theorem Reactor.ResolvesOnce.result (h : s.ResolvesOnce u) (hp : s.processed u = none) :
    (s.handle u).result = none ∧ s.resolved u = [] := by
  rw [Reactor.ResolvesOnce, hp] at h
  exact h

/-- **A CQE is processed**, if the handle has been polled. -/
theorem ReapInv.reapOne {res : ℤ} (h : ReapInv s ((u, res) :: l)) (hu : u ∈ s.polled) :
    ReapInv (s.reapOne (u, res)) l ∧ (s.reapOne (u, res)).polled = s.polled := by
  have hmem : u ∈ s.completions := (h.entry u).mp (by simp)
  obtain ⟨w, hw⟩ := Option.ne_none_iff_exists'.mp fun hc => (h.waker u hmem).mp hc hu
  have hone : s.reapOne (u, res) = { s with
      completions := s.completions.erase u
      completedCount := s.completedCount + 1
      handle := Function.update s.handle u ⟨none, some (.ofCqe res)⟩
      processed := Function.update s.processed u (some res) } := by
    simp [Reactor.reapOne, h.calm, hmem, hw]
  rw [hone]
  have hperm : (s.submission ++ s.kernel ++ ((u, res) :: l).map Prod.fst).Perm
      (u :: (s.submission ++ s.kernel ++ l.map Prod.fst)) := List.perm_middle
  obtain ⟨hnot, hnodup⟩ := List.nodup_cons.mp (hperm.nodup_iff.mp h.nodup)
  have hne : ∀ {v}, v ∈ s.completions.erase u → v ≠ u := fun hv => Finset.ne_of_mem_erase hv
  refine ⟨⟨h.calm, hnodup, fun v => ?_, fun v hv => h.lt v (Finset.mem_of_mem_erase hv), ?_,
    fun v hv => ?_, fun v hv => ?_, fun v => ?_, fun v hv => ?_, h.alive⟩, rfl⟩
  · -- the numbers in the ring are those of the completions, and there is one of each
    rw [Finset.mem_erase, ← h.entry v, hperm.mem_iff, List.mem_cons]
    constructor
    · intro hv
      exact ⟨fun hc => hnot (hc ▸ hv), .inr hv⟩
    · rintro ⟨hv, rfl | hmem⟩
      · exact absurd rfl hv
      · exact hmem
  · show s.userDataCounter = s.completedCount + 1 + (s.completions.erase u).card
    have hpos := Finset.card_pos.mpr ⟨u, hmem⟩
    rw [Finset.card_erase_of_mem hmem, h.counters]
    omega
  · exact (Function.update_of_ne (hne hv) ..).trans (h.unprocessed v (Finset.mem_of_mem_erase hv))
  · show (Function.update s.handle u _ v).waker = none ↔ _
    rw [Function.update_of_ne (hne hv)]
    exact h.waker v (Finset.mem_of_mem_erase hv)
  · by_cases hv : v = u
    · subst hv
      -- it has its result now, and has not resolved yet
      have hold := (h.resolves v).result (h.unprocessed v hmem)
      simp [Reactor.ResolvesOnce, hold.2]
    · exact (h.resolves v).congr (Function.update_of_ne hv ..) (result_update_of_ne _ hv _) rfl
  · have hvu : v ≠ u := fun hc => Nat.not_lt.mpr hv (hc ▸ h.lt u hmem)
    exact ⟨(Function.update_of_ne hvu ..).trans (h.fresh v hv).1, (h.fresh v hv).2⟩

/-- A panic ends the loop. -/
theorem foldl_reapOne_of_panicked (h : s.panicked.isSome) (l : List (ℕ × ℤ)) :
    l.foldl Reactor.reapOne s = s := by
  induction l with
  | nil => rfl
  | cons c l ih => rw [List.foldl_cons, Reactor.reapOne, if_pos h, ih]

/-- **All CQEs are processed**, if their handles have been polled. -/
theorem ReapInv.foldl (h : ReapInv s l) (hl : ∀ c ∈ l, c.1 ∈ s.polled) :
    ReapInv (l.foldl Reactor.reapOne s) [] := by
  induction l generalizing s with
  | nil => exact h
  | cons c l ih =>
    obtain ⟨h', hpolled⟩ := h.reapOne (hl c List.mem_cons_self)
    exact ih h' fun c' hc' => hpolled ▸ hl c' (List.mem_cons_of_mem _ hc')

/-- **Otherwise the first that has not been polled** reaches `unreachable!`. -/
theorem ReapInv.foldl_panicked (h : ReapInv s l) (hl : ∃ c ∈ l, c.1 ∉ s.polled) :
    (l.foldl Reactor.reapOne s).panicked = some .wakerNone := by
  induction l generalizing s with
  | nil =>
    obtain ⟨c, hc, -⟩ := hl
    cases hc
  | cons c l ih =>
    rw [List.foldl_cons]
    by_cases hc : c.1 ∈ s.polled
    · obtain ⟨h', hpolled⟩ := h.reapOne hc
      refine ih h' ?_
      obtain ⟨c', hc', hnot⟩ := hl
      rcases List.mem_cons.mp hc' with rfl | hc'
      · exact absurd hc hnot
      · exact ⟨c', hc', hpolled ▸ hnot⟩
    · have hmem : c.1 ∈ s.completions := (h.entry c.1).mp (by simp)
      have hone : (s.reapOne c).panicked = some .wakerNone := by
        simp [Reactor.reapOne, h.calm, hmem, (h.waker c.1 hmem).mpr hc]
      rw [foldl_reapOne_of_panicked (by rw [hone]; rfl), hone]

/-- The SQEs and CQEs moved on. -/
theorem ReapInv.move (h : ReapInv s l) {submission kernel : List ℕ} {l' : List (ℕ × ℤ)}
    {completion : List (ℕ × ℤ)} {polling : Bool}
    (hperm : (submission ++ kernel ++ l'.map Prod.fst).Perm
      (s.submission ++ s.kernel ++ l.map Prod.fst)) :
    ReapInv { s with submission, kernel, completion, polling } l' :=
  ⟨h.calm, hperm.nodup_iff.mpr h.nodup, fun u => hperm.mem_iff.trans (h.entry u), h.lt, h.counters,
    h.unprocessed, h.waker, h.resolves, h.fresh, h.alive⟩

/-- **An SQE is pushed**, if there is room. -/
theorem ReapInv.pushSqe (h : ReapInv s l) (hroom : s.submission.length < s.entries) :
    ReapInv s.pushSqe l := by
  rw [Reactor.pushSqe_of_room hroom]
  set u := s.userDataCounter with hu
  obtain ⟨hproc, hres, hpolled⟩ := h.fresh u (Nat.le_refl _)
  have hnew : u ∉ s.completions := fun hc => Nat.lt_irrefl _ (h.lt u hc)
  have hperm : (s.submission ++ [u] ++ s.kernel ++ l.map Prod.fst).Perm
      (u :: (s.submission ++ s.kernel ++ l.map Prod.fst)) := by
    rw [List.append_assoc, List.append_assoc, List.append_assoc]
    exact List.perm_middle
  have hne : ∀ {v}, v ∈ s.completions → v ≠ u := fun hv hc => hnew (hc ▸ hv)
  refine ⟨h.calm, ?_, fun v => ?_, fun v hv => ?_, ?_, fun v hv => ?_, fun v hv => ?_, fun v => ?_,
    fun v hv => h.fresh v (Nat.le_of_succ_le hv), fun v hv => ?_⟩
  · exact hperm.nodup_iff.mpr (List.nodup_cons.mpr
      ⟨fun hc => hnew ((h.entry u).mp hc), h.nodup⟩)
  · rw [Finset.mem_insert, ← h.entry v]
    exact hperm.mem_iff.trans List.mem_cons
  · rcases Finset.mem_insert.mp hv with rfl | hv
    · exact Nat.lt_succ_self u
    · exact Nat.lt_succ_of_lt (h.lt v hv)
  · rw [Finset.card_insert_of_notMem hnew, ← Nat.add_assoc, ← h.counters]
  · rcases Finset.mem_insert.mp hv with rfl | hv
    · exact hproc
    · exact h.unprocessed v hv
  · rcases Finset.mem_insert.mp hv with rfl | hv
    · show (Function.update s.handle u _ u).waker = none ↔ _
      rw [Function.update_self]
      exact iff_of_true rfl hpolled
    · show (Function.update s.handle u _ v).waker = none ↔ _
      rw [Function.update_of_ne (hne hv)]
      exact h.waker v hv
  · by_cases hv : v = u
    · subst hv
      exact resolvesOnce_of_none hproc (result_update_new ..) hres
    · exact (h.resolves v).congr rfl (result_update_of_ne _ hv _) rfl
  · rcases Finset.mem_insert.mp hv with rfl | hv
    · exact Nat.lt_succ_self u
    · exact Nat.lt_succ_of_lt (h.alive v hv)

/-- If there is no room, the panic leaves the counters as they should be. -/
theorem ReapInv.pushSqe_full (h : ReapInv s l) (hfull : ¬s.submission.length < s.entries) :
    s.pushSqe.Right ∧ s.pushSqe.panicked = some .submissionQueueFull := by
  rw [Reactor.pushSqe_of_full hfull]
  refine ⟨⟨⟨nofun, nofun⟩, fun v => ?_, ?_⟩, rfl⟩
  · obtain ⟨hproc, hres, -⟩ := h.fresh s.userDataCounter (Nat.le_refl _)
    by_cases hv : v = s.userDataCounter
    · subst hv
      exact resolvesOnce_of_none hproc (result_update_new ..) hres
    · exact (h.resolves v).congr rfl (result_update_of_ne _ hv _) rfl
  · show s.userDataCounter + 1 - s.completedCount = _
    rw [Finset.card_insert_of_notMem fun hc => Nat.lt_irrefl _ (h.lt _ hc), h.counters]
    omega

theorem ReapInv.pollHandle (h : ReapInv s l) (hlt : u < s.userDataCounter) :
    ReapInv (s.pollHandle u w).2 l := by
  rcases hres : (s.handle u).result with - | res
  · -- it leaves its waker
    rw [Reactor.pollHandle_of_none hres]
    refine ⟨h.calm, h.nodup, h.entry, h.lt, h.counters, h.unprocessed, fun v hv => ?_, fun v => ?_,
      fun v hv => ?_, h.alive⟩
    · by_cases hvu : v = u
      · subst hvu
        show (Function.update s.handle v _ v).waker = none ↔ _
        rw [Function.update_self]
        exact iff_of_false nofun fun hc => hc (Finset.mem_insert_self ..)
      · show (Function.update s.handle u _ v).waker = none ↔ _
        rw [Function.update_of_ne hvu, h.waker v hv, Finset.mem_insert, not_or]
        exact (and_iff_right hvu).symm
    · refine (h.resolves v).congr rfl ?_ rfl
      by_cases hvu : v = u
      · subst hvu
        show (Function.update s.handle v _ v).result = _
        rw [Function.update_self]
      · exact result_update_of_ne _ hvu _
    · obtain ⟨hproc, hr, hpolled⟩ := h.fresh v hv
      refine ⟨hproc, hr, fun hc => ?_⟩
      rcases Finset.mem_insert.mp hc with rfl | hc
      · exact Nat.not_lt.mpr hv hlt
      · exact hpolled hc
  · -- it resolves
    have hu' : u ∉ s.completions := fun hc => by
      have := ((h.resolves u).result (h.unprocessed u hc)).1
      rw [hres] at this
      cases this
    rw [Reactor.pollHandle_of_some hres]
    refine ⟨h.calm, h.nodup, h.entry, h.lt, h.counters, h.unprocessed, fun v hv => ?_, fun v => ?_,
      fun v hv => ?_, h.alive⟩
    · have hvu : v ≠ u := fun hc => hu' (hc ▸ hv)
      show (Function.update s.handle u _ v).waker = none ↔ _
      rw [Function.update_of_ne hvu]
      exact h.waker v hv
    · by_cases hvu : v = u
      · subst hvu
        have hold := h.resolves v
        unfold Reactor.ResolvesOnce at hold ⊢
        dsimp only
        rw [Function.update_self, Function.update_self]
        -- it was processed, as it has a result, and has not resolved before
        rcases hp : s.processed v with - | r <;> rw [hp] at hold
        · cases hres.symm.trans hold.1
        · rcases hold with ⟨hr, hnil⟩ | ⟨hr, -⟩
          · cases hres.symm.trans hr
            exact .inr ⟨rfl, by rw [hnil]; rfl⟩
          · cases hres.symm.trans hr
      · exact (h.resolves v).congr rfl (result_update_of_ne _ hvu _)
          (Function.update_of_ne hvu ..)
    · have hvu : v ≠ u := fun hc => Nat.not_lt.mpr hv (hc ▸ hlt)
      obtain ⟨hproc, hr, hpolled⟩ := h.fresh v hv
      exact ⟨hproc, (Function.update_of_ne hvu ..).trans hr, hpolled⟩

/-! ### The law -/

/-- **The steps that complete well**: when CQEs are processed, each is of an operation
whose handle has been polled. -/
def Reactor.AllPolled (s : Reactor W) : ReactorEvent W → Prop
  | .reap => ∀ c ∈ s.completion, c.1 ∈ s.polled
  | _ => True

/-- What holds in every state: the invariant, or the ring is full. -/
def ReactorInv (s : Reactor W) : Prop :=
  ReapInv s s.completion ∨ s.Right ∧ s.panicked = some .submissionQueueFull

theorem ReactorInv.right (h : ReactorInv s) : s.Right := h.elim (·.right) (·.1)

/-- An SQE is pushed, or there is no room. -/
theorem ReapInv.pushSqe_or (h : ReapInv s s.completion) : ReactorInv s.pushSqe ∧
    (s.pushSqe.panicked.isSome = false → ReapInv s.pushSqe s.completion) := by
  by_cases hroom : s.submission.length < s.entries
  · have hinv := h.pushSqe hroom
    have hcompletion : s.pushSqe.completion = s.completion := by
      rw [Reactor.pushSqe_of_room hroom]
    exact ⟨.inl (hcompletion ▸ hinv), fun _ => hinv⟩
  · obtain ⟨hright, hpanicked⟩ := h.pushSqe_full hroom
    refine ⟨.inr ⟨hright, hpanicked⟩, fun hc => ?_⟩
    rw [hpanicked] at hc
    cases hc

/-! ### What the steps leave -/

/-- An SQE that has no CQE. -/
def Reactor.InRing (s : Reactor W) (u : ℕ) : Prop := u ∈ s.submission ∨ u ∈ s.kernel

theorem completion_pollHandle : (s.pollHandle u w).2.completion = s.completion := by
  obtain ⟨_, _, _, hpoll⟩ := s.pollHandle_frame u w
  rw [hpoll]

theorem completion_pushSqe : s.pushSqe.completion = s.completion := by
  by_cases hroom : s.submission.length < s.entries
  · rw [Reactor.pushSqe_of_room hroom]
  · rw [Reactor.pushSqe_of_full hroom]

theorem userDataCounter_pushSqe : s.pushSqe.userDataCounter = s.userDataCounter + 1 := by
  by_cases hroom : s.submission.length < s.entries
  · rw [Reactor.pushSqe_of_room hroom]
  · rw [Reactor.pushSqe_of_full hroom]

theorem userDataCounter_pollHandle :
    (s.pollHandle u w).2.userDataCounter = s.userDataCounter := by
  obtain ⟨_, _, _, hpoll⟩ := s.pollHandle_frame u w
  rw [hpoll]

/-- A poll leaves the ring. -/
theorem inRing_pollHandle {v : ℕ} : (s.pollHandle u w).2.InRing v ↔ s.InRing v := by
  obtain ⟨_, _, _, hpoll⟩ := s.pollHandle_frame u w
  rw [hpoll]
  exact Iff.rfl

/-- A push adds one SQE. -/
theorem inRing_pushSqe {v : ℕ} (h : s.pushSqe.InRing v) :
    s.InRing v ∨ v = s.userDataCounter := by
  by_cases hroom : s.submission.length < s.entries
  · rw [Reactor.pushSqe_of_room hroom] at h
    rcases h with h | h
    · rcases List.mem_append.mp h with h | h
      · exact .inl (.inl h)
      · exact .inr (List.mem_singleton.mp h)
    · exact .inl (.inr h)
  · rw [Reactor.pushSqe_of_full hroom] at h
    exact .inl h

/-- **A step and the ring**: an SQE in the ring was there, or is the one pushed. -/
theorem Reactor.step_inRing {e : ReactorEvent W} (hs : s.step e = some s') :
    s.userDataCounter ≤ s'.userDataCounter ∧
      ∀ v, s'.InRing v → s.InRing v ∨ v = s.userDataCounter := by
  cases e with
  | push =>
    obtain ⟨-, -, rfl⟩ := Reactor.step_push.mp hs
    exact ⟨userDataCounter_pushSqe ▸ Nat.le_succ _, fun v => inRing_pushSqe⟩
  | pushPoll w =>
    obtain ⟨-, -, rfl⟩ := Reactor.step_pushPoll.mp hs
    split
    · exact ⟨userDataCounter_pushSqe ▸ Nat.le_succ _, fun v => inRing_pushSqe⟩
    · rw [userDataCounter_pollHandle, userDataCounter_pushSqe]
      exact ⟨Nat.le_succ _, fun v hv => inRing_pushSqe (inRing_pollHandle.mp hv)⟩
  | poll u w =>
    obtain ⟨-, -, -, rfl⟩ := Reactor.step_poll.mp hs
    exact ⟨userDataCounter_pollHandle.ge, fun v hv => .inl (inRing_pollHandle.mp hv)⟩
  | drop u =>
    obtain ⟨-, -, -, rfl⟩ := Reactor.step_drop.mp hs
    exact ⟨Nat.le_refl _, fun v hv => .inl hv⟩
  | submit =>
    obtain ⟨-, -, rfl⟩ := Reactor.step_submit.mp hs
    rw [Reactor.submit]
    split
    · exact ⟨Nat.le_refl _, fun v hv => .inl hv⟩
    · refine ⟨Nat.le_refl _, fun v hv => .inl ?_⟩
      rcases hv with hv | hv
      · cases hv
      · exact (List.mem_append.mp hv).symm
  | reap =>
    obtain ⟨-, -, rfl⟩ := Reactor.step_reap.mp hs
    obtain ⟨_, _, _, _, _, hfold, -⟩ := Reactor.foldl_reapOne_frame
      { s with completion := [], polling := false } s.completion
    rw [Reactor.reap, hfold]
    exact ⟨Nat.le_refl _, fun v hv => .inl hv⟩
  | consume k =>
    obtain ⟨-, -, rfl⟩ := Reactor.step_consume.mp hs
    refine ⟨Nat.le_refl _, fun v hv => .inl ?_⟩
    rcases hv with hv | hv
    · exact .inl (List.mem_of_mem_drop hv)
    · exact (List.mem_append.mp hv).symm.imp_left List.mem_of_mem_take
  | cqe u res =>
    obtain ⟨-, -, rfl⟩ := Reactor.step_cqe.mp hs
    exact ⟨Nat.le_refl _, fun v hv => .inl (hv.imp_right List.mem_of_mem_erase)⟩

/-- A handle that has a result has no SQE in the ring. -/
theorem ReapInv.not_inRing (h : ReapInv s l) {res : IoResult}
    (hres : (s.handle u).result = some res) : ¬s.InRing u := by
  intro hring
  have hu : u ∈ s.completions := (h.entry u).mp
    (List.mem_append_left _ (List.mem_append.mpr hring))
  have hnone := ((h.resolves u).result (h.unprocessed u hu)).1
  rw [hres] at hnone
  cases hnone

/-- **One step**, if its CQEs are of handles that have been polled. -/
theorem ReapInv.step {e : ReactorEvent W} (h : ReapInv s s.completion) (hok : s.AllPolled e)
    (hs : s.step e = some s') : ReactorInv s' := by
  cases e with
  | push =>
    obtain ⟨-, -, rfl⟩ := Reactor.step_push.mp hs
    exact h.pushSqe_or.1
  | pushPoll w =>
    obtain ⟨-, -, rfl⟩ := Reactor.step_pushPoll.mp hs
    split
    · exact h.pushSqe_or.1
    · next hpush =>
      have hinv := h.pushSqe_or.2 (Bool.eq_false_iff.mpr hpush)
      refine .inl ?_
      rw [completion_pollHandle, completion_pushSqe]
      exact hinv.pollHandle (by rw [userDataCounter_pushSqe]; exact Nat.lt_succ_self _)
  | poll u w =>
    obtain ⟨-, -, hu, rfl⟩ := Reactor.step_poll.mp hs
    refine .inl ?_
    rw [completion_pollHandle]
    exact h.pollHandle (h.alive u hu)
  | drop u =>
    obtain ⟨-, -, -, rfl⟩ := Reactor.step_drop.mp hs
    exact .inl { h with alive := fun v hv => h.alive v (Finset.mem_of_mem_erase hv) }
  | submit =>
    obtain ⟨-, -, rfl⟩ := Reactor.step_submit.mp hs
    refine .inl ?_
    rw [Reactor.submit]
    split
    · exact h.move (List.Perm.refl _)
    · refine h.move (List.Perm.append_right _ ?_)
      rw [List.nil_append]
      exact List.perm_append_comm
  | reap =>
    obtain ⟨-, -, rfl⟩ := Reactor.step_reap.mp hs
    have hstart : ReapInv { s with completion := [], polling := false } s.completion :=
      h.move (List.Perm.refl _)
    have hdone := hstart.foldl hok
    -- no CQE has come meanwhile
    obtain ⟨_, _, _, _, _, hfold, -⟩ := Reactor.foldl_reapOne_frame
      { s with completion := [], polling := false } s.completion
    rw [hfold] at hdone
    refine .inl ?_
    rw [Reactor.reap, hfold]
    exact hdone
  | consume k =>
    obtain ⟨-, -, rfl⟩ := Reactor.step_consume.mp hs
    refine .inl (h.move (List.Perm.append_right _ ?_))
    have htake : (s.kernel ++ s.submission.take k ++ s.submission.drop k).Perm
        (s.submission ++ s.kernel) := by
      rw [List.append_assoc, List.take_append_drop]
      exact List.perm_append_comm
    exact List.perm_append_comm.trans htake
  | cqe u res =>
    obtain ⟨-, hu, rfl⟩ := Reactor.step_cqe.mp hs
    refine .inl (h.move ?_)
    refine List.Perm.trans ?_ (((List.perm_cons_erase hu).append_left _).append_right _).symm
    rw [List.map_append]
    refine List.perm_iff_count.mpr fun a => ?_
    simp only [List.count_append, List.count_cons, List.map_cons, List.map_nil, List.count_nil]
    omega

/-- **One step**, if one of its CQEs is not. -/
theorem ReapInv.step_panicked {e : ReactorEvent W} (h : ReapInv s s.completion)
    (hbad : ¬s.AllPolled e) (hs : s.step e = some s') : s'.panicked = some .wakerNone := by
  cases e with
  | reap =>
    obtain ⟨-, -, rfl⟩ := Reactor.step_reap.mp hs
    have hstart : ReapInv { s with completion := [], polling := false } s.completion :=
      h.move (List.Perm.refl _)
    have hbad : ∃ c ∈ s.completion, c.1 ∉ s.polled := by
      simpa only [Reactor.AllPolled, not_forall, exists_prop] using hbad
    exact hstart.foldl_panicked hbad
  | _ => exact absurd trivial hbad

/-- While there are steps, the ring has not been full. -/
theorem ReactorInv.reap {e : ReactorEvent W} (h : ReactorInv s) (hs : s.step e = some s') :
    ReapInv s s.completion := by
  refine h.resolve_right fun hc => ?_
  cases hc.2.symm.trans (Reactor.panicked_of_step hs)

/-- The invariant of a new reactor. -/
theorem reapInv_start (entries : ℕ) (offload : Bool) :
    ReapInv (Reactor.start entries offload : Reactor W) [] :=
  ⟨rfl, List.nodup_nil, fun _ => Iff.rfl, nofun, rfl, nofun, nofun,
    fun _ => resolvesOnce_of_none rfl rfl rfl, fun _ _ => ⟨rfl, rfl, nofun⟩, nofun⟩

/-- **Completion handling**: in a run of a reactor of any size, no `unreachable!` is
reached, no result is lost and the counters are right in every state if and only if
each CQE that is processed is of an operation whose handle has been polled. -/
theorem completion_law (entries : ℕ) (offload : Bool) (es : List (ReactorEvent W)) :
    Always Reactor.step Reactor.Right (.start entries offload) es ↔
      EachStep Reactor.step Reactor.AllPolled (.start entries offload) es := by
  refine always_iff_eachStep (fun s (h : ReactorInv s) => h.right) ?_ ?_ (.inl ?_)
    (eachStep_true es)
  · exact fun s e s' h _ hok hs => (h.reap hs).step hok hs
  · exact fun s e s' h _ hbad hs hright =>
      hright.reachable.1 ((h.reap hs).step_panicked hbad hs)
  · exact reapInv_start entries offload

/-- **A datagram that is sent before anybody waits**: the CQE of a `send_to` comes before
the first poll of its future. -/
theorem send_to_unreachable : ∃ s, runList Reactor.step (Reactor.start 8 false)
    [.push, .submit, .cqe 0 4, .reap] = some s ∧ ¬Reactor.Right (W := ℕ) s ∧
      s.panicked = some .wakerNone :=
  ⟨_, rfl, fun h => h.reachable.1 rfl, rfl⟩

end Uring

end Pluvio
