import Pluvio.Runs
import Pluvio.Runtime.Reactor
import Mathlib.Data.List.Perm.Basic

/-!
# The MPI reactor

The requests in flight are a vector, and a poll of the reactor tests them from left to
right. A request that is complete is taken out by `swap_remove`: the last one takes its
place, and the index stays where it is. So the order in which the requests are tested is
not that of the vector, and what the index separates is not what was there before from
what was not, but what has been tested and is not complete from what has not been tested
(`Pluvio.Mpi.pollLoop_spec`).

A poll is given the outcomes of `MPI_Test`, that of its `k`-th call by `k` and by the
request that is tested, so that nothing is assumed about which of them are complete or
which calls fail. A release build does not look at the return code. A debug build asserts
that it is `MPI_SUCCESS`, and a poll that finds another one ends there with a panic, with
the requests before it dealt with and those after it not tested.

A poll has no value when a counter underflows or when it goes on for too long, and
`Pluvio.Mpi.poll_tests_once` says that it always has one.
-/

namespace Pluvio

namespace Mpi

/-! ### The reactor -/

/-- `PendingReq`. A completion slot goes by its number. -/
structure PendingReq (Q W : Type*) where
  req : Q
  waker : W
  slot : ℕ

/-- `MpiReactor`, with the slots it has made. -/
structure MpiReactor (Q W : Type*) where
  pending : List (PendingReq Q W)
  active : ℕ
  /-- How many slots have been made. -/
  slots : ℕ
  /-- The `done` flags of the slots. -/
  done : ℕ → Bool
  /-- The wakers that have been woken, the last one last. -/
  woken : List W

/-- What `MPI_Test` gives back: its return code, and the flag it sets. -/
structure Outcome where
  rc : Int32
  flag : Int32
  deriving DecidableEq

/-- The test has found the request complete. -/
def Outcome.complete (o : Outcome) : Bool := o.flag ≠ 0

/-- The outcomes of tests that succeed. -/
def Outcome.success (complete : Bool) : Outcome := ⟨0, if complete then 1 else 0⟩

/-- `debug_assert_eq!(rc, MPI_SUCCESS)` fails; it is there in a debug build only. -/
def AssertFails (debug : Bool) (rc : Int32) : Prop := debug = true ∧ rc ≠ 0

instance (debug : Bool) (rc : Int32) : Decidable (AssertFails debug rc) :=
  inferInstanceAs (Decidable (_ ∧ _))

/-- What a poll has found out: the requests it has tested, in this order, and whether
they were complete. -/
abbrev Tested (Q W : Type*) := List (PendingReq Q W × Bool)

/-- A poll that has come to its end. -/
structure Polled (Q W : Type*) where
  reactor : MpiReactor Q W
  log : Tested Q W
  /-- The return code at which the assertion has failed, if it has. -/
  failed : Option Int32

/-- `Vec::swap_remove`: the last element takes the place of the one that is removed. -/
def swapRemove {α : Type*} (l : List α) (i : ℕ) : List α :=
  match l.getLast? with
  | some last => (l.set i last).dropLast
  | none => l

variable {Q W : Type*}

/-- The requests that were complete. -/
def Tested.completed (log : Tested Q W) : List (PendingReq Q W) :=
  (log.filter fun t => t.2).map Prod.fst

/-- The requests that were not. -/
def Tested.waiting (log : Tested Q W) : List (PendingReq Q W) :=
  (log.filter fun t => !t.2).map Prod.fst

namespace MpiReactor

/-- `MpiReactor::new`. -/
def new : MpiReactor Q W := ⟨[], 0, 0, fun _ => false, []⟩

/-- `MpiReactor::register`: the slot of the request, and the reactor. -/
def register (s : MpiReactor Q W) (req : Q) (waker : W) : ℕ × MpiReactor Q W :=
  (s.slots, { s with
    pending := s.pending ++ [⟨req, waker, s.slots⟩]
    active := s.active + 1
    slots := s.slots + 1
    done := Function.update s.done s.slots false })

/-- `MpiReactor::status`. -/
def status (s : MpiReactor Q W) : ReactorStatus := if 0 < s.active then .running else .stopped

/-- What the loop does with a request that is complete; there is no value where the counter
underflows. -/
def finish (s : MpiReactor Q W) (i : ℕ) (entry : PendingReq Q W) : Option (MpiReactor Q W) :=
  if 0 < s.active then some { s with
    pending := swapRemove s.pending i
    active := s.active - 1
    done := Function.update s.done entry.slot true
    woken := s.woken ++ [entry.waker] }
  else none

/-- The loop of `MpiReactor::poll` from index `i` on, with the outcomes of `MPI_Test`. -/
def pollLoop (debug : Bool) (test : ℕ → PendingReq Q W → Outcome) :
    ℕ → MpiReactor Q W → ℕ → Tested Q W → Option (Polled Q W)
  | 0, _, _, _ => none
  | fuel + 1, s, i, log =>
    match s.pending[i]? with
    | none => some ⟨s, log, none⟩
    | some entry =>
      let outcome := test log.length entry
      if AssertFails debug outcome.rc then some ⟨s, log, some outcome.rc⟩
      else if outcome.flag ≠ 0 then
        -- `swap_remove` puts the last entry here, so the index stays
        (s.finish i entry).bind fun s => pollLoop debug test fuel s i (log ++ [(entry, true)])
      else pollLoop debug test fuel s (i + 1) (log ++ [(entry, false)])

/-- `MpiReactor::poll`. -/
def poll (debug : Bool) (test : ℕ → PendingReq Q W → Outcome) (s : MpiReactor Q W) :
    Option (Polled Q W) :=
  pollLoop debug test (s.pending.length + 1) s 0 []

end MpiReactor

/-! ### What a poll does -/

section Lists

variable {α : Type*}

/-- **What `swap_remove` leaves**: what is before the element, and then the rest, the last
of it first. -/
theorem swapRemove_append (kept : List α) (x : α) (rest : List α) :
    ∃ rest', swapRemove (kept ++ x :: rest) kept.length = kept ++ rest' ∧ rest'.Perm rest := by
  rcases List.eq_nil_or_concat' rest with rfl | ⟨init, last, rfl⟩
  · refine ⟨[], ?_, .nil⟩
    rw [swapRemove, List.getLast?_concat]
    dsimp only
    rw [List.set_append_right _ _ (Nat.le_refl _), Nat.sub_self, List.set_cons_zero,
      List.dropLast_concat, List.append_nil]
  · refine ⟨last :: init, ?_, (List.perm_append_singleton last init).symm⟩
    have hlist : kept ++ x :: (init ++ [last]) = (kept ++ x :: init) ++ [last] := by
      rw [List.append_assoc, List.cons_append]
    rw [hlist, swapRemove, List.getLast?_concat]
    dsimp only
    rw [List.append_assoc, List.set_append_right _ _ (Nat.le_refl _), Nat.sub_self,
      List.cons_append, List.set_cons_zero, ← List.cons_append, ← List.append_assoc,
      List.dropLast_concat]

end Lists

/-- How a poll ends, by the requests that it has not tested: it returns when there is none,
and otherwise the assertion has failed at the first of them. -/
inductive Ends (debug : Bool) (outcome : PendingReq Q W → Outcome) :
    List (PendingReq Q W) → Option Int32 → Prop
  | returned : Ends debug outcome [] none
  | panicked (e : PendingReq Q W) (left : List (PendingReq Q W))
      (hfails : AssertFails debug (outcome e).rc) :
      Ends debug outcome (e :: left) (some (outcome e).rc)

/-- **What a poll does**: it tests every request once but for those that are left when the
assertion fails, removes those that are complete, sets their flags and wakes their wakers,
once each, and keeps the others. -/
structure PollSpec (debug : Bool) (test : ℕ → PendingReq Q W → Outcome) (s : MpiReactor Q W)
    (p : Polled Q W) (left : List (PendingReq Q W)) : Prop where
  tested : (p.log.map Prod.fst ++ left).Perm s.pending
  answers : ∀ k e b, p.log[k]? = some (e, b) →
    b = (test k e).complete ∧ ¬AssertFails debug (test k e).rc
  pending : p.reactor.pending = p.log.waiting ++ left
  woken : p.reactor.woken = s.woken ++ p.log.completed.map PendingReq.waker
  done : ∀ k, p.reactor.done k = (s.done k || p.log.completed.any fun e => e.slot = k)
  active : p.reactor.active = p.reactor.pending.length
  slots : p.reactor.slots = s.slots
  ends : Ends debug (test p.log.length) left p.failed

section Loop

variable {debug : Bool} {test : ℕ → PendingReq Q W → Outcome} {s s' : MpiReactor Q W}
  {p : Polled Q W} {log : Tested Q W} {left : List (PendingReq Q W)}

theorem Tested.completed_cons (e : PendingReq Q W) (b : Bool) (log : Tested Q W) :
    Tested.completed ((e, b) :: log) = if b then e :: log.completed else log.completed := by
  cases b <;> rfl

theorem Tested.waiting_cons (e : PendingReq Q W) (b : Bool) (log : Tested Q W) :
    Tested.waiting ((e, b) :: log) = if b then log.waiting else e :: log.waiting := by
  cases b <;> rfl

/-- What the loop does from an index on, with `kept` before it and `rest` from it on, when `k`
tests have been made. -/
structure LoopSpec (debug : Bool) (test : ℕ → PendingReq Q W → Outcome) (k : ℕ)
    (kept rest : List (PendingReq Q W)) (s : MpiReactor Q W) (p : Polled Q W)
    (left : List (PendingReq Q W)) : Prop where
  tested : (p.log.map Prod.fst ++ left).Perm rest
  answers : ∀ j e b, p.log[j]? = some (e, b) →
    b = (test (k + j) e).complete ∧ ¬AssertFails debug (test (k + j) e).rc
  pending : p.reactor.pending = kept ++ (p.log.waiting ++ left)
  woken : p.reactor.woken = s.woken ++ p.log.completed.map PendingReq.waker
  done : ∀ slot, p.reactor.done slot =
    (s.done slot || p.log.completed.any fun e => e.slot = slot)
  active : p.reactor.active = p.reactor.pending.length
  slots : p.reactor.slots = s.slots
  ends : Ends debug (test (k + p.log.length)) left p.failed

variable {k : ℕ} {kept rest rest' : List (PendingReq Q W)} {x : PendingReq Q W}

/-- What the loop does with a request that is complete: the counter still counts the
requests that are left. -/
theorem finish_spec (hpending : s.pending = kept ++ x :: rest)
    (hactive : s.active = s.pending.length) :
    ∃ s₁ rest', s.finish kept.length x = some s₁ ∧ s₁.pending = kept ++ rest' ∧
      rest'.Perm rest ∧ s₁.active = s₁.pending.length := by
  obtain ⟨rest', hswap, hperm⟩ := swapRemove_append kept x rest
  rw [← hpending] at hswap
  have hlen : s.active = kept.length + rest.length + 1 := by
    rw [hactive, hpending, List.length_append, List.length_cons, Nat.add_assoc]
  refine ⟨_, rest', if_pos (hlen ▸ Nat.succ_pos _), hswap, hperm, ?_⟩
  dsimp only
  rw [hlen, hswap, List.length_append, hperm.length_eq, Nat.add_sub_cancel]

/-- The answers to a test and to those after it. -/
theorem answers_cons {b : Bool} (hb : b = (test k x).complete)
    (hrc : ¬AssertFails debug (test k x).rc)
    (h : ∀ j e b', log[j]? = some (e, b') →
      b' = (test (k + 1 + j) e).complete ∧ ¬AssertFails debug (test (k + 1 + j) e).rc) (j : ℕ)
    (e : PendingReq Q W) (b' : Bool) (hj : ((x, b) :: log)[j]? = some (e, b')) :
    b' = (test (k + j) e).complete ∧ ¬AssertFails debug (test (k + j) e).rc := by
  cases j with
  | zero =>
    cases hj
    exact ⟨hb, hrc⟩
  | succ j =>
    have hrest := h j e b' hj
    rwa [Nat.add_assoc, Nat.add_comm 1] at hrest

/-- The log of a poll, with one more test before it. -/
def Polled.cons (t : PendingReq Q W × Bool) (p : Polled Q W) : Polled Q W :=
  { p with log := t :: p.log }

theorem ends_cons {b : Bool} (h : Ends debug (test (k + 1 + p.log.length)) left p.failed) :
    Ends debug (test (k + (p.cons (x, b)).log.length)) left (p.cons (x, b)).failed := by
  have hlen : k + (p.cons (x, b)).log.length = k + 1 + p.log.length := by
    simp only [Polled.cons, List.length_cons]
    omega
  rwa [hlen]

/-- The index is at the end. -/
theorem LoopSpec.nil (hpending : s.pending = kept) (hactive : s.active = s.pending.length) :
    LoopSpec debug test k kept [] s ⟨s, [], none⟩ [] where
  tested := .nil
  answers := by
    intro j e b hj
    cases hj
  pending := hpending.trans (List.append_nil _).symm
  woken := (List.append_nil _).symm
  done := fun _ => (Bool.or_false _).symm
  active := hactive
  slots := rfl
  ends := .returned

/-- **The assertion fails**, and nothing more is tested. -/
theorem LoopSpec.panics (hfails : AssertFails debug (test k x).rc)
    (hpending : s.pending = kept ++ x :: rest) (hactive : s.active = s.pending.length) :
    LoopSpec debug test k kept (x :: rest) s ⟨s, [], some (test k x).rc⟩ (x :: rest) where
  tested := .refl _
  answers := by
    intro j e b hj
    cases hj
  pending := hpending
  woken := (List.append_nil _).symm
  done := fun _ => (Bool.or_false _).symm
  active := hactive
  slots := rfl
  ends := .panicked x rest hfails

/-- **The request is complete**, and the rest is tested in another order. -/
theorem LoopSpec.completes {s₁ : MpiReactor Q W} (hrc : ¬AssertFails debug (test k x).rc)
    (hflag : (test k x).complete = true) (hperm : rest'.Perm rest)
    (hfinish : s.finish kept.length x = some s₁)
    (h : LoopSpec debug test (k + 1) kept rest' s₁ p left) :
    LoopSpec debug test k kept (x :: rest) s (p.cons (x, true)) left := by
  obtain ⟨-, hs₁⟩ := Option.ite_none_right_eq_some.mp hfinish
  cases hs₁
  refine ⟨(h.tested.trans hperm).cons x, answers_cons hflag.symm hrc h.answers, ?_, ?_,
    fun slot => ?_, h.active, h.slots, ends_cons h.ends⟩
  · rw [Polled.cons, h.pending, Tested.waiting_cons, if_pos rfl]
  · rw [Polled.cons, h.woken, Tested.completed_cons, if_pos rfl, List.append_assoc]
    rfl
  · rw [Polled.cons, h.done, Tested.completed_cons, if_pos rfl, List.any_cons, ← Bool.or_assoc]
    dsimp only
    rcases eq_or_ne slot x.slot with rfl | hne
    · simp
    · rw [Function.update_of_ne hne, decide_eq_false hne.symm, Bool.or_false]

/-- **The request is not complete**, and stays where it is. -/
theorem LoopSpec.waits (hrc : ¬AssertFails debug (test k x).rc)
    (hflag : (test k x).complete = false)
    (h : LoopSpec debug test (k + 1) (kept ++ [x]) rest s p left) :
    LoopSpec debug test k kept (x :: rest) s (p.cons (x, false)) left := by
  refine ⟨h.tested.cons x, answers_cons hflag.symm hrc h.answers, ?_, ?_, fun slot => ?_,
    h.active, h.slots, ends_cons h.ends⟩
  · rw [Polled.cons, h.pending, Tested.waiting_cons, if_neg Bool.false_ne_true,
      List.append_assoc]
    rfl
  · rw [Polled.cons, h.woken, Tested.completed_cons, if_neg Bool.false_ne_true]
  · rw [Polled.cons, h.done, Tested.completed_cons, if_neg Bool.false_ne_true]

/-- One round of the loop. -/
theorem pollLoop_succ (fuel : ℕ) (hx : s.pending[kept.length]? = some x) :
    MpiReactor.pollLoop debug test (fuel + 1) s kept.length log =
      if AssertFails debug (test log.length x).rc then
        some ⟨s, log, some (test log.length x).rc⟩
      else if (test log.length x).complete then
        (s.finish kept.length x).bind fun s =>
          MpiReactor.pollLoop debug test fuel s kept.length (log ++ [(x, true)])
      else MpiReactor.pollLoop debug test fuel s (kept.length + 1) (log ++ [(x, false)]) := by
  rw [MpiReactor.pollLoop, hx]
  simp only [Outcome.complete, decide_eq_true_eq]

/-- **The loop**: the requests before the index have been tested and are kept, and those
from the index on are tested, each once, up to the first at which the assertion fails. -/
theorem pollLoop_spec (debug : Bool) (test : ℕ → PendingReq Q W → Outcome) (fuel : ℕ)
    (s : MpiReactor Q W) (kept rest : List (PendingReq Q W)) (log : Tested Q W)
    (hpending : s.pending = kept ++ rest) (hfuel : rest.length < fuel)
    (hactive : s.active = s.pending.length) :
    ∃ p left, MpiReactor.pollLoop debug test fuel s kept.length log =
        some { p with log := log ++ p.log } ∧
      LoopSpec debug test log.length kept rest s p left := by
  induction fuel generalizing s kept rest log with
  | zero => exact absurd hfuel (Nat.not_lt_zero _)
  | succ fuel ih =>
    rcases rest with - | ⟨x, rest⟩
    · rw [List.append_nil] at hpending
      have hnone : s.pending[kept.length]? = none := by
        rw [hpending]
        exact List.getElem?_eq_none (Nat.le_refl _)
      refine ⟨_, [], ?_, .nil hpending hactive⟩
      rw [MpiReactor.pollLoop, hnone, List.append_nil]
    have hx : s.pending[kept.length]? = some x := by
      rw [hpending, List.getElem?_append_right (Nat.le_refl _), Nat.sub_self]
      rfl
    have hlog : ∀ b, (log ++ [(x, b)]).length = log.length + 1 := fun b => List.length_append
    rw [List.length_cons] at hfuel
    rw [pollLoop_succ fuel hx]
    by_cases hrc : AssertFails debug (test log.length x).rc
    · refine ⟨_, x :: rest, ?_, .panics hrc hpending hactive⟩
      rw [if_pos hrc, List.append_nil]
    rw [if_neg hrc]
    rcases Bool.eq_false_or_eq_true (test log.length x).complete with hflag | hflag
    · -- it is complete: the last one takes its place
      obtain ⟨s₁, rest', hfinish, hpending₁, hperm, hactive₁⟩ := finish_spec hpending hactive
      obtain ⟨p, left, hrun, hspec⟩ := ih s₁ kept rest' (log ++ [(x, true)]) hpending₁
        (by rw [hperm.length_eq]; omega) hactive₁
      rw [hlog] at hspec
      refine ⟨p.cons (x, true), left, ?_, hspec.completes hrc hflag hperm hfinish⟩
      rw [hflag, if_pos rfl, hfinish, Option.bind_some, hrun, List.append_assoc,
        List.singleton_append]
      rfl
    · obtain ⟨p, left, hrun, hspec⟩ := ih s (kept ++ [x]) rest (log ++ [(x, false)])
        (by rw [hpending, List.append_assoc, List.singleton_append]) (by omega) hactive
      rw [List.length_append, List.length_singleton] at hrun
      rw [hlog] at hspec
      refine ⟨p.cons (x, false), left, ?_, hspec.waits hrc hflag⟩
      rw [hflag, if_neg Bool.false_ne_true, hrun, List.append_assoc, List.singleton_append]
      rfl

/-- **A poll has a value**, when the counter is right. -/
theorem poll_spec (debug : Bool) (test : ℕ → PendingReq Q W → Outcome)
    (hactive : s.active = s.pending.length) :
    ∃ p left, s.poll debug test = some p ∧ PollSpec debug test s p left := by
  obtain ⟨p, left, hrun, h⟩ := pollLoop_spec debug test (s.pending.length + 1) s [] s.pending []
    rfl (Nat.lt_succ_self _) hactive
  have hanswers := h.answers
  have hends := h.ends
  simp only [List.length_nil, Nat.zero_add] at hanswers hends
  exact ⟨p, left, hrun, h.tested, hanswers, h.pending, h.woken, h.done, h.active, h.slots, hends⟩

/-- A poll that returns has tested every request. -/
theorem Ends.eq_nil {outcome : PendingReq Q W → Outcome} (h : Ends debug outcome left none) :
    left = [] := by
  cases h with
  | returned => rfl

/-- **A poll in a release build returns**, and so does one whose tests all succeed. -/
theorem PollSpec.failed_eq_none (h : PollSpec debug test s p left)
    (hrc : ∀ k e, ¬AssertFails debug (test k e).rc) : p.failed = none := by
  have hends := h.ends
  generalize p.failed = failed at hends
  cases hends with
  | returned => rfl
  | panicked e left hfails => exact absurd hfails (hrc _ e)

section BySlot

variable {outcome : PendingReq Q W → Outcome} {e : PendingReq Q W} {b : Bool}

/-- When the answers go by the requests, they are those in the log. -/
theorem PollSpec.answer (h : PollSpec debug (fun _ e => outcome e) s p left)
    (hb : (e, b) ∈ p.log) : b = (outcome e).complete := by
  obtain ⟨k, hk⟩ := List.mem_iff_getElem?.mp hb
  exact (h.answers k e b hk).1

/-- When a poll returns, the requests that were complete are those that were pending and
whose answer was that they are. -/
theorem PollSpec.mem_completed (h : PollSpec debug (fun _ e => outcome e) s p []) :
    e ∈ p.log.completed ↔ e ∈ s.pending ∧ (outcome e).complete = true := by
  rw [← h.tested.mem_iff, Tested.completed, List.append_nil, List.mem_map, List.mem_map]
  constructor
  · rintro ⟨⟨e', b⟩, hb, rfl⟩
    obtain ⟨hlog, rfl⟩ := List.mem_filter.mp hb
    exact ⟨⟨_, hlog, rfl⟩, (h.answer hlog).symm⟩
  · rintro ⟨⟨⟨e', b⟩, hb, rfl⟩, hcomplete⟩
    exact ⟨(e', b), List.mem_filter.mpr ⟨hb, (h.answer hb).trans hcomplete⟩, rfl⟩

/-- The requests that are left are those whose answer was that they are not complete. -/
theorem PollSpec.mem_pending (h : PollSpec debug (fun _ e => outcome e) s p []) :
    e ∈ p.reactor.pending ↔ e ∈ s.pending ∧ (outcome e).complete = false := by
  rw [h.pending, ← h.tested.mem_iff, Tested.waiting, List.append_nil, List.append_nil,
    List.mem_map, List.mem_map]
  constructor
  · rintro ⟨⟨e', b⟩, hb, rfl⟩
    obtain ⟨hlog, hfalse⟩ := List.mem_filter.mp hb
    exact ⟨⟨_, hlog, rfl⟩, (h.answer hlog).symm.trans ((Bool.not_eq_true' b).mp hfalse)⟩
  · rintro ⟨⟨⟨e', b⟩, hb, rfl⟩, hcomplete⟩
    exact ⟨(e', b), List.mem_filter.mpr ⟨hb, (Bool.not_eq_true' b).mpr ((h.answer hb).trans
      hcomplete)⟩, rfl⟩

end BySlot

end Loop

/-! ### Runs of the reactor -/

/-- What happens to the reactor. -/
inductive MpiReactor.Event (Q W : Type*)
  | register (req : Q) (waker : W)
  /-- A poll, with the outcomes of `MPI_Test`. A panic that ends it may be caught. -/
  | poll (test : ℕ → PendingReq Q W → Outcome)

/-- The reactor after an event, if it can happen. -/
def MpiReactor.step (debug : Bool) (s : MpiReactor Q W) : Event Q W → Option (MpiReactor Q W)
  | .register req waker => some (s.register req waker).2
  | .poll test => (s.poll debug test).map Polled.reactor

/-- **The counter counts the requests**, in every state that is reached. -/
theorem active_eq_length {debug : Bool} {s : MpiReactor Q W}
    (h : Reaches (MpiReactor.step debug) .new s) : s.active = s.pending.length := by
  refine h.invariant (P := fun s => s.active = s.pending.length) rfl ?_
  rintro s (⟨req, waker⟩ | ⟨test⟩) s' hactive - hs
  · obtain rfl := Option.some.inj hs
    show s.active + 1 = (s.pending ++ [_]).length
    rw [hactive, List.length_append, List.length_singleton]
  · obtain ⟨p, left, hpoll, hspec⟩ := poll_spec debug test hactive
    rw [MpiReactor.step, hpoll] at hs
    obtain rfl := Option.some.inj hs
    exact hspec.active

/-- The reactor runs as long as the counter is not zero. -/
theorem status_eq_running {s : MpiReactor Q W} : s.status = .running ↔ 0 < s.active :=
  ReactorStatus.ite_eq_running

/-- **A poll tests every request once**, when the counter counts the requests: it comes to
its end, has tested each request at most once and done what belongs to the answer, and has
tested all of them unless it is one of a debug build in which a test has failed, where it
ends with the assertion and leaves the others as they were. And in all runs of `register`
and `poll` the counter does count the requests, and the reactor runs as long as there is
one. -/
theorem poll_tests_once (debug : Bool) (s : MpiReactor Q W) :
    (s.active = s.pending.length → ∀ test, ∃ p left, s.poll debug test = some p ∧
      PollSpec debug test s p left ∧ (p.failed = none → left = []) ∧
      ((∀ k e, ¬AssertFails debug (test k e).rc) → p.failed = none)) ∧
    (Reaches (MpiReactor.step debug) .new s →
      s.active = s.pending.length ∧ (s.status = .running ↔ s.pending ≠ [])) := by
  refine ⟨fun hactive test => ?_, fun h => ⟨active_eq_length h, ?_⟩⟩
  · obtain ⟨p, left, hpoll, hspec⟩ := poll_spec debug test hactive
    refine ⟨p, left, hpoll, hspec, fun hnone => ?_, hspec.failed_eq_none⟩
    have hends := hspec.ends
    rw [hnone] at hends
    exact hends.eq_nil
  · rw [status_eq_running, active_eq_length h, List.length_pos_iff]

/-- Three requests, the first and the last of which are complete: the last one comes to the
place of the first, and is tested there. -/
theorem poll_tests_once_three :
    ∃ s : MpiReactor ℕ ℕ, s.pending.length = 3 ∧ Reaches (MpiReactor.step true) .new s ∧
      (s.status = .running ↔ s.pending ≠ []) ∧
      ∃ p, s.poll true (fun _ e => .success (e.req ≠ 11)) = some p ∧
        PollSpec true (fun _ e => .success (e.req ≠ 11)) s p [] := by
  have hreaches : Reaches (MpiReactor.step true) (.new : MpiReactor ℕ ℕ)
      ⟨[⟨10, 20, 0⟩, ⟨11, 21, 1⟩, ⟨12, 22, 2⟩], 3, 3, Function.update (Function.update
        (Function.update (fun _ => false) 0 false) 1 false) 2 false, []⟩ :=
    Steps.of_run (show runList (MpiReactor.step true) _
      [.register 10 20, .register 11 21, .register 12 22] = some _ from rfl)
  obtain ⟨hactive, hstatus⟩ := (poll_tests_once true _).2 hreaches
  obtain ⟨p, left, hpoll, hspec, hall, hreturns⟩ := (poll_tests_once true _).1 hactive
    (fun _ e => .success (e.req ≠ 11))
  obtain rfl := hall (hreturns fun _ _ h => h.2 rfl)
  exact ⟨_, rfl, hreaches, hstatus, p, hpoll, hspec⟩

/-- **A test that fails** in a debug build: the first of three requests is complete, the test
of the second one fails, and the third is not tested. -/
theorem failed_test_panics : ∃ s : MpiReactor ℕ ℕ, Reaches (MpiReactor.step true) .new s ∧
    ∃ p, s.poll true (fun k _ => if k = 1 then ⟨1, 0⟩ else .success true) = some p ∧
      p.failed = some 1 ∧ p.log.map (fun t => t.1.req) = [10] ∧
      ¬(p.log.map Prod.fst).Perm s.pending ∧
      p.reactor.pending.map PendingReq.req = [12, 11] := by
  refine ⟨_, Steps.of_run (show runList (MpiReactor.step true) _
    [.register 10 20, .register 11 21, .register 12 22] = some _ from rfl), _, rfl, rfl, rfl,
    fun h => ?_, rfl⟩
  exact absurd h.length_eq (by decide)

end Mpi

end Pluvio
