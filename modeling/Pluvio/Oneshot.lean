import Mathlib.Data.Option.Basic

/-!
# One-shot cells

A cell that one party fills once and another one waits for: a poll takes the value, or
leaves its waker behind, and the party that fills the cell invokes the waker it finds.

What a cell holds is known from what has happened to it, the value it was filled with and
what its polls have taken (`Pluvio.Oneshot.Used`).
-/

namespace Pluvio

/-- A value that is put once and taken once, and the waker of the last poll that did not find
it. -/
structure Oneshot (W ρ : Type*) where
  waker : Option W
  result : Option ρ

namespace Oneshot

variable {W ρ : Type*}

/-- A cell that nothing has been put into. -/
def new : Oneshot W ρ := ⟨none, none⟩

/-- A poll: the value, if it is there, and the cell afterwards. -/
def poll (c : Oneshot W ρ) (w : W) : Option ρ × Oneshot W ρ :=
  match c.result with
  | some v => (some v, { c with result := none })
  | none => (none, { c with waker := some w })

/-- The cell is filled: the waker to invoke, if there is one, and the cell afterwards. -/
def complete (c : Oneshot W ρ) (v : ρ) : Option W × Oneshot W ρ := (c.waker, ⟨none, some v⟩)

/-- **What has happened to a cell**: what it was filled with, and what its polls have
taken. -/
inductive Used (c : Oneshot W ρ) : Option ρ → List ρ → Prop
  | empty : c.result = none → Used c none []
  | full (v : ρ) : c.result = some v → Used c (some v) []
  | taken (v : ρ) : c.result = none → Used c (some v) [v]

variable {c : Oneshot W ρ} {put : Option ρ} {taken : List ρ} {v : ρ}

theorem used_new : (new : Oneshot W ρ).Used none [] := .empty rfl

theorem poll_of_none (h : c.result = none) (w : W) :
    c.poll w = (none, { c with waker := some w }) := by
  rw [poll, h]

theorem poll_of_some (h : c.result = some v) (w : W) :
    c.poll w = (some v, { c with result := none }) := by
  rw [poll, h]

/-- **A poll** takes the value if it has been put and not been taken. -/
theorem Used.poll (h : c.Used put taken) (w : W) :
    (c.poll w).2.Used put (taken ++ (c.poll w).1.toList) := by
  cases h with
  | empty hc =>
    rw [poll_of_none hc]
    exact .empty hc
  | full v hc =>
    rw [poll_of_some hc]
    exact .taken v rfl
  | taken v hc =>
    rw [poll_of_none hc]
    exact .taken v hc

/-- The value that is put into an unused cell is the one that it has been completed with. -/
theorem Used.complete (h : c.Used none taken) (v : ρ) :
    (c.complete v).2.Used (some v) taken := by
  cases h with
  | empty => exact .full v rfl

/-- The value is taken once at most. -/
theorem Used.taken_eq (h : c.Used put taken) : taken = [] ∨ ∃ v, put = some v ∧ taken = [v] := by
  cases h with
  | empty => exact .inl rfl
  | full => exact .inl rfl
  | taken v => exact .inr ⟨v, rfl, rfl⟩

/-- **A value that has not been taken** is found by the next poll. -/
theorem Used.poll_fst (h : c.Used (some v) []) (w : W) : (c.poll w).1 = some v := by
  cases h with
  | full v hc => rw [poll_of_some hc]

/-- A poll that finds nothing leaves its waker. -/
theorem waker_poll {w : W} (h : (c.poll w).1 = none) : (c.poll w).2.waker = some w := by
  rcases hc : c.result with - | v
  · rw [poll_of_none hc]
  · rw [poll_of_some hc] at h
    cases h

/-- After a poll the cell is empty. -/
theorem result_poll (w : W) : (c.poll w).2.result = none := by
  rcases hc : c.result with - | v
  · rw [poll_of_none hc]
    exact hc
  · rw [poll_of_some hc]

/-- **Another poll** with the same waker changes nothing. -/
theorem poll_eq_self {w : W} (hwaker : c.waker = some w) (hresult : c.result = none) :
    c.poll w = (none, c) := by
  rw [poll_of_none hresult, ← hwaker]

end Oneshot

end Pluvio
