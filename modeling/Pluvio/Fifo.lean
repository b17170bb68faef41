import Mathlib.Data.List.Basic

/-!
# A first-in first-out queue with a capacity

The queue an array-based channel is meant to be: a list of values and the number
of values it has room for. What happens on a full queue is a parameter, the
capacity `grow c` that a queue of capacity `c` is given when a value arrives and
there is no room: the identity for a bounded queue, anything larger for one that
grows.

The two facts every user needs are where an accepted value goes
(`Pluvio.Fifo.items_of_push`) and which value comes out
(`Pluvio.Fifo.pop_eq_some_iff`); together they say that along any sequence of
operations the values taken out, followed by those still inside, are the values
that were inside followed by the values accepted.
-/

namespace Pluvio

/-- A queue: what it holds, oldest first, and how much it has room for. -/
structure Fifo (α : Type*) where
  /-- The values held, oldest first. -/
  items : List α
  /-- How many values there is room for. -/
  capacity : ℕ

namespace Fifo

variable {α : Type*} {grow : ℕ → ℕ}

/-- Offer a value: `none` if there is no room even after growing. -/
def push (grow : ℕ → ℕ) (q : Fifo α) (v : α) : Option (Fifo α) :=
  if q.items.length < q.capacity then some { q with items := q.items ++ [v] }
  else if q.items.length < grow q.capacity then
    some { items := q.items ++ [v], capacity := grow q.capacity }
  else none

/-- Take the oldest value. -/
def pop (q : Fifo α) : Option (α × Fifo α) :=
  match q.items with
  | [] => none
  | v :: vs => some (v, { q with items := vs })

/-- **A value is refused exactly when the queue is full** and growing does not
help. -/
theorem push_eq_none_iff {q : Fifo α} {v : α} :
    q.push grow v = none ↔ q.capacity ≤ q.items.length ∧ grow q.capacity ≤ q.items.length := by
  unfold push
  split
  · next h => simp; omega
  · split
    · next h => simp; omega
    · next h h' => simp; omega

/-- An accepted value goes to the end. -/
theorem items_of_push {q q' : Fifo α} {v : α} (h : q.push grow v = some q') :
    q'.items = q.items ++ [v] := by
  unfold push at h
  split at h
  · exact (Option.some.inj h) ▸ rfl
  · split at h
    · exact (Option.some.inj h) ▸ rfl
    · cases h

/-- The oldest value comes out, the others stay. -/
theorem pop_eq_some_iff {q q' : Fifo α} {v : α} :
    q.pop = some (v, q') ↔ q.items = v :: q'.items ∧ q'.capacity = q.capacity := by
  obtain ⟨items, capacity⟩ := q
  obtain ⟨items', capacity'⟩ := q'
  cases items with
  | nil => simp [pop]
  | cons w ws => simp [pop]; tauto

end Fifo

end Pluvio
