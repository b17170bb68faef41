import Mathlib.Data.UInt
import Mathlib.Data.List.Basic

/-!
# Reading from a stream of bytes

A reader looks at the bytes that have arrived and not been read. It takes some from
the front, or waits for more. What it takes is the same however many more bytes
follow (`Pluvio.Framing.Stable`), so a reader that is given a message piece by piece
does not answer before the message is there, and then it answers what it would have
answered to the whole (`Pluvio.Framing.Stable.whole`).
-/

namespace Pluvio

namespace Framing

/-- What is read from the bytes there are, and the bytes left; `none` is to wait for
more. -/
abbrev Reader (β : Type*) := List UInt8 → Option (β × List UInt8)

variable {β γ : Type*}

/-- Read nothing. -/
def Reader.pure (b : β) : Reader β := fun s => some (b, s)

/-- Read on with what was read. -/
def Reader.bind (p : Reader β) (f : β → Reader γ) : Reader γ := fun s =>
  match p s with
  | none => none
  | some (b, rest) => f b rest

/-- `k` bytes. -/
def readExact (k : ℕ) : Reader (List UInt8) := fun s =>
  if k ≤ s.length then some (s.take k, s.drop k) else none

/-- A number of messages, one after the other. -/
def readTimes (p : Reader β) : ℕ → Reader (List β)
  | 0 => .pure []
  | k + 1 => p.bind fun b => (readTimes p k).bind fun bs => .pure (b :: bs)

/-! ### What a reader answers -/

/-- The reader answers `b` to the bytes `s`, whatever follows them. -/
def Reads (p : Reader β) (s : List UInt8) (b : β) : Prop := ∀ t, p (s ++ t) = some (b, t)

/-- Bytes that come later do not change an answer. -/
def Stable (p : Reader β) : Prop :=
  ∀ s b rest, p s = some (b, rest) → ∀ t, p (s ++ t) = some (b, rest ++ t)

section Rules

variable {p : Reader β} {f : β → Reader γ} {s t : List UInt8} {b : β}

theorem reads_pure (b : β) : Reads (.pure b) [] b := fun _ => rfl

/-- Two messages, one after the other, are read as the two values. -/
theorem Reads.bind {c : γ} (h : Reads p s b) (h' : Reads (f b) t c) :
    Reads (p.bind f) (s ++ t) c := fun u => by
  rw [Reader.bind, List.append_assoc, h (t ++ u)]
  exact h' u

theorem reads_readExact (s : List UInt8) : Reads (readExact s.length) s s := fun t => by
  rw [readExact, if_pos (by rw [List.length_append]; exact Nat.le_add_right _ _),
    List.take_left, List.drop_left]

/-- **A list of messages** of one format. -/
theorem reads_readTimes {write : β → List UInt8} {l : List β}
    (h : ∀ b ∈ l, Reads p (write b) b) : Reads (readTimes p l.length) (l.flatMap write) l := by
  induction l with
  | nil => exact reads_pure []
  | cons b l ih =>
    have hrest := Reads.bind (f := fun bs => .pure (b :: bs))
      (ih fun c hc => h c (List.mem_cons_of_mem b hc)) (reads_pure (b :: l))
    rw [List.append_nil] at hrest
    exact (h b List.mem_cons_self).bind hrest

theorem stable_pure (b : β) : Stable (.pure b) := fun s c rest h t => by
  obtain ⟨rfl, rfl⟩ := Prod.mk.inj (Option.some.inj h)
  rfl

theorem Stable.bind (h : Stable p) (hf : ∀ b, Stable (f b)) : Stable (p.bind f) := by
  intro s c rest hs t
  rw [Reader.bind] at hs ⊢
  cases hp : p s with
  | none =>
    rw [hp] at hs
    cases hs
  | some q =>
    rw [hp] at hs
    rw [h s q.1 q.2 hp t]
    exact hf q.1 q.2 c rest hs t

theorem stable_readExact (k : ℕ) : Stable (readExact k) := by
  intro s b rest hs t
  unfold readExact at hs ⊢
  split at hs
  · next hk =>
    obtain ⟨rfl, rfl⟩ := Prod.mk.inj (Option.some.inj hs)
    rw [if_pos (by rw [List.length_append]; omega), List.take_append_of_le_length hk,
      List.drop_append_of_le_length hk]
  · cases hs

theorem Stable.readTimes (h : Stable p) (k : ℕ) : Stable (readTimes p k) := by
  induction k with
  | zero => exact stable_pure _
  | succ k ih => exact h.bind fun b => ih.bind fun bs => stable_pure _

/-- **A message that comes in pieces** is answered when all of it is there, and as if
it had come whole. -/
theorem Stable.whole {s b' rest} (h : Stable p) (hr : Reads p (s ++ t) b)
    (hs : p s = some (b', rest)) : b' = b ∧ rest = [] ∧ t = [] := by
  have hwhole := hr []
  rw [List.append_nil, h s b' rest hs t] at hwhole
  obtain ⟨hb, hrest⟩ := Prod.mk.inj (Option.some.inj hwhole)
  exact ⟨hb, List.append_eq_nil_iff.mp hrest⟩

end Rules

/-! ### Numbers -/

/-- `k` bytes of a number, the lowest first; what does not fit is cut off. -/
def toLeBytes : ℕ → ℕ → List UInt8
  | 0, _ => []
  | k + 1, v => UInt8.ofNat (v % 256) :: toLeBytes k (v / 256)

/-- The number with these bytes, the lowest first. -/
def fromLeBytes : List UInt8 → ℕ
  | [] => 0
  | b :: bs => b.toNat + 256 * fromLeBytes bs

@[simp] theorem length_toLeBytes (k v : ℕ) : (toLeBytes k v).length = k := by
  induction k generalizing v with
  | zero => rfl
  | succ k ih => rw [toLeBytes, List.length_cons, ih]

/-- **A number that fits** survives. -/
theorem fromLeBytes_toLeBytes {k v : ℕ} (h : v < 256 ^ k) : fromLeBytes (toLeBytes k v) = v := by
  induction k generalizing v with
  | zero =>
    rw [Nat.pow_zero, Nat.lt_one_iff] at h
    rw [h]
    rfl
  | succ k ih =>
    have hdiv : v / 256 < 256 ^ k := by
      rw [Nat.pow_succ, Nat.mul_comm] at h
      exact Nat.div_lt_of_lt_mul h
    rw [toLeBytes, fromLeBytes, ih hdiv, UInt8.toNat_ofNat']
    omega

end Framing

end Pluvio
