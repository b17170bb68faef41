import Mathlib.Algebra.GroupWithZero.Nat
import Mathlib.Data.List.Basic
import Pluvio.Heap

/-!
# Checked arithmetic and slicing

The operations of unsigned integers and of slices that do not always have a value: a
program that is written with them says where it panics. Each has a lemma that says when it
does not (`Pluvio.Checked.sub_of_le` and those after it), and a loop of checked steps that
all succeed is the loop of their values (`Pluvio.Checked.mapM_eq_ok`).

A slice of a buffer is `Pluvio.Checked.slice`, given like a range: where it starts, and where it
stops.
-/

namespace Pluvio

/-- Why an operation panics. -/
inductive Panic
  | underflow (a b : ℕ)
  | overflow (a b : ℕ)
  | divByZero
  | shift (bits k : ℕ)
  | outOfBounds (index len : ℕ)
  | outOfRange (start stop len : ℕ)
  | lengths (dst src : ℕ)
  deriving DecidableEq, Repr

/-- The value of an operation that may panic. -/
abbrev Checked (β : Type*) := Except Panic β

namespace Checked

universe u

variable {R : Type*} {β γ : Type u}

/-- `a - b`, which panics below zero. -/
def sub (a b : ℕ) : Checked ℕ := if b ≤ a then .ok (a - b) else .error (.underflow a b)

/-- A result in a word of so many bits. One that does not fit panics if overflow is checked, and
wraps if it is not. -/
def fit (checks : Bool) (bits a b result : ℕ) : Checked ℕ :=
  if result < 2 ^ bits then .ok result
  else if checks then .error (.overflow a b)
  else .ok (result % 2 ^ bits)

/-- `a + b` in a type of `bits` bits. -/
def add (checks : Bool) (bits a b : ℕ) : Checked ℕ := fit checks bits a b (a + b)

/-- `a * b` in a type of `bits` bits. -/
def mul (checks : Bool) (bits a b : ℕ) : Checked ℕ := fit checks bits a b (a * b)

/-- `a / b`, which panics when `b` is zero. -/
def div (a b : ℕ) : Checked ℕ := if b ≠ 0 then .ok (a / b) else .error .divByZero

/-- `a % b`, which panics when `b` is zero. -/
def rem (a b : ℕ) : Checked ℕ := if b ≠ 0 then .ok (a % b) else .error .divByZero

/-- A shift to the left, in a word of so many bits. -/
def shl (bits a k : ℕ) : Checked ℕ := if k < bits then .ok (a <<< k) else .error (.shift bits k)

/-- An element of a list. -/
def get (l : List β) (i : ℕ) : Checked β :=
  match l[i]? with
  | some b => .ok b
  | none => .error (.outOfBounds i l.length)

/-- Element `i` of a buffer of `len` elements. -/
def index (len i : ℕ) : Checked ℕ := if i < len then .ok i else .error (.outOfBounds i len)

/-- A range of a buffer of `len` elements. -/
def slice (r : R) (len start stop : ℕ) : Checked (Slice R) :=
  if start ≤ stop ∧ stop ≤ len then .ok ⟨r, start, stop - start⟩
  else .error (.outOfRange start stop len)

/-- A copy between slices, which have to be of one length. -/
def sameLen (dst src : Slice R) : Checked Unit :=
  if dst.len = src.len then .ok () else .error (.lengths dst.len src.len)

/-! ### When there is no panic -/

@[simp] theorem ok_bind (b : β) (f : β → Checked γ) : (Except.ok b >>= f) = f b := rfl

@[simp] theorem error_bind (e : Panic) (f : β → Checked γ) :
    (Except.error e >>= f) = .error e := rfl

theorem sub_of_le {a b : ℕ} (h : b ≤ a) : sub a b = .ok (a - b) := if_pos h

theorem mul_of_lt {checks : Bool} {bits a b : ℕ} (h : a * b < 2 ^ bits) :
    mul checks bits a b = .ok (a * b) := if_pos h

theorem div_of_pos {a b : ℕ} (h : 0 < b) : div a b = .ok (a / b) :=
  if_pos (Nat.pos_iff_ne_zero.mp h)

theorem rem_of_pos {a b : ℕ} (h : 0 < b) : rem a b = .ok (a % b) :=
  if_pos (Nat.pos_iff_ne_zero.mp h)

theorem get_of_getElem? {l : List β} {i : ℕ} {b : β} (h : l[i]? = some b) : get l i = .ok b := by
  rw [get, h]

theorem index_of_lt {len i : ℕ} (h : i < len) : index len i = .ok i := if_pos h

/-- **A slice** that starts at `start` and has `k` elements. -/
theorem slice_of_le {r : R} {len start stop k : ℕ} (hstop : stop = start + k) (h : stop ≤ len) :
    slice r len start stop = .ok ⟨r, start, k⟩ := by
  subst hstop
  rw [slice, if_pos ⟨Nat.le_add_right start k, h⟩, Nat.add_sub_cancel_left]

@[simp] theorem sameLen_mk (r r' : R) (a b k : ℕ) : sameLen ⟨r, a, k⟩ ⟨r', b, k⟩ = .ok () :=
  if_pos rfl

/-- **A loop** whose steps do not panic. -/
theorem mapM_eq_ok {f : β → Checked γ} {g : β → γ} {l : List β} (h : ∀ b ∈ l, f b = .ok (g b)) :
    l.mapM f = .ok (l.map g) := by
  induction l with
  | nil => rfl
  | cons b l ih =>
    obtain ⟨hb, hl⟩ := List.forall_mem_cons.mp h
    rw [List.mapM_cons, hb, ih hl]
    rfl

end Checked

end Pluvio
