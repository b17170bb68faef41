import Mathlib.Data.List.Nodup
import Mathlib.Data.Nat.Basic
import Mathlib.Order.Basic
import Mathlib.Tactic.SplitIfs

/-!
# Positions on a circle

`n` positions on a circle. `Pluvio.back n p k` is the position `k` places before
`p`, and at the same time the number of places from `k` on to `p`: the two are the
same number (`Pluvio.back_back`), which is what lets one follow a block that
travels around the circle.
-/

namespace Pluvio

/-- The position `k` places before `p`. -/
def back (n p k : ℕ) : ℕ := (p + n - k) % n

variable {n p k c : ℕ}

/-- A number below twice the modulus. -/
theorem mod_eq_ite {a : ℕ} (h : a < 2 * n) : a % n = if a < n then a else a - n := by
  split
  · next hlt => exact Nat.mod_eq_of_lt hlt
  · next hge =>
    rw [Nat.mod_eq_sub_mod (Nat.not_lt.mp hge), Nat.mod_eq_of_lt (by omega)]

theorem back_eq_ite (hp : p < n) (hk : k ≤ n) :
    back n p k = if k ≤ p then p - k else p + n - k := by
  rcases Nat.eq_zero_or_pos k with rfl | hk0
  · rw [back, Nat.sub_zero, Nat.add_mod_right, Nat.mod_eq_of_lt hp, if_pos (Nat.zero_le p),
      Nat.sub_zero]
  rw [back, mod_eq_ite (by omega)]
  split <;> split <;> omega

theorem back_lt (hp : p < n) : back n p k < n := Nat.mod_lt _ (by omega)

/-- **Going back by the distance**: `k` places before `p` is `c` exactly when
there are `k` places from `c` to `p`. -/
theorem back_back (hp : p < n) (hk : k < n) : back n p (back n p k) = k := by
  rw [back_eq_ite hp (back_lt hp).le, back_eq_ite hp hk.le]
  split <;> split <;> omega

theorem eq_back_iff (hp : p < n) (hk : k < n) (hc : c < n) : c = back n p k ↔ back n p c = k := by
  constructor
  · rintro rfl
    exact back_back hp hk
  · rintro rfl
    exact (back_back hp hc).symm

/-- One place back, and then `k` more. -/
theorem back_back_one (hp : p < n) (hk : k < n) : back n (back n p 1) k = back n p (k + 1) := by
  rw [back_eq_ite (back_lt hp) hk.le, back_eq_ite hp hk, back_eq_ite hp (by omega)]
  split <;> split <;> split <;> omega

/-- Going back one place more is going back one place from there. -/
theorem back_succ (hp : p < n) (hk : k + 1 ≤ n) : back n (back n p k) 1 = back n p (k + 1) := by
  rw [back_eq_ite (back_lt hp) (by omega), back_eq_ite hp hk, back_eq_ite hp (by omega)]
  split <;> split <;> split <;> omega

/-- The position before `p` is one place closer to every other one. -/
theorem back_one_eq (hp : p < n) (hc : c < n) :
    back n (back n p 1) c = if back n p c = 0 then n - 1 else back n p c - 1 := by
  rw [back_eq_ite (back_lt hp) hc.le, back_eq_ite hp hc.le, back_eq_ite hp (by omega)]
  split_ifs <;> omega

/-- Going on by the distance. -/
theorem add_back (hp : p < n) (hc : c < n) : (c + back n p c) % n = p := by
  rw [back_eq_ite hp hc.le]
  split
  · rw [show c + (p - c) = p by omega, Nat.mod_eq_of_lt hp]
  · rw [show c + (p + n - c) = p + n by omega, Nat.add_mod_right, Nat.mod_eq_of_lt hp]

/-- Going on by a distance, and back again. -/
theorem back_add_mod (hp : p < n) (hk : k < n) : back n ((p + k) % n) k = p := by
  rw [back_eq_ite (Nat.mod_lt _ (by omega)) hk.le, mod_eq_ite (by omega)]
  split_ifs <;> omega

/-- Going back by a distance is one-to-one. -/
theorem back_inj {p' : ℕ} (hp : p < n) (hp' : p' < n) (hk : k < n)
    (h : back n p k = back n p' k) : p = p' := by
  rw [← add_back hp hk, ← add_back hp' hk, h]

/-- Going on by a distance is one-to-one. -/
theorem add_mod_inj {p' : ℕ} (hp : p < n) (hp' : p' < n) (hk : k < n)
    (h : (p + k) % n = (p' + k) % n) : p = p' := by
  rw [← back_add_mod hp hk, ← back_add_mod hp' hk, h]

/-- The next position, and back. -/
theorem back_one_succ (hp : p < n) : back n ((p + 1) % n) 1 = p := by
  rw [back_eq_ite (Nat.mod_lt _ (by omega)) (by omega), mod_eq_ite (by omega)]
  split <;> split <;> omega

/-- One position back, and on. -/
theorem succ_back_one (hp : p < n) : (back n p 1 + 1) % n = p := by
  rw [back_eq_ite hp (by omega), mod_eq_ite (by split <;> omega)]
  split <;> split <;> omega

/-- The position after one `k + 1` places back of the one before. -/
theorem back_one_sub_add_one (hp : p < n) (hk : k ≤ n) :
    (back n p 1 + n - k + 1) % n = back n p k := by
  rw [back_eq_ite hp (by omega), back]
  split
  · rw [show p - 1 + n - k + 1 = p + n - k by omega]
  · rw [show p + n - 1 + n - k + 1 = p + n - k + n by omega, Nat.add_mod_right]

/-- Once around the circle from any position. -/
theorem perm_range_add_mod (hc : c < n) :
    ((List.range n).map fun e => (c + e) % n).Perm (List.range n) := by
  refine (List.perm_ext_iff_of_nodup ?_ List.nodup_range).mpr fun r => ?_
  · refine List.nodup_range.map_on fun a ha b hb hab => ?_
    have ha' := List.mem_range.mp ha
    have hb' := List.mem_range.mp hb
    rw [mod_eq_ite (by omega), mod_eq_ite (by omega)] at hab
    split_ifs at hab <;> omega
  · rw [List.mem_map, List.mem_range]
    constructor
    · rintro ⟨e, -, rfl⟩
      exact Nat.mod_lt _ (by omega)
    · intro hr
      exact ⟨back n r c, List.mem_range.mpr (back_lt hr), add_back hr hc⟩

end Pluvio
