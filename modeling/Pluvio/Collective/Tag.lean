import Mathlib.Data.UInt
import Mathlib.Data.Nat.Bitwise

/-!
# Tags of the tag-matched path

The four fields of a tag and their places in its 64 bits.
-/

namespace Pluvio

/-- `encode_tag`. -/
def encodeTag (src : ℕ) (step : UInt16) (phase microChunk : UInt8) : UInt64 :=
  (((UInt64.ofNat src &&& (0xffff : UInt64)) ||| (step.toUInt64 <<< (16 : UInt64))) |||
    (phase.toUInt64 <<< (32 : UInt64))) ||| (microChunk.toUInt64 <<< (40 : UInt64))

/-- A field above the others is added to them. -/
theorem or_shiftLeft {a b i : ℕ} (h : a < 2 ^ i) : a ||| (b <<< i) = a + b * 2 ^ i := by
  rw [Nat.or_comm, ← Nat.shiftLeft_add_eq_or_of_lt h, Nat.shiftLeft_eq, Nat.add_comm]

/-- **The fields of a tag do not overlap**: a tag is the number they make up. -/
theorem encodeTag_toNat (src : ℕ) (step : UInt16) (phase microChunk : UInt8) :
    (encodeTag src step phase microChunk).toNat =
      src % 2 ^ 16 + step.toNat * 2 ^ 16 + phase.toNat * 2 ^ 32 + microChunk.toNat * 2 ^ 40 := by
  have h1 := step.toNat_lt
  have h2 := phase.toNat_lt
  have h3 := microChunk.toNat_lt
  have hsrc : (UInt64.ofNat src &&& (0xffff : UInt64)).toNat = src % 2 ^ 16 := by
    rw [UInt64.toNat_and, UInt64.toNat_ofNat']
    show src % 2 ^ 64 &&& (2 ^ 16 - 1) = _
    rw [Nat.and_two_pow_sub_one_eq_mod]
    omega
  have hshift : ∀ (x i : UInt64), x.toNat * 2 ^ (i.toNat % 64) < 2 ^ 64 →
      (x <<< i).toNat = x.toNat <<< (i.toNat % 64) := by
    intro x i h
    rw [UInt64.toNat_shiftLeft, Nat.shiftLeft_eq, Nat.mod_eq_of_lt h]
  have e1 := hshift step.toUInt64 16
  have e2 := hshift phase.toUInt64 32
  have e3 := hshift microChunk.toUInt64 40
  simp only [UInt16.toNat_toUInt64, UInt8.toNat_toUInt64, UInt64.reduceToNat, Nat.reduceMod]
    at e1 e2 e3
  rw [encodeTag, UInt64.toNat_or, UInt64.toNat_or, UInt64.toNat_or, hsrc, e1 (by omega),
    e2 (by omega), e3 (by omega), or_shiftLeft (a := src % 2 ^ 16) (by omega),
    or_shiftLeft (a := _ + step.toNat * 2 ^ 16) (by omega),
    or_shiftLeft (a := _ + phase.toNat * 2 ^ 32) (by omega)]

end Pluvio
