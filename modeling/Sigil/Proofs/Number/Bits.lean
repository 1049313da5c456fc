import Mathlib
import Sigil.Number.Exact

/-!
# The bits of a double

The sign, the scale and the significand of a double make up its bits (`toNat_toBits`), within the
bounds of the format. The significand has less than 53 binary digits only in the least place.
-/

namespace Sigil.Binary64

variable {x : Float}

def signBits (negative : Bool) : Nat := if negative then twoTo 63 else 0

/-- The sign, the scale and the significand of a double make up its bits. -/
theorem toNat_toBits (x : Float) :
    x.toBits.toNat = scale x * twoTo 52 + significand x + signBits (isNegative x) := by
  have hx : x.toBits.toNat < 2 ^ 64 := x.toBits.toBitVec.isLt
  have hfield : exponentField x = x.toBits.toNat / 2 ^ 52 % 2 ^ 11 := rfl
  have hfraction : fraction x = x.toBits.toNat % 2 ^ 52 := rfl
  have h52 : twoTo 52 = 2 ^ 52 := rfl
  have hsign : signBits (isNegative x) = x.toBits.toNat / 2 ^ 63 * 2 ^ 63 := by
    unfold signBits
    split
    · next h => rw [show x.toBits.toNat / 2 ^ 63 = 1 from eq_of_beq h]; rfl
    · next h =>
      have hne : x.toBits.toNat / 2 ^ 63 ≠ 1 := fun h1 => h (beq_iff_eq.2 h1)
      omega
  rw [hsign, scale, significand, h52]
  split <;> omega

theorem significand_lt (x : Float) : significand x < 2 ^ 53 := by
  simp only [significand, fraction, twoTo, Nat.pow_eq]
  split <;> omega

theorem exponentField_lt (x : Float) : exponentField x < 2 ^ 11 := Nat.mod_lt _ (by decide)

/-- Only in the least place does a significand have less than 53 binary digits. -/
theorem le_significand (h : scale x ≠ 0) : 2 ^ 52 ≤ significand x := by
  have hfield : exponentField x ≠ 0 := by
    intro h0
    rw [scale, h0] at h
    exact h rfl
  rw [significand, if_neg hfield]
  exact Nat.le_add_left _ _

theorem scale_le (h : isFinite x = true) : scale x ≤ 2045 := by
  have hlt := exponentField_lt x
  have hne : exponentField x ≠ 2 ^ 11 - 1 := by simpa [isFinite, twoTo] using h
  rw [scale]
  omega

/-- The gap below a double is the narrow one exactly for a power of two that is not the least
one of its kind. -/
theorem fraction_eq_zero (h : scale x ≠ 0) (hm : significand x = 2 ^ 52) :
    fraction x = 0 ∧ 1 < exponentField x := by
  have hfield : 1 < exponentField x := by
    rw [scale] at h
    omega
  rw [significand, if_neg (by omega)] at hm
  change fraction x + 2 ^ 52 = 2 ^ 52 at hm
  exact ⟨by omega, hfield⟩

end Sigil.Binary64
