import Mathlib.Algebra.Order.Field.Power
import Mathlib.Algebra.Order.Field.Rat
import Mathlib.Tactic.FieldSimp
import Mathlib.Tactic.Linarith
import Mathlib.Tactic.NormNum
import Mathlib.Tactic.Positivity
import Mathlib.Tactic.Ring
import Sigil.Number.Nearest

/-!
# Rounding a quotient to a double

The bits of the double nearest to a quotient are its last place and the quotient in units of
that place, rounded (`nearestBits_eq`). Both depend on the value of the quotient only: the last
place is the one that leaves 53 binary digits before it (`lastPlace_spec`).
-/

namespace Sigil

@[simp, norm_cast] theorem cast_twoTo (n : Nat) : ((twoTo n : Nat) : ℚ) = 2 ^ n :=
  Nat.cast_pow 2 n

@[simp, norm_cast] theorem cast_tenTo (n : Nat) : ((tenTo n : Nat) : ℚ) = 10 ^ n :=
  Nat.cast_pow 10 n

namespace Binary64

variable {num den n d r : Nat}

/-! ## Rounding a quotient -/

/-- The whole number within half a unit of a quotient, and even if it is half a unit away, is
the rounded quotient. -/
theorem roundDiv_eq (hlow : 2 * (r * d) ≤ 2 * n + d) (hhigh : 2 * n ≤ 2 * (r * d) + d)
    (htie : 2 * (r * d) = 2 * n + d ∨ 2 * n = 2 * (r * d) + d → r % 2 = 0) (hd : 0 < d) :
    roundDiv n d = r := by
  have hdiv : n / d * d + n % d = n := by rw [Nat.mul_comm]; exact Nat.div_add_mod n d
  have hmod : n % d < d := Nat.mod_lt n hd
  -- the quotient rounded down is `r` or one less
  have hle : n / d ≤ r := by
    by_contra hlt
    have hmul : (r + 1) * d ≤ n / d * d := Nat.mul_le_mul_right d (by omega)
    rw [Nat.add_mul, Nat.one_mul] at hmul
    omega
  have hge : r ≤ n / d + 1 := by
    by_contra hlt
    have hmul : (n / d + 2) * d ≤ r * d := Nat.mul_le_mul_right d (by omega)
    rw [Nat.add_mul] at hmul
    omega
  unfold roundDiv
  rcases Nat.lt_or_ge (n / d) r with hlt | hge
  · obtain rfl : r = n / d + 1 := by omega
    rw [Nat.add_mul, Nat.one_mul] at hlow htie
    simp only
    split
    · omega
    · split
      · rfl
      · have := htie (.inl (by omega))
        omega
  · obtain rfl : r = n / d := by omega
    simp only
    split
    · rfl
    · split
      · omega
      · have := htie (.inr (by omega))
        omega

/-- Rounding depends on the value of the quotient only. -/
theorem roundDiv_mul {k : Nat} (hk : 0 < k) : roundDiv (n * k) (d * k) = roundDiv n d := by
  have hlt : ∀ {a b : Nat}, 2 * (a * k) < b * k ↔ 2 * a < b := by
    intro a b
    rw [← Nat.mul_assoc]
    exact Nat.mul_lt_mul_right hk
  have hgt : ∀ {a b : Nat}, b * k < 2 * (a * k) ↔ b < 2 * a := by
    intro a b
    rw [← Nat.mul_assoc]
    exact Nat.mul_lt_mul_right hk
  simp only [roundDiv, Nat.mul_div_mul_right n d hk, Nat.mul_mod_mul_right, hlt, hgt]

/-! ## The last place -/

/-- The quotient lies between the powers of two that its terms suggest. -/
theorem log2_sub_bounds (hn : 0 < num) (hd : 0 < den) :
    (2 : ℚ) ^ ((num.log2 : ℤ) - den.log2 - 1) ≤ num / den ∧
      (num : ℚ) / den < 2 ^ ((num.log2 : ℤ) - den.log2 + 1) := by
  have hd' : (0 : ℚ) < den := by exact_mod_cast hd
  have hnlow : (2 : ℚ) ^ num.log2 ≤ num := by exact_mod_cast Nat.log2_self_le (by omega)
  have hnhigh : (num : ℚ) < 2 ^ (num.log2 + 1) := by exact_mod_cast Nat.lt_log2_self
  have hdlow : (2 : ℚ) ^ den.log2 ≤ den := by exact_mod_cast Nat.log2_self_le (by omega)
  have hdhigh : (den : ℚ) < 2 ^ (den.log2 + 1) := by exact_mod_cast Nat.lt_log2_self
  constructor
  · rw [show (num.log2 : ℤ) - den.log2 - 1 = (num.log2 : ℤ) - ((den.log2 + 1 : Nat) : ℤ) by
      push_cast; ring, zpow_sub₀ two_ne_zero, zpow_natCast, zpow_natCast]
    exact div_le_div₀ (by positivity) hnlow hd' hdhigh.le
  · rw [show (num.log2 : ℤ) - den.log2 + 1 = ((num.log2 + 1 : Nat) : ℤ) - (den.log2 : ℤ) by
      push_cast; ring, zpow_sub₀ two_ne_zero, zpow_natCast, zpow_natCast]
    exact div_lt_div₀ hnhigh hdlow (by positivity) (by positivity)

/-- Whether a quotient is less than a power of two, decided on whole numbers. -/
theorem lt_zpow_iff (hd : 0 < den) (e : ℤ) :
    (if 0 ≤ e then decide (num < den * twoTo e.toNat) else decide (num * twoTo (-e).toNat < den))
      = true ↔ (num : ℚ) / den < 2 ^ e := by
  have hd' : (0 : ℚ) < den := by exact_mod_cast hd
  split
  · next he =>
    obtain ⟨k, rfl⟩ := Int.eq_ofNat_of_zero_le he
    rw [decide_eq_true_iff, div_lt_iff₀ hd', zpow_natCast, mul_comm, Int.toNat_natCast]
    exact_mod_cast Iff.rfl
  · next he =>
    obtain ⟨k, hk⟩ := Int.eq_ofNat_of_zero_le (show 0 ≤ -e by omega)
    obtain rfl : e = -(k : ℤ) := by omega
    rw [decide_eq_true_iff, div_lt_iff₀ hd', zpow_neg, zpow_natCast, inv_mul_eq_div,
      lt_div_iff₀ (by positivity), neg_neg, Int.toNat_natCast]
    exact_mod_cast Iff.rfl

/-- The quotient has at most 53 binary digits before its last place, and exactly 53 unless that
is the least one. -/
theorem lastPlace_spec (hn : 0 < num) (hd : 0 < den) :
    (num : ℚ) / den * 2 ^ 1074 < 2 ^ 53 * 2 ^ lastPlace num den ∧
      (lastPlace num den = 0 ∨ 2 ^ 52 * 2 ^ lastPlace num den ≤ (num : ℚ) / den * 2 ^ 1074) := by
  obtain ⟨hlow, hhigh⟩ := log2_sub_bounds hn hd
  -- the exponent of the leading binary digit
  obtain ⟨f, hplace, hfloor, hceil⟩ : ∃ f : ℤ, lastPlace num den = (f - 52 + 1074).toNat ∧
      (2 : ℚ) ^ f ≤ num / den ∧ (num : ℚ) / den < 2 ^ (f + 1) := by
    have hbelow := @lt_zpow_iff num den hd ((num.log2 : ℤ) - den.log2)
    unfold lastPlace
    by_cases h : (num : ℚ) / den < 2 ^ ((num.log2 : ℤ) - den.log2)
    · refine ⟨(num.log2 : ℤ) - den.log2 - 1, ?_, hlow, by rwa [sub_add_cancel]⟩
      simp only [Int.ofNat_eq_natCast, hbelow.2 h, if_true]
    · refine ⟨(num.log2 : ℤ) - den.log2, ?_, not_lt.1 h, hhigh⟩
      simp only [Int.ofNat_eq_natCast, mt hbelow.1 h, Bool.false_eq_true, if_false, sub_zero]
  generalize lastPlace num den = place at hplace ⊢
  have hpos : (0 : ℚ) < 2 ^ 1074 := by positivity
  have hscale : ∀ k : ℤ, (2 : ℚ) ^ k * 2 ^ 1074 = 2 ^ (k + 1074) := by
    intro k
    rw [zpow_add₀ two_ne_zero]
    rfl
  rw [← pow_add, ← pow_add]
  constructor
  · calc (num : ℚ) / den * 2 ^ 1074 < 2 ^ (f + 1) * 2 ^ 1074 := mul_lt_mul_of_pos_right hceil hpos
      _ = 2 ^ (f + 1 + 1074) := hscale _
      _ ≤ 2 ^ ((53 + place : Nat) : ℤ) := zpow_le_zpow_right₀ one_le_two (by omega)
      _ = 2 ^ (53 + place) := zpow_natCast _ _
  · rcases Nat.eq_zero_or_pos place with hzero | hne
    · exact .inl hzero
    · right
      calc (2 : ℚ) ^ (52 + place) = 2 ^ ((52 + place : Nat) : ℤ) := (zpow_natCast _ _).symm
        _ = 2 ^ (f + 1074) := by rw [show ((52 + place : Nat) : ℤ) = f + 1074 by omega]
        _ = 2 ^ f * 2 ^ 1074 := (hscale _).symm
        _ ≤ (num : ℚ) / den * 2 ^ 1074 := mul_le_mul_of_nonneg_right hfloor hpos.le

/-- The whole number nearest to a quotient in units of `2 ^ (place - 1074)`. -/
theorem roundDiv_units {place : Nat} (hd : 0 < den)
    (hlow : (2 * r - 1) * 2 ^ place ≤ 2 * ((num : ℚ) / den * 2 ^ 1074))
    (hhigh : 2 * ((num : ℚ) / den * 2 ^ 1074) ≤ (2 * r + 1) * 2 ^ place)
    (htie : (2 * r - 1) * 2 ^ place = 2 * ((num : ℚ) / den * 2 ^ 1074) ∨
      2 * ((num : ℚ) / den * 2 ^ 1074) = (2 * r + 1) * 2 ^ place → r % 2 = 0) :
    roundDiv (num * twoTo 1074) (den * twoTo place) = r := by
  have hd' : (0 : ℚ) < den := by exact_mod_cast hd
  have hnum : 2 * (((num * twoTo 1074 : Nat)) : ℚ) = 2 * ((num : ℚ) / den * 2 ^ 1074) * den := by
    rw [Nat.cast_mul, cast_twoTo, mul_assoc 2, mul_right_comm, div_mul_cancel₀ _ hd'.ne']
  have hlow' : 2 * ((r * (den * twoTo place) : Nat) : ℚ) - ((den * twoTo place : Nat) : ℚ)
      = (2 * r - 1) * 2 ^ place * den := by
    push_cast
    ring
  have hhigh' : 2 * ((r * (den * twoTo place) : Nat) : ℚ) + ((den * twoTo place : Nat) : ℚ)
      = (2 * r + 1) * 2 ^ place * den := by
    push_cast
    ring
  generalize (num : ℚ) / den * 2 ^ 1074 = w at *
  have hlow := mul_le_mul_of_nonneg_right hlow hd'.le
  have hhigh := mul_le_mul_of_nonneg_right hhigh hd'.le
  rw [← hlow', ← hnum] at hlow
  rw [← hhigh', ← hnum] at hhigh
  refine roundDiv_eq ?_ ?_ ?_ (Nat.mul_pos hd (twoTo_pos place))
  · have := sub_le_iff_le_add.1 hlow
    exact_mod_cast this
  · exact_mod_cast hhigh
  · intro h
    apply htie
    rcases h with h | h
    · left
      apply mul_right_cancel₀ hd'.ne'
      rw [← hlow', ← hnum, sub_eq_iff_eq_add]
      exact_mod_cast h
    · right
      apply mul_right_cancel₀ hd'.ne'
      rw [← hhigh', ← hnum]
      exact_mod_cast h

/-- The significand is the quotient in units of the last place, rounded. -/
theorem nearestBits_eq (hn : num ≠ 0) :
    nearestBits num den = lastPlace num den * twoTo 52
      + roundDiv (num * twoTo 1074) (den * twoTo (lastPlace num den)) := by
  simp only [nearestBits, if_neg hn]
  generalize lastPlace num den = place
  split
  · next h =>
    have hsplit : den * twoTo place = den * twoTo (place - 1074) * twoTo 1074 := by
      rw [Nat.mul_assoc, ← twoTo_add, Nat.sub_add_cancel h]
    rw [hsplit, roundDiv_mul (twoTo_pos 1074)]
  · next h =>
    have hsplit : num * twoTo 1074 = num * twoTo (1074 - place) * twoTo place := by
      rw [Nat.mul_assoc, ← twoTo_add, Nat.sub_add_cancel (by omega)]
    rw [hsplit, roundDiv_mul (twoTo_pos place)]

end Binary64

end Sigil
