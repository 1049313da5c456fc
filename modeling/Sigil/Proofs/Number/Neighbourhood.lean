import Sigil.Number.Shortest
import Sigil.Proofs.Number.Bits
import Sigil.Proofs.Number.Rounding

/-!
# The neighbourhood of a double

`Neighbourhood.Mem` is membership of an exact value. Every member of the neighbourhood of a
double rounds to it (`nearestBits_of_mem`), however it is written as a quotient, and so every
decimal whose value is a member is read as the double (`ofDecimal_of_mem`).
-/

namespace Sigil.Binary64

variable {x : Float} {q : ℚ} {num den : Nat}

/-- Membership of an exact value. -/
def Neighbourhood.Mem (b : Neighbourhood) (q : ℚ) : Prop :=
  if b.closed then b.low ≤ q * b.den ∧ q * b.den ≤ b.high
  else b.low < q * b.den ∧ q * b.den < b.high

/-- The distance from a double to the end of its neighbourhood below it, in quarters of its
last place. -/
def gapBelow (x : Float) : Nat := if fraction x == 0 && 1 < exponentField x then 1 else 2

/-- Only below a power of two is the gap narrow. -/
theorem gapBelow_cases : gapBelow x = 2 ∨ gapBelow x = 1 ∧ significand x = 2 ^ 52 := by
  unfold gapBelow
  split
  · next h =>
    rw [Bool.and_eq_true, beq_iff_eq, decide_eq_true_iff] at h
    refine .inr ⟨rfl, ?_⟩
    rw [significand, if_neg (by omega), h.1, Nat.zero_add]
    rfl
  · exact .inl rfl

theorem gapBelow_le : gapBelow x ≤ 2 := by
  rcases @gapBelow_cases x with h | ⟨h, -⟩ <;> omega

theorem gapBelow_eq_one (h : scale x ≠ 0) (hm : significand x = 2 ^ 52) : gapBelow x = 1 := by
  obtain ⟨hfraction, hfield⟩ := fraction_eq_zero h hm
  simp [gapBelow, hfraction, hfield]

theorem significand_add_one_le (x : Float) : (significand x : ℚ) + 1 ≤ 2 ^ 53 := by
  exact_mod_cast significand_lt x

/-- The bounds of a neighbourhood in quarters of the least place of all doubles. They belong to
it when the significand is even. -/
theorem mem_neighbourhood_iff (hm : significand x ≠ 0) :
    (neighbourhood x).Mem q ↔
      if significand x % 2 = 0 then
        (4 * significand x - gapBelow x) * 2 ^ scale x ≤ 4 * (q * 2 ^ 1074) ∧
          4 * (q * 2 ^ 1074) ≤ (4 * significand x + 2) * 2 ^ scale x
      else
        (4 * significand x - gapBelow x) * 2 ^ scale x < 4 * (q * 2 ^ 1074) ∧
          4 * (q * 2 ^ 1074) < (4 * significand x + 2) * 2 ^ scale x := by
  have hgap : gapBelow x ≤ 4 * significand x := by
    have := @gapBelow_le x
    omega
  have hlow : ((neighbourhood x).low : ℚ)
      = (4 * significand x - gapBelow x) * 2 ^ scale x := by
    change (((4 * significand x - gapBelow x) * twoTo (scale x) : Nat) : ℚ) = _
    push_cast [Nat.cast_sub hgap]
    rfl
  have hhigh : ((neighbourhood x).high : ℚ) = (4 * significand x + 2) * 2 ^ scale x := by
    change (((4 * significand x + 2) * twoTo (scale x) : Nat) : ℚ) = _
    push_cast
    rfl
  have hden : q * ((neighbourhood x).den : ℚ) = 4 * (q * 2 ^ 1074) := by
    change q * ((4 * twoTo 1074 : Nat) : ℚ) = _
    push_cast
    exact mul_left_comm q 4 _
  have hclosed : (neighbourhood x).closed = true ↔ significand x % 2 = 0 := beq_iff_eq
  unfold Neighbourhood.Mem
  rw [hlow, hhigh, hden]
  simp only [hclosed]

theorem bounds_of_mem (hm : significand x ≠ 0) (h : (neighbourhood x).Mem q) :
    (4 * significand x - gapBelow x) * 2 ^ scale x ≤ 4 * (q * 2 ^ 1074) ∧
      4 * (q * 2 ^ 1074) ≤ (4 * significand x + 2) * 2 ^ scale x ∧
      (significand x % 2 ≠ 0 →
        (4 * significand x - gapBelow x) * 2 ^ scale x < 4 * (q * 2 ^ 1074) ∧
        4 * (q * 2 ^ 1074) < (4 * significand x + 2) * 2 ^ scale x) := by
  rw [mem_neighbourhood_iff hm] at h
  split at h
  · next heven => exact ⟨h.1, h.2, fun hodd => absurd heven hodd⟩
  · exact ⟨h.1.le, h.2.le, fun _ => h⟩

theorem bounds_of_not_mem (hm : significand x ≠ 0) (h : ¬ (neighbourhood x).Mem q) :
    4 * (q * 2 ^ 1074) ≤ (4 * significand x - gapBelow x) * 2 ^ scale x ∨
      (4 * significand x + 2) * 2 ^ scale x ≤ 4 * (q * 2 ^ 1074) := by
  by_contra hout
  rw [not_or, not_le, not_le] at hout
  apply h
  rw [mem_neighbourhood_iff hm]
  split
  · exact ⟨hout.1.le, hout.2.le⟩
  · exact hout

section

variable {w : ℚ} {place : Nat}

/-- A longer last place than that of the double would leave the significand more than 53 binary
digits. -/
theorem place_le_scale (hhigh : 4 * w ≤ (4 * significand x + 2) * 2 ^ scale x)
    (hge : place = 0 ∨ 2 ^ 52 * 2 ^ place ≤ w) : place ≤ scale x := by
  by_contra hmore
  have hmlt : (significand x : ℚ) ≤ 2 ^ 53 - 1 := by linarith [significand_add_one_le x]
  have hS : (0 : ℚ) < 2 ^ scale x := by positivity
  have hdouble : 2 * (2 : ℚ) ^ scale x ≤ 2 ^ place := by
    rw [← pow_succ']
    exact pow_le_pow_right₀ one_le_two (Nat.lt_of_not_le hmore)
  have hle := hge.resolve_left (by omega)
  have hmul : (significand x : ℚ) * 2 ^ scale x ≤ (2 ^ 53 - 1) * 2 ^ scale x :=
    mul_le_mul_of_nonneg_right hmlt hS.le
  linarith

/-- A shorter last place than that of the double is the next one, just below a power of two. -/
theorem power_of_place_lt (hless : place < scale x)
    (hlow : (4 * significand x - gapBelow x) * 2 ^ scale x ≤ 4 * w) (hlt : w < 2 ^ 53 * 2 ^ place) :
    significand x = 2 ^ 52 ∧ scale x = place + 1 ∧ (2 ^ 54 - 1) * 2 ^ scale x ≤ 4 * w := by
  have hgap : (gapBelow x : ℚ) ≤ 2 := by exact_mod_cast gapBelow_le
  have hS : (0 : ℚ) < 2 ^ scale x := by positivity
  have hgapS := mul_le_mul_of_nonneg_right hgap hS.le
  have hT : (0 : ℚ) < 2 ^ place := by positivity
  have hdouble : 2 * (2 : ℚ) ^ place ≤ 2 ^ scale x := by
    rw [← pow_succ']
    exact pow_le_pow_right₀ one_le_two hless
  have hne : scale x ≠ 0 := by omega
  have hmge := le_significand hne
  have hmeq : significand x = 2 ^ 52 := by
    by_contra hne
    have hmore : 2 ^ 52 + 1 ≤ significand x := by omega
    have hmore : ((2 ^ 52 + 1 : Nat) : ℚ) ≤ significand x := by exact_mod_cast hmore
    have hmul := mul_le_mul_of_nonneg_right hmore hS.le
    push_cast at hmul
    linarith
  have hlow : (2 ^ 54 - 1) * 2 ^ scale x ≤ 4 * w := by
    rw [gapBelow_eq_one hne hmeq, hmeq] at hlow
    push_cast at hlow
    linarith
  refine ⟨hmeq, ?_, hlow⟩
  by_contra hne
  have hquad : 4 * (2 : ℚ) ^ place ≤ 2 ^ scale x := by
    calc 4 * (2 : ℚ) ^ place = 2 ^ (place + 2) := by ring
      _ ≤ 2 ^ scale x := pow_le_pow_right₀ one_le_two (by omega)
  linarith

end

/-- A member of the neighbourhood of a double rounds to the double: its last place is that of the
double, or the place below it for a member below a power of two, where the significand is
rounded up to the next place. -/
theorem nearestBits_of_mem (hm : significand x ≠ 0) (hn : num ≠ 0) (hd : 0 < den)
    (h : (neighbourhood x).Mem (num / den)) :
    nearestBits num den = scale x * twoTo 52 + significand x := by
  obtain ⟨hlow, hhigh, hodd⟩ := bounds_of_mem hm h
  obtain ⟨hlt, hge⟩ := lastPlace_spec (Nat.pos_of_ne_zero hn) hd
  have hgap : (gapBelow x : ℚ) ≤ 2 := by exact_mod_cast gapBelow_le
  have hS : (0 : ℚ) < 2 ^ scale x := by positivity
  have hgapS := mul_le_mul_of_nonneg_right hgap hS.le
  have hunits := fun {r} => @roundDiv_units num den r (lastPlace num den) hd
  rw [nearestBits_eq hn]
  generalize lastPlace num den = place at hlt hge hunits ⊢
  generalize (num : ℚ) / den * 2 ^ 1074 = w at hlow hhigh hodd hlt hge hunits
  rcases Nat.lt_or_eq_of_le (place_le_scale hhigh hge) with hless | rfl
  · obtain ⟨hmeq, hsucc, hlow⟩ := power_of_place_lt hless hlow hlt
    have hround : roundDiv (num * twoTo 1074) (den * twoTo place) = 2 ^ 53 := by
      rw [hsucc, pow_succ (2 : ℚ) place] at hlow
      refine hunits ?_ ?_ fun _ => rfl
      · push_cast
        linarith
      · push_cast
        have hT : (0 : ℚ) < 2 ^ place := by positivity
        linarith
    rw [hround, hsucc, hmeq, Nat.add_mul, Nat.one_mul]
    change place * 2 ^ 52 + 2 ^ 53 = place * 2 ^ 52 + 2 ^ 52 + 2 ^ 52
    omega
  · have hround : roundDiv (num * twoTo 1074) (den * twoTo (scale x)) = significand x := by
      refine hunits (by linarith) (by linarith) fun htie => ?_
      by_contra hne
      obtain ⟨hlow, hhigh⟩ := hodd hne
      rcases htie with htie | htie
      · linarith
      · linarith
    rw [hround]

/-! ## Reading a decimal -/

theorem infinityBits_eq : infinityBits = 2047 * 2 ^ 52 := rfl

/-- A finite double stays below infinity, so its own bits are not out of range. -/
theorem nearest?_of_mem (hf : isFinite x = true) (hm : significand x ≠ 0) (hn : num ≠ 0)
    (hd : 0 < den) (h : (neighbourhood x).Mem (num / den)) :
    nearest? (isNegative x) num den = some x := by
  have hscale := scale_le hf
  have hlt := significand_lt x
  have hrange : ¬ infinityBits ≤ scale x * twoTo 52 + significand x := by
    rw [infinityBits_eq]
    change ¬ 2047 * 2 ^ 52 ≤ scale x * 2 ^ 52 + significand x
    omega
  have hbits := toNat_toBits x
  unfold signBits at hbits
  simp only [nearest?, nearestBits_of_mem hm hn hd h, if_neg hrange]
  rw [← hbits, UInt64.ofNat_toNat, Float.ofBits_toBits]

theorem two_pow_le_ten_pow {a b : Nat} (h : a ≤ 3 * b) : (2 : ℚ) ^ a ≤ 10 ^ b := by
  calc (2 : ℚ) ^ a ≤ 2 ^ (3 * b) := pow_le_pow_right₀ one_le_two h
    _ = 8 ^ b := by rw [pow_mul]; norm_num
    _ ≤ 10 ^ b := pow_le_pow_left₀ (by norm_num) (by norm_num) b

/-- The members of a neighbourhood are in the range of finite doubles. -/
theorem range_of_mem (hf : isFinite x = true) (hm : significand x ≠ 0)
    (h : (neighbourhood x).Mem q) : 1 ≤ 2 * (q * 2 ^ 1074) ∧ q < 2 ^ 1024 := by
  obtain ⟨hlow, hhigh, -⟩ := bounds_of_mem hm h
  have hgap : (gapBelow x : ℚ) ≤ 2 := by exact_mod_cast gapBelow_le
  have hmge : (1 : ℚ) ≤ significand x := by exact_mod_cast Nat.pos_of_ne_zero hm
  have hmlt := significand_add_one_le x
  have hS : (1 : ℚ) ≤ 2 ^ scale x := one_le_pow₀ one_le_two
  have hSle : (2 : ℚ) ^ scale x ≤ 2 ^ 2045 := pow_le_pow_right₀ one_le_two (scale_le hf)
  have hK : (0 : ℚ) < 2 ^ 1074 := by positivity
  have hsplit : (2 : ℚ) ^ 53 * 2 ^ 2045 = 2 ^ 1024 * 2 ^ 1074 := by rw [← pow_add, ← pow_add]
  generalize (2 : ℚ) ^ 1074 = K at hlow hhigh hK hsplit ⊢
  generalize (2 : ℚ) ^ 2045 = top at hSle hsplit
  constructor
  · have := mul_le_mul (show (2 : ℚ) ≤ 4 * significand x - gapBelow x by linarith) hS
      zero_le_one (by linarith)
    linarith
  · have hmS := mul_le_mul (show (4 * significand x + 2 : ℚ) ≤ 4 * 2 ^ 53 - 2 by linarith) hSle
      (by linarith) (by norm_num)
    refine lt_of_mul_lt_mul_right ?_ hK.le
    rw [← hsplit]
    linarith only [hhigh, hmS, hS, hSle]

/-- A number lies between two powers of ten that its digits count. -/
theorem toDigits_bounds {d : Nat} (hd : d ≠ 0) :
    10 ^ ((Nat.toDigits 10 d).length - 1) ≤ d ∧ d < 10 ^ (Nat.toDigits 10 d).length := by
  have hpos : 0 < (Nat.toDigits 10 d).length := Nat.length_toDigits_pos
  constructor
  · rcases Nat.eq_zero_or_pos ((Nat.toDigits 10 d).length - 1) with h0 | hlen
    · rw [h0]
      exact Nat.pos_of_ne_zero hd
    · by_contra hlt
      have := (Nat.length_toDigits_le_iff (by decide) hlen).2 (Nat.lt_of_not_le hlt)
      omega
  · exact (Nat.length_toDigits_le_iff (by decide) hpos).1 (Nat.le_refl _)

/-- The size of such a decimal is not far out of range. -/
theorem size_of_mem {d : Nat} {k : ℤ} (hf : isFinite x = true) (hm : significand x ≠ 0)
    (h : (neighbourhood x).Mem (d * 10 ^ k)) :
    d ≠ 0 ∧ -400 ≤ k + (Nat.toDigits 10 d).length ∧ k + (Nat.toDigits 10 d).length ≤ 400 := by
  obtain ⟨hleast, hmost⟩ := range_of_mem hf hm h
  have hd : d ≠ 0 := by
    rintro rfl
    norm_num at hleast
  obtain ⟨hlow, hhigh⟩ := toDigits_bounds hd
  have hlow : (10 : ℚ) ^ ((Nat.toDigits 10 d).length - 1) ≤ d := by exact_mod_cast hlow
  have hhigh : (d : ℚ) < 10 ^ (Nat.toDigits 10 d).length := by exact_mod_cast hhigh
  have hlen : 0 < (Nat.toDigits 10 d).length := Nat.length_toDigits_pos
  have hten : (0 : ℚ) < 10 ^ k := by positivity
  generalize (Nat.toDigits 10 d).length = len at hlow hhigh hlen ⊢
  refine ⟨hd, ?_, ?_⟩
  · by_contra hsmall
    refine absurd hleast (not_le.2 ?_)
    have hpow : (10 : ℚ) ^ ((len : ℤ) + k) ≤ 10 ^ (-(401 : Nat) : ℤ) :=
      zpow_le_zpow_right₀ (by norm_num) (by omega)
    have hbig : (2 : ℚ) ^ 1074 * 2 ≤ 10 ^ 401 := by
      rw [← pow_succ]
      exact two_pow_le_ten_pow (by decide)
    have hinv : (10 : ℚ) ^ (-(401 : Nat) : ℤ) * 10 ^ 401 = 1 := by
      rw [zpow_neg, zpow_natCast, inv_mul_cancel₀ (by positivity)]
    have hK : (0 : ℚ) < 2 ^ 1074 := by positivity
    generalize (2 : ℚ) ^ 1074 = K at hbig hK ⊢
    calc 2 * ((d : ℚ) * 10 ^ k * K) < 2 * (10 ^ len * 10 ^ k * K) := by gcongr
      _ = 10 ^ ((len : ℤ) + k) * (K * 2) := by
        rw [zpow_add₀ (by norm_num), zpow_natCast]
        ring
      _ ≤ 10 ^ (-(401 : Nat) : ℤ) * 10 ^ 401 :=
        mul_le_mul hpow hbig (by positivity) (by positivity)
      _ = 1 := hinv
  · by_contra hlarge
    refine absurd hmost (not_lt.2 ?_)
    calc (2 : ℚ) ^ 1024 ≤ 10 ^ 400 := two_pow_le_ten_pow (by decide)
      _ = 10 ^ ((400 : Nat) : ℤ) := (zpow_natCast _ _).symm
      _ ≤ 10 ^ (((len - 1 : Nat) : ℤ) + k) := zpow_le_zpow_right₀ (by norm_num) (by omega)
      _ = 10 ^ (len - 1) * 10 ^ k := by rw [zpow_add₀ (by norm_num), zpow_natCast]
      _ ≤ d * 10 ^ k := mul_le_mul_of_nonneg_right hlow hten.le

/-- A decimal whose value is in the neighbourhood of a double is read as that double. -/
theorem ofDecimal_of_mem {d : Nat} {k : ℤ} (hf : isFinite x = true) (hm : significand x ≠ 0)
    (h : (neighbourhood x).Mem (d * 10 ^ k)) : ofDecimal (isNegative x) d k = x := by
  obtain ⟨hd, hsmall, hlarge⟩ := size_of_mem hf hm h
  have hvalue : (if 0 ≤ k then nearest? (isNegative x) (d * tenTo k.toNat) 1
      else nearest? (isNegative x) d (tenTo (-k).toNat)) = some x := by
    split
    · next hk =>
      obtain ⟨j, rfl⟩ := Int.eq_ofNat_of_zero_le hk
      rw [zpow_natCast] at h
      refine nearest?_of_mem hf hm (Nat.mul_ne_zero hd (tenTo_pos _).ne') Nat.one_pos ?_
      rw [Int.toNat_natCast]
      push_cast
      rwa [div_one]
    · next hk =>
      obtain ⟨j, hj⟩ := Int.eq_ofNat_of_zero_le (show 0 ≤ -k by omega)
      obtain rfl : k = -(j : ℤ) := by omega
      rw [zpow_neg, zpow_natCast, ← div_eq_mul_inv] at h
      refine nearest?_of_mem hf hm hd (tenTo_pos _) ?_
      rw [neg_neg, Int.toNat_natCast, cast_tenTo]
      exact h
  simp only [ofDecimal, if_neg hd, hvalue, Option.getD_some]
  rw [if_neg (by omega), if_neg (by omega)]

end Sigil.Binary64
