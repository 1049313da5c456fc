import Sigil.Proofs.Number.Neighbourhood

/-!
# The shortest decimal is a member

On a grid of decimals one of the two neighbours of a value is in the neighbourhood of the double
as soon as the grid is fine enough (`exists_onGrid?`), which it is after seventeen steps of the
search. So the shortest decimal is in the neighbourhood (`shortest_mem`), with or without the
zeros at its end.
-/

namespace Sigil.Binary64

variable {b : Neighbourhood} {x : Float} {n k : Nat} {place : ℤ}

theorem holds_iff (hk : 0 < k) : b.holds n k = true ↔ b.Mem (n / k) := by
  have hk' : (0 : ℚ) < k := by exact_mod_cast hk
  have hvalue : (n : ℚ) / k * b.den = n * b.den / k := by rw [div_mul_eq_mul_div]
  unfold Neighbourhood.holds Neighbourhood.Mem
  rw [hvalue]
  split
  · rw [Bool.and_eq_true, decide_eq_true_iff, decide_eq_true_iff, le_div_iff₀ hk',
      div_le_iff₀ hk']
    exact_mod_cast Iff.rfl
  · rw [Bool.and_eq_true, decide_eq_true_iff, decide_eq_true_iff, lt_div_iff₀ hk',
      div_lt_iff₀ hk']
    exact_mod_cast Iff.rfl

/-! ## Grids -/

/-- The step of a grid as a quotient of whole numbers. -/
def gridUp (place : Int) : Nat := if 0 ≤ place then tenTo place.toNat else 1

def gridDown (place : Int) : Nat := if 0 ≤ place then 1 else tenTo (-place).toNat

theorem gridUp_pos : 0 < gridUp place := by
  unfold gridUp
  split
  · exact tenTo_pos _
  · exact Nat.one_pos

theorem gridDown_pos : 0 < gridDown place := by
  unfold gridDown
  split
  · exact Nat.one_pos
  · exact tenTo_pos _

theorem gridUp_div_gridDown : (gridUp place : ℚ) / gridDown place = 10 ^ place := by
  unfold gridUp gridDown
  split
  · next h =>
    obtain ⟨j, rfl⟩ := Int.eq_ofNat_of_zero_le h
    rw [Int.toNat_natCast, cast_tenTo, Nat.cast_one, div_one, zpow_natCast]
  · next h =>
    obtain ⟨j, hj⟩ := Int.eq_ofNat_of_zero_le (show 0 ≤ -place by omega)
    obtain rfl : place = -(j : ℤ) := by omega
    rw [neg_neg, Int.toNat_natCast, cast_tenTo, Nat.cast_one, one_div, zpow_neg, zpow_natCast]

def Neighbourhood.floor (b : Neighbourhood) (place : Int) : Nat :=
  b.value * gridDown place / (b.den * gridUp place)

theorem holds_grid_iff :
    b.holds (n * gridUp place) (gridDown place) = true ↔ b.Mem (n * 10 ^ place) := by
  rw [holds_iff gridDown_pos, Nat.cast_mul, mul_div_assoc, gridUp_div_gridDown]

/-- One of two neighbouring multiples, the even one when the other is not nearer. -/
theorem nearer_cases (m below above : Nat) :
    (if below < above then some m else if above < below then some (m + 1) else some (m + m % 2))
      = some m ∨
    (if below < above then some m else if above < below then some (m + 1) else some (m + m % 2))
      = some (m + 1) := by
  have hparity : m % 2 = 0 ∨ m % 2 = 1 := by omega
  split
  · exact .inl rfl
  · split
    · exact .inr rfl
    · rcases hparity with h | h
      · rw [h]; exact .inl rfl
      · rw [h]; exact .inr rfl

/-- What a grid gives is a neighbour of the value and a member; it gives nothing when neither
neighbour is a member. -/
theorem onGrid?_cases :
    (∃ n, b.onGrid? place = some n ∧ b.Mem (n * 10 ^ place)) ∨
      b.onGrid? place = none ∧ ¬ b.Mem (b.floor place * 10 ^ place) ∧
        ¬ b.Mem ((b.floor place + 1 : Nat) * 10 ^ place) := by
  have hfloor := @holds_grid_iff b (b.floor place) place
  have hceil := @holds_grid_iff b (b.floor place + 1) place
  let below := b.value * gridDown place - b.floor place * gridUp place * b.den
  let above := (b.floor place + 1) * gridUp place * b.den - b.value * gridDown place
  have hnearer := nearer_cases (b.floor place) below above
  have hgrid : b.onGrid? place =
      if b.holds (b.floor place * gridUp place) (gridDown place)
          && b.holds ((b.floor place + 1) * gridUp place) (gridDown place) then
        if below < above then some (b.floor place)
        else if above < below then some (b.floor place + 1)
        else some (b.floor place + b.floor place % 2)
      else if b.holds (b.floor place * gridUp place) (gridDown place) then some (b.floor place)
      else if b.holds ((b.floor place + 1) * gridUp place) (gridDown place) then
        some (b.floor place + 1)
      else none := rfl
  rw [hgrid]
  by_cases hS : b.Mem (b.floor place * 10 ^ place)
  · rw [hfloor.2 hS]
    by_cases hT : b.Mem ((b.floor place + 1 : Nat) * 10 ^ place)
    · rw [hceil.2 hT]
      rcases hnearer with h | h
      · exact .inl ⟨_, h, hS⟩
      · exact .inl ⟨_, h, hT⟩
    · rw [Bool.eq_false_iff.2 fun h => hT (hceil.1 h)]
      exact .inl ⟨_, rfl, hS⟩
  · rw [Bool.eq_false_iff.2 fun h => hS (hfloor.1 h)]
    by_cases hT : b.Mem ((b.floor place + 1 : Nat) * 10 ^ place)
    · rw [hceil.2 hT]
      exact .inl ⟨_, rfl, hT⟩
    · rw [Bool.eq_false_iff.2 fun h => hT (hceil.1 h)]
      exact .inr ⟨rfl, hS, hT⟩

/-- The value of a neighbourhood lies between its two neighbours on a grid. -/
theorem floor_bounds (hd : 0 < b.den) :
    (b.floor place : ℚ) * 10 ^ place ≤ b.value / b.den ∧
      (b.value : ℚ) / b.den < (b.floor place + 1 : Nat) * 10 ^ place := by
  have hd' : (0 : ℚ) < b.den := by exact_mod_cast hd
  have hdown : (0 : ℚ) < gridDown place := by exact_mod_cast gridDown_pos
  have hpos : 0 < b.den * gridUp place := Nat.mul_pos hd gridUp_pos
  have hlow : b.floor place * (b.den * gridUp place) ≤ b.value * gridDown place :=
    Nat.div_mul_le_self _ _
  have hhigh : b.value * gridDown place < (b.floor place + 1) * (b.den * gridUp place) :=
    Nat.lt_mul_of_div_lt (Nat.lt_succ_self _) hpos
  rw [← gridUp_div_gridDown, mul_div_assoc', mul_div_assoc', div_le_div_iff₀ hdown hd',
    div_lt_div_iff₀ hd' hdown]
  constructor
  · have : ((b.floor place * (b.den * gridUp place) : Nat) : ℚ)
        ≤ (b.value * gridDown place : Nat) := by
      exact_mod_cast hlow
    push_cast at this
    linarith
  · have : ((b.value * gridDown place : Nat) : ℚ)
        < ((b.floor place + 1) * (b.den * gridUp place) : Nat) := by
      exact_mod_cast hhigh
    push_cast at this ⊢
    linarith

theorem den_neighbourhood_pos : 0 < (neighbourhood x).den :=
  Nat.mul_pos (by decide) (twoTo_pos 1074)

theorem value_neighbourhood :
    ((neighbourhood x).value : ℚ) / (neighbourhood x).den * 2 ^ 1074
      = significand x * 2 ^ scale x := by
  have hvalue : ((neighbourhood x).value : ℚ) = 4 * significand x * 2 ^ scale x := by
    change ((4 * significand x * twoTo (scale x) : Nat) : ℚ) = _
    push_cast
    rfl
  have hden : ((neighbourhood x).den : ℚ) = 4 * 2 ^ 1074 := by
    change ((4 * twoTo 1074 : Nat) : ℚ) = _
    push_cast
    rfl
  have hK : (0 : ℚ) < 2 ^ 1074 := by positivity
  rw [hvalue, hden]
  generalize (2 : ℚ) ^ 1074 = K at hK
  field_simp

/-- On a grid at least as fine as seventeen digits allow, a neighbour of the value is a member. -/
theorem exists_onGrid? (hm : significand x ≠ 0)
    (h : 10 ^ 16 * (10 : ℚ) ^ place ≤ (neighbourhood x).value / (neighbourhood x).den) :
    ∃ n, (neighbourhood x).onGrid? place = some n := by
  rcases @onGrid?_cases (neighbourhood x) place with ⟨n, hn, -⟩ | ⟨-, hS, hT⟩
  · exact ⟨n, hn⟩
  exfalso
  obtain ⟨hfloor, hceil⟩ := @floor_bounds (neighbourhood x) place den_neighbourhood_pos
  have hvalue := @value_neighbourhood x
  have hK : (0 : ℚ) < 2 ^ 1074 := by positivity
  have hS' := bounds_of_not_mem hm hS
  have hT' := bounds_of_not_mem hm hT
  have hlt := significand_add_one_le x
  have hpos : (0 : ℚ) < 2 ^ scale x := by positivity
  have hgap : (0 : ℚ) ≤ gapBelow x * 2 ^ scale x :=
    mul_nonneg (Nat.cast_nonneg _) hpos.le
  have hg := mul_le_mul_of_nonneg_right h hK.le
  have hfloor := mul_le_mul_of_nonneg_right hfloor hK.le
  have hceil := mul_lt_mul_of_pos_right hceil hK
  rw [hvalue] at hg hfloor hceil
  push_cast at hceil hT'
  generalize (2 : ℚ) ^ 1074 = K at *
  generalize ((neighbourhood x).floor place : ℚ) = m at *
  generalize (10 : ℚ) ^ place = g at *
  -- the two neighbours are a step of the grid apart, more than the neighbourhood leaves room for
  have hstep : (2 + gapBelow x) * 2 ^ scale x ≤ 4 * (g * K) := by
    rcases hS' with hS' | hS'
    · rcases hT' with hT' | hT'
      · linarith
      · linarith
    · linarith
  rcases @gapBelow_cases x with h2 | ⟨h1, hpow⟩
  · rw [h2] at hstep
    have := mul_le_mul_of_nonneg_right hlt hpos.le
    push_cast at hstep
    linarith
  · rw [h1] at hstep
    rw [hpow] at hg
    push_cast at hstep hg
    linarith

/-! ## The search -/

/-- A search that meets a grid with a hit ends with a member. -/
theorem search_mem {tries : Nat} (h : ∃ j < tries, ∃ n, b.onGrid? (place - j) = some n) :
    b.Mem ((b.search tries place).1 * 10 ^ (b.search tries place).2) := by
  induction tries generalizing place with
  | zero =>
    obtain ⟨j, hj, -⟩ := h
    exact absurd hj (Nat.not_lt_zero j)
  | succ tries ih =>
    rw [Neighbourhood.search]
    rcases @onGrid?_cases b place with ⟨n, hn, hmem⟩ | ⟨hnone, -, -⟩
    · rw [hn]
      exact hmem
    · rw [hnone]
      apply ih
      obtain ⟨j, hj, n, hn⟩ := h
      cases j with
      | zero =>
        rw [Nat.cast_zero, sub_zero, hnone] at hn
        cases hn
      | succ j =>
        refine ⟨j, by omega, n, ?_⟩
        rw [← hn]
        congr 1
        push_cast
        ring

/-- The leading exponent is the exponent of a power of ten that is not greater. -/
theorem leadingExponent_le {num den : Nat} (hn : 0 < num) (hd : 0 < den) :
    (10 : ℚ) ^ leadingExponent num den ≤ num / den := by
  have hd' : (0 : ℚ) < den := by exact_mod_cast hd
  unfold leadingExponent
  split
  · next hle =>
    have hne : num / den ≠ 0 := by
      have := Nat.div_pos hle hd
      omega
    obtain ⟨hlow, -⟩ := toDigits_bounds hne
    have hpos : 0 < (Nat.toDigits 10 (num / den)).length := Nat.length_toDigits_pos
    generalize (Nat.toDigits 10 (num / den)).length = len at hlow hpos ⊢
    rw [show (len : ℤ) - 1 = ((len - 1 : Nat) : ℤ) by omega, zpow_natCast, le_div_iff₀ hd']
    have : 10 ^ (len - 1) * den ≤ num := by
      calc 10 ^ (len - 1) * den ≤ num / den * den := Nat.mul_le_mul_right den hlow
        _ ≤ num := Nat.div_mul_le_self _ _
    exact_mod_cast this
  · next hlt =>
    have hne : den / num ≠ 0 := by
      have := Nat.div_pos (by omega : num ≤ den) hn
      omega
    obtain ⟨-, hhigh⟩ := toDigits_bounds hne
    have hpos : 0 < (Nat.toDigits 10 (den / num)).length := Nat.length_toDigits_pos
    generalize (Nat.toDigits 10 (den / num)).length = len at hhigh hpos ⊢
    have hneg : ∀ k : Nat, den ≤ num * tenTo k → (10 : ℚ) ^ (-(k : ℤ)) ≤ num / den := by
      intro k hk
      rw [zpow_neg, zpow_natCast, ← one_div, div_le_div_iff₀ (by positivity) hd', one_mul]
      exact_mod_cast hk
    simp only
    split
    · next hge =>
      rw [show -((len : ℤ) - 1) = -((len - 1 : Nat) : ℤ) by omega]
      exact hneg _ hge
    · refine hneg _ ?_
      rw [Nat.mul_comm]
      exact (Nat.lt_mul_of_div_lt hhigh hn).le

theorem dropZeros_value {tries : Nat} {e : ℤ} :
    ((dropZeros tries n e).1 : ℚ) * 10 ^ (dropZeros tries n e).2 = n * 10 ^ e := by
  induction tries generalizing n e with
  | zero => rfl
  | succ tries ih =>
    rw [dropZeros]
    split
    · next h =>
      have hn : n = n / 10 * 10 := by omega
      rw [ih, zpow_add₀ (by norm_num), zpow_one]
      conv_rhs => rw [hn]
      push_cast
      ring
    · rfl

/-- The shortest decimal of a double is in its neighbourhood. -/
theorem shortest_mem (hm : significand x ≠ 0) :
    (neighbourhood x).Mem ((shortest x).1 * 10 ^ (shortest x).2) := by
  have hvalue : 0 < (neighbourhood x).value :=
    Nat.mul_pos (Nat.mul_pos (by decide) (Nat.pos_of_ne_zero hm)) (twoTo_pos _)
  have hlead := leadingExponent_le hvalue (@den_neighbourhood_pos x)
  unfold shortest
  rw [dropZeros_value]
  refine search_mem ⟨16, by decide, exists_onGrid? hm ?_⟩
  rw [zpow_sub₀ (by norm_num), zpow_natCast, mul_div_cancel₀ _ (by norm_num)]
  exact hlead

end Sigil.Binary64
