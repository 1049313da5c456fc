import Sigil.Proofs.Number.Decimal
import Sigil.Proofs.Number.Numeral

/-!
# Reading a double back from its text

`FloatStyle.numeral` is the written number that a decimal is rendered as, in each of the three
layouts; its value is that of the decimal (`value_numeral`). So the text of a finite double is a
written number that is read as the double, bit by bit (`exists_numeral_text`).
-/

namespace Sigil

namespace Text

variable {ds cs : List Char} {k : Nat}

theorem isAsciiDigit_of_mem_replicate {c : Char} (h : c ∈ List.replicate k '0') :
    isAsciiDigit c = true := by
  rw [List.eq_of_mem_replicate h]
  rfl

theorem digitsValue_zeros_append (h : ∀ c ∈ ds, isAsciiDigit c = true) :
    digitsValue (List.replicate k '0' ++ ds) = digitsValue ds := by
  have hall : ∀ c ∈ List.replicate k '0' ++ ds, isAsciiDigit c = true := by
    intro c hc
    rcases List.mem_append.1 hc with hc | hc
    · exact isAsciiDigit_of_mem_replicate hc
    · exact h c hc
  rw [digitsValue_eq_ofDigitChars hall, digitsValue_eq_ofDigitChars h, Nat.ofDigitChars_append,
    Nat.ofDigitChars_replicate_zero, Nat.mul_zero]

theorem digitsValue_append_zeros (h : ∀ c ∈ ds, isAsciiDigit c = true) :
    digitsValue (ds ++ List.replicate k '0') = 10 ^ k * digitsValue ds := by
  have hall : ∀ c ∈ ds ++ List.replicate k '0', isAsciiDigit c = true := by
    intro c hc
    rcases List.mem_append.1 hc with hc | hc
    · exact h c hc
    · exact isAsciiDigit_of_mem_replicate hc
  rw [digitsValue_eq_ofDigitChars hall, digitsValue_eq_ofDigitChars h, Nat.ofDigitChars_append,
    Nat.ofDigitChars_replicate_zero]

end Text

namespace Numeral

open Text

def digits (n : Numeral) : List Char := n.whole ++ n.fraction.getD []

def lastExponent (n : Numeral) : Int :=
  (match n.exponent with
    | none => 0
    | some (negative, ds) => if negative then -(digitsValue ds : Int) else digitsValue ds)
    - (n.fraction.getD []).length

theorem expr_of_not_isWhole {n : Numeral} (h : n.isWhole = false) :
    n.expr
      = .ok (.float (Binary64.ofDecimal n.negative (digitsValue n.digits) n.lastExponent)) := by
  unfold expr
  rw [h, if_neg Bool.false_ne_true]
  rfl

end Numeral

namespace Binary64

open Text

variable {style : FloatStyle} {negative : Bool} {n : Nat} {e : Int}

/-- The written number that a decimal is rendered as. -/
def FloatStyle.numeral (style : FloatStyle) (negative : Bool) (n : Nat) (e : Int) : Numeral :=
  let ds := Nat.toDigits 10 n
  let lead : Int := e + ds.length - 1
  let whole := lead.toNat + 1
  if lead < style.leastPositional ∨ style.exponentialFrom ≤ lead then
    { negative
      whole := ds.take 1
      fraction := if ds.length ≤ 1 then none else some (ds.drop 1)
      exponent := some (decide (lead < 0), zeroPadded style.exponentDigits lead.natAbs) }
  else if lead < 0 then
    ⟨negative, ['0'], some (List.replicate (lead.natAbs - 1) '0' ++ ds), none⟩
  else if ds.length ≤ whole then
    ⟨negative, ds ++ List.replicate (whole - ds.length) '0', some ['0'], none⟩
  else ⟨negative, ds.take whole, some (ds.drop whole), none⟩

theorem written_numeral :
    (style.numeral negative n e).written = Numeral.signText negative ++ style.render n e := by
  unfold FloatStyle.numeral FloatStyle.render Numeral.written
  have hne : Nat.toDigits 10 n ≠ [] := Nat.toDigits_ne_nil
  generalize Nat.toDigits 10 n = ds at hne
  simp only
  split
  · obtain ⟨d, r, rfl⟩ := List.exists_cons_of_ne_nil hne
    cases r with
    | nil => simp [Numeral.fractionText, Numeral.exponentText]
    | cons d' r => simp [Numeral.fractionText, Numeral.exponentText]
  · split
    · simp [Numeral.fractionText, Numeral.exponentText]
    · split <;> simp [Numeral.fractionText, Numeral.exponentText]

theorem isAsciiDigit_of_mem_zeroPadded {width : Nat} {c : Char} (h : c ∈ zeroPadded width n) :
    isAsciiDigit c = true := by
  rcases List.mem_append.1 h with h | h
  · exact isAsciiDigit_of_mem_replicate h
  · exact isAsciiDigit_of_mem_toDigits h

theorem digital_numeral : (style.numeral negative n e).Digital := by
  have hne : Nat.toDigits 10 n ≠ [] := Nat.toDigits_ne_nil
  have hds : ∀ c ∈ Nat.toDigits 10 n, isAsciiDigit c = true :=
    fun c hc => isAsciiDigit_of_mem_toDigits hc
  unfold FloatStyle.numeral
  generalize Nat.toDigits 10 n = ds at hne hds
  simp only
  have hpart : ∀ {ds' : List Char}, ds'.Sublist ds → ∀ c ∈ ds', isAsciiDigit c = true :=
    fun hsub c hc => hds c (hsub.subset hc)
  have hzeros : ∀ {k : Nat}, ∀ c ∈ List.replicate k '0', isAsciiDigit c = true :=
    fun c hc => isAsciiDigit_of_mem_replicate hc
  split
  · refine ⟨hpart (List.take_sublist 1 ds), ?_, ?_, ?_⟩
    · obtain ⟨d, r, rfl⟩ := List.exists_cons_of_ne_nil hne
      exact List.cons_ne_nil d _
    · intro ds' hmem
      split at hmem
      · cases hmem
      · cases hmem
        exact hpart (List.drop_sublist 1 ds)
    · rintro _ ⟨⟩
      refine ⟨?_, fun c hc => isAsciiDigit_of_mem_zeroPadded hc⟩
      exact List.append_ne_nil_of_right_ne_nil _ Nat.toDigits_ne_nil
  · split
    · refine ⟨fun c hc => by rw [List.mem_singleton.1 hc]; rfl, List.cons_ne_nil _ _, ?_, nofun⟩
      rintro _ ⟨⟩ c hc
      rcases List.mem_append.1 hc with hc | hc
      · exact hzeros c hc
      · exact hds c hc
    · split
      · refine ⟨?_, List.append_ne_nil_of_left_ne_nil hne _, ?_, nofun⟩
        · intro c hc
          rcases List.mem_append.1 hc with hc | hc
          · exact hds c hc
          · exact hzeros c hc
        · rintro _ ⟨⟩ c hc
          rw [List.mem_singleton.1 hc]
          rfl
      · refine ⟨hpart (List.take_sublist _ ds), ?_, ?_, nofun⟩
        · obtain ⟨d, r, rfl⟩ := List.exists_cons_of_ne_nil hne
          exact List.cons_ne_nil d _
        · rintro _ ⟨⟩
          exact hpart (List.drop_sublist _ ds)

theorem isWhole_numeral : (style.numeral negative n e).isWhole = false := by
  unfold FloatStyle.numeral Numeral.isWhole
  simp only
  split
  · exact Bool.and_false _
  · split
    · rfl
    · split <;> rfl

theorem value_numeral :
    (digitsValue (style.numeral negative n e).digits : ℚ)
      * 10 ^ (style.numeral negative n e).lastExponent = n * 10 ^ e := by
  have hpos : 0 < (Nat.toDigits 10 n).length := Nat.length_toDigits_pos
  have hvalue : digitsValue (Nat.toDigits 10 n) = n := digitsValue_toDigits n
  have hds : ∀ c ∈ Nat.toDigits 10 n, isAsciiDigit c = true :=
    fun c hc => isAsciiDigit_of_mem_toDigits hc
  have hzero : digitsValue (zeroPadded style.exponentDigits
      (e + (Nat.toDigits 10 n).length - 1).natAbs)
        = (e + (Nat.toDigits 10 n).length - 1).natAbs := by
    rw [zeroPadded, digitsValue_zeros_append fun c hc => isAsciiDigit_of_mem_toDigits hc,
      digitsValue_toDigits]
  -- in all layouts but the one with zeros at the end, the digits and the exponent are the same
  have hsame : ∀ {ν : Numeral}, digitsValue ν.digits = n → ν.lastExponent = e →
      (digitsValue ν.digits : ℚ) * 10 ^ ν.lastExponent = n * 10 ^ e := by
    intro ν hdigits hexponent
    rw [hdigits, hexponent]
  unfold FloatStyle.numeral
  generalize Nat.toDigits 10 n = ds at *
  simp only
  split
  · have hfraction : (if ds.length ≤ 1 then none else some (ds.drop 1)).getD [] = ds.drop 1 := by
      split
      · next h => rw [List.drop_eq_nil_of_le h]; rfl
      · rfl
    apply hsame
    · simp only [Numeral.digits]
      rw [hfraction, List.take_append_drop, hvalue]
    · simp only [Numeral.lastExponent, hzero, decide_eq_true_eq]
      rw [hfraction, List.length_drop]
      split <;> omega
  · split
    · apply hsame
      · have hzeros : ∀ k : Nat, ['0'] ++ (List.replicate k '0' ++ ds)
            = List.replicate (k + 1) '0' ++ ds := fun k => rfl
        rw [Numeral.digits, Option.getD_some, hzeros, digitsValue_zeros_append hds, hvalue]
      · simp only [Numeral.lastExponent, Option.getD_some, List.length_append,
          List.length_replicate]
        omega
    · split
      · next hwhole =>
        have hdigits : Numeral.digits ⟨negative, ds ++ List.replicate ((e + ds.length - 1).toNat + 1
            - ds.length) '0', some ['0'], none⟩
              = ds ++ List.replicate ((e + ds.length - 1).toNat + 1 - ds.length + 1) '0' := by
          rw [List.replicate_succ', ← List.append_assoc]
          rfl
        have hexponent : e = ((e + ds.length - 1).toNat + 1 - ds.length + 1 : Nat) + (-1 : ℤ) := by
          omega
        rw [hdigits, digitsValue_append_zeros hds, hvalue]
        conv_rhs => rw [hexponent, zpow_add₀ (by norm_num), zpow_natCast]
        push_cast
        change 10 ^ _ * (n : ℚ) * 10 ^ (0 - 1 : ℤ) = _
        rw [zero_sub, mul_assoc, mul_left_comm]
      · apply hsame
        · rw [Numeral.digits, Option.getD_some, List.take_append_drop, hvalue]
        · simp only [Numeral.lastExponent, Option.getD_some, List.length_drop]
          omega

/-! ## The text of a double -/

variable {x : Float}

theorem exact_eq_finite (hf : isFinite x = true) :
    ∃ q : ℚ, exact x = .finite q ∧ (q = 0 ↔ significand x = 0) := by
  have hfield : exponentField x ≠ twoTo 11 - 1 := by simpa [isFinite] using hf
  refine ⟨_, by rw [exact, if_neg hfield], ?_⟩
  rw [Rat.mkRat_eq_zero (twoTo_pos 1074).ne', Int.mul_eq_zero]
  have hscale : (twoTo (scale x) : Int) ≠ 0 := by exact_mod_cast (twoTo_pos (scale x)).ne'
  split <;> omega

theorem text_of_zero (hf : isFinite x = true) (hm : significand x = 0) :
    (text x).toList = Numeral.signText (isNegative x) ++ ['0', '.', '0'] := by
  obtain ⟨q, hq, hzero⟩ := exact_eq_finite hf
  rw [text, hq]
  simp only [hzero.2 hm, if_true, String.toList_ofList]
  rfl

theorem text_of_ne_zero (hf : isFinite x = true) (hm : significand x ≠ 0) :
    (text x).toList = Numeral.signText (isNegative x)
      ++ floatStyle.render (shortest x).1 (shortest x).2 := by
  obtain ⟨q, hq, hzero⟩ := exact_eq_finite hf
  rw [text, hq]
  simp only [mt hzero.1 hm, if_false, String.toList_ofList]
  rfl

/-- The two zeros are the doubles of their signs. -/
theorem ofDecimal_zero {k : Int} (hm : significand x = 0) : ofDecimal (isNegative x) 0 k = x := by
  have hscale : scale x = 0 := by
    by_contra hne
    have := le_significand hne
    omega
  have hbits := toNat_toBits x
  rw [hscale, hm, Nat.zero_mul, Nat.zero_add] at hbits
  have hx : x.toBits = if isNegative x then 0x8000000000000000 else 0 := by
    apply UInt64.toNat_inj.1
    rw [hbits]
    unfold signBits
    split <;> rfl
  rw [ofDecimal, if_pos rfl, ← hx, Float.ofBits_toBits]

/-- The text of a finite double is a written number that is read as the double. -/
theorem exists_numeral_text (hf : isFinite x = true) :
    ∃ ν : Numeral, ν.Digital ∧ (text x).toList = ν.written ∧ ν.expr = .ok (.float x) := by
  by_cases hm : significand x = 0
  · let ν : Numeral := ⟨isNegative x, ['0'], some ['0'], none⟩
    have hdigit : ∀ c ∈ ['0'], isAsciiDigit c = true := fun c hc => by
      rw [List.mem_singleton.1 hc]
      rfl
    refine ⟨ν, ⟨hdigit, List.cons_ne_nil _ _, ?_, nofun⟩, text_of_zero hf hm, ?_⟩
    · rintro _ ⟨⟩
      exact hdigit
    · have hdigits : digitsValue ν.digits = 0 := rfl
      rw [Numeral.expr_of_not_isWhole rfl, hdigits, ofDecimal_zero hm]
  · refine ⟨floatStyle.numeral (isNegative x) (shortest x).1 (shortest x).2, digital_numeral,
      by rw [written_numeral, text_of_ne_zero hf hm], ?_⟩
    have hnegative : ∀ {n e}, (floatStyle.numeral (isNegative x) n e).negative = isNegative x := by
      intro n e
      unfold FloatStyle.numeral
      simp only
      split
      · rfl
      · split
        · rfl
        · split <;> rfl
    have hmem := shortest_mem hm
    rw [← @value_numeral floatStyle (isNegative x)] at hmem
    rw [Numeral.expr_of_not_isWhole isWhole_numeral, hnegative, ofDecimal_of_mem hf hm hmem]

end Binary64

end Sigil
