import Sigil.Atom
import Sigil.Datum.Printer
import Sigil.Text.Blank

/-!
# Written numbers

`Numeral.written` puts the parts of a number together again; scanning what was written gives
the parts back (`scan?_written`). With it a whole number of at most 4300 digits is read back
from its text (`ofToken_toString_int`).
-/

namespace Sigil

namespace Text

variable {c : Char} {cs ds : List Char}

theorem isAsciiDigit_of_isDigit (h : c.isDigit = true) : isAsciiDigit c = true := by
  simp only [Char.isDigit, Bool.and_eq_true, decide_eq_true_eq] at h
  simp only [isAsciiDigit, Bool.and_eq_true, decide_eq_true_eq]
  exact h

theorem digitValue?_of_isAsciiDigit (h : isAsciiDigit c = true) :
    digitValue? c = some (c.toNat - '0'.toNat) := by
  simp only [isAsciiDigit, Bool.and_eq_true, decide_eq_true_eq] at h
  have hlt : c.toNat < 0x80 := by omega
  simp only [digitValue?, hlt, h, and_self, if_true]
  rfl

theorem isAsciiDigit_of_mem_toDigits {n : Nat} (h : c ∈ Nat.toDigits 10 n) :
    isAsciiDigit c = true :=
  isAsciiDigit_of_isDigit (Nat.isDigit_of_mem_toDigits (by decide) (by decide) h)

theorem digitsValue_eq_ofDigitChars (h : ∀ c ∈ cs, isAsciiDigit c = true) :
    digitsValue cs = Nat.ofDigitChars 10 cs 0 := by
  suffices ∀ n, cs.foldl (fun n c => 10 * n + (digitValue? c).getD 0) n
      = Nat.ofDigitChars 10 cs n from this 0
  induction cs with
  | nil => intro n; rfl
  | cons c cs ih =>
    intro n
    rw [List.foldl_cons, Nat.ofDigitChars_cons, digitValue?_of_isAsciiDigit (h c (by simp)),
      Option.getD_some]
    exact ih (fun d hd => h d (List.mem_cons_of_mem _ hd)) _

@[simp] theorem digitsValue_toDigits (n : Nat) : digitsValue (Nat.toDigits 10 n) = n := by
  rw [digitsValue_eq_ofDigitChars fun c hc => isAsciiDigit_of_mem_toDigits hc]
  exact Nat.ofDigitChars_ten_toDigits

/-- A character that the text of a number may have. -/
def isNumeric (c : Char) : Bool := isAsciiDigit c || ['+', '-', '.', 'e'].contains c

theorem isNumeric_of_isAsciiDigit (h : isAsciiDigit c = true) : isNumeric c = true := by
  simp [isNumeric, h]

theorem isBlank_of_isNumeric (h : isNumeric c = true) : isBlank c = false := by
  simp only [isNumeric, Bool.or_eq_true, List.contains_iff_mem, List.mem_cons, List.not_mem_nil,
    or_false, isAsciiDigit, Bool.and_eq_true, decide_eq_true_eq] at h
  rcases h with h | rfl | rfl | rfl | rfl
  · simp only [isBlank, Bool.or_eq_false_iff, Bool.and_eq_false_iff, decide_eq_false_iff_not,
      beq_eq_false_iff_ne]
    omega
  all_goals rfl

end Text

namespace Numeral

open Text

def signText (negative : Bool) : List Char := if negative then ['-'] else []

def fractionText : Option (List Char) → List Char
  | none => []
  | some ds => '.' :: ds

/-- The mark, the sign and the digits of an exponent. -/
def exponentText : Option (Bool × List Char) → List Char
  | none => []
  | some (negative, ds) => 'e' :: (if negative then '-' else '+') :: ds

def written (n : Numeral) : List Char :=
  signText n.negative ++ (n.whole ++ (fractionText n.fraction ++ exponentText n.exponent))

/-- The parts consist of digits, and there is one before the point and in an exponent. -/
structure Digital (n : Numeral) : Prop where
  whole : ∀ c ∈ n.whole, isAsciiDigit c = true
  whole_ne_nil : n.whole ≠ []
  fraction : ∀ ds ∈ n.fraction, ∀ c ∈ ds, isAsciiDigit c = true
  exponent : ∀ e ∈ n.exponent, e.2 ≠ [] ∧ ∀ c ∈ e.2, isAsciiDigit c = true

theorem isNumeric_of_mem_written {n : Numeral} (h : n.Digital) {c : Char}
    (hc : c ∈ n.written) : isNumeric c = true := by
  simp only [written, List.mem_append] at hc
  rcases hc with hc | hc | hc | hc
  · unfold signText at hc
    split at hc
    · rw [List.mem_singleton.1 hc]; rfl
    · cases hc
  · exact isNumeric_of_isAsciiDigit (h.whole c hc)
  · cases hf : n.fraction with
    | none => rw [hf] at hc; cases hc
    | some ds =>
      rw [hf] at hc
      rcases List.mem_cons.1 hc with rfl | hc
      · rfl
      · exact isNumeric_of_isAsciiDigit (h.fraction ds hf c hc)
  · cases he : n.exponent with
    | none => rw [he] at hc; cases hc
    | some e =>
      obtain ⟨negative, ds⟩ := e
      rw [he] at hc
      rcases List.mem_cons.1 hc with rfl | hc
      · rfl
      rcases List.mem_cons.1 hc with rfl | hc
      · cases negative <;> rfl
      · exact isNumeric_of_isAsciiDigit ((h.exponent _ he).2 c hc)

/-! ## Scanning what was written -/

theorem takeSign_signText (negative : Bool) {cs : List Char}
    (h : ∃ c ds, cs = c :: ds ∧ isAsciiDigit c = true) :
    takeSign (signText negative ++ cs) = (negative, cs) := by
  obtain ⟨c, ds, rfl, hc⟩ := h
  cases negative with
  | true => rfl
  | false =>
    simp only [signText, Bool.false_eq_true, if_false, List.nil_append, takeSign]
    split
    · next heq => cases heq; cases hc
    · next heq => cases heq; cases hc
    · rfl

/-- Digits before something else are the digits that a scan takes. -/
theorem takeWhile_digits {ds rest : List Char} (hd : ∀ c ∈ ds, isAsciiDigit c = true)
    (hr : ∀ c ∈ rest.head?, isDecimalDigit c = false) :
    (ds ++ rest).takeWhile isDecimalDigit = ds ∧ (ds ++ rest).dropWhile isDecimalDigit = rest := by
  have hpos : ∀ c ∈ ds, isDecimalDigit c = true :=
    fun c hc => isDecimalDigit_of_isAsciiDigit (hd c hc)
  rw [List.takeWhile_append_of_pos hpos, List.dropWhile_append_of_pos hpos]
  cases rest with
  | nil => simp
  | cons c rest => simp [hr c rfl]

theorem takeFraction_fractionText {fraction : Option (List Char)} {rest : List Char}
    (h : ∀ ds ∈ fraction, ∀ c ∈ ds, isAsciiDigit c = true)
    (hr : ∀ c ∈ rest.head?, c = 'e') :
    takeFraction (fractionText fraction ++ rest) = (fraction, rest) := by
  cases fraction with
  | none =>
    simp only [fractionText, List.nil_append, takeFraction]
    split
    · next heq => cases hr '.' (by simp)
    · rfl
  | some ds =>
    obtain ⟨htake, hdrop⟩ := takeWhile_digits (h ds rfl) fun c hc => by rw [hr c hc]; rfl
    simp only [fractionText, List.cons_append, takeFraction, htake, hdrop]

theorem takeExponent_exponentText {exponent : Option (Bool × List Char)}
    (h : ∀ e ∈ exponent, e.2 ≠ [] ∧ ∀ c ∈ e.2, isAsciiDigit c = true) :
    takeExponent (exponentText exponent) = some exponent := by
  cases exponent with
  | none => rfl
  | some e =>
    obtain ⟨negative, ds⟩ := e
    obtain ⟨hne, hd⟩ := h _ rfl
    have hsign : takeSign ((if negative then '-' else '+') :: ds) = (negative, ds) := by
      cases negative <;> rfl
    have hall : ds.all isDecimalDigit = true :=
      List.all_eq_true.2 fun c hc => isDecimalDigit_of_isAsciiDigit (hd c hc)
    simp [takeExponent, exponentText, hsign, hall, hne]

theorem head?_exponentText (exponent : Option (Bool × List Char)) :
    ∀ c ∈ (exponentText exponent).head?, c = 'e' := by
  cases exponent <;> simp [exponentText]

/-- Scanning what was written gives the parts of a number back. -/
theorem scan?_written {n : Numeral} (h : n.Digital) : scan? n.written = some n := by
  obtain ⟨negative, whole, fraction, exponent⟩ := n
  obtain ⟨d, ds, hwhole⟩ := List.exists_cons_of_ne_nil h.whole_ne_nil
  have hd : isAsciiDigit d = true := h.whole d (by rw [hwhole]; exact List.mem_cons_self)
  have hsign : takeSign (written ⟨negative, whole, fraction, exponent⟩)
      = (negative, whole ++ (fractionText fraction ++ exponentText exponent)) :=
    takeSign_signText negative ⟨d, _, by rw [show whole = d :: ds from hwhole]; rfl, hd⟩
  have hhead : ∀ c ∈ (fractionText fraction ++ exponentText exponent).head?,
      isDecimalDigit c = false := by
    cases fraction with
    | none => intro c hc; rw [head?_exponentText exponent c hc]; rfl
    | some fs => intro c hc; cases hc; rfl
  obtain ⟨htake, hdrop⟩ := takeWhile_digits h.whole hhead
  have hfraction := takeFraction_fractionText h.fraction (head?_exponentText exponent)
  simp only [scan?, hsign, htake, hdrop, hfraction, takeExponent_exponentText h.exponent]
  simp [show whole = d :: ds from hwhole]

end Numeral

namespace Atom

open Numeral

theorem dropFinalNewline_eq_self {cs : List Char} (h : '\n' ∉ cs) : dropFinalNewline cs = cs := by
  rw [dropFinalNewline, if_neg]
  exact fun hl => h (List.mem_of_getLast? hl)

/-- A written number is read as its value. -/
theorem ofToken_written {n : Numeral} (h : n.Digital) : ofToken n.written = n.expr := by
  have hnl : '\n' ∉ n.written := fun hc => by cases isNumeric_of_mem_written h hc
  simp only [ofToken, dropFinalNewline_eq_self hnl, scan?_written h]

end Atom

/-! ## Whole numbers -/

def Numeral.ofInt (n : Int) : Numeral := ⟨decide (n < 0), Nat.toDigits 10 n.natAbs, none, none⟩

theorem Numeral.digital_ofInt (n : Int) : (Numeral.ofInt n).Digital where
  whole _ hc := Text.isAsciiDigit_of_mem_toDigits hc
  whole_ne_nil := Nat.toDigits_ne_nil
  fraction _ h := nomatch h
  exponent _ h := nomatch h

theorem toList_toString_int (n : Int) : (toString n).toList = (Numeral.ofInt n).written := by
  rw [Int.toString_eq_repr, Int.repr_eq_if]
  by_cases h : 0 ≤ n
  · have hneg : ¬ n < 0 := by omega
    have habs : n.toNat = n.natAbs := by omega
    simp [h, hneg, habs, Numeral.ofInt, Numeral.written, Numeral.signText, Numeral.fractionText,
      Numeral.exponentText]
  · have hneg : n < 0 := by omega
    have habs : (-n).toNat = n.natAbs := by omega
    simp [h, hneg, habs, Numeral.ofInt, Numeral.written, Numeral.signText, Numeral.fractionText,
      Numeral.exponentText]

theorem length_toString_int (n : Int) :
    (toString n).length - (if n < 0 then 1 else 0) = (Nat.toDigits 10 n.natAbs).length := by
  rw [← String.length_toList, toList_toString_int]
  by_cases hn : n < 0 <;>
    simp [hn, Numeral.ofInt, Numeral.written, Numeral.signText, Numeral.fractionText,
      Numeral.exponentText]

/-- Exactly the whole numbers of at most 4300 digits have a text. -/
theorem intText_eq_ok_iff {n : Int} {text : String} :
    intText n = .ok text ↔ (Nat.toDigits 10 n.natAbs).length ≤ 4300 ∧ text = toString n := by
  simp only [intText, length_toString_int]
  split
  · simp only [reduceCtorEq, false_iff, not_and]
    omega
  · simp only [Except.ok.injEq]
    constructor
    · rintro rfl; exact ⟨by omega, rfl⟩
    · rintro ⟨-, rfl⟩; rfl

/-- A whole number of at most 4300 digits is read back from its text. -/
theorem ofToken_toString_int {n : Int} (h : (Nat.toDigits 10 n.natAbs).length ≤ 4300) :
    Atom.ofToken (toString n).toList = .ok (.int n) := by
  have hwhole : (Numeral.ofInt n).isWhole = true := rfl
  have hlen : ¬ 4300 < (Numeral.ofInt n).whole.length := by
    simp only [Numeral.ofInt]; omega
  rw [toList_toString_int, Atom.ofToken_written (Numeral.digital_ofInt n)]
  simp only [Numeral.expr, hwhole, hlen, if_true, if_false]
  simp only [Numeral.ofInt, Text.digitsValue_toDigits, decide_eq_true_eq, Except.ok.injEq,
    Expr.int.injEq]
  split <;> omega

end Sigil
