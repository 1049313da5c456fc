import Mathlib.Data.List.Induction
import Sigil.Path.Basic
import Sigil.Proofs.Number.Numeral

/-!
# The grammar of paths

`Path.Grammatical` is the grammar of paths, with no word about segments: a base, then steps of which
each is a field's name or an index behind its separator. Splitting is the inverse of writing
segments one behind the other (`split_flatMap_written`, `exists_shape`), so a text that is not empty
has one division into a base and steps, and it is in the grammar when every step is good
(`grammatical_iff`). Folding goes through the steps from left to right and stops at the first that
is not good (`exists_leftmost`); on the way it nests one access in the next
(`nesting_foldl_extended`), and what it gives determines the segments up to the zeros before an index
(`spelled_foldl_extended_iff`).
-/

namespace Sigil

namespace Text

variable {ds es : List Char} {c : Char}

/-- The digits of a row behind its leading zeros. -/
def significant (ds : List Char) : List Char := ds.dropWhile (· == '0')

theorem digitsValue_concat (ds : List Char) (c : Char) :
    digitsValue (ds ++ [c]) = 10 * digitsValue ds + (digitValue? c).getD 0 := by
  simp [digitsValue]

theorem significant_concat (ds : List Char) (c : Char) :
    significant (ds ++ [c])
      = if significant ds = [] then significant [c] else significant ds ++ [c] := by
  simp only [significant, List.dropWhile_append, List.isEmpty_iff]
  rfl

theorem exists_digitChar (h : isAsciiDigit c = true) :
    ∃ d < 10, c = Nat.digitChar d ∧ (digitValue? c).getD 0 = d := by
  have hvalue := digitValue?_of_isAsciiDigit h
  simp only [isAsciiDigit, Bool.and_eq_true, decide_eq_true_eq] at h
  refine ⟨c.toNat - '0'.toNat, by have : '0'.toNat = 48 := rfl; omega, ?_, by rw [hvalue]; rfl⟩
  have hlt : c.toNat - '0'.toNat < 10 := by have : '0'.toNat = 48 := rfl; omega
  apply Char.toNat_inj.1
  rw [Nat.toNat_digitChar_of_lt_ten hlt]
  have : '0'.toNat = 48 := rfl
  omega

/-- Behind its leading zeros a row of digits is the decimal text of its value. -/
theorem significant_eq (h : ∀ c ∈ ds, isAsciiDigit c = true) :
    significant ds = if digitsValue ds = 0 then [] else Nat.toDigits 10 (digitsValue ds) := by
  induction ds using List.reverseRecOn with
  | nil => rfl
  | append_singleton ds c ih =>
    have ih := ih fun d hd => h d (List.mem_append_left _ hd)
    obtain ⟨d, hd, rfl, hvalue⟩ := exists_digitChar (h c (by simp))
    rw [significant_concat, digitsValue_concat, hvalue, ih]
    by_cases hzero : digitsValue ds = 0
    · by_cases hd0 : d = 0
      · subst hd0
        simp [hzero, significant, Nat.digitChar]
      · have hne : (Nat.digitChar d == '0') = false := by simpa using hd0
        simp [hzero, significant, hd0, hne, Nat.toDigits_of_lt_base hd]
    · have hlast : 10 * digitsValue ds + d ≠ 0 := by omega
      simp only [hzero, hlast, if_false, Nat.toDigits_ne_nil]
      rw [← Nat.toDigits_append_toDigits (by omega) (by omega) hd, Nat.toDigits_of_lt_base hd]

/-- Two rows of digits write the same number when they differ in leading zeros alone. -/
theorem digitsValue_eq_iff (h : ∀ c ∈ ds, isAsciiDigit c = true)
    (h' : ∀ c ∈ es, isAsciiDigit c = true) :
    digitsValue ds = digitsValue es ↔ significant ds = significant es := by
  rw [significant_eq h, significant_eq h']
  refine ⟨fun heq => by rw [heq], fun heq => ?_⟩
  split at heq <;> split at heq
  · next hd he => rw [hd, he]
  · exact absurd heq.symm Nat.toDigits_ne_nil
  · exact absurd heq Nat.toDigits_ne_nil
  · rw [← digitsValue_toDigits (digitsValue ds), heq, digitsValue_toDigits]

end Text

namespace Segment

/-- The text has no separator. -/
def Unbroken (cs : List Char) : Prop := ∀ c ∈ cs, Separator.ofChar? c = none

/-- A base: a character, whichever it is, then a text without separators. -/
def OpensPath (s : Segment) : Prop :=
  s.separator = none ∧ ∃ c cs, s.text.toList = c :: cs ∧ Unbroken cs

/-- A step: a separator, then a text without any. -/
def IsStep (s : Segment) : Prop := s.separator.isSome = true ∧ Unbroken s.text.toList

/-- What a path may have at a segment's place: a field has a name, an index is a row of ASCII
digits. -/
def Good (s : Segment) : Prop :=
  (s.isField = true → s.text ≠ "") ∧
    (s.isIndex = true → s.text ≠ "" ∧ ∀ c ∈ s.text.toList, Text.isAsciiDigit c = true)

theorem good_base {text : String} : Good ⟨none, text⟩ := by simp [Good, isField, isIndex]

theorem good_field_iff {text : String} : Good ⟨some .field, text⟩ ↔ text ≠ "" := by
  simp [Good, isField, isIndex]

theorem good_index_iff {text : String} : Good ⟨some .index, text⟩ ↔
    text ≠ "" ∧ ∀ c ∈ text.toList, Text.isAsciiDigit c = true := by
  simp [Good, isField, isIndex]

/-- What is reported where a segment is not good. -/
def fault (s : Segment) : ReadFault := if s.isField then .emptyField else .badIndex s.text

/-- The segment without the leading zeros of an index. -/
def trimmed (s : Segment) : Segment :=
  if s.isIndex then { s with text := String.ofList (Text.significant s.text.toList) } else s

end Segment

namespace Path

open Segment

/-- Steps as a path writes them. -/
inductive Steps : List Char → Prop
  | nil : Steps []
  | field {name rest : List Char} (hname : name ≠ []) (hwhole : Unbroken name)
    (hrest : Steps rest) : Steps (Separator.field.char :: name ++ rest)
  | index {digits rest : List Char} (hdigits : digits ≠ [])
    (hall : ∀ c ∈ digits, Text.isAsciiDigit c = true) (hrest : Steps rest) :
    Steps (Separator.index.char :: digits ++ rest)

/-- A path: a base, in which a separator may stand at the very start alone, then steps. -/
def Grammatical (whole : List Char) : Prop :=
  ∃ c base steps, whole = c :: base ++ steps ∧ Unbroken base ∧ Steps steps

/-- No index of the path has more than 4300 digits. -/
def RunsFit (segments : List Segment) : Prop :=
  ∀ s ∈ segments, s.isIndex = true → (∀ c ∈ s.text.toList, Text.isAsciiDigit c = true) →
    s.text.toList.length ≤ 4300

/-- How many accesses are nested in an expression, counted from the outermost. -/
def nesting : Expr → Nat
  | .list [_, inner, _] => nesting inner + 1
  | _ => 0

variable {separator : Option Separator} {text cs whole : List Char} {e e' x x' : Expr}
  {s : Segment} {ss ss' : List Segment}

/-! ## Splitting is the inverse of writing -/

theorem splitFrom_unbroken (h : Unbroken cs) (rest : List Char) :
    splitFrom separator text (cs ++ rest) = splitFrom separator (cs.reverse ++ text) rest := by
  induction cs generalizing text with
  | nil => rfl
  | cons c cs ih =>
    rw [List.cons_append, splitFrom, h c List.mem_cons_self]
    simp only [ih fun d hd => h d (List.mem_cons_of_mem c hd), List.reverse_cons,
      List.append_assoc, List.cons_append, List.nil_append]

theorem splitFrom_flatMap_written (h : ∀ s ∈ ss, s.IsStep) :
    splitFrom separator text (ss.flatMap written)
      = ⟨separator, String.ofList text.reverse⟩ :: ss := by
  induction ss generalizing separator text with
  | nil => rfl
  | cons s ss ih =>
    obtain ⟨hsep, hwhole⟩ := h s List.mem_cons_self
    obtain ⟨sep, hsome⟩ := Option.isSome_iff_exists.1 hsep
    have hwritten : s.written = sep.char :: s.text.toList := by
      simp only [written, hsome, Option.elim_some, List.cons_append, List.nil_append]
    have hself : s = ⟨some sep, String.ofList s.text.toList⟩ := by
      rw [String.ofList_toList, ← hsome]
    rw [List.flatMap_cons, hwritten, List.cons_append, splitFrom,
      Separator.ofChar?_eq_some_iff.2 rfl]
    simp only [splitFrom_unbroken hwhole, List.append_nil, List.reverse_reverse,
      ih fun t ht => h t (List.mem_cons_of_mem s ht), ← hself]

/-- A base and steps are what their text is split into. -/
theorem split_flatMap_written (hs : s.OpensPath) (h : ∀ t ∈ ss, t.IsStep) :
    split ((s :: ss).flatMap written) = s :: ss := by
  obtain ⟨hsep, c, cs, htext, hwhole⟩ := hs
  have hwritten : s.written = c :: cs := by
    rw [written, hsep, htext, Option.elim_none, List.nil_append]
  have hself : s = ⟨none, String.ofList (c :: cs)⟩ := by
    rw [← htext, String.ofList_toList, ← hsep]
  rw [List.flatMap_cons, hwritten, List.cons_append, split, splitFrom_unbroken hwhole,
    splitFrom_flatMap_written h, List.reverse_append, List.reverse_reverse]
  simp only [List.reverse_cons, List.reverse_nil, List.nil_append, List.cons_append, ← hself]

theorem exists_splitFrom (separator : Option Separator) (text cs : List Char) :
    ∃ more ss, splitFrom separator text cs
        = ⟨separator, String.ofList (text.reverse ++ more)⟩ :: ss ∧
      Unbroken more ∧ (∀ s ∈ ss, s.IsStep) ∧
      ss.length = cs.countP fun c => (Separator.ofChar? c).isSome := by
  induction cs generalizing separator text with
  | nil => exact ⟨[], [], by rw [List.append_nil]; rfl, by simp [Unbroken], by simp, rfl⟩
  | cons c cs ih =>
    rw [splitFrom]
    cases hc : Separator.ofChar? c with
    | none =>
      obtain ⟨more, ss, hsplit, hmore, hss, hlength⟩ := ih separator (c :: text)
      refine ⟨c :: more, ss, ?_, List.forall_mem_cons.2 ⟨hc, hmore⟩, hss, ?_⟩
      · simp only [hsplit, List.reverse_cons, List.append_assoc, List.cons_append,
          List.nil_append]
      · rw [hlength, List.countP_cons_of_neg (by simp [hc])]
    | some sep =>
      obtain ⟨more, ss, hsplit, hmore, hss, hlength⟩ := ih (some sep) []
      refine ⟨[], _ :: ss, by simp only [hsplit, List.append_nil]; rfl, by simp [Unbroken],
        List.forall_mem_cons.2 ⟨⟨rfl, ?_⟩, hss⟩, ?_⟩
      · simpa using hmore
      · rw [List.length_cons, hlength, List.countP_cons_of_pos (by simp [hc])]

/-- Splitting gives a base and steps, one step for each separator behind the first character. -/
theorem exists_shape (h : whole ≠ []) :
    ∃ base ss, split whole = base :: ss ∧ base.OpensPath ∧ (∀ s ∈ ss, s.IsStep) ∧
      ss.length = (separatorPositions whole).length := by
  cases whole with
  | nil => exact absurd rfl h
  | cons c cs =>
    obtain ⟨more, ss, hsplit, hmore, hss, hlength⟩ := exists_splitFrom none [c] cs
    refine ⟨_, ss, hsplit, ⟨rfl, c, more, by simp, hmore⟩, hss, hlength.trans ?_⟩
    have hchar : ∀ i ∈ List.range cs.length, cs[i]? = some (cs[i]?.getD c) := by
      intro i hi
      rw [List.getElem?_eq_getElem (List.mem_range.1 hi), Option.getD_some]
    calc cs.countP (fun d => (Separator.ofChar? d).isSome)
        = ((List.range cs.length).map fun i => cs[i]?.getD c).countP
            fun d => (Separator.ofChar? d).isSome := by
          congr 1
          refine List.ext_getElem? fun i => ?_
          by_cases hi : i < cs.length <;> simp [hi]
      _ = (List.range cs.length).countP
            fun i => (cs[i]?.bind Separator.ofChar?).isSome := by
          rw [List.countP_map]
          refine List.countP_congr fun i hi => ?_
          rw [hchar i hi]
          rfl
      _ = (separatorPositions (c :: cs)).length := by
          rw [separatorPositions, ← List.countP_eq_length_filter, List.length_cons,
            List.range_succ_eq_map, List.countP_cons_of_neg (by simp), List.countP_map]
          refine List.countP_congr fun i _ => ?_
          simp

theorem exists_base_steps (whole : List Char) :
    ∃ base ss, split whole = base :: ss ∧ base.separator = none ∧ ∀ s ∈ ss, s.IsStep := by
  by_cases h : whole = []
  · exact ⟨⟨none, ""⟩, [], by rw [h]; rfl, rfl, by simp⟩
  · obtain ⟨base, ss, hsplit, hopens, hss, -⟩ := exists_shape h
    exact ⟨base, ss, hsplit, hopens.1, hss⟩

/-- In a text of at most 4300 characters no index is too long. -/
theorem runsFit_of_length_le (h : whole.length ≤ 4300) : RunsFit (split whole) := by
  intro s hs _ _
  have hinfix : s.written <:+: whole := by
    conv => rhs; rw [← written_split whole, List.flatMap_def]
    exact List.infix_of_mem_flatten (List.mem_map_of_mem hs)
  have hwritten : s.text.toList.length ≤ s.written.length := by
    rw [written, List.length_append]
    exact Nat.le_add_left _ _
  exact Nat.le_trans (Nat.le_trans hwritten hinfix.length_le) h

/-! ## The grammar, by segments -/

theorem unbroken_of_digits (h : ∀ c ∈ cs, Text.isAsciiDigit c = true) : Unbroken cs := by
  intro c hc
  cases hsep : Separator.ofChar? c with
  | none => rfl
  | some sep =>
    have hdigit := h c hc
    rw [Separator.ofChar?_eq_some_iff.1 hsep] at hdigit
    cases sep <;> simp [Separator.char, Text.isAsciiDigit] at hdigit

theorem ofList_ne_empty (h : cs ≠ []) : String.ofList cs ≠ "" := by
  rwa [ne_eq, String.ofList_eq_empty_iff]

/-- Steps are what good segments write. -/
theorem steps_iff :
    Steps cs ↔ ∃ ss : List Segment, (∀ s ∈ ss, s.IsStep ∧ s.Good) ∧ ss.flatMap written = cs := by
  constructor
  · intro h
    induction h with
    | nil => exact ⟨[], by simp, rfl⟩
    | @field name rest hname hwhole _ ih =>
      obtain ⟨ss, hss, rfl⟩ := ih
      refine ⟨⟨some .field, String.ofList name⟩ :: ss,
        List.forall_mem_cons.2 ⟨⟨⟨rfl, ?_⟩, good_field_iff.2 (ofList_ne_empty hname)⟩, hss⟩, ?_⟩
      · simpa using hwhole
      · simp [written]
    | @index digits rest hdigits hall _ ih =>
      obtain ⟨ss, hss, rfl⟩ := ih
      refine ⟨⟨some .index, String.ofList digits⟩ :: ss, List.forall_mem_cons.2
        ⟨⟨⟨rfl, ?_⟩, good_index_iff.2 ⟨ofList_ne_empty hdigits, ?_⟩⟩, hss⟩, ?_⟩
      · simpa using unbroken_of_digits hall
      · simpa using hall
      · simp [written]
  · rintro ⟨ss, hss, rfl⟩
    induction ss with
    | nil => exact .nil
    | cons s ss ih =>
      obtain ⟨⟨⟨hsep, hwhole⟩, hgood⟩, hrest⟩ := List.forall_mem_cons.1 hss
      obtain ⟨_ | _ | _, text⟩ := s
      · cases hsep
      · exact .field (String.toList_eq_nil_iff.not.2 (good_field_iff.1 hgood)) hwhole (ih hrest)
      · obtain ⟨hne, hall⟩ := good_index_iff.1 hgood
        exact .index (String.toList_eq_nil_iff.not.2 hne) hall (ih hrest)

/-- A text is a path when every segment of it is good. -/
theorem grammatical_iff (h : whole ≠ []) : Grammatical whole ↔ ∀ s ∈ split whole, s.Good := by
  constructor
  · rintro ⟨c, base, steps, rfl, hbase, hsteps⟩
    obtain ⟨ss, hss, rfl⟩ := steps_iff.1 hsteps
    have hopens : OpensPath ⟨none, String.ofList (c :: base)⟩ :=
      ⟨rfl, c, base, String.toList_ofList, hbase⟩
    have hsplit := split_flatMap_written hopens fun s hs => (hss s hs).1
    rw [List.flatMap_cons, written, Option.elim_none, List.nil_append, String.toList_ofList]
      at hsplit
    rw [hsplit]
    exact List.forall_mem_cons.2 ⟨good_base, fun s hs => (hss s hs).2⟩
  · intro hgood
    obtain ⟨base, ss, hsplit, ⟨hsep, c, cs, htext, hcs⟩, hss, -⟩ := exists_shape h
    rw [hsplit] at hgood
    refine ⟨c, cs, ss.flatMap written, ?_, hcs,
      steps_iff.2 ⟨ss, fun s hs => ⟨hss s hs, hgood s (List.mem_cons_of_mem base hs)⟩, rfl⟩⟩
    rw [← written_split whole, hsplit, List.flatMap_cons, written, hsep, htext,
      Option.elim_none, List.nil_append]

/-! ## Folding -/

/-- The access that a good segment adds. -/
def extended (e : Expr) (s : Segment) : Expr :=
  if s.isField then e.accessField s.text else e.accessIndex (Text.digitsValue s.text.toList)

def Fits (s : Segment) : Prop := s.isIndex = true → s.text.toList.length ≤ 4300

theorem index_eq_ok_iff {n : Nat} : index cs = .ok n ↔
    (cs ≠ [] ∧ ∀ c ∈ cs, Text.isAsciiDigit c = true) ∧ cs.length ≤ 4300 ∧
      n = Text.digitsValue cs := by
  have hbad : (cs.isEmpty || !cs.all Text.isAsciiDigit) = true ↔
      ¬ (cs ≠ [] ∧ ∀ c ∈ cs, Text.isAsciiDigit c = true) := by
    rw [Bool.or_eq_true, List.isEmpty_iff, Bool.not_eq_true', ← Bool.not_eq_true,
      List.all_eq_true, not_and_or, not_not]
  unfold index
  split
  · next h => simp [hbad.1 h]
  · next h =>
    have hgood := not_not.1 (hbad.not.1 h)
    split
    · next hlong => simp [Nat.not_le.2 hlong]
    · next hshort =>
      rw [Except.ok.injEq]
      exact ⟨fun h => ⟨hgood, Nat.le_of_not_lt hshort, h.symm⟩, fun h => h.2.2.symm⟩

theorem index_of_not_good (h : ¬ (cs ≠ [] ∧ ∀ c ∈ cs, Text.isAsciiDigit c = true)) :
    index cs = .error (.badIndex (String.ofList cs)) := by
  rw [index, if_pos]
  rw [Bool.or_eq_true, List.isEmpty_iff, Bool.not_eq_true', ← Bool.not_eq_true, List.all_eq_true]
  rwa [not_and_or, not_not] at h

theorem access_eq_ok_iff (hs : s.IsStep) :
    access e s = .ok x ↔ (s.Good ∧ Fits s) ∧ x = extended e s := by
  obtain ⟨_ | _ | _, text⟩ := s
  · cases hs.1
  · by_cases htext : text = ""
    · simp [access, Good, htext, isField]
    · have hgood : Good ⟨some .field, text⟩ := good_field_iff.2 htext
      have hfits : Fits ⟨some .field, text⟩ := fun h => by cases h
      have haccess : access e ⟨some .field, text⟩ = .ok (e.accessField text) := by
        simp [access, isField, htext]
      rw [haccess, Except.ok.injEq]
      simp only [hgood, hfits, and_self, true_and]
      exact eq_comm
  · cases hindex : index text.toList with
    | ok n =>
      obtain ⟨⟨hne, hall⟩, hshort, rfl⟩ := index_eq_ok_iff.1 hindex
      have hgood : Good ⟨some .index, text⟩ :=
        good_index_iff.2 ⟨fun h => hne (String.toList_eq_nil_iff.2 h), hall⟩
      have hfits : Fits ⟨some .index, text⟩ := fun _ => hshort
      have haccess : access e ⟨some .index, text⟩
          = .ok (e.accessIndex (Text.digitsValue text.toList)) := by
        simp [access, isField, hindex, Except.map]
      rw [haccess, Except.ok.injEq]
      simp only [hgood, hfits, and_self, true_and]
      exact eq_comm
    | error f =>
      have hnot : ¬ (Good ⟨some .index, text⟩ ∧ Fits ⟨some .index, text⟩) := by
        rintro ⟨hgood, hfits⟩
        obtain ⟨hne, hall⟩ := good_index_iff.1 hgood
        rw [index_eq_ok_iff.2 ⟨⟨String.toList_eq_nil_iff.not.2 hne, hall⟩, hfits rfl, rfl⟩]
          at hindex
        cases hindex
      simp only [hnot, false_and]
      simp [access, isField, hindex, Except.map]

theorem access_of_not_good (hs : s.IsStep) (hbad : ¬ s.Good) : access e s = .error s.fault := by
  obtain ⟨_ | _ | _, text⟩ := s
  · cases hs.1
  · have htext : text = "" := by
      by_contra hne
      exact hbad (good_field_iff.2 hne)
    subst htext
    rfl
  · have hindex : index text.toList = .error (.badIndex text) := by
      rw [index_of_not_good, String.ofList_toList]
      rintro ⟨hne, hall⟩
      exact hbad (good_index_iff.2 ⟨fun h => hne (String.toList_eq_nil_iff.2 h), hall⟩)
    simp [access, isField, fault, hindex, Except.map]

theorem fault_of_not_good (hs : s.IsStep) (hbad : ¬ s.Good) :
    s.isField = true ∧ s.text = "" ∧ s.fault = .emptyField ∨
      s.isIndex = true ∧ ¬ (s.text ≠ "" ∧ ∀ c ∈ s.text.toList, Text.isAsciiDigit c = true) ∧
        s.fault = .badIndex s.text := by
  obtain ⟨_ | _ | _, text⟩ := s
  · cases hs.1
  · exact .inl ⟨rfl, by_contra fun hne => hbad (good_field_iff.2 hne), rfl⟩
  · exact .inr ⟨rfl, fun hgood => hbad (good_index_iff.2 hgood), rfl⟩

theorem accesses_eq_ok_iff (hss : ∀ s ∈ ss, s.IsStep) :
    accesses e ss = .ok x ↔ (∀ s ∈ ss, s.Good ∧ Fits s) ∧ x = ss.foldl extended e := by
  induction ss generalizing e with
  | nil => simp [accesses, eq_comm]
  | cons s ss ih =>
    obtain ⟨hs, hss⟩ := List.forall_mem_cons.1 hss
    rw [accesses, List.forall_mem_cons, List.foldl_cons]
    cases haccess : access e s with
    | error f =>
      have hnone : ¬ (s.Good ∧ Fits s) := fun hgood => by
        rw [(access_eq_ok_iff hs).2 ⟨hgood, rfl⟩] at haccess
        cases haccess
      simp [hnone]
    | ok y =>
      obtain ⟨hgood, rfl⟩ := (access_eq_ok_iff hs).1 haccess
      simp only [ih hss, hgood, true_and]

/-- Folding stops at the leftmost segment that is not good. -/
theorem exists_leftmost (hss : ∀ s ∈ ss, s.IsStep) (hfit : RunsFit ss)
    (hbad : ¬ ∀ s ∈ ss, s.Good) (e : Expr) :
    ∃ before bad after, ss = before ++ bad :: after ∧ (∀ s ∈ before, s.Good) ∧
      ¬ bad.Good ∧ accesses e ss = .error bad.fault := by
  induction ss generalizing e with
  | nil => exact absurd (by simp) hbad
  | cons s ss ih =>
    obtain ⟨hs, hss⟩ := List.forall_mem_cons.1 hss
    obtain ⟨hfits, hfit⟩ := List.forall_mem_cons.1 hfit
    by_cases hgood : s.Good
    · have haccess : access e s = .ok (extended e s) :=
        (access_eq_ok_iff hs).2 ⟨⟨hgood, fun hindex => hfits hindex (hgood.2 hindex).2⟩, rfl⟩
      have hrest : ¬ ∀ t ∈ ss, t.Good := fun hall => hbad (List.forall_mem_cons.2 ⟨hgood, hall⟩)
      obtain ⟨before, bad, after, rfl, hbefore, hnot, hfold⟩ := ih hss hfit hrest (extended e s)
      refine ⟨s :: before, bad, after, rfl, List.forall_mem_cons.2 ⟨hgood, hbefore⟩, hnot, ?_⟩
      simp only [accesses, haccess, hfold]
    · refine ⟨[], s, ss, rfl, by simp, hgood, ?_⟩
      simp only [accesses, access_of_not_good hs hgood]

theorem nesting_foldl_extended (ss : List Segment) (e : Expr) :
    nesting (ss.foldl extended e) = nesting e + ss.length := by
  induction ss generalizing e with
  | nil => rfl
  | cons s ss ih =>
    have hone : nesting (extended e s) = nesting e + 1 := by
      unfold extended
      split <;> rfl
    rw [List.foldl_cons, ih, hone, List.length_cons]
    omega

/-! ## What an expression says about its path -/

theorem spelled_extended_iff (hs : s.IsStep) (hgood : s.Good) {t : Segment} (ht : t.IsStep)
    (htgood : t.Good) :
    (extended e s).spelled = (extended e' t).spelled ↔
      e.spelled = e'.spelled ∧ s.trimmed = t.trimmed := by
  obtain ⟨_ | _ | _, a⟩ := s
  · cases hs.1
  all_goals obtain ⟨_ | _ | _, b⟩ := t
  all_goals try cases ht.1
  case some.field.some.field =>
    simp [extended, isField, trimmed, isIndex, Expr.accessField, Expr.quote, Expr.known,
      Expr.spelled, Expr.spelledAll]
  case some.index.some.index =>
    have hvalue : ((Text.digitsValue a.toList : Int) = Text.digitsValue b.toList) ↔
        Text.significant a.toList = Text.significant b.toList :=
      Int.natCast_inj.trans (Text.digitsValue_eq_iff (hgood.2 rfl).2 (htgood.2 rfl).2)
    have htexts : String.ofList (Text.significant a.toList) =
        String.ofList (Text.significant b.toList) ↔
          Text.significant a.toList = Text.significant b.toList := String.ofList_inj
    simp [extended, isField, trimmed, isIndex, Expr.accessIndex, Expr.known, Expr.spelled,
      Expr.spelledAll, hvalue, htexts]
  all_goals
    simp [extended, isField, trimmed, isIndex, Expr.accessField, Expr.accessIndex, Expr.known,
      Expr.spelled, Expr.spelledAll]

/-- No access is a symbol. -/
theorem spelled_extended_ne_sym (e : Expr) (s : Segment) (a : String) :
    (extended e s).spelled ≠ .sym a .written := by
  unfold extended
  split <;> simp [Expr.accessField, Expr.accessIndex, Expr.spelled]

theorem spelled_foldl_extended_iff (hss : ∀ s ∈ ss, s.IsStep ∧ s.Good)
    (hss' : ∀ s ∈ ss', s.IsStep ∧ s.Good) (a b : String) :
    (ss.foldl extended (.sym a .written)).spelled = (ss'.foldl extended (.sym b .written)).spelled ↔
      a = b ∧ ss.map trimmed = ss'.map trimmed := by
  induction ss using List.reverseRecOn generalizing ss' with
  | nil =>
    rcases List.eq_nil_or_concat ss' with rfl | ⟨ts, t, rfl⟩
    · simp [Expr.spelled]
    · have hne := (spelled_extended_ne_sym (ts.foldl extended (.sym b .written)) t a).symm
      simp [Expr.spelled, hne]
  | append_singleton ss s ih =>
    rcases List.eq_nil_or_concat ss' with rfl | ⟨ts, t, rfl⟩
    · have hne := spelled_extended_ne_sym (ss.foldl extended (.sym a .written)) s b
      simp [Expr.spelled, hne]
    · obtain ⟨hs, hgood⟩ := hss s (by simp)
      obtain ⟨ht, htgood⟩ := hss' t (by simp)
      have hinit := @ih ts (fun u hu => hss u (List.mem_append_left _ hu))
        (fun u hu => hss' u (by simp [hu]))
      rw [List.concat_eq_append, List.foldl_append, List.foldl_append, List.foldl_cons,
        List.foldl_cons, List.foldl_nil, List.foldl_nil, spelled_extended_iff hs hgood ht htgood,
        hinit, List.map_append, List.map_append, List.map_singleton, List.map_singleton,
        List.append_singleton_inj, and_assoc]

theorem trimmed_of_isBase (h : s.separator = none) : s.trimmed = s := by
  simp [trimmed, isIndex, h]

theorem eq_iff_text_eq {t : Segment} (hs : s.separator = none) (ht : t.separator = none) :
    s = t ↔ s.text = t.text := by
  obtain ⟨_, a⟩ := s
  obtain ⟨_, b⟩ := t
  subst hs ht
  simp

theorem fold_cons (h : s.separator = none) (ss : List Segment) :
    fold (s :: ss) = accesses (.sym s.text .written) ss := by
  rw [fold, if_pos (by rw [isBase, h]; rfl)]

/-! ## Paths -/

/-- A text that is not empty is split into a base and steps, with nothing lost. It folds when it is
in the grammar, and otherwise fails as its leftmost bad segment does. What it folds into has one
access for each separator behind the first character, and is the same for two texts when they
differ in leading zeros of indices alone. -/
theorem fold_split (h : whole ≠ []) (hfit : RunsFit (split whole)) :
    (split whole).flatMap written = whole ∧
    (∃ base ss, split whole = base :: ss ∧ base.OpensPath ∧ ∀ s ∈ ss, s.IsStep) ∧
    ((∃ e, fold (split whole) = .ok e) ↔ Grammatical whole) ∧
    (¬ Grammatical whole → ∃ before bad after f, split whole = before ++ bad :: after ∧
      (∀ s ∈ before, s.Good) ∧ fold (split whole) = .error f ∧
      (bad.isField = true ∧ bad.text = "" ∧
          f = .emptyField ∧ f.category? = some .invalidPath ∨
        bad.isIndex = true ∧ ¬ (bad.text ≠ "" ∧ ∀ c ∈ bad.text.toList, Text.isAsciiDigit c = true) ∧
          f = .badIndex bad.text ∧ f.category? = some .invalidIndex)) ∧
    ∀ e, fold (split whole) = .ok e →
      nesting e = (separatorPositions whole).length ∧
      ∀ other e', fold (split other) = .ok e' →
        (e.spelled = e'.spelled ↔ (split whole).map trimmed = (split other).map trimmed) := by
  obtain ⟨base, ss, hsplit, hopens, hss, hcount⟩ := exists_shape h
  have hbase : base.Good := by
    constructor <;> intro hsep <;> simp [isField, isIndex, hopens.1] at hsep
  have hfold : fold (split whole) = accesses (.sym base.text .written) ss :=
    hsplit ▸ fold_cons hopens.1 ss
  have hfit' : RunsFit ss := fun s hs => hfit s (hsplit ▸ List.mem_cons_of_mem base hs)
  have hgood : Grammatical whole ↔ ∀ s ∈ ss, s.Good := by
    rw [grammatical_iff h, hsplit, List.forall_mem_cons]
    exact and_iff_right hbase
  refine ⟨written_split whole, ⟨base, ss, hsplit, hopens, hss⟩, ?_, fun hnot => ?_,
    fun e he => ?_⟩
  · rw [hgood, hfold]
    constructor
    · rintro ⟨e, he⟩
      exact fun s hs => (((accesses_eq_ok_iff hss).1 he).1 s hs).1
    · intro hall
      exact ⟨_, (accesses_eq_ok_iff hss).2 ⟨fun s hs => ⟨hall s hs, fun hindex =>
        hfit' s hs hindex ((hall s hs).2 hindex).2⟩, rfl⟩⟩
  · have hbad : ¬ ∀ s ∈ ss, s.Good := hgood.not.1 hnot
    obtain ⟨before, bad, after, rfl, hbefore, hbad, herror⟩ :=
      exists_leftmost hss hfit' hbad (.sym base.text .written)
    refine ⟨base :: before, bad, after, bad.fault, hsplit,
      List.forall_mem_cons.2 ⟨hbase, hbefore⟩, hfold.trans herror, ?_⟩
    rcases fault_of_not_good (hss bad (by simp)) hbad with ⟨hfield, hempty, hf⟩ | ⟨hindex, hno, hf⟩
    · exact .inl ⟨hfield, hempty, hf, by rw [hf]; rfl⟩
    · exact .inr ⟨hindex, hno, hf, by rw [hf]; rfl⟩
  · rw [hfold] at he
    obtain ⟨hall, rfl⟩ := (accesses_eq_ok_iff hss).1 he
    refine ⟨by rw [nesting_foldl_extended, hcount]; exact Nat.zero_add _, fun other e' he' => ?_⟩
    obtain ⟨base', ss', hsplit', hsep', hss'⟩ := exists_base_steps other
    rw [hsplit', fold_cons hsep'] at he'
    obtain ⟨hall', rfl⟩ := (accesses_eq_ok_iff hss').1 he'
    rw [hsplit, hsplit', List.map_cons, List.map_cons, List.cons.injEq,
      trimmed_of_isBase hopens.1, trimmed_of_isBase hsep', eq_iff_text_eq hopens.1 hsep']
    exact spelled_foldl_extended_iff (fun s hs => ⟨hss s hs, (hall s hs).1⟩)
      (fun s hs => ⟨hss' s hs, (hall' s hs).1⟩) base.text base'.text

/-- Three accesses, the same for an index with zeros before it and without. -/
theorem fold_split_name :
    "name.field#03.other".toList ≠ [] ∧ RunsFit (split "name.field#03.other".toList) ∧
      ∃ e e', fold (split "name.field#03.other".toList) = .ok e ∧ nesting e = 3 ∧
        fold (split "name.field#3.other".toList) = .ok e' ∧ e.spelled = e'.spelled := by
  have hne : "name.field#03.other".toList ≠ [] := by simp
  have hfit : RunsFit (split "name.field#03.other".toList) := runsFit_of_length_le (by simp)
  obtain ⟨-, -, -, -, hok⟩ := fold_split hne hfit
  obtain ⟨hnesting, hsame⟩ := hok _ rfl
  exact ⟨hne, hfit, _, _, rfl, hnesting, rfl, (hsame "name.field#3.other".toList _ rfl).2 rfl⟩

end Path

end Sigil
