import Sigil.Proofs.Expr.Atoms
import Sigil.Proofs.Number.FloatText
import Sigil.Proofs.Reader.Resume

/-!
# Reading what was printed

`ReadsBack reg e` says that `e` has a text and that the text is read as `e` wherever a form may
start. An expression reads back when its atoms do (`readsBack_of_each`), for any registry with
the plain syntax. For the standard registry `Expr.Readable` says which atoms read back.
-/

namespace Sigil

namespace Reader

open Sigil.Expr

variable {reg : Registry} {e : Expr} {es : List Expr}

/-- The printed expression is read as the expression, up to the origin of its symbols. -/
def ReadsBack (reg : Registry) (e : Expr) : Prop :=
  ∃ p e', (Datum.ofExpr e).print = .ok p ∧ e'.spelled = e.spelled ∧ Takes reg p.toList e'

/-! ## Atoms -/

theorem readsBack_int (hr : reg.Lisp) {n : Int}
    (h : (Nat.toDigits 10 n.natAbs).length ≤ 4300) : ReadsBack reg (int n) := by
  have hvalue : (Numeral.ofInt n).expr = .ok (int n) := by
    rw [← Atom.ofToken_written (Numeral.digital_ofInt n), ← toList_toString_int,
      ofToken_toString_int h]
  refine ⟨toString n, int n, intText_eq_ok_iff.2 ⟨h, rfl⟩, rfl, ?_⟩
  rw [toList_toString_int]
  exact takes_of_spells hr (spells_written hr (Numeral.digital_ofInt n) hvalue)

theorem readsBack_float (hr : reg.Lisp) {x : Float} (h : Binary64.isFinite x = true) :
    ReadsBack reg (float x) := by
  obtain ⟨n, hn, htext, hvalue⟩ := Binary64.exists_numeral_text h
  refine ⟨Binary64.text x, float x, rfl, rfl, ?_⟩
  rw [htext]
  exact takes_of_spells hr (spells_written hr hn hvalue)

theorem readsBack_str (hr : reg.Lisp) (s : String) : ReadsBack reg (str s) :=
  ⟨Datum.literal s, str s, rfl, rfl, takes_literal hr s⟩

theorem readsBack_sym (hr : reg.Lisp) {name : String} {o : Origin}
    (h : Spells reg name.toList (sym name .written)) : ReadsBack reg (sym name o) :=
  ⟨name, sym name .written, rfl, rfl, takes_of_spells hr h⟩

theorem readsBack_kw (hr : reg.Lisp) {name : String}
    (h : Spells reg (':' :: name.toList) (kw name)) : ReadsBack reg (kw name) := by
  refine ⟨":" ++ name, kw name, rfl, rfl, ?_⟩
  rw [String.toList_append]
  exact takes_of_spells hr h

/-! ## Lists -/

theorem eq_sym_of_ofExpr {name : String} (h : Datum.ofExpr e = .sym name) :
    ∃ o, e = sym name o := by
  cases e with
  | sym s o => cases h; exact ⟨o, rfl⟩
  | _ => cases h

theorem eq_pair_of_ofExprs {name : String} {d : Datum} (h : Datum.ofExprs es = [.sym name, d]) :
    ∃ o a, es = [sym name o, a] := by
  match es, h with
  | [e, a], h =>
    simp only [Datum.ofExprs, List.cons.injEq] at h
    obtain ⟨o, rfl⟩ := eq_sym_of_ofExpr h.1
    exact ⟨o, a, rfl⟩
  | [], h => cases h
  | [_], h => simp [Datum.ofExprs] at h
  | _ :: _ :: _ :: _, h => simp [Datum.ofExprs] at h

/-- A list is abbreviated when it has two elements and the first is one of two symbols. -/
theorem abbreviation?_cases (es : List Expr) :
    (∃ o a, es = [sym "quote" o, a] ∧ Datum.abbreviation? (Datum.ofExprs es) = some "'") ∨
    (∃ o a, es = [sym "function" o, a] ∧ Datum.abbreviation? (Datum.ofExprs es) = some "#'") ∨
    Datum.abbreviation? (Datum.ofExprs es) = none := by
  unfold Datum.abbreviation?
  split
  · next h =>
    obtain ⟨o, a, rfl⟩ := eq_pair_of_ofExprs h
    exact .inl ⟨o, a, rfl, rfl⟩
  · next h =>
    obtain ⟨o, a, rfl⟩ := eq_pair_of_ofExprs h
    exact .inr (.inl ⟨o, a, rfl, rfl⟩)
  · exact .inr (.inr rfl)

theorem printedList_of_some {items : List Datum} {mark t x : String}
    (h : Datum.abbreviation? items = some mark) : Datum.printedList items [t, x] = mark ++ x := by
  unfold Datum.printedList
  rw [h]

theorem printedList_of_none {items : List Datum} {texts : List String}
    (h : Datum.abbreviation? items = none) :
    Datum.printedList items texts = "(" ++ String.intercalate " " texts ++ ")" := by
  unfold Datum.printedList
  rw [h]

/-- The texts of elements that are read as the elements. -/
def AllReadBack (reg : Registry) (es : List Expr) : Prop :=
  ∃ ps es', Datum.printAll (Datum.ofExprs es) = .ok ps ∧ spelledAll es' = spelledAll es ∧
    List.Forall₂ (Takes reg) (ps.map String.toList) es'

theorem print_list {ps : List String} (h : Datum.printAll (Datum.ofExprs es) = .ok ps) :
    (Datum.ofExpr (list es)).print = .ok (Datum.printedList (Datum.ofExprs es) ps) := by
  rw [Datum.ofExpr, Datum.print, h]
  rfl

theorem exists_second {head a : Expr} {ps : List String} {es' : List Expr}
    (hspelled : spelledAll es' = spelledAll [head, a])
    (htakes : List.Forall₂ (Takes reg) (ps.map String.toList) es') :
    ∃ p₀ p e', ps = [p₀, p] ∧ e'.spelled = a.spelled ∧ Takes reg p.toList e' := by
  match es', hspelled with
  | [e₀, e'], hspelled =>
    simp only [spelledAll, List.cons.injEq, and_true] at hspelled
    match ps, htakes with
    | [p₀, p], .cons _ (.cons hp .nil) => exact ⟨p₀, p, e', rfl, hspelled.2, hp⟩
  | [], hspelled => simp [spelledAll] at hspelled
  | [_], hspelled => simp [spelledAll] at hspelled
  | _ :: _ :: _ :: _, hspelled => simp [spelledAll] at hspelled

/-- A pair that is abbreviated by a mark reads back when its second element does. -/
theorem readsBack_marked {head mark : String} {o : Origin} {a : Expr}
    (habbr : Datum.abbreviation? (Datum.ofExprs [sym head o, a]) = some mark)
    (hmark : ∀ {p e'}, Takes reg p e' → Takes reg (mark.toList ++ p) (list [known head, e']))
    (h : AllReadBack reg [sym head o, a]) : ReadsBack reg (list [sym head o, a]) := by
  obtain ⟨ps, es', hprint, hspelled, htakes⟩ := h
  obtain ⟨p₀, p, e', rfl, hsame, htake⟩ := exists_second hspelled htakes
  refine ⟨mark ++ p, list [known head, e'], ?_, ?_, ?_⟩
  · rw [print_list hprint, printedList_of_some habbr]
  · simp only [known, spelled, spelledAll, hsame]
  · rw [String.toList_append]
    exact hmark htake

theorem readsBack_list (hr : reg.Lisp) (h : AllReadBack reg es) : ReadsBack reg (list es) := by
  rcases abbreviation?_cases es with ⟨o, a, rfl, habbr⟩ | ⟨o, a, rfl, habbr⟩ | habbr
  · exact readsBack_marked habbr (takes_quote hr) h
  · exact readsBack_marked habbr (takes_function hr) h
  · obtain ⟨ps, es', hprint, hspelled, htakes⟩ := h
    refine ⟨"(" ++ String.intercalate " " ps ++ ")", list es', ?_, ?_, ?_⟩
    · rw [print_list hprint, printedList_of_none habbr]
    · rw [spelled, spelled, hspelled]
    · rw [String.toList_append, String.toList_append, String.toList_intercalate]
      exact takes_list hr htakes

mutual

/-- An expression reads back when its atoms do. -/
theorem readsBack_of_each (hr : reg.Lisp) :
    ∀ {e : Expr}, e.Each (ReadsBack reg) → ReadsBack reg e
  | int _, h | float _, h | str _, h | sym _ _, h | kw _, h => h
  | list _, h => readsBack_list hr (allReadBack_of_each hr h)

theorem allReadBack_of_each (hr : reg.Lisp) :
    ∀ {es : List Expr}, EachAll (ReadsBack reg) es → AllReadBack reg es
  | [], _ => ⟨[], [], rfl, rfl, .nil⟩
  | e :: es, h => by
    obtain ⟨p, e', hprint, hsame, htake⟩ := readsBack_of_each hr h.1
    obtain ⟨ps, es', hprints, hsames, htakes⟩ := allReadBack_of_each hr h.2
    refine ⟨p :: ps, e' :: es', ?_, by rw [spelledAll, spelledAll, hsame, hsames],
      .cons htake htakes⟩
    rw [Datum.ofExprs, Datum.printAll, hprint, hprints]
    rfl

end

/-! ## A registry without extensions -/

section Plain

variable {place : Location} {s : State} {c : Char} {frames : List Frame}

/-- A reading that goes on has noted what `noted` holds and no more. -/
def Verdict.Notes (noted : List Dispatch) : Verdict → Prop
  | .more t => t.dispatched = noted
  | _ => True

theorem notes_close : (s.close e frames).Notes s.dispatched := by
  unfold State.close
  split
  · trivial
  · rfl

theorem notes_invoke {kind : HandlerKind} {cue : Cue} {after : Location}
    (hk : kind.isStandard = true) : (s.invoke kind cue place after).Notes s.dispatched := by
  cases kind with
  | vector | map | fixedMap | rawString | positionalLambda | pathAccess => cases hk
  | listClose => trivial
  | listOpen | quote | string | lineComment | dispatch | function | blockComment => rfl

theorem notes_begin (hr : reg.Plain) : (State.begin reg s place c).Notes s.dispatched := by
  unfold State.begin
  split
  · rfl
  · next hkind => exact notes_invoke (hr hkind)

theorem notes_stepBetween (hr : reg.Plain) : (s.stepBetween reg place c).Notes s.dispatched := by
  unfold State.stepBetween
  split
  · rfl
  · split
    · exact notes_begin hr
    · split
      · split
        · trivial
        · exact notes_close
      · exact notes_begin hr
    · exact notes_begin hr

theorem notes_endBefore {result : Except ReadFault Expr} {faultPlace : Location} (hr : reg.Plain) :
    (s.endBefore reg result faultPlace place c).Notes s.dispatched := by
  unfold State.endBefore
  split
  · trivial
  · split
    · trivial
    · exact notes_stepBetween hr

theorem notes_step (hr : reg.Plain) : (step reg place s c).Notes s.dispatched := by
  unfold step
  split
  · exact notes_stepBetween hr
  · split
    · exact notes_endBefore hr
    · rfl
  · split
    · exact notes_endBefore hr
    · rfl
  · split
    · rfl
    · split
      · rfl
      · split
        · exact notes_close
        · rfl
  · split
    · exact notes_close
    · rfl
  · rfl
  · split
    · rfl
    · split <;> rfl
  · split
    · trivial
    · trivial
    · next hkind => exact notes_invoke (hr hkind)
  · split
    · rfl
    · trivial

theorem dispatched_run (hr : reg.Plain) {before cs : List Char} :
    (run reg before place s cs).dispatched = s.dispatched.reverse := by
  induction cs generalizing before place s with
  | nil => rfl
  | cons c cs ih =>
    have hstep := @notes_step reg place s c hr
    unfold run
    split
    · next t ht =>
      rw [ht] at hstep
      rw [ih]
      exact congrArg List.reverse hstep
    · rfl
    · rfl

end Plain

/-- What reads back is read from the beginning of a text, and the reading stops right behind it. -/
theorem exists_read_of_takes {p rest : String} (h : Takes reg p.toList e)
    (hrest : Follows rest.toList) :
    ∃ noted, read reg (.ofText (p ++ rest)) = ⟨.form e Location.start,
      ⟨p.toList.reverse, rest.toList, Location.start.advance p.toList⟩, noted⟩ := by
  obtain ⟨noted, hrun⟩ := @h [] Location.start State.idle rest.toList rfl nofun hrest
  rw [List.append_nil, ← String.toList_append] at hrun
  exact ⟨noted.reverse, hrun⟩

theorem read_of_takes {p rest : String} (h : Takes .standard p.toList e)
    (hrest : Follows rest.toList) :
    read .standard (.ofText (p ++ rest)) = ⟨.form e Location.start,
      ⟨p.toList.reverse, rest.toList, Location.start.advance p.toList⟩, []⟩ := by
  obtain ⟨noted, hread⟩ := exists_read_of_takes h hrest
  have hnoted : (read .standard (.ofText (p ++ rest))).dispatched = [] :=
    dispatched_run Registry.plain_standard
  rw [hread] at hnoted ⊢
  rw [← hnoted]

end Reader

/-! ## The standard registry -/

open Reader

namespace Expr

/-- A text that is not empty and nowhere ends a token of the standard registry. -/
structure Unbroken (text : String) : Prop where
  ne_empty : text ≠ ""
  chars : ∀ c ∈ text.toList, endsToken .standard c = false

instance (text : String) : Decidable (Unbroken text) :=
  decidable_of_iff (text ≠ "" ∧ text.toList.all (!endsToken .standard ·) = true) <| by
    constructor
    · rintro ⟨hne, hall⟩
      exact ⟨hne, fun c hc => by simpa using List.all_eq_true.1 hall c hc⟩
    · rintro ⟨hne, hall⟩
      exact ⟨hne, List.all_eq_true.2 fun c hc => by rw [hall c hc]; rfl⟩

/-- An atom that the standard reader gives back: a whole number of at most 4300 digits, a finite
double, any string, a symbol or a keyword whose text is a token that stands for it. -/
def Readable : Expr → Prop
  | int n => (Nat.toDigits 10 n.natAbs).length ≤ 4300
  | float x => Binary64.isFinite x = true
  | sym name _ => Unbroken name ∧ name.toList.head? ≠ some '#' ∧
      Atom.ofToken name.toList = .ok (sym name .written)
  | kw name => Unbroken name ∧ Atom.ofToken (':' :: name.toList) = .ok (kw name)
  | str _ => True
  | list _ => False

end Expr

theorem Reader.readsBack_of_readable {e : Expr} (h : e.Readable) : ReadsBack .standard e := by
  have hr := Registry.lisp_standard
  cases e with
  | int n => exact readsBack_int hr h
  | float x => exact readsBack_float hr h
  | str s => exact readsBack_str hr s
  | sym name o =>
    obtain ⟨htoken, hhead, hvalue⟩ := h
    refine readsBack_sym hr ⟨?_, ?_, htoken.chars, hvalue⟩
    · exact fun hnil => htoken.ne_empty (String.toList_eq_nil_iff.1 hnil)
    · intro c hc
      refine Registry.kindOf?_standard (htoken.chars c (List.mem_of_head? hc)) ?_
      rintro rfl
      exact hhead hc
  | kw name =>
    obtain ⟨htoken, hvalue⟩ := h
    refine readsBack_kw hr ⟨List.cons_ne_nil _ _, ?_, ?_, hvalue⟩
    · rintro _ ⟨⟩
      rfl
    · intro c hc
      rcases List.mem_cons.1 hc with rfl | hc
      · rfl
      · exact htoken.chars c hc
  | list es => exact h.elim

/-- A printed expression of readable atoms is read back as the expression, and the reading stops
right behind it, when nothing, a blank or a closing parenthesis follows. -/
theorem Reader.read_print {e : Expr} {rest : String} (he : e.Each Expr.Readable)
    (hrest : Follows rest.toList) :
    ∃ p e', (Datum.ofExpr e).print = .ok p ∧ e'.spelled = e.spelled ∧
      read .standard (.ofText (p ++ rest)) = ⟨.form e' Location.start,
        ⟨p.toList.reverse, rest.toList, Location.start.advance p.toList⟩, []⟩ := by
  obtain ⟨p, e', hprint, hsame, htakes⟩ :=
    readsBack_of_each Registry.lisp_standard (he.imp fun _ => readsBack_of_readable)
  exact ⟨p, e', hprint, hsame, read_of_takes htakes hrest⟩

/-- A call with a quoted symbol, a string, a double, a whole number and a keyword, in front of a
closing parenthesis. -/
theorem Reader.read_print_call :
    let e : Expr := .list [.sym "f" .written, .quote (.sym "x" .written), .str "a\"\n",
      .float (Float.ofBits 0x3FF8000000000000), .int (-3), .kw "k"]
    ∃ p e', (Datum.ofExpr e).print = .ok p ∧ e'.spelled = e.spelled ∧
      read .standard (.ofText (p ++ ") ;")) = ⟨.form e' Location.start,
        ⟨p.toList.reverse, [')', ' ', ';'], Location.start.advance p.toList⟩, []⟩ := by
  have hf : (Expr.sym "f" .written).Readable := ⟨by decide, by decide, by cbv⟩
  have hx : (Expr.sym "x" .written).Readable := ⟨by decide, by decide, by cbv⟩
  have hq : (Expr.known "quote").Readable := ⟨by decide, by decide, by cbv⟩
  have hk : (Expr.kw "k").Readable := ⟨by decide, by cbv⟩
  have hd : (Expr.float (Float.ofBits 0x3FF8000000000000)).Readable := rfl
  have hn : (Expr.int (-3)).Readable := by unfold Expr.Readable; decide
  refine Reader.read_print ⟨hf, ⟨hq, hx, trivial⟩, trivial, hd, hn, hk, trivial⟩ ?_
  exact follows_cons (.inr rfl)

end Sigil
