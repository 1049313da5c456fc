import Sigil.Proofs.Reader.Enclosed
import Sigil.Proofs.Reader.Faults
import Sigil.Registry.Readtable

/-!
# Delimited syntaxes

A text between the delimiters of a list, a vector or a map is read as one form, built from the
forms that the text by itself is read as; a fault of what stands in the text is the fault of
the whole (`readAll_enclose`).
-/

namespace Sigil.Reader

inductive Delimiters where
  | list
  | vector
  | map
  | fixedMap

namespace Delimiters

def opener : Delimiters → String
  | list => "("
  | vector => "#v("
  | map => "#h("
  | fixedMap => "\x7b"

def closer : Delimiters → Char
  | list | vector | map => ')'
  | fixedMap => '}'

def shape : Delimiters → Shape
  | list => .list
  | vector => .vector
  | map => .map false "#h(...)"
  | fixedMap => .map true "\x7b...\x7d"

/-- A text between the delimiters. The closer stands on a line of its own, so that a comment in
the last line of the text does not hide it. -/
def enclose (d : Delimiters) (text : String) : String :=
  d.opener ++ text ++ "\n" ++ String.singleton d.closer

def outer (d : Delimiters) : Outer := ⟨d.shape, d.closer, .start⟩

def inner (d : Delimiters) : Location := Location.start.advance d.opener.toList

theorem closes (d : Delimiters) :
    Registry.extended.kindOf? (.char d.outer.closer) = some .listClose := by
  cases d <;> rfl

theorem feed_opener (d : Delimiters) :
    ∃ t, feed .extended .start .idle d.opener.toList = some t ∧ t.Inside (d.outer.frame []) := by
  cases d <;> exact ⟨_, rfl, rfl, rfl⟩

theorem read_enclose (d : Delimiters) (text : String) :
    ∃ t, t.Inside (d.outer.frame []) ∧
      read .extended (.ofText (d.enclose text))
        = runAt .extended t (extend ⟨d.opener.toList.reverse, text.toList, d.inner⟩
            ('\n' :: [d.closer])) := by
  obtain ⟨t, hfeed, ht⟩ := d.feed_opener
  refine ⟨t, ht, ?_⟩
  have htext : (d.enclose text).toList
      = d.opener.toList ++ (text.toList ++ '\n' :: [d.closer]) := by
    simp [enclose]
  rw [read, runAt, Cursor.ofText, htext, run_append hfeed, List.append_nil]
  rfl

end Delimiters

/-! ## The closer -/

variable {reg : Registry} {place : Location} {o : Outer} {items : List Expr} {t : State}

/-- The closer completes the form of the elements, or is the fault of a map literal. -/
theorem step_closer (ht : t.Inside (o.frame items)) (hb : Text.isBlank o.closer = false) :
    step reg place t o.closer = match o.shape.build items.reverse with
      | .ok e => .complete e true
      | .error f => .fail f o.opened true := by
  simp only [step, ht.mode, State.stepBetween, hb, ht.frames, Outer.frame, if_true,
    Bool.false_eq_true, if_false]
  cases o.shape.build items.reverse <;> rfl

theorem runAt_closer_of_ok {e : Expr} (reg : Registry) (cur : Cursor)
    (ht : t.Inside (o.frame items)) (hb : Text.isBlank o.closer = false)
    (h : o.shape.build items.reverse = .ok e) :
    (runAt reg t (nextLine cur [o.closer])).found = .form e t.start ∧
      (runAt reg t (nextLine cur [o.closer])).rest.after = [] := by
  have hstep : step reg (nextLine cur [o.closer]).loc t o.closer = .complete e true := by
    rw [step_closer ht hb, h]
  rw [runAt, nextLine, run, ← nextLine, hstep]
  exact ⟨rfl, rfl⟩

theorem runAt_closer_of_error {f : ReadFault} (reg : Registry) (cur : Cursor)
    (ht : t.Inside (o.frame items)) (hb : Text.isBlank o.closer = false)
    (h : o.shape.build items.reverse = .error f) :
    (runAt reg t (nextLine cur [o.closer])).found = .failure f o.opened := by
  have hstep : step reg (nextLine cur [o.closer]).loc t o.closer = .fail f o.opened true := by
    rw [step_closer ht hb, h]
  rw [runAt, nextLine, run, ← nextLine, hstep]

/-! ## Delimited texts -/

/-- The forms of a text are the elements of the text between delimiters. The form that they
become is all there is to read; a map literal that starts with no test name is a fault at the
opener. A fault of what stands in the text, but for the closer itself, is the fault of the text
between the delimiters. -/
theorem readAll_enclose (d : Delimiters) (text : String) :
    (∀ forms, readAll .extended text = .ok forms →
      (∃ e, d.shape.build forms = .ok e ∧ readAll .extended (d.enclose text) = .ok [e]) ∨
      ∃ fault, d.shape.build forms = .error fault ∧
        fault.category? = some .malformedLiteral ∧
        readAll .extended (d.enclose text) = .error (fault, .start)) ∧
    ∀ fault place, readAll .extended text = .error (fault, place) → fault.Standing →
      fault ≠ .strayCloser (.ofChar d.closer) →
      readAll .extended (d.enclose text) = .error (fault, d.inner.within place) := by
  obtain ⟨t, ht, hread⟩ := d.read_enclose text
  set cur : Cursor := ⟨d.opener.toList.reverse, text.toList, d.inner⟩ with hcur
  -- behind the opener the text has its forms and its fault, at other places
  obtain ⟨hforms, hfault⟩ : (readForms .extended cur).forms
        = (readForms .extended (.ofText text)).forms.map (Prod.map id d.inner.within) ∧
      (readForms .extended cur).fault
        = (readForms .extended (.ofText text)).fault.map (Prod.map id d.inner.within) :=
    relocated_readForms (Location.tracks_within d.inner) rfl (Location.within_start _).symm
  constructor
  · intro forms h
    obtain ⟨hnone, rfl⟩ := readAll_eq_ok_iff.1 h
    have hitems : (readForms .extended cur).forms.map (·.1)
        = (readForms .extended (.ofText text)).forms.map (·.1) := by
      rw [hforms, List.map_map]
      rfl
    obtain ⟨t', ht', hrun⟩ := runAt_inside (v := [d.closer]) d.closes ht
      (by rw [hfault, hnone]; rfl)
    rw [hitems, List.append_nil] at ht'
    have hread : read .extended (.ofText (d.enclose text))
        = runAt .extended t' (nextLine cur [d.outer.closer]) := hread.trans hrun
    have hblank : Text.isBlank d.outer.closer = false := by cases d <;> rfl
    cases hbuild : d.shape.build ((readForms .extended (.ofText text)).forms.map (·.1)) with
    | ok e =>
      obtain ⟨hfound, hrest⟩ := runAt_closer_of_ok .extended cur ht' hblank
        (by rw [List.reverse_reverse]; exact hbuild)
      rw [← hread] at hfound hrest
      exact .inl ⟨e, rfl, readAll_of_form hfound hrest⟩
    | error fault =>
      have hfound := runAt_closer_of_error .extended cur ht' hblank
        (by rw [List.reverse_reverse]; exact hbuild)
      rw [← hread] at hfound
      exact .inr ⟨fault, rfl, category_of_build hbuild, readAll_of_failure hfound⟩
  · intro fault place h hstanding hcloser
    have hsome := readAll_eq_error_iff.1 h
    refine readAll_of_failure ?_
    rw [hread]
    exact runAt_inside_of_fault d.closes ht hstanding hcloser (by rw [hfault, hsome]; rfl)

/-- A list with a comment in it, and an index that is no number in such a list. -/
theorem readAll_enclose_comment :
    readAll .extended "(#|one|# a\n)" = .ok [.list [.sym "a" .written]] ∧
      readAll .extended "(@b#x ; two\n)" = .error (.badIndex "x", ⟨1, 3⟩) := by
  have ha : readAll .extended "#|one|# a" = .ok [.sym "a" .written] :=
    readAll_of_form rfl rfl
  have hb : readAll .extended "@b#x ; two" = .error (.badIndex "x", ⟨1, 2⟩) :=
    readAll_of_failure rfl
  constructor
  · rcases (readAll_enclose .list "#|one|# a").1 _ ha with ⟨e, hbuild, h⟩ | ⟨f, hbuild, -⟩
    · cases hbuild
      exact h
    · cases hbuild
  · exact (readAll_enclose .list "@b#x ; two").2 _ _ hb (by decide) (by simp)

end Sigil.Reader
