import Mathlib.Data.List.Induction
import Sigil.Proofs.Reader.Relocation

/-!
# The extents of the forms of a text

The extent of a form reaches from the place that the reader reports for the form to the cursor
at which it stopped. The characters of an extent, read by themselves, give the form again, and
those between two extents hold no form: no character of a form is lost, read twice or taken by
a neighbour (`ownSlices_extents`).
-/

namespace Sigil

namespace Location

/-- An earlier line, or an earlier column of the same line. -/
def Before (l m : Location) : Prop := l.line < m.line ∨ l.line = m.line ∧ l.col < m.col

theorem Before.asymm {l m : Location} (h : l.Before m) : ¬ m.Before l := by
  unfold Before at h ⊢
  omega

theorem before_advance (l : Location) (c : Char) (cs : List Char) :
    l.Before (l.advance (c :: cs)) := by
  induction cs generalizing l c with
  | nil =>
    rw [advance_cons, advance_nil, step]
    split
    · exact .inl (Nat.lt_succ_self _)
    · exact .inr ⟨rfl, Nat.lt_succ_self _⟩
  | cons d cs ih =>
    have h1 : l.Before (l.step c) := by
      rw [step]
      split
      · exact .inl (Nat.lt_succ_self _)
      · exact .inr ⟨rfl, Nat.lt_succ_self _⟩
    have h2 : (l.step c).Before ((l.step c).advance (d :: cs)) := ih (l.step c) d
    rw [advance_cons]
    unfold Before at h1 h2 ⊢
    omega

theorem advance_take_before (l : Location) {text : List Char} {i j : Nat} (hij : i < j)
    (hj : j ≤ text.length) : (l.advance (text.take i)).Before (l.advance (text.take j)) := by
  have hsplit : text.take j = text.take i ++ (text.take j).drop i := by
    have h := (List.take_append_drop i (text.take j)).symm
    rwa [List.take_take, Nat.min_eq_left (Nat.le_of_lt hij)] at h
  have hlen : 0 < ((text.take j).drop i).length := by
    rw [List.length_drop, List.length_take]
    omega
  cases hd : (text.take j).drop i with
  | nil => simp [hd] at hlen
  | cons c cs =>
    rw [hsplit, hd, advance_append]
    exact before_advance _ c cs

/-- A place of a text is the place of one offset only. -/
theorem advance_take_injective (l : Location) {text : List Char} {i j : Nat}
    (hi : i ≤ text.length) (hj : j ≤ text.length)
    (h : l.advance (text.take i) = l.advance (text.take j)) : i = j := by
  have hirrefl : ∀ m : Location, ¬ m.Before m := fun _ hm => hm.asymm hm
  rcases Nat.lt_trichotomy i j with hij | hij | hij
  · exact absurd (h ▸ advance_take_before l hij hj) (hirrefl _)
  · exact hij
  · exact absurd (h ▸ advance_take_before l hij hi) (hirrefl _)

end Location

namespace Reader

variable {reg : Registry} {before : List Char} {place start : Location} {s t : State} {e : Expr}
  {cur : Cursor} {u v gap own : List Char}

/-! ## Extents -/

/-- A form of a text, the place that is reported for it, and the cursor behind it. -/
structure Extent where
  form : Expr
  place : Location
  stop : Cursor

/-- The extents of the forms to come, up to the end of the text or the first fault. -/
def extents (reg : Registry) (cur : Cursor) : List Extent :=
  let r := read reg cur
  match h : r.found with
  | .form e start =>
    have : r.rest.after.length < cur.after.length := after_lt_of_read_form h
    ⟨e, start, r.rest⟩ :: extents reg r.rest
  | _ => []
termination_by cur.after.length

theorem extents_of_form (h : (read reg cur).found = .form e start) :
    extents reg cur = ⟨e, start, (read reg cur).rest⟩ :: extents reg (read reg cur).rest := by
  rw [extents]
  split
  · next h' => rw [h] at h'; cases h'; rfl
  · next h' => exact absurd h (h' e start)

theorem extents_of_ne_form (h : ∀ e start, (read reg cur).found ≠ .form e start) :
    extents reg cur = [] := by
  rw [extents]
  split
  · next e start h' => exact absurd h' (h e start)
  · rfl

/-- The extents are those of the forms that reading the whole text gives. -/
theorem forms_eq_extents (reg : Registry) (cur : Cursor) :
    (readForms reg cur).forms = (extents reg cur).map fun x => (x.form, x.place) := by
  cases h : (read reg cur).found with
  | form e start =>
    have hlt : (read reg cur).rest.after.length < cur.after.length := after_lt_of_read_form h
    rw [readForms_of_form h, extents_of_form h, List.map_cons, ← forms_eq_extents]
  | nothing =>
    rw [readForms_of_nothing h, extents_of_ne_form (by simp [h]), List.map_nil]
  | failure fault loc =>
    rw [readForms_of_failure h, extents_of_ne_form (by simp [h]), List.map_nil]
termination_by cur.after.length

/-! ## Gaps -/

/-- What was fed to a fresh state splits after its last fresh state: nothing of the text before
it belongs to a form, and the form in the making, if there is one, starts there. -/
theorem exists_gap (hs : s.Fresh) (h : feed reg place s u = some t) :
    ∃ gap own f, u = gap ++ own ∧ feed reg place s gap = some f ∧ f.Fresh ∧
      feed reg (place.advance gap) f own = some t ∧
      (t.Fresh ∨ own ≠ [] ∧ t.start = place.advance gap) := by
  induction u using List.reverseRecOn generalizing t with
  | nil => cases h; exact ⟨[], [], s, rfl, rfl, hs, rfl, .inl hs⟩
  | append_singleton u c ih =>
    obtain ⟨t₀, h₀, hc⟩ := feed_concat_cases h
    by_cases ht : t.Fresh
    · exact ⟨u ++ [c], [], t, by simp, h, ht, rfl, .inl ht⟩
    by_cases ht₀ : t₀.Fresh
    · have hstart : t.start = place.advance u := (start_of_step_fresh ht₀ hc).resolve_left ht
      refine ⟨u, [c], t₀, rfl, h₀, ht₀, ?_, .inr ⟨by simp, hstart⟩⟩
      rw [feed_cons hc, feed_nil]
    · obtain ⟨gap, own, f, rfl, hgap, hf, hown, hsplit⟩ := ih h₀
      obtain ⟨-, hstart⟩ := hsplit.resolve_left ht₀
      refine ⟨gap, own ++ [c], f, by simp, hgap, hf, ?_, .inr ⟨by simp, ?_⟩⟩
      · rw [feed_append hown, ← Location.advance_append, feed_cons hc, feed_nil]
      · rw [start_of_step ht₀ hc, hstart]

theorem relocated_alone (hs : s.Fresh) (cs : List Char) :
    Reading.Relocated place.within (read reg (.ofText (String.ofList cs)))
      (run reg before place s cs) := by
  have hr : Reading.Relocated place.within (run reg [] .start .idle cs)
      (run reg before (place.within .start) s cs) :=
    (relocated_of_fresh fresh_idle hs).run (Location.tracks_within place)
  simpa [read, runAt, Cursor.ofText] using hr

/-- A text between two fresh states holds no form. -/
theorem readAll_of_gap (hs : s.Fresh) (ht : t.Fresh) (h : feed reg place s u = some t) :
    readAll reg (String.ofList u) = .ok [] := by
  have hr : Reading.Relocated place.within (read reg (.ofText (String.ofList u)))
      (run reg [] place s u) := relocated_alone hs u
  have hfound := hr.found
  rw [run_of_feed h, finish_of_fresh ht] at hfound
  have hnothing : (read reg (.ofText (String.ofList u))).found = .nothing := by
    cases hf : (read reg (.ofText (String.ofList u))).found with
    | nothing => rfl
    | form e start => rw [hf] at hfound; cases hfound
    | failure fault loc => rw [hf] at hfound; cases hfound
  simp only [readAll, readForms_of_nothing hnothing, List.map_nil]

/-- The text, read by itself, is the form `e` to its last character. -/
def ReadsAlone (reg : Registry) (cs : List Char) (e : Expr) : Prop :=
  ∃ start, (read reg (.ofText (String.ofList cs))).found = .form e start ∧
    (read reg (.ofText (String.ofList cs))).rest.after = []

theorem readsAlone_of_run (hs : s.Fresh)
    (hfound : (run reg before place s own).found = .form e start)
    (hrest : (run reg before place s own).rest.after = []) : ReadsAlone reg own e := by
  have hr : Reading.Relocated place.within (read reg (.ofText (String.ofList own)))
      (run reg before place s own) := relocated_alone hs own
  have hf := hr.found
  rw [hfound] at hf
  cases hown : (read reg (.ofText (String.ofList own))).found with
  | form e' start' =>
    rw [hown] at hf
    cases hf
    exact ⟨start', hown, hr.after ▸ hrest⟩
  | nothing => rw [hown] at hf; cases hf
  | failure fault loc => rw [hown] at hf; cases hf

/-! ## One form -/

/-- What a reading that found a form took: a gap, and then the characters of the form. -/
theorem exists_extent (h : (read reg cur).found = .form e start) :
    ∃ gap own, cur.after = gap ++ own ++ (read reg cur).rest.after ∧
      (read reg cur).rest = ⟨(gap ++ own).reverse ++ cur.before, (read reg cur).rest.after,
        cur.loc.advance (gap ++ own)⟩ ∧
      own ≠ [] ∧ start = cur.loc.advance gap ∧ ReadsAlone reg own e ∧
      readAll reg (String.ofList gap) = .ok [] := by
  unfold read runAt at *
  rcases run_form_cases h with ⟨t, ht, hfin⟩ | ⟨u, c, v, t, taken, hcs, ht, hc, rfl⟩
  · -- the end of the text ended the form
    have ht' : ¬ t.Fresh := fun hfr => by rw [finish_of_fresh hfr] at hfin; cases hfin
    obtain ⟨gap, own, f, hu, hgap, hf, hown, hsplit⟩ := exists_gap fresh_idle ht
    obtain ⟨hne, hstart⟩ := hsplit.resolve_left ht'
    rw [run_of_feed ht]
    refine ⟨gap, own, by simp [hu], by simp [hu], hne, ?_, ?_, readAll_of_gap fresh_idle hf hgap⟩
    · rw [start_of_finish hfin, hstart]
    · have hrun : run reg [] (cur.loc.advance gap) f own = _ := run_of_feed hown
      rw [hu, Location.advance_append] at hfin
      exact readsAlone_of_run hf (by rw [hrun]; exact hfin) (by rw [hrun])
  · have ht' : ¬ t.Fresh := not_fresh_of_complete hc
    obtain ⟨gap, own, f, rfl, hgap, hf, hown, hsplit⟩ := exists_gap fresh_idle ht
    obtain ⟨hne, hstart⟩ := hsplit.resolve_left ht'
    have hquiet : readAll reg (String.ofList gap) = .ok [] := readAll_of_gap fresh_idle hf hgap
    rw [hcs, run_of_complete ht hc]
    rw [Location.advance_append] at hc
    cases taken with
    | true =>
      -- the last character belongs to the form
      have hrun : run reg [] (cur.loc.advance gap) f (own ++ c :: []) = _ :=
        run_of_complete hown hc
      refine ⟨gap, own ++ [c], by simp [stopped], by simp [stopped, Location.advance_append],
        by simp, hstart, ?_, hquiet⟩
      exact readsAlone_of_run hf (by rw [hrun]) (by rw [hrun]; rfl)
    | false =>
      -- the last character does not, so the end of the slice ends the form as well
      have hrun : run reg [] (cur.loc.advance gap) f own = _ := run_of_feed hown
      refine ⟨gap, own, by simp [stopped], by simp [stopped, Location.advance_append], hne,
        hstart, ?_, hquiet⟩
      exact readsAlone_of_run hf (by rw [hrun]; exact finish_of_complete hc) (by rw [hrun])

/-! ## All forms -/

/-- The characters of a text from the offset `i` up to the offset `j`. -/
def slice (text : List Char) (i j : Nat) : List Char := (text.take j).drop i

theorem slice_append (a b c : List Char) :
    slice (a ++ b ++ c) a.length (a.length + b.length) = b := by
  have htake : (a ++ b ++ c).take (a.length + b.length) = a ++ b := by
    rw [← List.length_append, List.take_left]
  rw [slice, htake, List.drop_left]

/-- Each extent starts behind the offset `last` and behind the extents before it, at the one
offset whose place is reported; its characters by themselves are its form to the last one, and
the characters between the extents are no form at all. -/
def OwnSlices (reg : Registry) (text : List Char) : Nat → List Extent → Prop
  | _, [] => True
  | last, x :: xs =>
    (∃ start, last ≤ start ∧ start < x.stop.pos ∧ x.stop.pos ≤ text.length ∧
      (∀ i ≤ text.length, Location.start.advance (text.take i) = x.place ↔ i = start) ∧
      ReadsAlone reg (slice text start x.stop.pos) x.form ∧
      readAll reg (String.ofList (slice text last start)) = .ok []) ∧
    OwnSlices reg text x.stop.pos xs

theorem ownSlices_of_placed {text : List Char} {cur : Cursor} (htext : cur.text = text)
    (hloc : cur.Placed) : OwnSlices reg text cur.pos (extents reg cur) := by
  cases h : (read reg cur).found with
  | nothing => rw [extents_of_ne_form (by simp [h])]; trivial
  | failure fault loc => rw [extents_of_ne_form (by simp [h])]; trivial
  | form e start =>
    have hlt : (read reg cur).rest.after.length < cur.after.length := after_lt_of_read_form h
    obtain ⟨gap, own, hafter, hrest, hne, hstart, halone, hquiet⟩ := exists_extent h
    have hsplit : text = cur.before.reverse ++ gap ++ own ++ (read reg cur).rest.after := by
      rw [← htext, Cursor.text, hafter]
      simp
    have hpos : (read reg cur).rest.pos = cur.pos + gap.length + own.length := by
      rw [hrest]
      simp only [Cursor.pos, List.length_append, List.length_reverse]
      omega
    have htotal : text.length
        = cur.pos + gap.length + own.length + (read reg cur).rest.after.length := by
      simp only [hsplit, Cursor.pos, List.length_append, List.length_reverse]
    have hlen : 0 < own.length := List.length_pos_iff.2 hne
    rw [extents_of_form h]
    refine ⟨⟨cur.pos + gap.length, ?_, ?_, ?_, ?_, ?_, ?_⟩, ?_⟩
    · omega
    · simp only [hpos]; omega
    · simp only [hpos]; omega
    · have htake : text.take (cur.pos + gap.length) = cur.before.reverse ++ gap := by
        have hp : cur.pos + gap.length = (cur.before.reverse ++ gap).length := by
          simp [Cursor.pos]
        rw [hsplit, List.append_assoc _ own, hp, List.take_left]
      have hplace : Location.start.advance (text.take (cur.pos + gap.length)) = start := by
        rw [htake, Location.advance_append, ← hloc, hstart]
      intro i hi
      rw [← hplace]
      constructor
      · exact Location.advance_take_injective Location.start hi (by omega)
      · rintro rfl
        rfl
    · have hs := slice_append (cur.before.reverse ++ gap) own (read reg cur).rest.after
      rw [← hsplit, List.length_append, List.length_reverse] at hs
      simp only [hpos]
      rw [Cursor.pos, hs]
      exact halone
    · have hs := slice_append cur.before.reverse gap (own ++ (read reg cur).rest.after)
      rw [← List.append_assoc, ← hsplit, List.length_reverse] at hs
      rw [Cursor.pos, hs]
      exact hquiet
    · refine ownSlices_of_placed ?_ ?_
      · rw [hrest, Cursor.text, hsplit]
        simp
      · rw [hrest, Cursor.Placed]
        simp only [List.reverse_append, List.reverse_reverse]
        rw [Location.advance_append Location.start, ← hloc]
termination_by cur.after.length

/-- Each form of a text owns exactly the slice from the offset whose place is reported for it to
the offset at which the reader stopped. -/
theorem ownSlices_extents (reg : Registry) (text : String) :
    OwnSlices reg text.toList 0 (extents reg (.ofText text)) ∧
      (readForms reg (.ofText text)).forms
        = (extents reg (.ofText text)).map fun x => (x.form, x.place) :=
  ⟨ownSlices_of_placed rfl (Cursor.placed_ofText text), forms_eq_extents reg _⟩

end Reader

end Sigil
