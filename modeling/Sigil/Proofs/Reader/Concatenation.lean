import Sigil.Proofs.Reader.Relocation

/-!
# Reading two texts one after the other

A line feed after a text that can be read ends what the end of the text would have ended, and
leaves the reader in a fresh state. So the forms of two such texts with a line feed between
them are those of the first text and then those of the second, and a fault of the second text
is reported as many lines further down as stand before it (`readAll_append_newline`).
-/

namespace Sigil

/-- A fault of a text that ends inside a list, a comment or a string. -/
def ReadFault.Open : ReadFault → Prop
  | openList _ | openComment | openString | openRawString => True
  | _ => False

namespace Reader

variable {reg : Registry} {place start : Location} {s : State} {e : Expr} {cur : Cursor}
  {b : List Char}

/-! ## A line feed in place of the end -/

theorem endsToken_newline (reg : Registry) : endsToken reg '\n' = true := rfl

/-- A mode that a line feed can lead to. -/
def Mode.AtLineStart : Mode → Prop
  | .between => True
  | .string _ _ escaped => escaped = false
  | .rawString _ _ slash => slash = false
  | .blockComment _ _ last => last = none
  | _ => False

/-- The end of a text and a line feed there, in each state: between two forms, in a token or a path,
in a string or a comment, after a dispatching character, and where a literal needs its list. -/
inductive LineCases (reg : Registry) (place : Location) (s : State) : Prop
  | between (hfin : finish place s = cutOff place s.frames)
      (hstep : step reg place s '\n' = .more { s with mode := .between })
  | ended {result : Except ReadFault Expr} {faultPlace : Location}
      (hresult : (∃ chars, result = tokenExpr chars) ∨
        ∃ trigger chars, result = pathExpr trigger chars)
      (hfin : finish place s = s.endAtEnd result faultPlace place)
      (hstep : step reg place s '\n' = s.endBefore reg result faultPlace place '\n')
  | inside {f : ReadFault} {loc : Location} {t : State} (hf : f.Open)
      (hfin : finish place s = .failure f loc) (hstep : step reg place s '\n' = .more t)
      (hmode : t.mode.AtLineStart)
  | lead (lead : Char) {loc : Location} (hfin : finish place s = .failure (.endAfterLead lead) loc)
  | opener (trigger : Trigger) (hfin : finish place s = .failure (.missingList trigger none) place)
      (hstep : step reg place s '\n' = .fail (.missingList trigger (some '\n')) place true)

theorem line_cases (reg : Registry) (place : Location) (s : State) : LineCases reg place s := by
  cases hm : s.mode with
  | between | lineComment =>
    exact .between (by rw [finish, hm]) (by simp only [step, hm]; rfl)
  | token chars =>
    refine .ended (.inl ⟨chars, rfl⟩) (by rw [finish, hm]) ?_
    simp only [step, hm, endsToken_newline, if_true]
  | path trigger opened chars =>
    refine .ended (.inr ⟨trigger, chars, rfl⟩) (by rw [finish, hm]) ?_
    simp only [step, hm, endsToken_newline, Bool.true_or, if_true]
  | string opened chars escaped =>
    refine @LineCases.inside reg place s .openString opened
      { s with mode := .string opened ('\n' :: chars) false } trivial (by rw [finish, hm]) ?_ rfl
    rw [step, hm]
    cases escaped <;> rfl
  | rawString opened chars slash =>
    refine @LineCases.inside reg place s .openRawString opened
      { s with mode := .rawString opened ('\n' :: chars) false } trivial (by rw [finish, hm]) ?_ rfl
    rw [step, hm]
    cases slash <;> rfl
  | blockComment opened depth last =>
    refine @LineCases.inside reg place s .openComment opened
      { s with mode := .blockComment opened depth none } trivial (by rw [finish, hm]) ?_ rfl
    simp [step, hm, delimiterStart]
  | pair lead opened => exact .lead lead (by rw [finish, hm])
  | opener shape trigger opened =>
    exact .opener trigger (by rw [finish, hm]) (by simp only [step, hm]; rfl)

theorem endBefore_of_endAtEnd {result : Except ReadFault Expr} {faultPlace : Location} {c : Char}
    (h : s.endAtEnd result faultPlace place = .form e start) :
    s.endBefore reg result faultPlace place c = .complete e false := by
  cases result with
  | error fault => cases h
  | ok a =>
    simp only [State.endAtEnd, State.endBefore] at h ⊢
    split at h
    · cases h; rfl
    · exact absurd h cutOff_ne_form

/-- A line feed after a text ends the form that the end of the text would have ended. -/
theorem step_newline_of_form (h : finish place s = .form e start) :
    step reg place s '\n' = .complete e false := by
  cases line_cases reg place s with
  | between hfin => exact absurd (hfin ▸ h) cutOff_ne_form
  | ended _ hfin hstep => rw [hstep, endBefore_of_endAtEnd (hfin ▸ h)]
  | inside _ hfin | lead _ hfin | opener _ hfin => rw [hfin] at h; cases h

theorem endAtEnd_ne_nothing {result : Except ReadFault Expr} {faultPlace : Location} :
    s.endAtEnd result faultPlace place ≠ .nothing := by
  intro h
  cases result with
  | error fault => cases h
  | ok a =>
    simp only [State.endAtEnd] at h
    split at h
    · cases h
    · next hd => exact ne_nil_of_deliver hd (eq_nil_of_cutOff h)

/-- A line feed after a text without a form leads to a fresh state. -/
theorem step_newline_of_nothing (h : finish place s = .nothing) :
    ∃ t, step reg place s '\n' = .more t ∧ t.Fresh := by
  cases line_cases reg place s with
  | between hfin hstep => exact ⟨_, hstep, rfl, eq_nil_of_cutOff (hfin ▸ h)⟩
  | ended _ hfin => exact absurd (hfin ▸ h) endAtEnd_ne_nothing
  | inside _ hfin | lead _ hfin | opener _ hfin => rw [hfin] at h; cases h

/-! ## Readings of an extended text -/

/-- The cursor with more text behind what is still to come. -/
def extend (cur : Cursor) (cs : List Char) : Cursor := { cur with after := cur.after ++ cs }

theorem ofText_append_newline (a b : String) :
    Cursor.ofText (a ++ "\n" ++ b) = extend (.ofText a) ('\n' :: b.toList) := by
  simp [Cursor.ofText, extend]

/-- The cursor behind all that is still to come and one line feed, before the text `cs`. -/
def nextLine (cur : Cursor) (cs : List Char) : Cursor :=
  ⟨'\n' :: (cur.after.reverse ++ cur.before), cs, (cur.loc.advance cur.after).step '\n'⟩

/-- What follows a form in the next line has no part in reading the form. -/
theorem read_extend_of_form (h : (read reg cur).found = .form e start) :
    (read reg (extend cur ('\n' :: b))).found = .form e start ∧
      (read reg (extend cur ('\n' :: b))).rest
        = extend (read reg cur).rest ('\n' :: b) := by
  unfold read runAt extend at *
  rcases run_form_cases h with ⟨t, ht, hfin⟩ | ⟨u, c, v, t, taken, hcs, ht, hc, rfl⟩
  · have hnl : step reg (cur.loc.advance cur.after) t '\n' = .complete e false :=
      step_newline_of_form hfin
    rw [run_of_complete ht hnl, run_of_feed ht]
    exact ⟨by rw [start_of_finish hfin], by simp [stopped]⟩
  · rw [hcs, List.append_assoc, List.cons_append, run_of_complete ht hc, run_of_complete ht hc]
    cases taken <;> exact ⟨rfl, rfl⟩

theorem read_extend_of_nothing (h : (read reg cur).found = .nothing) :
    Reading.Relocated id (read reg (nextLine cur b)) (read reg (extend cur ('\n' :: b))) := by
  unfold read runAt at *
  obtain ⟨t, ht, hfin⟩ := run_nothing_cases h
  obtain ⟨t', hstep, hfresh⟩ := step_newline_of_nothing hfin
  rw [extend, run_append ht, run_cons hstep]
  exact (relocated_of_fresh fresh_idle hfresh).run fun _ => rfl

/-- The line after a form's text is the line after the whole text. -/
theorem nextLine_rest : nextLine (read reg cur).rest b = nextLine cur b := by
  obtain ⟨u, hcs, hrest⟩ := exists_run_rest reg cur.before cur.loc .idle cur.after
  have hcs : cur.after = u ++ (read reg cur).rest.after := hcs
  have hrest : (read reg cur).rest
      = ⟨u.reverse ++ cur.before, (read reg cur).rest.after, cur.loc.advance u⟩ := hrest
  unfold nextLine
  rw [hrest, hcs]
  simp [Location.advance_append]

/-- The forms of two texts with a line feed between them. -/
theorem readForms_extend {cur : Cursor} (h : (readForms reg cur).fault = none) :
    (readForms reg (extend cur ('\n' :: b))).forms
        = (readForms reg cur).forms ++ (readForms reg (nextLine cur b)).forms ∧
      (readForms reg (extend cur ('\n' :: b))).fault
        = (readForms reg (nextLine cur b)).fault := by
  cases hf : (read reg cur).found with
  | form e start =>
    have hlt : (read reg cur).rest.after.length < cur.after.length := after_lt_of_read_form hf
    obtain ⟨hf', hrest⟩ := read_extend_of_form (b := b) hf
    have hrestFault : (readForms reg (read reg cur).rest).fault = none := by
      rw [readForms_of_form hf] at h
      exact h
    have ih := readForms_extend hrestFault
    rw [nextLine_rest] at ih
    rw [readForms_of_form hf, readForms_of_form hf', hrest]
    exact ⟨by simp [ih.1], ih.2⟩
  | nothing =>
    have hnext := (read_extend_of_nothing (b := b) hf).readForms fun _ => rfl
    rw [readForms_of_nothing hf]
    simpa using hnext
  | failure fault loc =>
    rw [readForms_of_failure hf] at h
    cases h
termination_by cur.after.length

/-! ## All forms of two texts -/

theorem nextLine_loc (cs : List Char) :
    (Location.start.advance cs).step '\n' = Location.start.down (cs.count '\n' + 1) := by
  have hline := Location.advance_line Location.start cs
  simp only [Location.step, if_true, Location.down, hline]
  rfl

/-- When the text `a` can be read, the forms of `a`, a line feed and `b` are the forms of `a`
followed by those of `b`; a fault of `b` stays the same and is found as many lines further
down as `a` and the line feed take. -/
theorem readAll_append_newline {a b : String} {forms : List Expr}
    (h : readAll reg a = .ok forms) :
    readAll reg (a ++ "\n" ++ b) = match readAll reg b with
      | .ok others => .ok (forms ++ others)
      | .error (fault, place) =>
        .error (fault, ⟨place.line + 1 + a.toList.count '\n', place.col⟩) := by
  have hcur : Cursor.ofText (a ++ "\n" ++ b) = extend (.ofText a) ('\n' :: b.toList) := by
    simp [Cursor.ofText, extend]
  -- the second text is read from the line after the first one
  have hb : (readForms reg (nextLine (.ofText a) b.toList)).forms
        = (readForms reg (.ofText b)).forms.map (Prod.map id (.down (a.toList.count '\n' + 1))) ∧
      (readForms reg (nextLine (.ofText a) b.toList)).fault
        = (readForms reg (.ofText b)).fault.map (Prod.map id (.down (a.toList.count '\n' + 1))) :=
    relocated_readForms (Location.tracks_down _ Location.start) rfl (nextLine_loc a.toList)
  unfold readAll at h ⊢
  cases hfa : (readForms reg (.ofText a)).fault with
  | some f => simp [hfa] at h
  | none =>
    simp only [hfa, Except.ok.injEq] at h
    obtain ⟨hforms, hfault⟩ := readForms_extend (b := b.toList) hfa
    rw [hcur]
    simp only [hforms, hfault, hb.1, hb.2]
    cases hfb : (readForms reg (.ofText b)).fault with
    | none => simp [← h]
    | some f =>
      obtain ⟨fault, loc⟩ := f
      simp only [Option.map_some, Prod.map_apply, id_eq, Location.down, Except.error.injEq,
        Prod.mk.injEq, Location.mk.injEq, true_and, and_true]
      omega

/-- A closing parenthesis without its list, behind a text that ends in a comment. -/
theorem readAll_append_newline_stray :
    readAll .standard ("(f x) ; c" ++ "\n" ++ "y\n )")
      = .error (.strayCloser (.ofChar ')'), ⟨3, 2⟩) := by
  have ha : readAll .standard "(f x) ; c"
      = .ok [.list [.sym "f" .written, .sym "x" .written]] := by cbv
  have hb : readAll .standard "y\n )" = .error (.strayCloser (.ofChar ')'), ⟨2, 2⟩) := by cbv
  rw [readAll_append_newline ha, hb]
  rfl

end Reader

end Sigil
