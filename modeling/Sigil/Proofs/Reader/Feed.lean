import Sigil.Reader.Basic

/-!
# Feeding a text to the reader

`feed` is the state that a text leads to when no reading ends inside it. A reading splits
where its text splits (`run_append`), and what it has read was fed to it, but perhaps for the last
character (`run_cases`).
-/

namespace Sigil.Reader

variable {reg : Registry} {before : List Char} {place : Location} {s t : State} {c : Char}
  {u v cs : List Char}

/-- The state after a text, when the reading goes on all the way. -/
def feed (reg : Registry) (place : Location) (s : State) : List Char → Option State
  | [] => some s
  | c :: cs =>
    match step reg place s c with
    | .more t => feed reg (place.step c) t cs
    | _ => none

@[simp] theorem feed_nil : feed reg place s [] = some s := rfl

theorem feed_cons (h : step reg place s c = .more t) :
    feed reg place s (c :: cs) = feed reg (place.step c) t cs := by
  simp only [feed, h]

theorem feed_append (h : feed reg place s u = some t) :
    feed reg place s (u ++ v) = feed reg (place.advance u) t v := by
  induction u generalizing place s with
  | nil => cases h; rfl
  | cons c u ih =>
    rw [feed] at h
    split at h
    · next s' hs =>
      rw [List.cons_append, feed_cons hs, ih h, Location.advance_cons]
    · cases h

theorem feed_concat_cases {t' : State} (h : feed reg place s (u ++ [c]) = some t') :
    ∃ t, feed reg place s u = some t ∧ step reg (place.advance u) t c = .more t' := by
  induction u generalizing place s with
  | nil =>
    rw [List.nil_append, feed] at h
    split at h
    · next s' hs => cases h; exact ⟨s, rfl, hs⟩
    · cases h
  | cons d u ih =>
    rw [List.cons_append, feed] at h
    split at h
    · next s' hs =>
      obtain ⟨t, ht, hc⟩ := ih h
      exact ⟨t, by rw [feed_cons hs, ht], hc⟩
    · cases h

/-! ## Readings -/

theorem run_cons (h : step reg place s c = .more t) :
    run reg before place s (c :: cs) = run reg (c :: before) (place.step c) t cs := by
  rw [run, h]

theorem run_append (h : feed reg place s u = some t) :
    run reg before place s (u ++ v)
      = run reg (u.reverse ++ before) (place.advance u) t v := by
  induction u generalizing before place s with
  | nil => cases h; rfl
  | cons c u ih =>
    rw [feed] at h
    split at h
    · next s' hs =>
      rw [List.cons_append, run_cons hs, ih h, Location.advance_cons, List.reverse_cons,
        List.append_assoc, List.singleton_append]
    · cases h

theorem run_of_feed (h : feed reg place s cs = some t) :
    run reg before place s cs = ⟨finish (place.advance cs) t,
      ⟨cs.reverse ++ before, [], place.advance cs⟩, t.dispatched.reverse⟩ := by
  have hr : run reg before place s (cs ++ []) = run reg _ _ t [] := run_append h
  rw [List.append_nil] at hr
  rw [hr, run]

theorem run_of_complete {e : Expr} {taken : Bool} (h : feed reg place s u = some t)
    (hc : step reg (place.advance u) t c = .complete e taken) :
    run reg before place s (u ++ c :: v) = ⟨.form e t.start,
      stopped (u.reverse ++ before) (place.advance u) c v taken, t.dispatched.reverse⟩ := by
  rw [run_append h, run, hc]

theorem run_of_fail {f : ReadFault} {loc : Location} {taken : Bool}
    (h : feed reg place s u = some t)
    (hc : step reg (place.advance u) t c = .fail f loc taken) :
    run reg before place s (u ++ c :: v) = ⟨.failure f loc,
      stopped (u.reverse ++ before) (place.advance u) c v taken, t.dispatched.reverse⟩ := by
  rw [run_append h, run, hc]

/-- A text is fed to its end, or up to a character with which the reading ends. -/
theorem feed_cases (reg : Registry) (place : Location) (s : State) (cs : List Char) :
    (∃ t, feed reg place s cs = some t) ∨
    ∃ u c v t, cs = u ++ c :: v ∧ feed reg place s u = some t ∧
      ∀ t', step reg (place.advance u) t c ≠ .more t' := by
  induction cs generalizing place s with
  | nil => exact .inl ⟨s, rfl⟩
  | cons c cs ih =>
    by_cases hs : ∃ t, step reg place s c = .more t
    · obtain ⟨t, hs⟩ := hs
      rcases ih (place.step c) t with ⟨t', ht⟩ | ⟨u, d, v, t', rfl, ht, hd⟩
      · exact .inl ⟨t', by rw [feed_cons hs, ht]⟩
      · refine .inr ⟨c :: u, d, v, t', rfl, ?_, hd⟩
        rw [feed_cons hs, ht]
    · exact .inr ⟨[], c, cs, s, rfl, rfl, fun t' ht => hs ⟨t', ht⟩⟩

/-- What a reading has read: a text that was fed, then the end of the text, or one character that
completed a form or was a fault. -/
theorem run_cases (reg : Registry) (before : List Char) (place : Location) (s : State)
    (cs : List Char) :
    (∃ t, feed reg place s cs = some t ∧
      (run reg before place s cs).found = finish (place.advance cs) t) ∨
    ∃ u c v t, cs = u ++ c :: v ∧ feed reg place s u = some t ∧
      ((∃ e taken, step reg (place.advance u) t c = .complete e taken ∧
          (run reg before place s cs).found = .form e t.start) ∨
        ∃ f loc taken, step reg (place.advance u) t c = .fail f loc taken ∧
          (run reg before place s cs).found = .failure f loc) := by
  rcases feed_cases reg place s cs with ⟨t, ht⟩ | ⟨u, c, v, t, rfl, ht, hc⟩
  · exact .inl ⟨t, ht, by rw [run_of_feed ht]⟩
  · refine .inr ⟨u, c, v, t, rfl, ht, ?_⟩
    cases hv : step reg (place.advance u) t c with
    | more t' => exact absurd hv (hc t')
    | complete e taken => exact .inl ⟨e, taken, rfl, by rw [run_of_complete ht hv]⟩
    | fail f loc taken => exact .inr ⟨f, loc, taken, rfl, by rw [run_of_fail ht hv]⟩

theorem run_form_cases {e : Expr} {start : Location}
    (h : (run reg before place s cs).found = .form e start) :
    (∃ t, feed reg place s cs = some t ∧ finish (place.advance cs) t = .form e start) ∨
    ∃ u c v t taken, cs = u ++ c :: v ∧ feed reg place s u = some t ∧
      step reg (place.advance u) t c = .complete e taken ∧ start = t.start := by
  rcases run_cases reg before place s cs with ⟨t, ht, hfound⟩ |
    ⟨u, c, v, t, hcs, ht, ⟨e', taken, hc, hfound⟩ | ⟨f, loc, taken, -, hfound⟩⟩
  · exact .inl ⟨t, ht, hfound.symm.trans h⟩
  · cases hfound.symm.trans h
    exact .inr ⟨u, c, v, t, taken, hcs, ht, hc, rfl⟩
  · cases hfound.symm.trans h

theorem run_nothing_cases (h : (run reg before place s cs).found = .nothing) :
    ∃ t, feed reg place s cs = some t ∧ finish (place.advance cs) t = .nothing := by
  rcases run_cases reg before place s cs with ⟨t, ht, hfound⟩ |
    ⟨u, c, v, t, -, -, ⟨e, taken, -, hfound⟩ | ⟨f, loc, taken, -, hfound⟩⟩
  · exact ⟨t, ht, hfound.symm.trans h⟩
  · cases hfound.symm.trans h
  · cases hfound.symm.trans h

theorem run_failure_cases {f : ReadFault} {loc : Location}
    (h : (run reg before place s cs).found = .failure f loc) :
    (∃ t, feed reg place s cs = some t ∧ finish (place.advance cs) t = .failure f loc) ∨
    ∃ u c v t taken, cs = u ++ c :: v ∧ feed reg place s u = some t ∧
      step reg (place.advance u) t c = .fail f loc taken := by
  rcases run_cases reg before place s cs with ⟨t, ht, hfound⟩ |
    ⟨u, c, v, t, hcs, ht, ⟨e, taken, -, hfound⟩ | ⟨f', loc', taken, hc, hfound⟩⟩
  · exact .inl ⟨t, ht, hfound.symm.trans h⟩
  · cases hfound.symm.trans h
  · cases hfound.symm.trans h
    exact .inr ⟨u, c, v, t, taken, hcs, ht, hc⟩

theorem exists_run_rest (reg : Registry) (before : List Char) (place : Location) (s : State)
    (cs : List Char) :
    ∃ u, cs = u ++ (run reg before place s cs).rest.after ∧
      (run reg before place s cs).rest
        = ⟨u.reverse ++ before, (run reg before place s cs).rest.after, place.advance u⟩ := by
  rcases feed_cases reg place s cs with ⟨t, ht⟩ | ⟨u, c, v, t, rfl, ht, hc⟩
  · exact ⟨cs, by simp [run_of_feed ht]⟩
  · have hstop : ∀ taken, ∃ w, u ++ c :: v
        = w ++ (stopped (u.reverse ++ before) (place.advance u) c v taken).after ∧
        stopped (u.reverse ++ before) (place.advance u) c v taken = ⟨w.reverse ++ before,
          (stopped (u.reverse ++ before) (place.advance u) c v taken).after,
          place.advance w⟩ := by
      intro taken
      cases taken with
      | false => exact ⟨u, by simp [stopped]⟩
      | true => exact ⟨u ++ [c], by simp [stopped, Location.advance_append]⟩
    cases hv : step reg (place.advance u) t c with
    | more t' => exact absurd hv (hc t')
    | complete e taken => rw [run_of_complete ht hv]; exact hstop taken
    | fail f loc taken => rw [run_of_fail ht hv]; exact hstop taken

theorem text_rest (reg : Registry) (cur : Cursor) : (read reg cur).rest.text = cur.text := by
  obtain ⟨u, hafter, hrest⟩ := exists_run_rest reg cur.before cur.loc .idle cur.after
  rw [read, runAt, hrest]
  simp only [Cursor.text, List.reverse_append, List.reverse_reverse, List.append_assoc]
  rw [← hafter]

theorem placed_rest {cur : Cursor} (h : cur.Placed) : (read reg cur).rest.Placed := by
  obtain ⟨u, -, hrest⟩ := exists_run_rest reg cur.before cur.loc .idle cur.after
  rw [read, runAt, hrest, Cursor.Placed]
  simp only [List.reverse_append, List.reverse_reverse]
  rw [Location.advance_append Location.start, ← h]

/-! ## All forms of a text -/

variable {cur : Cursor} {e : Expr} {start : Location} {f : ReadFault}

theorem readForms_of_form (h : (read reg cur).found = .form e start) :
    readForms reg cur = { readForms reg (read reg cur).rest with
      forms := (e, start) :: (readForms reg (read reg cur).rest).forms
      dispatched := (read reg cur).dispatched
        ++ (readForms reg (read reg cur).rest).dispatched } := by
  rw [readForms]
  split
  · next h' => rw [h] at h'; cases h'; rfl
  · next h' => rw [h] at h'; cases h'
  · next h' => rw [h] at h'; cases h'

theorem readForms_of_nothing (h : (read reg cur).found = .nothing) :
    readForms reg cur = ⟨[], none, (read reg cur).rest, (read reg cur).dispatched⟩ := by
  rw [readForms]
  split
  · next h' => rw [h] at h'; cases h'
  · rfl
  · next h' => rw [h] at h'; cases h'

theorem readForms_of_failure (h : (read reg cur).found = .failure f start) :
    readForms reg cur
      = ⟨[], some (f, start), (read reg cur).rest, (read reg cur).dispatched⟩ := by
  rw [readForms]
  split
  · next h' => rw [h] at h'; cases h'
  · next h' => rw [h] at h'; cases h'
  · next h' => rw [h] at h'; cases h'; rfl

theorem readAll_eq_ok_iff {text : String} {forms : List Expr} :
    readAll reg text = .ok forms ↔ (readForms reg (.ofText text)).fault = none ∧
      (readForms reg (.ofText text)).forms.map (·.1) = forms := by
  unfold readAll
  cases hf : (readForms reg (.ofText text)).fault <;> simp [hf]

theorem readAll_eq_error_iff {text : String} {f : ReadFault × Location} :
    readAll reg text = .error f ↔ (readForms reg (.ofText text)).fault = some f := by
  unfold readAll
  cases hf : (readForms reg (.ofText text)).fault <;> simp [hf]

theorem readAll_of_form {text : String}
    (h : (read reg (.ofText text)).found = .form e start)
    (hrest : (read reg (.ofText text)).rest.after = []) : readAll reg text = .ok [e] := by
  have hnothing : (read reg (read reg (.ofText text)).rest).found = .nothing := by
    unfold read at hrest ⊢
    rw [runAt, hrest]
    rfl
  rw [readAll_eq_ok_iff, readForms_of_form h, readForms_of_nothing hnothing]
  exact ⟨rfl, rfl⟩

theorem readAll_of_failure {text : String}
    (h : (read reg (.ofText text)).found = .failure f start) :
    readAll reg text = .error (f, start) := by
  rw [readAll_eq_error_iff, readForms_of_failure h]

end Sigil.Reader
