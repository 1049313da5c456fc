import Sigil.Proofs.Reader.Feed

/-!
# Between the forms of a text

A `Fresh` state stands before a form and outside every form. Blanks and comments lead from one
fresh state to the next; the first character of anything else fixes where the form starts, and
no later character moves that place (`start_of_step`). A form that ends before a character
ends there also when the text does (`finish_of_complete`). Both are read off the verdicts that
a character can have (`step_cases`).
-/

namespace Sigil.Reader

variable {reg : Registry} {place : Location} {s t : State} {c : Char} {e : Expr}
  {frames : List Frame} {taken : Bool}

/-- Before a form, outside every form. -/
structure State.Fresh (s : State) : Prop where
  mode : s.mode = .between
  frames : s.frames = []

theorem fresh_idle : State.idle.Fresh := ⟨rfl, rfl⟩

theorem finish_of_fresh (h : s.Fresh) : finish place s = .nothing := by
  rw [finish, h.mode, h.frames]
  rfl

theorem ne_nil_of_deliver {fs : List Frame} (h : deliver e fs = .resume frames) :
    frames ≠ [] := by
  induction fs generalizing e with
  | nil => cases h
  | cons f fs ih =>
    cases f with
    | delimited shape closer opened items => cases h; exact List.cons_ne_nil _ _
    | operand head => exact ih h
    | positional => exact ih h

/-- What holds of frames still does when a form has gone to them, unless it depends on the elements
of the frames. -/
theorem forall_of_deliver {p : Frame → Prop} {fs : List Frame}
    (hp : ∀ {shape closer opened items e}, p (.delimited shape closer opened items) →
      p (.delimited shape closer opened (e :: items)))
    (hfs : ∀ f ∈ fs, p f) (h : deliver e fs = .resume frames) : ∀ f ∈ frames, p f := by
  induction fs generalizing e with
  | nil => cases h
  | cons f fs ih =>
    rw [List.forall_mem_cons] at hfs
    cases f with
    | delimited shape closer opened items =>
      cases h
      exact List.forall_mem_cons.2 ⟨hp hfs.1, hfs.2⟩
    | operand head => exact ih hfs.2 h
    | positional => exact ih hfs.2 h

/-! ## What a trigger does to the start of a form -/

/-- A trigger opens something or is a fault; it neither completes a form nor moves the start. -/
theorem invoke_cases {kind : HandlerKind} {cue : Cue} {after : Location} :
    (∃ t, s.invoke kind cue place after = .more t ∧ t.start = s.start ∧ ¬ t.Fresh) ∨
      s.invoke kind cue place after = .fail (.strayCloser cue.trigger) place true := by
  cases kind with
  | listClose => exact .inr rfl
  | listOpen | quote | function | fixedMap | positionalLambda =>
    exact .inl ⟨_, rfl, rfl, fun h => nomatch h.frames⟩
  | string | lineComment | dispatch | blockComment | vector | map | rawString | pathAccess =>
    exact .inl ⟨_, rfl, rfl, fun h => nomatch h.mode⟩

theorem begin_cases :
    (∃ t, State.begin reg s place c = .more t ∧ t.start = s.start ∧ ¬ t.Fresh) ∨
      State.begin reg s place c = .fail (.strayCloser (.ofChar c)) place true := by
  unfold State.begin
  split
  · exact .inl ⟨_, rfl, rfl, fun h => nomatch h.mode⟩
  · exact invoke_cases

/-- Outside every form a blank changes nothing, and any other character starts a form. -/
theorem stepBetween_outside (hf : s.frames = []) :
    (∃ t, s.stepBetween reg place c = .more t ∧ (t.Fresh ∨ t.start = place)) ∨
      s.stepBetween reg place c = .fail (.strayCloser (.ofChar c)) place true := by
  simp only [State.stepBetween, hf]
  split
  · exact .inl ⟨_, rfl, .inl ⟨rfl, rfl⟩⟩
  · rcases @begin_cases reg place { s with start := place } c with ⟨t, ht, hst, -⟩ | h
    · rw [← hf]; exact .inl ⟨t, ht, .inr hst⟩
    · rw [← hf]; exact .inr h

theorem start_of_close (h : s.close e frames = .more t) : t.start = s.start := by
  unfold State.close at h
  split at h
  · cases h
  · cases h; rfl

/-- A character between forms reads on, closes the innermost form or is a fault. Only outside
every form does it move the start. -/
theorem stepBetween_cases :
    (∃ t, s.stepBetween reg place c = .more t ∧ (s.frames ≠ [] → t.start = s.start)) ∨
    (∃ e fs, s.stepBetween reg place c = s.close e fs) ∨
    ∃ fault loc, s.stepBetween reg place c = .fail fault loc true := by
  by_cases hf : s.frames = []
  · rcases @stepBetween_outside reg place s c hf with ⟨t, ht, -⟩ | hb
    · exact .inl ⟨t, ht, fun hne => absurd hf hne⟩
    · exact .inr (.inr ⟨_, _, hb⟩)
  have hbegin : (∃ t, State.begin reg s place c = .more t ∧ (s.frames ≠ [] → t.start = s.start)) ∨
      (∃ e fs, State.begin reg s place c = s.close e fs) ∨
      ∃ fault loc, State.begin reg s place c = .fail fault loc true := by
    rcases @begin_cases reg place s c with ⟨t, ht, hst, -⟩ | hb
    · exact .inl ⟨t, ht, fun _ => hst⟩
    · exact .inr (.inr ⟨_, _, hb⟩)
  unfold State.stepBetween
  split
  · exact .inl ⟨_, rfl, fun _ => rfl⟩
  · split
    · next hnil => exact absurd hnil hf
    · split
      · split
        · exact .inr (.inr ⟨_, _, rfl⟩)
        · exact .inr (.inl ⟨_, _, rfl⟩)
      · exact hbegin
    · exact hbegin

/-- Inside a form no character moves the start of the form. -/
theorem start_of_stepBetween (hf : s.frames ≠ []) (h : s.stepBetween reg place c = .more t) :
    t.start = s.start := by
  rcases @stepBetween_cases reg place s c with ⟨t', ht, hst⟩ | ⟨e, fs, hv⟩ | ⟨f, loc, hv⟩
  · rw [ht] at h; cases h; exact hst hf
  · rw [hv] at h; exact start_of_close h
  · rw [hv] at h; cases h

theorem start_of_endBefore {result : Except ReadFault Expr} {faultPlace : Location}
    (h : s.endBefore reg result faultPlace place c = .more t) : t.start = s.start := by
  unfold State.endBefore at h
  split at h
  · cases h
  · split at h
    · cases h
    · next frames hd => exact start_of_stepBetween (s := { s with frames }) (ne_nil_of_deliver hd) h

theorem start_of_invoke {kind : HandlerKind} {cue : Cue} {after : Location}
    (h : s.invoke kind cue place after = .more t) : t.start = s.start := by
  rcases @invoke_cases place s kind cue after with ⟨t', ht, hst, -⟩ | hb
  · rw [ht] at h; cases h; exact hst
  · rw [hb] at h; cases h

/-! ## Verdicts on a character -/

/-- The verdicts on a character: it is read between forms, ends a token or a path, ends a text,
starts what two characters are bound to, belongs to what is open, or is a fault. -/
inductive StepCases (reg : Registry) (place : Location) (s : State) (c : Char) : Verdict → Prop
  | between (hm : s.mode = .between) : StepCases reg place s c (s.stepBetween reg place c)
  | ended {result : Except ReadFault Expr} {faultPlace : Location}
      (hfin : finish place s = s.endAtEnd result faultPlace place) :
      StepCases reg place s c (s.endBefore reg result faultPlace place c)
  | closed (e : Expr) : StepCases reg place s c (s.close e s.frames)
  | invoked (kind : HandlerKind) (cue : Cue) (opened after : Location) :
      StepCases reg place s c (s.invoke kind cue opened after)
  | more {t : State} (hst : t.start = s.start) : StepCases reg place s c (.more t)
  | fail (fault : ReadFault) (loc : Location) : StepCases reg place s c (.fail fault loc true)

theorem step_cases (reg : Registry) (place : Location) (s : State) (c : Char) :
    StepCases reg place s c (step reg place s c) := by
  unfold step
  cases hm : s.mode with
  | between => exact .between hm
  | token chars =>
    have hfin : finish place s = s.endAtEnd (tokenExpr chars) place place := by rw [finish, hm]
    simp only
    split
    · exact .ended hfin
    · exact .more rfl
  | path trigger opened chars =>
    have hfin : finish place s = s.endAtEnd (pathExpr trigger chars) opened place := by
      rw [finish, hm]
    simp only
    split
    · exact .ended hfin
    · exact .more rfl
  | string opened chars escaped =>
    simp only
    split
    · exact .more rfl
    · split
      · exact .more rfl
      · split
        · exact .closed _
        · exact .more rfl
  | rawString opened chars slash =>
    simp only
    split
    · exact .closed _
    · exact .more rfl
  | lineComment => exact .more rfl
  | blockComment opened depth last =>
    simp only
    split
    · exact .more rfl
    · split
      · exact .more rfl
      · exact .more rfl
  | pair lead opened =>
    simp only
    split
    · exact .fail _ _
    · exact .fail _ _
    · exact .invoked _ _ _ _
  | opener shape trigger opened =>
    simp only
    split
    · exact .more rfl
    · exact .fail _ _

/-- The start of a form stays until the form is complete or turns out to be a comment. -/
theorem start_of_step (hs : ¬ s.Fresh) (h : step reg place s c = .more t) :
    t.start = s.start := by
  have hcases := step_cases reg place s c
  generalize step reg place s c = v at hcases h
  cases hcases with
  | between hm => exact start_of_stepBetween (fun hf => hs ⟨hm, hf⟩) h
  | ended => exact start_of_endBefore h
  | closed => exact start_of_close h
  | invoked => exact start_of_invoke h
  | more hst => cases h; exact hst
  | fail => cases h

theorem start_of_step_fresh (hs : s.Fresh) (h : step reg place s c = .more t) :
    t.Fresh ∨ t.start = place := by
  rw [step, hs.mode] at h
  rcases @stepBetween_outside reg place s c hs.frames with ⟨t', ht, hst⟩ | hb
  · rw [ht] at h; cases h; exact hst
  · rw [hb] at h; cases h

/-! ## Ends of forms -/

theorem not_fresh_of_complete (h : step reg place s c = .complete e taken) : ¬ s.Fresh := by
  intro hs
  rcases @step_between_outside reg place s c hs.mode hs.frames with ⟨t, ht⟩ | ⟨f, loc, hf⟩
  · rw [ht] at h; cases h
  · rw [hf] at h; cases h

theorem cutOff_ne_form {fs : List Frame} {start : Location} :
    cutOff place fs ≠ .form e start := by
  cases fs with
  | nil => simp [cutOff]
  | cons f fs => cases f <;> simp [cutOff]

theorem eq_nil_of_cutOff {fs : List Frame} (h : cutOff place fs = .nothing) : fs = [] := by
  cases fs with
  | nil => rfl
  | cons f fs => cases f <;> simp [cutOff] at h

theorem start_of_endAtEnd {result : Except ReadFault Expr} {faultPlace start : Location}
    (h : s.endAtEnd result faultPlace place = .form e start) : start = s.start := by
  cases result with
  | error fault => cases h
  | ok a =>
    simp only [State.endAtEnd] at h
    split at h
    · cases h; rfl
    · exact absurd h cutOff_ne_form

theorem start_of_finish {start : Location} (h : finish place s = .form e start) :
    start = s.start := by
  unfold finish at h
  split at h
  · exact absurd h cutOff_ne_form
  · exact absurd h cutOff_ne_form
  · exact start_of_endAtEnd h
  · exact start_of_endAtEnd h
  all_goals cases h

theorem taken_of_close {e' : Expr} (h : s.close e frames = .complete e' taken) : taken = true := by
  unfold State.close at h
  split at h
  · cases h; rfl
  · cases h

theorem taken_of_stepBetween (h : s.stepBetween reg place c = .complete e taken) :
    taken = true := by
  rcases @stepBetween_cases reg place s c with ⟨t, ht, -⟩ | ⟨e', fs, hv⟩ | ⟨f, loc, hv⟩
  · rw [ht] at h; cases h
  · rw [hv] at h; exact taken_of_close h
  · rw [hv] at h; cases h

theorem invoke_ne_complete {kind : HandlerKind} {cue : Cue} {after : Location} :
    s.invoke kind cue place after ≠ .complete e taken := by
  intro h
  rcases @invoke_cases place s kind cue after with ⟨t, ht, -⟩ | hb
  · rw [ht] at h; cases h
  · rw [hb] at h; cases h

/-- A token or a path that ends before a character ends there also when the text does. -/
theorem endAtEnd_of_endBefore {result : Except ReadFault Expr} {faultPlace : Location}
    (h : s.endBefore reg result faultPlace place c = .complete e false) :
    s.endAtEnd result faultPlace place = .form e s.start := by
  cases result with
  | error f => cases h
  | ok a =>
    simp only [State.endBefore, State.endAtEnd] at h ⊢
    split at h
    · cases h; rfl
    · exact absurd (taken_of_stepBetween h) Bool.false_ne_true

/-- A form that ends before a character ends there also when the text does. -/
theorem finish_of_complete (h : step reg place s c = .complete e false) :
    finish place s = .form e s.start := by
  have hcases := step_cases reg place s c
  generalize step reg place s c = v at hcases h
  cases hcases with
  | between => exact absurd (taken_of_stepBetween h) Bool.false_ne_true
  | ended hfin => rw [hfin]; exact endAtEnd_of_endBefore h
  | closed => exact absurd (taken_of_close h) Bool.false_ne_true
  | invoked => exact absurd h invoke_ne_complete
  | more => cases h
  | fail => cases h

end Sigil.Reader
