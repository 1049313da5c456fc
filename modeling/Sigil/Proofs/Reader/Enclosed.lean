import Sigil.Proofs.Reader.Concatenation

/-!
# Reading a text between two delimiters

Inside a delimited form the reader does what it does outside every form: the frame of the form
lies under those that the text opens, and no step reads it, until a form is complete and becomes
its next element (`Enclosed.step`). Only the closer of that frame tells the two apart. So the
forms of a text are the elements of the text between delimiters, and a fault at a character that
does not close the frame is found there too (`runAt_inside`, `runAt_inside_of_fault`).
-/

namespace Sigil

/-- A fault of what stands in a text, which the end of the text has no part in. -/
def ReadFault.Standing (f : ReadFault) : Prop :=
  f.category? ∈ [some .unmatchedClose, some .unknownDispatch, some .invalidPath,
    some .invalidIndex]

instance (f : ReadFault) : Decidable f.Standing :=
  inferInstanceAs (Decidable (f.category? ∈ _))

/-- A fault for want of more text. -/
def ReadFault.Wanting (f : ReadFault) : Prop :=
  f.category? ∈ [some .unterminatedList, some .unterminatedString, some .unexpectedEnd]

theorem ReadFault.wanting_of_open {f : ReadFault} (hf : f.Open) : f.Wanting := by
  cases f <;> first | exact hf.elim | simp [Wanting, category?]

namespace Reader

/-- A frame that is open around a text. Its closer is one character. -/
structure Outer where
  shape : Shape
  closer : Char
  opened : Location

def Outer.frame (o : Outer) (items : List Expr) : Frame :=
  .delimited o.shape [o.closer] o.opened items

/-- `t` is `s` with the frame `outer` under its frames. -/
structure Enclosed (outer : Frame) (s t : State) : Prop where
  mode : t.mode = s.mode
  frames : t.frames = s.frames ++ [outer]

/-- Before the next element of the frame `outer`, which is the only one. -/
structure State.Inside (outer : Frame) (t : State) : Prop where
  mode : t.mode = .between
  frames : t.frames = [outer]

/-- The verdicts on the character `c` at `place` outside every form and inside the frame `o`
with the elements `items`, in the state `inner`. A form that is complete outside is an element
inside, and what it did not take is read after it. The closer of the frame is a fault outside;
nothing is said of what it does inside. -/
inductive Verdict.Enclosed (reg : Registry) (o : Outer) (items : List Expr) (place : Location)
    (c : Char) (inner : State) : Verdict → Verdict → Prop
  | more {s t : State} (h : Reader.Enclosed (o.frame items) s t) :
      Enclosed reg o items place c inner (.more s) (.more t)
  | taken {t : State} (e : Expr) (h : t.Inside (o.frame (e :: items))) :
      Enclosed reg o items place c inner (.complete e true) (.more t)
  | kept (e : Expr) :
      Enclosed reg o items place c inner (.complete e false)
        (State.stepBetween reg { inner with frames := [o.frame (e :: items)] } place c)
  | fail (fault : ReadFault) (loc : Location) (taken : Bool) :
      Enclosed reg o items place c inner (.fail fault loc taken) (.fail fault loc taken)
  | closer (loc : Location) (v : Verdict) :
      Enclosed reg o items place c inner (.fail (.strayCloser (.ofChar o.closer)) loc true) v

variable {reg : Registry} {place : Location} {o : Outer} {items : List Expr}
  {s t inner : State} {c : Char} {cur : Cursor} {v : List Char}

/-! ## Steps above a frame -/

/-- A form that no frame of the text takes goes to the frame around the text. -/
theorem deliver_enclosed (e : Expr) (fs : List Frame) :
    deliver e (fs ++ [o.frame items]) = match deliver e fs with
      | .complete e => .resume [o.frame (e :: items)]
      | .resume frames => .resume (frames ++ [o.frame items]) := by
  induction fs generalizing e with
  | nil => rfl
  | cons f fs ih =>
    cases f with
    | delimited shape closer opened elements => rfl
    | operand head => exact ih _
    | positional => exact ih _

theorem enclosed_close {e : Expr} {fs : List Frame} :
    Verdict.Enclosed reg o items place c inner (s.close e fs)
      (t.close e (fs ++ [o.frame items])) := by
  unfold State.close
  rw [deliver_enclosed]
  cases deliver e fs with
  | complete e => exact .taken e ⟨rfl, rfl⟩
  | resume frames => exact .more ⟨rfl, rfl⟩

theorem enclosed_invoke (kind : HandlerKind) (cue : Cue) (opened after : Location)
    (hf : t.frames = s.frames ++ [o.frame items]) :
    Verdict.Enclosed reg o items place c inner (s.invoke kind cue opened after)
      (t.invoke kind cue opened after) := by
  cases kind with
  | listClose => exact .fail _ _ _
  | listOpen | quote | function | fixedMap | positionalLambda =>
    exact .more ⟨rfl, congrArg _ hf⟩
  | string | lineComment | dispatch | blockComment | vector | map | rawString | pathAccess =>
    exact .more ⟨rfl, hf⟩

theorem enclosed_begin (hf : t.frames = s.frames ++ [o.frame items]) :
    Verdict.Enclosed reg o items place c inner (State.begin reg s place c)
      (State.begin reg t place c) := by
  unfold State.begin
  split
  · exact .more ⟨rfl, hf⟩
  · exact enclosed_invoke _ _ _ _ hf

theorem begin_closer (h : reg.kindOf? (.char c) = some .listClose) :
    State.begin reg s place c = .fail (.strayCloser (.ofChar c)) place true := by
  unfold State.begin
  rw [h]
  rfl

theorem enclosed_stepBetween (hc : reg.kindOf? (.char o.closer) = some .listClose)
    (hf : t.frames = s.frames ++ [o.frame items]) :
    Verdict.Enclosed reg o items place c inner (s.stepBetween reg place c)
      (t.stepBetween reg place c) := by
  unfold State.stepBetween
  rw [hf]
  split
  · exact .more ⟨rfl, rfl⟩
  · cases hs : s.frames with
    | nil =>
      simp only [List.nil_append, Outer.frame]
      by_cases hcloser : o.closer = c
      · rw [begin_closer (hcloser ▸ hc), ← hcloser]
        exact .closer _ _
      · rw [if_neg (by simpa using hcloser)]
        exact enclosed_begin (by rw [hf, hs])
    | cons f fs =>
      have hb : Verdict.Enclosed reg o items place c inner (State.begin reg s place c)
          (State.begin reg t place c) := enclosed_begin hf
      cases f with
      | delimited shape closer opened elements =>
        simp only [List.cons_append]
        split
        · cases shape.build elements.reverse with
          | error fault => exact .fail _ _ _
          | ok e => exact enclosed_close
        · exact hb
      | operand head => exact hb
      | positional => exact hb

theorem enclosed_endBefore (hc : reg.kindOf? (.char o.closer) = some .listClose)
    (result : Except ReadFault Expr) (faultPlace : Location)
    (hf : t.frames = s.frames ++ [o.frame items]) :
    Verdict.Enclosed reg o items place c t (s.endBefore reg result faultPlace place c)
      (t.endBefore reg result faultPlace place c) := by
  cases result with
  | error fault => exact .fail _ _ _
  | ok e =>
    simp only [State.endBefore]
    rw [hf, deliver_enclosed]
    cases deliver e s.frames with
    | complete e => exact .kept e
    | resume frames => exact enclosed_stepBetween (s := { s with frames }) hc rfl

/-- One character leads a state and the same state inside a frame to verdicts that agree. -/
theorem Enclosed.step (h : Enclosed (o.frame items) s t)
    (hc : reg.kindOf? (.char o.closer) = some .listClose) (place : Location) (c : Char) :
    Verdict.Enclosed reg o items place c t (step reg place s c) (Reader.step reg place t c) := by
  unfold Reader.step
  rw [h.mode]
  cases s.mode with
  | between => exact enclosed_stepBetween hc h.frames
  | token chars =>
    simp only
    split
    · exact enclosed_endBefore hc _ _ h.frames
    · exact .more ⟨rfl, h.frames⟩
  | path trigger opened chars =>
    simp only
    split
    · exact enclosed_endBefore hc _ _ h.frames
    · exact .more ⟨rfl, h.frames⟩
  | string opened chars escaped =>
    simp only
    split
    · exact .more ⟨rfl, h.frames⟩
    · split
      · exact .more ⟨rfl, h.frames⟩
      · split
        · rw [h.frames]; exact enclosed_close
        · exact .more ⟨rfl, h.frames⟩
  | rawString opened chars slash =>
    simp only
    split
    · rw [h.frames]; exact enclosed_close
    · exact .more ⟨rfl, h.frames⟩
  | lineComment => exact .more ⟨rfl, h.frames⟩
  | blockComment opened depth last =>
    simp only
    split
    · exact .more ⟨rfl, h.frames⟩
    · split
      · exact .more ⟨rfl, h.frames⟩
      · exact .more ⟨rfl, h.frames⟩
  | pair lead opened =>
    simp only
    split
    · exact .fail _ _ _
    · exact .fail _ _ _
    · exact enclosed_invoke _ _ _ _ h.frames
  | opener shape trigger opened =>
    simp only
    split
    · exact .more ⟨rfl, congrArg _ h.frames⟩
    · exact .fail _ _ _

/-! ## Texts above a frame -/

theorem enclosed_of_fresh (hs : s.Fresh) (ht : t.Inside (o.frame items)) :
    Enclosed (o.frame items) s t where
  mode := by rw [ht.mode, hs.mode]
  frames := by rw [ht.frames, hs.frames]; rfl

/-- A text that is fed outside every form is fed inside the frame. -/
theorem Enclosed.feed {s' : State} {u : List Char} (h : Enclosed (o.frame items) s t)
    (hc : reg.kindOf? (.char o.closer) = some .listClose) (hs : feed reg place s u = some s') :
    ∃ t', Reader.feed reg place t u = some t' ∧ Enclosed (o.frame items) s' t' := by
  induction u generalizing place s t with
  | nil => cases hs; exact ⟨t, rfl, h⟩
  | cons c u ih =>
    rw [Reader.feed] at hs
    split at hs
    · next s₁ hstep =>
      have hv := h.step hc place c
      rw [hstep] at hv
      generalize ht : Reader.step reg place t c = w at hv
      cases hv with
      | more h₁ =>
        obtain ⟨t', hfeed, h'⟩ := ih h₁ hs
        exact ⟨t', by rw [feed_cons ht, hfeed], h'⟩
    · cases hs

/-! ## Forms above a frame -/

theorem begin_between (reg : Registry) (t : State) (place : Location) (c : Char) :
    State.begin reg { t with mode := .between } place c = State.begin reg t place c := by
  unfold State.begin
  split
  · rfl
  · next kind _ => cases kind <;> rfl

/-- A character between forms does the same whatever mode has led to it. -/
theorem stepBetween_between (reg : Registry) (t : State) (place : Location) (c : Char) :
    State.stepBetween reg { t with mode := .between } place c = t.stepBetween reg place c := by
  obtain ⟨mode, frames, start, dispatched⟩ := t
  have hbegin := begin_between reg ⟨mode, frames, start, dispatched⟩ place c
  unfold State.stepBetween
  split
  · rfl
  · cases frames with
    | nil => exact begin_between reg ⟨mode, [], place, dispatched⟩ place c
    | cons f fs =>
      cases f with
      | delimited shape closer opened elements =>
        simp only
        split
        · rfl
        · exact hbegin
      | operand head => exact hbegin
      | positional => exact hbegin

/-- A form that ends before a character is the next element, and the character is read after
it. -/
theorem Enclosed.kept {e : Expr} {cs before : List Char} (h : Enclosed (o.frame items) s t)
    (hc : reg.kindOf? (.char o.closer) = some .listClose)
    (hs : Reader.step reg place s c = .complete e false) :
    ∃ t', t'.Inside (o.frame (e :: items)) ∧
      run reg before place t (c :: cs) = run reg before place t' (c :: cs) := by
  have hv := h.step hc place c
  rw [hs] at hv
  generalize ht : Reader.step reg place t c = w at hv
  cases hv with
  | kept =>
    let t' : State := { t with mode := .between, frames := [o.frame (e :: items)] }
    have ht' : Reader.step reg place t' c = Reader.step reg place t c := by
      rw [ht]
      exact stepBetween_between reg { t with frames := [o.frame (e :: items)] } place c
    refine ⟨t', ⟨rfl, rfl⟩, ?_⟩
    rw [run, run, ht']

/-- A form that ends with a character is the next element. -/
theorem Enclosed.taken {e : Expr} (h : Enclosed (o.frame items) s t)
    (hc : reg.kindOf? (.char o.closer) = some .listClose)
    (hs : Reader.step reg place s c = .complete e true) :
    ∃ t', t'.Inside (o.frame (e :: items)) ∧ Reader.step reg place t c = .more t' := by
  have hv := h.step hc place c
  rw [hs] at hv
  generalize Reader.step reg place t c = w at hv
  cases hv with
  | @taken t' _ ht => exact ⟨t', ht, rfl⟩

/-- The next form of a text with a line feed behind it is the next element. -/
theorem runAt_inside_of_form {e : Expr} {start : Location}
    (hc : reg.kindOf? (.char o.closer) = some .listClose) (ht : t.Inside (o.frame items))
    (h : (read reg cur).found = .form e start) :
    ∃ t', t'.Inside (o.frame (e :: items)) ∧
      runAt reg t (extend cur ('\n' :: v))
        = runAt reg t' (extend (read reg cur).rest ('\n' :: v)) := by
  have henc : Enclosed (o.frame items) .idle t := enclosed_of_fresh fresh_idle ht
  unfold read runAt extend at *
  rcases run_form_cases h with ⟨s, hs, hfin⟩ | ⟨u, c, w, s, taken, hcs, hs, hstep, -⟩
  · -- the line feed ends what the end of the text ended
    obtain ⟨t₁, hfeed, h₁⟩ := henc.feed hc hs
    obtain ⟨t', ht', hrun⟩ := h₁.kept hc (step_newline_of_form hfin)
    refine ⟨t', ht', ?_⟩
    rw [run_of_feed hs, run_append hfeed, hrun]
    rfl
  · obtain ⟨t₁, hfeed, h₁⟩ := henc.feed hc hs
    rw [hcs, run_of_complete hs hstep, List.append_assoc, List.cons_append]
    cases taken with
    | true =>
      obtain ⟨t', ht', hstep'⟩ := h₁.taken hc hstep
      refine ⟨t', ht', ?_⟩
      rw [run_append hfeed, run_cons hstep']
      rfl
    | false =>
      obtain ⟨t', ht', hrun⟩ := h₁.kept hc hstep
      refine ⟨t', ht', ?_⟩
      rw [run_append hfeed, hrun]
      rfl

/-- A text without a form and a line feed behind it lead to the next line. -/
theorem runAt_inside_of_nothing
    (hc : reg.kindOf? (.char o.closer) = some .listClose) (ht : t.Inside (o.frame items))
    (h : (read reg cur).found = .nothing) :
    ∃ t', t'.Inside (o.frame items) ∧
      runAt reg t (extend cur ('\n' :: v)) = runAt reg t' (nextLine cur v) := by
  have henc : Enclosed (o.frame items) .idle t := enclosed_of_fresh fresh_idle ht
  unfold read runAt extend at *
  obtain ⟨s, hs, hfin⟩ := run_nothing_cases h
  obtain ⟨s', hstep, hfresh⟩ := step_newline_of_nothing hfin
  obtain ⟨t₁, hfeed, h₁⟩ := henc.feed hc hs
  have hv := h₁.step hc (cur.loc.advance cur.after) '\n'
  rw [hstep] at hv
  generalize hstep' : Reader.step reg (cur.loc.advance cur.after) t₁ '\n' = w at hv
  cases hv with
  | @more _ t' h' =>
    refine ⟨t', ⟨by rw [h'.mode, hfresh.mode], by rw [h'.frames, hfresh.frames]; rfl⟩, ?_⟩
    rw [run_append hfeed, run_cons hstep']
    rfl

/-! ## Faults above a frame -/

theorem wanting_of_cutOff {fs : List Frame} {f : ReadFault} {loc : Location}
    (h : cutOff place fs = .failure f loc) : f.Wanting := by
  cases fs with
  | nil => cases h
  | cons g fs => cases g <;> cases h <;> simp [ReadFault.Wanting, ReadFault.category?]

theorem endBefore_of_not_wanting {result : Except ReadFault Expr} {faultPlace : Location}
    {f : ReadFault} {loc : Location} (hf : ¬ f.Wanting)
    (h : s.endAtEnd result faultPlace place = .failure f loc) :
    s.endBefore reg result faultPlace place c = .fail f loc false := by
  cases result with
  | error fault => cases h; rfl
  | ok a =>
    simp only [State.endAtEnd] at h
    split at h
    · cases h
    · exact absurd (wanting_of_cutOff h) hf

/-- A line feed after a text has the fault that the end of the text would have had, when that is
not for want of more text. Only a literal without its list has the line feed to show. -/
theorem step_newline_of_failure {f : ReadFault} {loc : Location} (hf : ¬ f.Wanting)
    (h : finish place s = .failure f loc) :
    step reg place s '\n' = .fail f loc false ∨ ∃ trigger, f = .missingList trigger none ∧
      step reg place s '\n' = .fail (.missingList trigger (some '\n')) loc true := by
  cases line_cases reg place s with
  | between hfin => exact absurd (wanting_of_cutOff (hfin ▸ h)) hf
  | ended _ hfin hstep => exact .inl (hstep ▸ endBefore_of_not_wanting hf (hfin ▸ h))
  | inside hopen hfin =>
    rw [hfin] at h
    cases h
    exact absurd (ReadFault.wanting_of_open hopen) hf
  | lead _ hfin =>
    rw [hfin] at h
    cases h
    simp [ReadFault.Wanting, ReadFault.category?] at hf
  | opener trigger hfin hstep =>
    rw [hfin] at h
    cases h
    exact .inr ⟨trigger, rfl, hstep⟩

theorem step_newline_of_standing {f : ReadFault} {loc : Location} (hf : f.Standing)
    (h : finish place s = .failure f loc) : step reg place s '\n' = .fail f loc false := by
  have hwanting : ¬ f.Wanting := by
    intro hw
    simp only [ReadFault.Standing, ReadFault.Wanting, List.mem_cons, List.not_mem_nil,
      or_false] at hf hw
    rcases hf with hf | hf | hf | hf <;> simp [hf] at hw
  rcases step_newline_of_failure hwanting h with hstep | ⟨trigger, rfl, -⟩
  · exact hstep
  · simp [ReadFault.Standing, ReadFault.category?] at hf

theorem Enclosed.fail {f : ReadFault} {loc : Location} {taken : Bool}
    (h : Enclosed (o.frame items) s t) (hc : reg.kindOf? (.char o.closer) = some .listClose)
    (hcloser : f ≠ .strayCloser (.ofChar o.closer))
    (hs : Reader.step reg place s c = .fail f loc taken) :
    Reader.step reg place t c = .fail f loc taken := by
  have hv := h.step hc place c
  rw [hs] at hv
  generalize Reader.step reg place t c = w at hv
  cases hv with
  | fail => rfl
  | closer => exact absurd rfl hcloser

/-- A fault of what stands in a text is found inside a frame too, unless it is the closer of the
frame. -/
theorem runAt_inside_of_failure {f : ReadFault} {loc : Location}
    (hc : reg.kindOf? (.char o.closer) = some .listClose) (ht : t.Inside (o.frame items))
    (hf : f.Standing) (hcloser : f ≠ .strayCloser (.ofChar o.closer))
    (h : (read reg cur).found = .failure f loc) :
    (runAt reg t (extend cur ('\n' :: v))).found = .failure f loc := by
  have henc : Enclosed (o.frame items) .idle t := enclosed_of_fresh fresh_idle ht
  unfold read runAt extend at *
  rcases run_failure_cases h with ⟨s, hs, hfin⟩ | ⟨u, c, w, s, taken, hcs, hs, hstep⟩
  · obtain ⟨t₁, hfeed, h₁⟩ := henc.feed hc hs
    have hstep : Reader.step reg (cur.loc.advance cur.after) t₁ '\n' = .fail f loc false :=
      h₁.fail hc hcloser (step_newline_of_standing hf hfin)
    rw [run_of_fail hfeed hstep]
  · obtain ⟨t₁, hfeed, h₁⟩ := henc.feed hc hs
    have hstep : Reader.step reg (cur.loc.advance u) t₁ c = .fail f loc taken :=
      h₁.fail hc hcloser hstep
    rw [hcs, List.append_assoc, List.cons_append, run_of_fail hfeed hstep]

/-! ## All forms above a frame -/

/-- The forms of a text are the next elements of the frame around it. -/
theorem runAt_inside {cur : Cursor} {t : State} {items : List Expr}
    (hc : reg.kindOf? (.char o.closer) = some .listClose) (ht : t.Inside (o.frame items))
    (h : (readForms reg cur).fault = none) :
    ∃ t', t'.Inside (o.frame (((readForms reg cur).forms.map (·.1)).reverse ++ items)) ∧
      runAt reg t (extend cur ('\n' :: v)) = runAt reg t' (nextLine cur v) := by
  cases hf : (read reg cur).found with
  | form e start =>
    have hlt : (read reg cur).rest.after.length < cur.after.length := after_lt_of_read_form hf
    obtain ⟨t₁, ht₁, hrun⟩ := runAt_inside_of_form (v := v) hc ht hf
    rw [readForms_of_form hf] at h ⊢
    obtain ⟨t', ht', hrun'⟩ := runAt_inside hc ht₁ h
    rw [nextLine_rest] at hrun'
    exact ⟨t', by simpa using ht', hrun.trans hrun'⟩
  | nothing =>
    rw [readForms_of_nothing hf]
    exact runAt_inside_of_nothing hc ht hf
  | failure fault loc =>
    rw [readForms_of_failure hf] at h
    cases h
termination_by cur.after.length

/-- A fault of what stands in a text is the fault of the text inside a frame. -/
theorem runAt_inside_of_fault {cur : Cursor} {t : State} {items : List Expr} {f : ReadFault}
    {loc : Location} (hc : reg.kindOf? (.char o.closer) = some .listClose)
    (ht : t.Inside (o.frame items)) (hf : f.Standing)
    (hcloser : f ≠ .strayCloser (.ofChar o.closer))
    (h : (readForms reg cur).fault = some (f, loc)) :
    (runAt reg t (extend cur ('\n' :: v))).found = .failure f loc := by
  cases hfound : (read reg cur).found with
  | form e start =>
    have hlt : (read reg cur).rest.after.length < cur.after.length :=
      after_lt_of_read_form hfound
    obtain ⟨t₁, ht₁, hrun⟩ := runAt_inside_of_form (v := v) hc ht hfound
    rw [readForms_of_form hfound] at h
    rw [hrun]
    exact runAt_inside_of_fault hc ht₁ hf hcloser h
  | nothing =>
    rw [readForms_of_nothing hfound] at h
    cases h
  | failure fault loc' =>
    rw [readForms_of_failure hfound] at h
    obtain ⟨rfl, rfl⟩ : fault = f ∧ loc' = loc := by simpa using h
    exact runAt_inside_of_failure hc ht hf hcloser hfound
termination_by cur.after.length

end Reader

end Sigil
