import Sigil.Proofs.Reader.Scan

/-!
# The machine reads what the calls find

The calls of the descent that need each other find what the machine reads, by induction on the
number of characters to come (`Agrees`): a form or comment takes a character before it calls
anything. So the two readers are the same, form by form (`read_eq_next`) and on whole texts
(`readAll_eq_all`).
-/

namespace Sigil.Reader.Descent

variable {reg : Registry} {cur : Cursor} {before cs : List Char} {c : Char} {n : Nat}
  {place opened : Location} {s t : State}

/-! ## Forms -/

/-- With fewer than `n` characters to come, the machine reads what the calls find. -/
structure Agrees (reg : Registry) (n : Nat) : Prop where
  next : ∀ {before place s cs}, cs.length < n → s.mode = .between → s.Waits →
    run reg before place s cs = (next reg ⟨before, cs, place⟩).goOnForm reg s
  delimited : ∀ {before place s cs shape closer opened items fs}, cs.length < n →
    s.mode = .between → s.frames = .delimited shape closer opened items :: fs →
    run reg before place s cs
      = ((delimited reg closer opened ⟨before, cs, place⟩).built shape opened items).goOn reg
          { s with frames := fs }

/-- A form goes through a frame that waits for it, as `wrap` makes it. -/
theorem goOnForm_frame {frame : Frame} {wrap : Expr → Expr} {fs : List Frame}
    {o : Outcome cur (Option (Expr × Location))} (hframes : s.frames = frame :: fs)
    (hdeliver : ∀ e, deliver e (frame :: fs) = deliver (wrap e) fs)
    (hcut : ∀ place, cutOff place (frame :: fs) = .failure .endOfText place) :
    o.goOnForm reg s = (o.wrapped wrap).goOn reg { s with frames := fs } := by
  obtain ⟨mode, frames, start, dispatched⟩ := s
  cases hframes
  cases hresult : o.result with
  | error fault =>
    rw [Outcome.wrapped, Outcome.andThen_of_error hresult]
    simp only [Outcome.goOnForm, hresult]
    rfl
  | ok found =>
    rw [Outcome.wrapped, Outcome.andThen_of_ok hresult, Outcome.goOn_noting, Outcome.goOn_widen]
    cases found with
    | none =>
      simp only [Outcome.goOnForm, hresult, State.noting, hcut]
      rfl
    | some found =>
      simp only [Outcome.goOnForm, hresult, resume, State.noting, State.enter, hdeliver]
      rfl

theorem run_literal (h : Agrees reg n) (hn : cs.length < n) {shape : Shape} {trigger : Trigger} :
    run reg before place { s with mode := .opener shape trigger opened } cs
      = (literal reg shape trigger opened ⟨before, cs, place⟩).goOn reg s := by
  cases cs with
  | nil =>
    rw [literal]
    rfl
  | cons c cs =>
    rw [literal]
    by_cases hc : c = '('
    · have hstep : step reg place { s with mode := .opener shape trigger opened } c
          = .more { s with
              mode := .between, frames := .delimited shape [')'] opened [] :: s.frames } := by
        simp only [step, hc, if_true]
      rw [run_cons hstep, if_pos hc, Outcome.goOn_widen]
      exact h.delimited (Nat.lt_of_succ_lt hn) rfl rfl
    · have hstep : step reg place { s with mode := .opener shape trigger opened } c
          = .fail (.missingList trigger (some c)) place true := by
        simp only [step, hc, if_false]
      rw [run, hstep, if_neg hc]
      rfl

theorem run_handler (h : Agrees reg n) (hn : cs.length < n) {kind : HandlerKind} {cue : Cue}
    {p : Location} (hkind : kind ≠ .dispatch)
    (hstep : step reg p t c = s.invoke kind cue place (p.step c))
    (hdisp : t.dispatched = s.dispatched) :
    run reg before p t (c :: cs)
      = (invoke reg kind cue place ⟨c :: before, cs, p.step c⟩).goOn reg s := by
  have hmore : ∀ {t'}, s.invoke kind cue place (p.step c) = .more t' →
      run reg before p t (c :: cs) = run reg (c :: before) (p.step c) t' cs := fun h =>
    run_cons (hstep.trans h)
  rw [invoke.eq_def, Outcome.goOn_noting]
  cases kind with
  | listOpen | fixedMap =>
    rw [hmore rfl]
    exact h.delimited hn rfl rfl
  | listClose =>
    rw [run, hstep, hdisp]
    rfl
  | quote | function | positionalLambda =>
    rw [hmore rfl]
    exact Eq.trans (h.next hn rfl trivial) (goOnForm_frame rfl (fun _ => rfl) fun _ => rfl)
  | string =>
    rw [hmore rfl, run_string]
    rfl
  | lineComment =>
    rw [hmore rfl, run_lineComment]
    rfl
  | dispatch => exact absurd rfl hkind
  | blockComment =>
    rw [hmore rfl, run_blockComment]
    rfl
  | vector | map =>
    rw [hmore rfl]
    exact run_literal h hn
  | rawString =>
    rw [hmore rfl]
    exact run_rawString
  | pathAccess =>
    rw [hmore rfl]
    exact run_path

theorem run_dispatch (h : Agrees reg n) (hn : cs.length < n) {lead : Char} :
    run reg before place { s with mode := .pair lead opened } cs
      = (dispatch reg lead opened ⟨before, cs, place⟩).goOn reg s := by
  let t : State := { s with mode := .pair lead opened }
  cases cs with
  | nil =>
    rw [dispatch]
    rfl
  | cons sub cs =>
    have hfail : step reg place t sub = .fail (.unboundPair lead sub) opened true →
        run reg before place t (sub :: cs)
          = (Outcome.ofSkip ⟨before, sub :: cs, place⟩ 1
              (.error (.unboundPair lead sub, opened))).goOn reg s := by
      intro hstep
      rw [run, hstep]
      rfl
    rw [dispatch]
    cases hkind : reg.kindOf? (Key.ofPair lead sub) with
    | none => exact hfail (by simp only [step, t, hkind])
    | some kind =>
      by_cases hdispatch : kind = .dispatch
      · subst hdispatch
        exact hfail (by simp only [step, t, hkind])
      · have hstep : step reg place t sub
            = t.invoke kind (.pair lead sub) opened (place.step sub) := by
          simp only [step, t, hkind]
        have hrun : run reg before place t (sub :: cs)
            = (invoke reg kind (.pair lead sub) opened ⟨sub :: before, cs, place.step sub⟩).goOn
                reg t :=
          run_handler h (Nat.lt_of_succ_lt hn) hdispatch hstep rfl
        rw [hrun, Outcome.goOn_congr rfl rfl rfl]
        cases kind <;> first | rfl | exact absurd rfl hdispatch

theorem run_invoke (h : Agrees reg n) (hn : cs.length < n) {kind : HandlerKind} {cue : Cue}
    {p : Location} (hstep : step reg p t c = s.invoke kind cue place (p.step c))
    (hdisp : t.dispatched = s.dispatched) :
    run reg before p t (c :: cs)
      = (invoke reg kind cue place ⟨c :: before, cs, p.step c⟩).goOn reg s := by
  by_cases hkind : kind = .dispatch
  · subst hkind
    have hmore : s.invoke .dispatch cue place (p.step c)
        = .more { s with mode := .pair cue.lead place } := rfl
    rw [run_cons (hstep.trans hmore), run_dispatch h hn, invoke.eq_def, Outcome.goOn_noting]
    rfl
  · exact run_handler h hn hkind hstep hdisp

theorem run_once (h : Agrees reg n) (hn : cs.length < n) (hblank : Text.isBlank c = false)
    (hstep : step reg place t c = State.begin reg s place c) (hdisp : t.dispatched = s.dispatched) :
    run reg before place t (c :: cs) = (once reg before c cs place hblank).goOn reg s := by
  rw [once]
  split
  · next hkind =>
    have hmore : State.begin reg s place c = .more { s with mode := .token [c] } := by
      simp only [State.begin, hkind]
    rw [run_cons (hstep.trans hmore), run_atom]
  · next kind hkind =>
    refine run_invoke h hn ?_ hdisp
    rw [hstep, State.begin, hkind]

theorem run_next (h : Agrees reg n) {before cs place s} (hn : cs.length < n + 1)
    (hm : s.mode = .between) (hs : s.Waits) :
    run reg before place s cs = (next reg ⟨before, cs, place⟩).goOnForm reg s := by
  have hbetween : { s with mode := .between } = s := by rw [← hm]
  cases cs with
  | nil =>
    rw [next, run, finish, hm]
    rfl
  | cons c cs =>
    have hlt : cs.length < n := Nat.lt_of_succ_lt_succ hn
    rw [next]
    by_cases hblank : Text.isBlank c
    · have hstep : step reg place s c = .more s := by
        rw [step_between hm, stepBetween_blank hblank, hbetween]
      rw [run_cons hstep, dif_pos hblank, Outcome.goOnForm_widen]
      exact h.next hlt hm hs
    · have hc : Text.isBlank c = false := Bool.eq_false_iff.2 hblank
      rw [dif_neg hblank, Outcome.goOnForm_widen,
        run_once h hlt hc (step_of_waits hm hs hc) dispatched_enter.symm]
      cases hresult : (once reg before c cs place hc).result with
      | error fault =>
        rw [Outcome.andThen_of_error hresult]
        simp only [Outcome.goOn, hresult, State.noting, dispatched_enter]
        rfl
      | ok found =>
        rw [Outcome.andThen_of_ok hresult, Outcome.goOnForm_noting, Outcome.goOnForm_widen]
        cases found with
        | none =>
          simp only [Outcome.goOn, hresult]
          refine Eq.trans (h.next ?_ rfl ?_) (Outcome.goOnForm_enter hm)
          · exact Nat.lt_of_le_of_lt (Outcome.reached _).length_le hlt
          · exact waits_of_frames frames_enter hs
        | some e =>
          simp only [Outcome.goOn, hresult]
          obtain ⟨mode, frames, start, dispatched⟩ := s
          cases frames <;> rfl

theorem run_built {shape : Shape} {items : List Expr} {fs : List Frame}
    (hstep : step reg place s c = match shape.build items.reverse with
      | .error f => .fail f opened true
      | .ok e => s.close e fs) :
    run reg before place s (c :: cs)
      = ((Outcome.ofSkip ⟨before, c :: cs, place⟩ 1 (.ok [])).built shape opened items).goOn reg
          { s with frames := fs } := by
  cases hbuild : shape.build items.reverse with
  | error f =>
    rw [hbuild] at hstep
    rw [run, hstep]
    simp only [Outcome.built, Outcome.andThen, Outcome.ofSkip, List.append_nil, hbuild]
    rfl
  | ok e =>
    rw [hbuild] at hstep
    rw [run_of_close hstep rfl rfl]
    simp only [Outcome.built, Outcome.andThen, Outcome.ofSkip, List.append_nil, hbuild]
    rfl

theorem run_delimited (h : Agrees reg n) {before cs place s} {shape : Shape}
    {closer : List Char} {items : List Expr} {fs : List Frame} (hn : cs.length < n + 1)
    (hm : s.mode = .between) (hf : s.frames = .delimited shape closer opened items :: fs) :
    run reg before place s cs
      = ((delimited reg closer opened ⟨before, cs, place⟩).built shape opened items).goOn reg
          { s with frames := fs } := by
  obtain ⟨mode, frames, start, dispatched⟩ := s
  obtain rfl : mode = .between := hm
  obtain rfl : frames = .delimited shape closer opened items :: fs := hf
  let t : State := ⟨.between, .delimited shape closer opened items :: fs, start, dispatched⟩
  cases cs with
  | nil =>
    rw [delimited]
    rfl
  | cons c cs =>
    have hlt : cs.length < n := Nat.lt_of_succ_lt_succ hn
    rw [delimited]
    by_cases hblank : Text.isBlank c
    · have hstep : step reg place t c = .more t := stepBetween_blank hblank
      rw [run_cons hstep, dif_pos hblank, Outcome.built_widen, Outcome.goOn_widen]
      exact h.delimited hlt rfl rfl
    rw [dif_neg hblank]
    have hc : Text.isBlank c = false := Bool.eq_false_iff.2 hblank
    by_cases hcloser : closer = [c]
    · rw [if_pos hcloser]
      refine run_built ?_
      rw [step_between rfl, State.stepBetween, if_neg hblank]
      exact if_pos hcloser
    · have hstep : step reg place t c = State.begin reg t place c := by
        rw [step_between rfl, State.stepBetween, if_neg hblank]
        exact if_neg hcloser
      rw [if_neg hcloser, Outcome.built_widen, Outcome.goOn_widen, run_once h hlt hc hstep rfl]
      cases hresult : (once reg before c cs place hc).result with
      | error fault =>
        rw [Outcome.andThen_of_error hresult]
        simp only [Outcome.goOn, hresult]
        rfl
      | ok found =>
        have hrest : (once reg before c cs place hc).rest.after.length < n :=
          Nat.lt_of_le_of_lt (Outcome.reached _).length_le hlt
        rw [Outcome.andThen_of_ok hresult, Outcome.built_noting, Outcome.goOn_noting,
          Outcome.built_widen, Outcome.goOn_widen]
        cases found with
        | none =>
          simp only [Outcome.goOn, hresult]
          exact h.delimited hrest rfl rfl
        | some e =>
          rw [Outcome.built_map_cons]
          simp only [Outcome.goOn, hresult]
          exact h.delimited hrest rfl rfl

theorem agrees (reg : Registry) (n : Nat) : Agrees reg n := by
  induction n with
  | zero => exact ⟨nofun, nofun⟩
  | succ n ih => exact ⟨run_next ih, run_delimited ih⟩

/-! ## Readings -/

def Outcome.reading (o : Outcome cur (Option (Expr × Location))) : Reading where
  found := match o.result with
    | .error (f, loc) => .failure f loc
    | .ok none => .nothing
    | .ok (some (e, start)) => .form e start
  rest := o.rest
  dispatched := o.noted

/-- The machine reads the form that the descent finds. -/
theorem read_eq_next (reg : Registry) (cur : Cursor) : read reg cur = (next reg cur).reading := by
  have hrun : read reg cur = (next reg cur).goOnForm reg .idle :=
    (agrees reg (cur.after.length + 1)).next (Nat.lt_succ_self _) rfl trivial
  rw [hrun, Outcome.goOnForm, Outcome.reading]
  have hnoted : (State.idle.noting (next reg cur).noted).dispatched.reverse
      = (next reg cur).noted := by simp [State.noting, State.idle]
  cases (next reg cur).result with
  | error fault => exact congrArg (Reading.mk _ _) hnoted
  | ok found => cases found <;> exact congrArg (Reading.mk _ _) hnoted

theorem all_eq_readForms (reg : Registry) (cur : Cursor) :
    all reg cur = match (readForms reg cur).fault with
      | some fault => .error fault
      | none => .ok ((readForms reg cur).forms.map (·.1)) := by
  have hread := read_eq_next reg cur
  rw [all]
  split
  · next fault hresult =>
    have hfound : (read reg cur).found = .failure fault.1 fault.2 := by
      rw [hread, Outcome.reading, hresult]
    rw [readForms_of_failure hfound]
  · next hresult =>
    have hfound : (read reg cur).found = .nothing := by
      rw [hread, Outcome.reading, hresult]
    rw [readForms_of_nothing hfound]
    rfl
  · next e start hresult =>
    have hfound : (read reg cur).found = .form e start := by
      rw [hread, Outcome.reading, hresult]
    have hrest : (read reg cur).rest = (next reg cur).rest := by
      rw [hread, Outcome.reading]
    have hlt : (next reg cur).rest.after.length < cur.after.length :=
      hrest ▸ after_lt_of_read_form hfound
    rw [readForms_of_form hfound, hrest, all_eq_readForms reg (next reg cur).rest]
    cases (readForms reg (next reg cur).rest).fault <;> rfl
termination_by cur.after.length

/-- All forms of a text, or its first fault. -/
theorem readAll_eq_all (reg : Registry) (text : String) :
    readAll reg text = all reg (.ofText text) :=
  (all_eq_readForms reg (.ofText text)).symm

end Sigil.Reader.Descent
