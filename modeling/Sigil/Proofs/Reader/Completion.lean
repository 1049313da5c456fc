import Sigil.Proofs.Reader.Comment
import Sigil.Proofs.Reader.Concatenation
import Sigil.Proofs.Reader.Faults
import Sigil.Proofs.Reader.Resume

/-!
# Completing a text

A text that ends inside a list, a comment or a string can be completed. The text that does it is
read off the state at the end of the line (`State.completion`): it ends the string or the comment,
gives each prefix the form that it waits for, and closes frame after frame, the innermost first. A
map closes when the number of its elements is even, whatever they are (`exists_build`), so an
empty string is added where that number is odd. Every frame has a parenthesis or a brace for a
closer, and no character is the cause of a fault of an open form; both are what one step leaves
behind (`closable_step`).
-/

namespace Sigil

/-- The faults of open forms have two categories. -/
theorem ReadFault.not_open_of_category {f : ReadFault} {category : ReadCategory}
    (h : f.category? = some category)
    (hne : category ∉ [ReadCategory.unterminatedList, .unterminatedString]) : ¬ f.Open := by
  intro hf
  cases f <;> first | exact hf.elim | (cases h; exact hne (by decide))

namespace Reader

variable {reg : Registry} {before cs : List Char} {place loc : Location} {s t : State} {c : Char}
  {e : Expr} {f : ReadFault} {fs : List Frame} {taken : Bool}

theorem isIncomplete_iff {text : String} :
    isIncomplete reg text = .ok true ↔
      ∃ f loc, (readForms reg (.ofText text)).fault = some (f, loc) ∧ f.Open := by
  unfold isIncomplete Forms.isIncomplete
  cases (readForms reg (.ofText text)).fault with
  | none => simp
  | some fault =>
    obtain ⟨f, loc⟩ := fault
    cases f <;> simp [ReadFault.category?, ReadFault.Open]

/-! ## What a step leaves behind -/

/-- A frame whose closer can be written. -/
def Frame.Closable : Frame → Prop
  | .delimited _ closer _ _ => closer = [')'] ∨ closer = ['}']
  | .operand _ | .positional => True

/-- Every open frame can be closed. -/
def State.Closable (s : State) : Prop := ∀ f ∈ s.frames, f.Closable

/-- The reading can go on with a frame to close, or it ended, and not for an open form. -/
def Verdict.Closable : Verdict → Prop
  | .more t => t.Closable
  | .complete .. => True
  | .fail f .. => ¬ f.Open

theorem closable_idle : State.idle.Closable := nofun

theorem closable_of_deliver {frames : List Frame} (hfs : ∀ f ∈ fs, f.Closable)
    (h : deliver e fs = .resume frames) : ∀ f ∈ frames, f.Closable :=
  forall_of_deliver id hfs h

theorem closable_close (hfs : ∀ f ∈ fs, f.Closable) : (s.close e fs).Closable := by
  unfold State.close
  split
  · trivial
  · next hd => exact closable_of_deliver hfs hd

theorem closable_invoke (hs : s.Closable) (kind : HandlerKind) (cue : Cue)
    (opened after : Location) : (s.invoke kind cue opened after).Closable := by
  cases kind with
  | listClose => exact id
  | listOpen => exact List.forall_mem_cons.2 ⟨.inl rfl, hs⟩
  | fixedMap => exact List.forall_mem_cons.2 ⟨.inr rfl, hs⟩
  | quote | function | positionalLambda => exact List.forall_mem_cons.2 ⟨trivial, hs⟩
  | string | lineComment | dispatch | blockComment | vector | map | rawString | pathAccess =>
    exact hs

theorem closable_begin (hs : s.Closable) : (State.begin reg s place c).Closable := by
  unfold State.begin
  split
  · exact hs
  · exact closable_invoke hs _ _ _ _

theorem not_open_of_build {shape : Shape} {items : List Expr}
    (h : shape.build items = .error f) : ¬ f.Open :=
  ReadFault.not_open_of_category (category_of_build h) (by decide)

theorem closable_stepBetween (hs : s.Closable) : (s.stepBetween reg place c).Closable := by
  unfold State.stepBetween
  split
  · exact hs
  · split
    · exact closable_begin hs
    · next hf =>
      have hfs := hs
      rw [State.Closable, hf, List.forall_mem_cons] at hfs
      split
      · split
        · next hbuild => exact not_open_of_build hbuild
        · exact closable_close hfs.2
      · exact closable_begin hs
    · exact closable_begin hs

theorem not_open_of_tokenExpr {chars : List Char} (h : tokenExpr chars = .error f) :
    ¬ f.Open := by
  obtain ⟨n, rfl, -⟩ := tokenExpr_error h
  exact id

theorem not_open_of_pathExpr {trigger : Trigger} {chars : List Char}
    (h : pathExpr trigger chars = .error f) : ¬ f.Open := by
  rcases pathExpr_error h with hcategory | hcategory | ⟨n, rfl, -⟩
  · exact ReadFault.not_open_of_category hcategory (by decide)
  · exact ReadFault.not_open_of_category hcategory (by decide)
  · exact id

theorem closable_endBefore {result : Except ReadFault Expr} {faultPlace : Location}
    (hs : s.Closable) (hresult : ∀ f, result = .error f → ¬ f.Open) :
    (s.endBefore reg result faultPlace place c).Closable := by
  unfold State.endBefore
  split
  · next f => exact hresult f rfl
  · split
    · trivial
    · next hd => exact closable_stepBetween (closable_of_deliver hs hd)

/-- Every character leaves frames that can be closed, and the fault of a character is not that of
an open form. -/
theorem closable_step (hs : s.Closable) : (step reg place s c).Closable := by
  unfold step
  split
  · exact closable_stepBetween hs
  · split
    · exact closable_endBefore hs fun _ => not_open_of_tokenExpr
    · exact hs
  · split
    · exact closable_endBefore hs fun _ => not_open_of_pathExpr
    · exact hs
  · split
    · exact hs
    · split
      · exact hs
      · split
        · exact closable_close hs
        · exact hs
  · split
    · exact closable_close hs
    · exact hs
  · exact hs
  · split
    · exact hs
    · split <;> exact hs
  · split
    · exact id
    · exact id
    · exact closable_invoke hs _ _ _ _
  · split
    · exact List.forall_mem_cons.2 ⟨.inl rfl, hs⟩
    · exact id

theorem closable_feed {u : List Char} (hs : s.Closable) (h : feed reg place s u = some t) :
    t.Closable := by
  induction u generalizing place s with
  | nil => cases h; exact hs
  | cons c u ih =>
    have hstep := @closable_step reg place s c hs
    rw [feed] at h
    split at h
    · next s' hs' =>
      rw [hs'] at hstep
      exact ih hstep h
    · cases h

/-! ## The completing text -/

/-- An element for a frame that lacks one: an empty string. -/
def filler : List Char := ['"', '"']

/-- What makes a number of elements even. -/
def evened (count : Nat) : List Char := if count % 2 = 0 then [] else filler

/-- The text that closes frames to which an element goes first. -/
def closeAfter : List Frame → List Char
  | [] => []
  | .delimited _ closer _ items :: fs => evened (items.length + 1) ++ closer ++ closeAfter fs
  | .operand _ :: fs | .positional :: fs => closeAfter fs

/-- The text that closes frames between two elements. -/
def closeBetween : List Frame → List Char
  | [] => []
  | .delimited _ closer _ items :: fs => evened items.length ++ closer ++ closeAfter fs
  | .operand _ :: fs | .positional :: fs => filler ++ closeAfter fs

/-- The text that ends a comment of the given depth. -/
def endComment : Nat → List Char
  | 0 | 1 => ['|', '#']
  | depth + 2 => '|' :: '#' :: endComment (depth + 1)

/-- The text that completes the form of a state at the beginning of a line. -/
def State.completion (s : State) : List Char :=
  match s.mode with
  | .string .. => '"' :: closeAfter s.frames
  | .rawString .. => '/' :: '#' :: closeAfter s.frames
  | .blockComment _ depth _ => endComment depth ++ closeBetween s.frames
  | _ => closeBetween s.frames

/-! ## Closing frames -/

/-- The reading took all of its text and found no fault. -/
def Reading.Complete (r : Reading) : Prop :=
  r.rest.after = [] ∧ (r.found = .nothing ∨ ∃ e start, r.found = .form e start)

/-- An even number of elements can be built, whatever they are. -/
theorem exists_build (shape : Shape) (items : List Expr) (h : items.length % 2 = 0) :
    ∃ e, shape.build items = .ok e := by
  cases shape with
  | list => exact ⟨_, rfl⟩
  | vector => exact ⟨_, rfl⟩
  | map sized label =>
    let m : MapLiteral Expr := ⟨MapTest.default.name, .supplied, MapLiteral.pairUp items⟩
    refine ⟨m.build sized, ?_⟩
    simp only [Shape.build, buildMap, MapLiteral.ofItems, if_pos h]
    rfl

theorem run_filler (hr : reg.kindOf? (.char '"') = some .string) (hm : s.mode = .between)
    (hne : s.frames ≠ []) (hs : s.Closable) :
    run reg before place s (filler ++ cs)
      = resume reg ('"' :: '"' :: before) ((place.step '"').step '"') s (.str "") cs := by
  have hopen : step reg place s '"' = .more { s with mode := .string place [] false } := by
    have hbegin : State.begin reg s place '"'
        = .more { s with mode := .string place [] false } := by
      rw [State.begin, hr]
      rfl
    rw [step_between hm, State.stepBetween, if_neg (by decide)]
    split
    · next hf => exact absurd hf hne
    · next shape closer opened items fs hf =>
      have hcloser : closer ≠ ['"'] := by
        have hclosable := hs _ (hf ▸ List.mem_cons_self)
        rintro rfl
        rcases hclosable with h | h <;> cases h
      rw [if_neg hcloser]
      exact hbegin
    · exact hbegin
  have hclose : step reg (place.step '"') { s with mode := .string place [] false } '"'
      = s.close (.str "") s.frames := rfl
  rw [filler, List.cons_append, List.singleton_append, run_cons hopen]
  exact run_of_close hclose rfl rfl

theorem resume_delimited {shape : Shape} {closer : List Char} {opened : Location}
    {items : List Expr} (hf : s.frames = .delimited shape closer opened items :: fs) :
    resume reg before place s e cs = run reg before place
      { s with mode := .between, frames := .delimited shape closer opened (e :: items) :: fs }
      cs := by
  rw [resume, hf]
  rfl

/-- A form that a prefix waits for goes on to the frames around the prefix. -/
theorem resume_operand {head : String} (hf : s.frames = .operand head :: fs) :
    resume reg before place s e cs
      = resume reg before place { s with frames := fs } (.list [.known head, e]) cs := by
  rw [resume, hf]
  rfl

theorem resume_positional (hf : s.frames = .positional :: fs) :
    resume reg before place s e cs
      = resume reg before place { s with frames := fs } e.positionalLambda cs := by
  rw [resume, hf]
  rfl

/-- What is left of the text that closes a delimited form when the form is complete. -/
theorem exists_run_close (hr : reg.kindOf? (.char '"') = some .string) {shape : Shape}
    {closer : List Char} {opened : Location} {items : List Expr} (hm : s.mode = .between)
    (hf : s.frames = .delimited shape closer opened items :: fs) (hs : s.Closable) :
    ∃ before' place' e, run reg before place s (evened items.length ++ closer ++ cs)
      = resume reg before' place' { s with frames := fs } e cs := by
  obtain ⟨c, rfl, hc⟩ : ∃ c, closer = [c] ∧ Text.isBlank c = false := by
    have hcloser : (Frame.delimited shape closer opened items).Closable :=
      hs _ (by rw [hf]; exact List.mem_cons_self)
    rcases hcloser with rfl | rfl <;> exact ⟨_, rfl, rfl⟩
  unfold evened
  split
  · next heven =>
    obtain ⟨e, he⟩ := exists_build shape items.reverse (by rwa [List.length_reverse])
    exact ⟨_, _, e, run_closer hm hc hf he⟩
  · next hodd =>
    have hne : s.frames ≠ [] := by rw [hf]; exact List.cons_ne_nil _ _
    obtain ⟨e, he⟩ := exists_build shape (.str "" :: items).reverse
      (by rw [List.length_reverse, List.length_cons]; omega)
    refine ⟨c :: '"' :: '"' :: before, ((place.step '"').step '"').step c, e, ?_⟩
    rw [List.append_assoc, run_filler hr hm hne hs, resume_delimited hf]
    exact run_closer rfl hc rfl he

theorem complete_of_resume (hr : reg.kindOf? (.char '"') = some .string) (hs : s.Closable) :
    (resume reg before place s e (closeAfter s.frames)).Complete := by
  generalize hf : s.frames = fs
  induction fs generalizing before place s e with
  | nil =>
    rw [resume, hf]
    exact ⟨rfl, .inr ⟨_, _, rfl⟩⟩
  | cons f fs ih =>
    rw [State.Closable, hf] at hs
    obtain ⟨hclosable, hrest⟩ := List.forall_mem_cons.1 hs
    cases f with
    | delimited shape closer opened items =>
      have ht : ∀ f ∈ Frame.delimited shape closer opened (e :: items) :: fs, f.Closable :=
        List.forall_mem_cons.2 ⟨hclosable, hrest⟩
      rw [resume_delimited hf, closeAfter]
      let t : State :=
        { s with mode := .between, frames := .delimited shape closer opened (e :: items) :: fs }
      obtain ⟨before', place', e', hrun⟩ := @exists_run_close reg before (closeAfter fs) place t
        fs hr shape closer opened (e :: items) rfl rfl ht
      rw [← List.length_cons, hrun]
      exact ih hrest rfl
    | operand head =>
      rw [resume_operand hf]
      exact ih hrest rfl
    | positional =>
      rw [resume_positional hf]
      exact ih hrest rfl

/-- The frames of a state between two elements are closed. -/
theorem complete_of_between (hr : reg.kindOf? (.char '"') = some .string)
    (hm : s.mode = .between) (hs : s.Closable) :
    (run reg before place s (closeBetween s.frames)).Complete := by
  have hprefix : ∀ {fs}, s.frames ≠ [] → closeAfter s.frames = closeAfter fs →
      (run reg before place s (filler ++ closeAfter fs)).Complete := by
    intro fs hne hclose
    rw [run_filler hr hm hne hs, ← hclose]
    exact complete_of_resume hr hs
  cases hf : s.frames with
  | nil =>
    rw [closeBetween, run, finish, hm, hf]
    exact ⟨rfl, .inl rfl⟩
  | cons f fs =>
    rw [hf] at hprefix
    cases f with
    | delimited shape closer opened items =>
      obtain ⟨before', place', e, hrun⟩ :=
        @exists_run_close reg before (closeAfter fs) place s fs hr _ _ _ _ hm hf hs
      rw [closeBetween, hrun]
      rw [State.Closable, hf] at hs
      exact complete_of_resume (s := { s with frames := fs }) hr (List.forall_mem_cons.1 hs).2
    | operand head => exact hprefix (List.cons_ne_nil _ _) rfl
    | positional => exact hprefix (List.cons_ne_nil _ _) rfl

/-! ## The end of a line -/

theorem feed_endComment {opened : Location} {depth : Nat}
    (hm : s.mode = .blockComment opened depth none) :
    feed reg place s (endComment depth) = some { s with mode := .between } := by
  induction depth using endComment.induct generalizing place s with
  | case1 =>
    simp only [endComment, feed, step, hm]
    rfl
  | case2 =>
    simp only [endComment, feed, step, hm]
    rfl
  | case3 depth ih =>
    rw [endComment, feed_cons (step_half hm (.inr rfl)), feed_cons (step_closeComment rfl),
      if_neg (Nat.succ_ne_zero depth), ih rfl]

/-- The state at the beginning of a line is completed by its text. -/
theorem complete_of_completion (hr : reg.kindOf? (.char '"') = some .string)
    (hm : s.mode.AtLineStart) (hs : s.Closable) :
    (run reg before place s s.completion).Complete := by
  unfold State.completion
  cases hmode : s.mode with
  | between => exact complete_of_between hr hmode hs
  | string opened chars escaped =>
    rw [hmode] at hm
    obtain rfl : escaped = false := hm
    have hclose : step reg place s '"' = s.close (.str (String.ofList chars.reverse)) s.frames := by
      rw [step, hmode]
      rfl
    rw [run_of_close hclose rfl rfl]
    exact complete_of_resume hr hs
  | rawString opened chars slash =>
    rw [hmode] at hm
    obtain rfl : slash = false := hm
    have hslash : step reg place s '/'
        = .more { s with mode := .rawString opened ('/' :: chars) true } := by
      rw [step, hmode]
      rfl
    have hclose : step reg (place.step '/') { s with mode := .rawString opened ('/' :: chars) true }
        '#' = s.close (.str (String.ofList chars.reverse)) s.frames := rfl
    rw [run_cons hslash, run_of_close hclose rfl rfl]
    exact complete_of_resume hr hs
  | blockComment opened depth last =>
    rw [hmode] at hm
    obtain rfl : last = none := hm
    show (run reg before place s (endComment depth ++ closeBetween s.frames)).Complete
    rw [run_append (feed_endComment hmode)]
    exact complete_of_between (s := { s with mode := .between }) hr rfl hs
  | token | path | lineComment | pair | opener => rw [hmode] at hm; exact hm.elim

/-- A token or a path that the end of the text leaves in an open form is ended by a line feed. -/
theorem endBefore_newline_of_open {result : Except ReadFault Expr} {faultPlace : Location}
    (hresult : ∀ f, result = .error f → ¬ f.Open) (hf : f.Open)
    (h : s.endAtEnd result faultPlace place = .failure f loc) :
    ∃ t, s.endBefore reg result faultPlace place '\n' = .more t ∧ t.mode = .between := by
  cases result with
  | error fault => cases h; exact absurd hf (hresult f rfl)
  | ok a =>
    simp only [State.endAtEnd, State.endBefore] at h ⊢
    split at h
    · cases h
    · exact ⟨_, stepBetween_blank rfl, rfl⟩

/-- A line feed behind a text that ends in an open form leads to the beginning of a line in it. -/
theorem step_newline_of_open (hf : f.Open) (h : finish place s = .failure f loc) :
    ∃ t, step reg place s '\n' = .more t ∧ t.mode.AtLineStart := by
  cases line_cases reg place s with
  | between _ hstep => exact ⟨_, hstep, trivial⟩
  | @ended result _ hresult hfin hstep =>
    have hclosed : ∀ f, result = .error f → ¬ f.Open := by
      rcases hresult with ⟨chars, rfl⟩ | ⟨trigger, chars, rfl⟩
      · exact fun _ => not_open_of_tokenExpr
      · exact fun _ => not_open_of_pathExpr
    obtain ⟨t, ht, hmode⟩ := @endBefore_newline_of_open reg _ _ _ _ _ _ hclosed hf (hfin ▸ h)
    exact ⟨t, hstep.trans ht, by rw [hmode]; trivial⟩
  | inside _ _ hstep hmode => exact ⟨_, hstep, hmode⟩
  | lead _ hfin | opener _ hfin =>
    rw [hfin] at h
    cases h
    exact hf.elim

/-! ## Texts that can be completed -/

/-- A form that the end of the text cuts off can be completed. -/
theorem exists_read_complete {cur : Cursor} (hr : reg.kindOf? (.char '"') = some .string)
    (hf : f.Open) (h : (read reg cur).found = .failure f loc) :
    ∃ u, (read reg (extend cur ('\n' :: u))).Complete := by
  unfold read runAt extend at *
  rcases run_failure_cases h with ⟨s, hs, hfin⟩ | ⟨u, c, v, s, taken, -, hs, hstep⟩
  · obtain ⟨t, hstep, hmode⟩ := @step_newline_of_open reg _ _ _ _ hf hfin
    have ht : t.Closable := by
      have hclosable := @closable_step reg (cur.loc.advance cur.after) s '\n'
        (closable_feed closable_idle hs)
      rw [hstep] at hclosable
      exact hclosable
    refine ⟨t.completion, ?_⟩
    rw [run_append hs, run_cons hstep]
    exact complete_of_completion hr hmode ht
  · -- a character is never the cause of such a fault
    have hclosable := @closable_step reg (cur.loc.advance u) s c
      (closable_feed closable_idle hs)
    rw [hstep] at hclosable
    exact absurd hf hclosable

theorem readForms_of_complete {cur : Cursor} (h : (read reg cur).Complete) :
    (readForms reg cur).fault = none := by
  obtain ⟨hrest, hnothing | ⟨e, start, hform⟩⟩ := h
  · rw [readForms_of_nothing hnothing]
  · have hempty : (read reg (read reg cur).rest).found = .nothing := by
      unfold read at hrest ⊢
      rw [runAt, hrest]
      rfl
    rw [readForms_of_form hform, readForms_of_nothing hempty]

theorem exists_readForms_complete {cur : Cursor} (hr : reg.kindOf? (.char '"') = some .string)
    (hf : f.Open) (h : (readForms reg cur).fault = some (f, loc)) :
    ∃ u, (readForms reg (extend cur ('\n' :: u))).fault = none := by
  cases hfound : (read reg cur).found with
  | form e start =>
    have hlt : (read reg cur).rest.after.length < cur.after.length :=
      after_lt_of_read_form hfound
    rw [readForms_of_form hfound] at h
    obtain ⟨u, hu⟩ := exists_readForms_complete hr hf h
    obtain ⟨hfound', hrest⟩ := read_extend_of_form (b := u) hfound
    exact ⟨u, by rw [readForms_of_form hfound', hrest, hu]⟩
  | nothing =>
    rw [readForms_of_nothing hfound] at h
    cases h
  | failure fault loc' =>
    rw [readForms_of_failure hfound] at h
    cases h
    obtain ⟨u, hu⟩ := exists_read_complete hr hf hfound
    exact ⟨u, readForms_of_complete hu⟩
termination_by cur.after.length

/-- Where string literals are bound as usual, a text that stops inside an open form can be
completed. -/
theorem exists_completion_of_string {text : String}
    (hr : reg.kindOf? (.char '"') = some .string) (h : isIncomplete reg text = .ok true) :
    ∃ s forms, readAll reg (text ++ s) = .ok forms := by
  obtain ⟨f, loc, hfault, hf⟩ := isIncomplete_iff.1 h
  obtain ⟨u, hu⟩ := exists_readForms_complete hr hf hfault
  have hcur : Cursor.ofText (text ++ String.ofList ('\n' :: u))
      = extend (.ofText text) ('\n' :: u) := by
    simp [Cursor.ofText, extend]
  refine ⟨String.ofList ('\n' :: u), _, readAll_eq_ok_iff.2 ⟨?_, rfl⟩⟩
  rw [hcur, hu]

/-- With the standard registry and with its default extensions, a text that stops inside an open
list, comment or string is the beginning of a text that can be read. -/
theorem exists_readAll_append_of_isIncomplete (hreg : reg = .standard ∨ reg = .extended)
    {text : String} (h : isIncomplete reg text = .ok true) :
    ∃ s forms, readAll reg (text ++ s) = .ok forms := by
  rcases hreg with rfl | rfl
  · exact exists_completion_of_string Registry.lisp_standard.string h
  · exact exists_completion_of_string Registry.lisp_extended.string h

/-- A quote in a map, before a comment in a comment. -/
theorem exists_readAll_append_nested :
    isIncomplete .extended "#h(eq 1 '#| #| " = .ok true ∧
      ∃ s forms, readAll .extended ("#h(eq 1 '#| #| " ++ s) = .ok forms := by
  have hread : (read .extended (.ofText "#h(eq 1 '#| #| ")).found
      = .failure .openComment ⟨1, 10⟩ := rfl
  have h : isIncomplete .extended "#h(eq 1 '#| #| " = .ok true :=
    isIncomplete_iff.2 ⟨.openComment, ⟨1, 10⟩, by rw [readForms_of_failure hread], trivial⟩
  exact ⟨h, exists_readAll_append_of_isIncomplete (.inr rfl) h⟩

end Reader

end Sigil
