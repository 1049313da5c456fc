import Mathlib.Data.List.Forall2
import Sigil.Proofs.Reader.Feed
import Sigil.Proofs.Registry.Lisp

/-!
# Texts of single forms

`Takes reg p e` says that wherever a form may start, the text `p` is read as the form `e`, as
long as a blank, a closing parenthesis or the end of the text comes next: the form goes to the
frames around it and the reading goes on behind `p` (`resume`), whatever extensions it noted in
`p`. There is one lemma for each piece of syntax that printed text uses; the bindings that it
relies on are `Registry.Lisp`.
-/

namespace Sigil

namespace Reader

variable {reg : Registry} {before : List Char} {place : Location} {s t : State} {c : Char}
  {e : Expr} {cs : List Char}

/-- The state in which the form at `place` is read: outside every form it is the outermost. -/
def State.enter (s : State) (place : Location) : State :=
  match s.frames with
  | [] => { s with start := place }
  | _ :: _ => s

@[simp] theorem frames_enter : (s.enter place).frames = s.frames := by
  unfold State.enter
  split <;> simp_all

theorem enter_of_ne_nil (h : s.frames ≠ []) : s.enter place = s := by
  unfold State.enter
  split
  · next hf => exact absurd hf h
  · rfl

/-- Hand a form to the frames around it and read on in those that stay open. -/
def resume (reg : Registry) (before : List Char) (place : Location) (s : State) (e : Expr)
    (cs : List Char) : Reading :=
  match deliver e s.frames with
  | .complete e => ⟨.form e s.start, ⟨before, cs, place⟩, s.dispatched.reverse⟩
  | .resume frames => run reg before place { s with mode := .between, frames } cs

/-- What may come right after the text of a form. -/
def Follows (cs : List Char) : Prop := ∀ c ∈ cs.head?, Text.isBlank c = true ∨ c = ')'

theorem follows_nil : Follows [] := fun _ h => nomatch h

theorem follows_cons (h : Text.isBlank c = true ∨ c = ')') : Follows (c :: cs) := by
  intro d hd
  cases hd
  exact h

/-- The innermost list, when it is the innermost frame, closes with a parenthesis. -/
def State.Parenthesised (s : State) : Prop :=
  ∀ shape closer opened items fs,
    s.frames = .delimited shape closer opened items :: fs → closer = [')']

/-- Wherever a form may start, the text `p` is read as the form `e`. -/
def Takes (reg : Registry) (p : List Char) (e : Expr) : Prop :=
  ∀ {before place s cs}, s.mode = .between → s.Parenthesised → Follows cs →
    ∃ noted, run reg before place s (p ++ cs)
      = resume reg (p.reverse ++ before) (place.advance p)
          { s.enter place with dispatched := noted } e cs

/-! ## Starting and ending a form -/

theorem stepBetween_blank (h : Text.isBlank c = true) :
    s.stepBetween reg place c = .more { s with mode := .between } := by
  rw [State.stepBetween, if_pos h]

/-- A character that is no blank and no closing parenthesis starts a form. -/
theorem stepBetween_begin (hb : Text.isBlank c = false) (hs : s.Parenthesised) (hc : c ≠ ')') :
    s.stepBetween reg place c = State.begin reg (s.enter place) place c := by
  unfold State.stepBetween State.enter
  rw [if_neg (by simp [hb])]
  cases hf : s.frames with
  | nil => rfl
  | cons f fs =>
    cases f with
    | delimited shape closer opened items =>
      have hcloser : closer ≠ [c] := by
        rw [hs _ _ _ _ _ hf]
        intro h
        cases h
        exact hc rfl
      simp only [if_neg hcloser]
    | operand head => rfl
    | positional => rfl

theorem step_between (h : s.mode = .between) :
    step reg place s c = s.stepBetween reg place c := by
  rw [step, h]

theorem run_of_close {frames : List Frame} (h : step reg place s c = t.close e frames)
    (hstart : t.start = s.start) (hdisp : t.dispatched = s.dispatched) :
    run reg before place s (c :: cs)
      = resume reg (c :: before) (place.step c) { t with frames } e cs := by
  rw [run, h]
  unfold State.close resume
  cases deliver e frames with
  | complete e => simp only [stopped, hstart, hdisp, if_true]
  | resume frames => rfl

/-! ## Tokens -/

/-- A text that is one token with the value `e`. -/
structure Spells (reg : Registry) (p : List Char) (e : Expr) : Prop where
  ne_nil : p ≠ []
  first : ∀ c ∈ p.head?, reg.kindOf? (.char c) = none
  chars : ∀ c ∈ p, endsToken reg c = false
  value : Atom.ofToken p = .ok e

theorem feed_token {chars u : List Char} (h : ∀ c ∈ u, endsToken reg c = false) :
    feed reg place { s with mode := .token chars } u
      = some { s with mode := .token (u.reverse ++ chars) } := by
  induction u generalizing place chars with
  | nil => rfl
  | cons c u ih =>
    have hc : endsToken reg c = false := h c List.mem_cons_self
    have hstep : step reg place { s with mode := .token chars } c
        = .more { s with mode := .token (c :: chars) } := by
      simp only [step, hc, Bool.false_eq_true, if_false]
    rw [feed_cons hstep, ih fun d hd => h d (List.mem_cons_of_mem c hd), List.reverse_cons,
      List.append_assoc, List.singleton_append]

theorem endsToken_of_follows (hr : reg.Lisp) (h : Text.isBlank c = true ∨ c = ')') :
    endsToken reg c = true := by
  unfold endsToken
  rcases h with h | rfl
  · rw [h, Bool.true_or]
  · rw [hr.closeEnds, Bool.or_true]

/-- What ends before the next character hands its form to the frames around it. -/
theorem run_end {opened : Location} (hfinish : finish place s = s.endAtEnd (.ok e) opened place)
    (hstep : ∀ c ∈ cs.head?, step reg place s c = s.endBefore reg (.ok e) opened place c) :
    run reg before place s cs = resume reg before place s e cs := by
  cases cs with
  | nil =>
    rw [run, hfinish]
    simp only [State.endAtEnd, resume]
    cases hd : deliver e s.frames with
    | complete e => rfl
    | resume frames => rfl
  | cons c cs =>
    rw [run, hstep c rfl]
    simp only [State.endBefore, resume]
    cases hd : deliver e s.frames with
    | complete e => rfl
    | resume frames =>
      have hnext : step reg place { s with mode := .between, frames } c
          = State.stepBetween reg { s with frames } place c := step_between rfl
      simp only [run, hnext]

/-- A token ends where something follows, and its value goes to the frames around it. -/
theorem run_token_end (hr : reg.Lisp) {chars : List Char} (hm : s.mode = .token chars)
    (he : tokenExpr chars = .ok e) (hcs : Follows cs) :
    run reg before place s cs = resume reg before place s e cs := by
  have hfinish : finish place s = s.endAtEnd (.ok e) place place := by
    rw [finish, hm]
    simp only [he]
  refine run_end hfinish fun c hc => ?_
  rw [step, hm]
  simp only [endsToken_of_follows hr (hcs c hc), if_true, he]

theorem takes_of_spells (hr : reg.Lisp) {p : List Char} (h : Spells reg p e) :
    Takes reg p e := by
  intro before place s cs hm hs hcs
  obtain ⟨c, u, rfl⟩ := List.exists_cons_of_ne_nil h.ne_nil
  have hc : endsToken reg c = false := h.chars c List.mem_cons_self
  have hblank : Text.isBlank c = false := by
    rw [endsToken, Bool.or_eq_false_iff] at hc
    exact hc.1
  have hclose : c ≠ ')' := by
    rintro rfl
    rw [endsToken_of_follows hr (.inr rfl)] at hc
    cases hc
  have hstep : step reg place s c = .more { s.enter place with mode := .token [c] } := by
    rw [step_between hm, stepBetween_begin hblank hs hclose, State.begin, h.first c rfl]
  have hfeed := @feed_token reg (place.step c) (s.enter place) [c] u
    fun d hd => h.chars d (List.mem_cons_of_mem c hd)
  have hvalue : tokenExpr (u.reverse ++ [c]) = .ok e := by
    rw [tokenExpr, List.reverse_append, List.reverse_reverse]
    exact h.value
  refine ⟨(s.enter place).dispatched, ?_⟩
  rw [List.cons_append, run_cons hstep, run_append hfeed, run_token_end hr rfl hvalue hcs,
    Location.advance_cons, List.reverse_cons, List.append_assoc]
  rfl

/-- A written number is a token. -/
theorem spells_written (hr : reg.Lisp) {n : Numeral} (h : n.Digital) (he : n.expr = .ok e) :
    Spells reg n.written e := by
  have hfree : ∀ c ∈ n.written, reg.find? (.char c) = none :=
    fun c hc => hr.numeric c (Numeral.isNumeric_of_mem_written h hc)
  refine ⟨?_, ?_, ?_, ?_⟩
  · unfold Numeral.written
    exact List.append_ne_nil_of_right_ne_nil _ (List.append_ne_nil_of_left_ne_nil h.whole_ne_nil _)
  · intro c hc
    exact Registry.kindOf?_of_find? (hfree c (List.mem_of_head? hc))
  · intro c hc
    rw [endsToken, Text.isBlank_of_isNumeric (Numeral.isNumeric_of_mem_written h hc),
      Registry.isTerminating_of_find? (hfree c hc)]
    rfl
  · rw [Atom.ofToken_written h, he]

/-! ## Strings -/

theorem feed_escaped {opened : Location} {chars : List Char} :
    feed reg place { s with mode := .string opened chars false } (Datum.escaped c)
      = some { s with mode := .string opened (c :: chars) false } := by
  unfold Datum.escaped
  split
  · next h => subst h; rfl
  split
  · next h => subst h; rfl
  split
  · next h => subst h; rfl
  split
  · next h => subst h; rfl
  split
  · next h => subst h; rfl
  · next hback hquote _ _ _ =>
    rw [feed, step]
    simp only [hback, hquote, Bool.false_eq_true, if_false, feed_nil]

theorem feed_flatMap_escaped {opened : Location} {chars u : List Char} :
    feed reg place { s with mode := .string opened chars false } (u.flatMap Datum.escaped)
      = some { s with mode := .string opened (u.reverse ++ chars) false } := by
  induction u generalizing place chars with
  | nil => rfl
  | cons c u ih =>
    rw [List.flatMap_cons, feed_append feed_escaped, ih, List.reverse_cons, List.append_assoc,
      List.singleton_append]

theorem takes_literal (hr : reg.Lisp) (text : String) :
    Takes reg (Datum.literal text).toList (.str text) := by
  intro before place s cs hm hs hcs
  let u := text.toList.flatMap Datum.escaped
  let t : State := { s.enter place with mode := .string place text.toList.reverse false }
  have hliteral : (Datum.literal text).toList = '"' :: (u ++ ['"']) := by
    rw [Datum.literal, String.toList_ofList]
    rfl
  have hopen : step reg place s '"'
      = .more { s.enter place with mode := .string place [] false } := by
    rw [step_between hm, stepBetween_begin rfl hs (by decide), State.begin, hr.string]
    rfl
  have hfeed : feed reg (place.step '"') { s.enter place with mode := .string place [] false } u
      = some t := by
    rw [feed_flatMap_escaped, List.append_nil]
  have hclose : ∀ place, step reg place t '"' = t.close (.str text) t.frames := by
    intro place
    simp [step, t]
  refine ⟨(s.enter place).dispatched, ?_⟩
  rw [hliteral, List.cons_append, run_cons hopen, List.append_assoc, run_append hfeed,
    List.singleton_append, run_of_close (hclose _) rfl rfl]
  simp only [Location.advance_cons, Location.advance_append, List.reverse_cons,
    List.reverse_append, List.append_assoc, List.singleton_append]
  rfl

/-! ## Marks before a form -/

theorem takes_marked (mark : List Char) {p : List Char} {name : String} (h : Takes reg p e)
    (hmark : ∀ {place s}, s.mode = .between → s.Parenthesised → feed reg place s mark = some
      { s.enter place with mode := .between, frames := .operand name :: (s.enter place).frames }) :
    Takes reg (mark ++ p) (.list [.known name, e]) := by
  intro before place s cs hm hs hcs
  let t : State :=
    { s.enter place with mode := .between, frames := .operand name :: (s.enter place).frames }
  have ht : t.Parenthesised := by
    intro _ _ _ _ _ hf
    cases hf
  obtain ⟨noted, hrun⟩ := @h (mark.reverse ++ before) (place.advance mark) t cs rfl ht hcs
  refine ⟨noted, ?_⟩
  rw [List.append_assoc, run_append (hmark hm hs), hrun, enter_of_ne_nil (List.cons_ne_nil _ _),
    Location.advance_append, List.reverse_append, List.append_assoc]
  rfl

theorem takes_quote (hr : reg.Lisp) {p : List Char} (h : Takes reg p e) :
    Takes reg ('\'' :: p) (.list [.known "quote", e]) :=
  takes_marked ['\''] h fun hm hs => by
    rw [feed, step_between hm, stepBetween_begin rfl hs (by decide), State.begin, hr.quote]
    rfl

theorem step_dispatch (hr : reg.Lisp) (hm : s.mode = .between) (hs : s.Parenthesised) :
    step reg place s '#' = .more { s.enter place with mode := .pair '#' place } := by
  rw [step_between hm, stepBetween_begin rfl hs (by decide), State.begin, hr.dispatch]
  rfl

theorem takes_function (hr : reg.Lisp) {p : List Char} (h : Takes reg p e) :
    Takes reg ('#' :: '\'' :: p) (.list [.known "function", e]) :=
  takes_marked ['#', '\''] h fun hm hs => by
    rw [feed_cons (step_dispatch hr hm hs), feed, step]
    simp only [hr.function]
    rfl

/-! ## Lists -/

section Elements

variable {shape : Shape} {opened : Location} {fs : List Frame}

/-- The closer of the innermost frame completes the form of the frame. -/
theorem run_closer {items : List Expr} (hm : s.mode = .between) (hc : Text.isBlank c = false)
    (hf : s.frames = .delimited shape [c] opened items :: fs)
    (he : shape.build items.reverse = .ok e) :
    run reg before place s (c :: cs)
      = resume reg (c :: before) (place.step c) { s with frames := fs } e cs := by
  have hstep : step reg place s c = s.close e fs := by
    rw [step_between hm, State.stepBetween, hf]
    simp only [he, hc, Bool.false_eq_true, if_false, if_true]
  rw [run_of_close hstep rfl rfl]

/-- The texts of forms with blanks between them, up to the parenthesis that closes the form
around them. -/
theorem run_elements {ps : List (List Char)} {es : List Expr} (h : List.Forall₂ (Takes reg) ps es) :
    ∀ {before place s items}, s.mode = .between →
      s.frames = .delimited shape [')'] opened items :: fs →
      shape.build (items.reverse ++ es) = .ok e →
      ∃ noted, run reg before place s ([' '].intercalate ps ++ ')' :: cs)
        = resume reg (')' :: (([' '].intercalate ps).reverse ++ before))
            ((place.advance ([' '].intercalate ps)).step ')')
            { s with frames := fs, dispatched := noted } e cs := by
  induction h with
  | nil =>
    intro before place s items hm hf he
    rw [List.append_nil] at he
    exact ⟨s.dispatched, run_closer hm rfl hf he⟩
  | @cons p a ps es hp hps ih =>
    intro before place s items hm hf he
    have hne : s.frames ≠ [] := by rw [hf]; exact List.cons_ne_nil _ _
    have hs : s.Parenthesised := by
      intro shape' closer opened' items' fs' hf'
      rw [hf] at hf'
      cases hf'
      rfl
    -- behind the element, the list has it as its last element and reads on
    let t (noted : List Dispatch) : State :=
      ⟨.between, .delimited shape [')'] opened (a :: items) :: fs, s.start, noted⟩
    have hresume : ∀ {before place noted cs},
        resume reg before place { s with dispatched := noted } a cs
          = run reg before place (t noted) cs := by
      intro before place noted cs
      rw [resume, hf]
      rfl
    have hbuild : shape.build ((a :: items).reverse ++ es) = .ok e := by
      rw [List.reverse_cons, List.append_assoc]
      exact he
    cases hps with
    | nil =>
      rw [List.append_nil] at hbuild
      obtain ⟨noted, hrun⟩ := @hp before place s (')' :: cs) hm hs (follows_cons (.inr rfl))
      refine ⟨noted, ?_⟩
      rw [List.intercalate_singleton, hrun, enter_of_ne_nil hne, hresume,
        run_closer rfl rfl rfl hbuild]
      rfl
    | @cons q b qs es hq hqs =>
      have hblank : ∀ place noted, step reg place (t noted) ' ' = .more (t noted) :=
        fun place noted => by rw [step_between rfl, stepBetween_blank rfl]
      obtain ⟨met, hrun⟩ := @hp before place s
        (' ' :: ([' '].intercalate (q :: qs) ++ ')' :: cs)) hm hs (follows_cons (.inl rfl))
      obtain ⟨noted, htail⟩ := @ih ((' ' : Char) :: (p.reverse ++ before))
        ((place.advance p).step ' ') (t met) (a :: items) rfl rfl hbuild
      refine ⟨noted, ?_⟩
      rw [List.intercalate_cons_cons, List.append_assoc, List.append_assoc, List.singleton_append,
        hrun, enter_of_ne_nil hne, hresume, run_cons (hblank _ _), htail]
      simp only [Location.advance_append, Location.advance_cons, List.reverse_append,
        List.append_assoc, List.reverse_singleton]
      rfl

theorem takes_opened (mark : List Char) {shape : Shape} {ps : List (List Char)} {es : List Expr}
    (h : List.Forall₂ (Takes reg) ps es) (hbuild : shape.build es = .ok e)
    (hmark : ∀ {place s}, s.mode = .between → s.Parenthesised → ∃ met, feed reg place s mark = some
      ⟨.between, .delimited shape [')'] place [] :: (s.enter place).frames, (s.enter place).start,
        met⟩) :
    Takes reg (mark ++ ([' '].intercalate ps ++ [')'])) e := by
  intro before place s cs hm hs hcs
  obtain ⟨met, hfeed⟩ := @hmark place s hm hs
  obtain ⟨noted, hrun⟩ := @run_elements reg _ cs _ place _ _ _ h (mark.reverse ++ before)
    (place.advance mark) ⟨.between, .delimited shape [')'] place [] :: (s.enter place).frames,
      (s.enter place).start, met⟩ [] rfl rfl hbuild
  refine ⟨noted, ?_⟩
  rw [List.append_assoc, run_append hfeed, List.append_assoc, List.singleton_append, hrun]
  simp only [Location.advance_cons, Location.advance_append, List.reverse_cons,
    List.reverse_append, List.append_assoc, List.singleton_append]
  rfl

theorem takes_list (hr : reg.Lisp) {ps : List (List Char)} {es : List Expr}
    (h : List.Forall₂ (Takes reg) ps es) :
    Takes reg ('(' :: ([' '].intercalate ps ++ [')'])) (.list es) :=
  have hbuild : Shape.list.build es = .ok (.list es) := rfl
  takes_opened ['('] h hbuild fun {place s} hm hs => ⟨(s.enter place).dispatched, by
    rw [feed, step_between hm, stepBetween_begin rfl hs (by decide), State.begin, hr.listOpen]
    rfl⟩

end Elements

end Reader

end Sigil
