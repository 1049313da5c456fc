import Sigil.Proofs.Reader.Descent
import Sigil.Proofs.Reader.Resume

/-!
# Scans of the machine

A call of the descent stands for a stretch of a run of the machine. From the state in which the
call begins, the machine reads up to where the call stops, and goes on there with what the call
found (`Outcome.goOn`). Here this is shown for the calls that read the characters of one form
or comment, each by induction on the characters to come.
-/

namespace Sigil.Reader

variable {reg : Registry} {cur cur' : Cursor} {before cs : List Char} {c : Char}
  {place opened : Location} {s t : State} {e : Expr} {f : ReadFault} {α : Type}

/-! ## States -/

def State.noting (s : State) (ds : List Dispatch) : State :=
  { s with dispatched := ds.reverse ++ s.dispatched }

theorem noting_noting {ds ds' : List Dispatch} :
    (s.noting ds).noting ds' = s.noting (ds ++ ds') := by
  simp [State.noting]

@[simp] theorem dispatched_enter : (s.enter place).dispatched = s.dispatched := by
  unfold State.enter
  split <;> rfl

/-- The innermost frame, if there is one, waits for a single form. -/
def State.Waits (s : State) : Prop :=
  match s.frames with
  | .delimited .. :: _ => False
  | _ => True

theorem waits_of_frames (h : t.frames = s.frames) (hs : s.Waits) : t.Waits := by
  rw [State.Waits, h]
  exact hs

theorem step_of_waits (hm : s.mode = .between) (hs : s.Waits) (hblank : Text.isBlank c = false) :
    step reg place s c = State.begin reg (s.enter place) place c := by
  obtain ⟨mode, frames, start, dispatched⟩ := s
  rw [step_between hm, State.stepBetween, if_neg (by simp [hblank])]
  cases frames with
  | nil => rfl
  | cons frame fs =>
    cases frame with
    | delimited shape closer opened items => exact hs.elim
    | operand head => rfl
    | positional => rfl

/-- Two states that agree on the next character or on the end of the text read alike. -/
theorem run_congr (hfinish : cs = [] → finish place t = finish place s)
    (hstep : ∀ c ∈ cs.head?, step reg place t c = step reg place s c)
    (hstart : t.start = s.start) (hdisp : t.dispatched = s.dispatched) :
    run reg before place t cs = run reg before place s cs := by
  cases cs with
  | nil => rw [run, run, hfinish rfl, hdisp]
  | cons c cs => rw [run, run, hstep c rfl, hstart, hdisp]

theorem eq_of_delimiterStart {d : Char} (h : delimiterStart c = some d) : c = d := by
  unfold delimiterStart at h
  split at h
  · exact Option.some.inj h
  · cases h

namespace Descent

/-! ## Going on behind an outcome -/

namespace Outcome

/-- How the machine goes on behind a form or comment. -/
def goOn (reg : Registry) (s : State) (o : Outcome cur (Option Expr)) : Reading :=
  let t := s.noting o.noted
  match o.result with
  | .error (f, loc) => ⟨.failure f loc, o.rest, t.dispatched.reverse⟩
  | .ok none => runAt reg { t with mode := .between } o.rest
  | .ok (some e) => resume reg o.rest.before o.rest.loc t e o.rest.after

/-- How the machine goes on behind the form that it was looking for. -/
def goOnForm (reg : Registry) (s : State) (o : Outcome cur (Option (Expr × Location))) : Reading :=
  let t := s.noting o.noted
  match o.result with
  | .error (f, loc) => ⟨.failure f loc, o.rest, t.dispatched.reverse⟩
  | .ok none => ⟨cutOff o.rest.loc t.frames, o.rest, t.dispatched.reverse⟩
  | .ok (some (e, start)) => resume reg o.rest.before o.rest.loc (t.enter start) e o.rest.after

theorem goOn_widen {h : cur.Reaches cur'} {o : Outcome cur' (Option Expr)} :
    (o.widen h).goOn reg s = o.goOn reg s := rfl

theorem goOn_noting {ds : List Dispatch} {o : Outcome cur (Option Expr)} :
    (o.noting ds).goOn reg s = o.goOn reg (s.noting ds) := by
  simp only [goOn, noting, noting_noting]

/-- Behind a form the machine is between forms, whatever it was before. -/
theorem goOn_congr {o : Outcome cur (Option Expr)} (hframes : t.frames = s.frames)
    (hstart : t.start = s.start) (hdisp : t.dispatched = s.dispatched) :
    o.goOn reg t = o.goOn reg s := by
  obtain ⟨mode, frames, start, dispatched⟩ := t
  cases hframes
  cases hstart
  cases hdisp
  rfl

theorem goOnForm_widen {h : cur.Reaches cur'} {o : Outcome cur' (Option (Expr × Location))} :
    (o.widen h).goOnForm reg s = o.goOnForm reg s := rfl

/-- Outside every form the place of the form that is found counts. -/
theorem goOnForm_enter {o : Outcome cur (Option (Expr × Location))} {ds : List Dispatch}
    (hm : s.mode = .between) :
    o.goOnForm reg { (s.enter place).noting ds with mode := .between }
      = o.goOnForm reg (s.noting ds) := by
  obtain ⟨mode, frames, start, dispatched⟩ := s
  cases hm
  cases frames <;> rfl

theorem goOnForm_noting {ds : List Dispatch} {o : Outcome cur (Option (Expr × Location))} :
    (o.noting ds).goOnForm reg s = o.goOnForm reg (s.noting ds) := by
  simp only [goOnForm, noting, noting_noting]

end Outcome

/-! ## Scanning -/

theorem goOn_scanned_skip {k : Nat} {span : Option (α × Nat)} {g : α → α}
    {value : α → Option Expr} (hk : k ≤ cur.after.length) :
    (scanned cur (span.map (Prod.map g (· + k))) f opened value).goOn reg s
      = (scanned (cur.skip k) span f opened (value ∘ g)).goOn reg s := by
  cases span with
  | none =>
    have hend : cur.skip cur.after.length = (cur.skip k).skip (cur.skip k).after.length := by
      rw [Cursor.length_after_skip, ← Cursor.skip_add, Nat.add_sub_cancel' hk]
    simp only [scanned, Option.map_none, Outcome.goOn, Outcome.ofSkip, hend]
  | some p =>
    simp only [scanned, Option.map_some, Prod.map, Outcome.goOn, Outcome.ofSkip, Nat.add_comm _ k,
      Cursor.skip_add, Function.comp]

theorem run_string : ∀ {cs before place chars},
    run reg before place { s with mode := .string opened chars false } cs
      = (scanned ⟨before, cs, place⟩ (stringSpan cs) .openString opened
          fun text => some (.str (String.ofList (chars.reverse ++ text)))).goOn reg s
  | [], before, place, chars => rfl
  | c :: cs, before, place, chars => by
    by_cases hescape : c = '\\'
    · subst hescape
      have hstep : step reg place { s with mode := .string opened chars false } '\\'
          = .more { s with mode := .string opened chars true } := rfl
      rw [run_cons hstep]
      cases cs with
      | nil => rfl
      | cons d ds =>
        have hnext : step reg (place.step '\\') { s with mode := .string opened chars true } d
            = .more { s with mode := .string opened (unescape d :: chars) false } := rfl
        rw [run_cons hnext, run_string, stringSpan, if_pos rfl,
          goOn_scanned_skip (Nat.le_add_left 2 ds.length)]
        simp only [List.reverse_cons, List.append_assoc, List.singleton_append]
        rfl
    by_cases hquote : c = '"'
    · subst hquote
      have hclose : step reg place { s with mode := .string opened chars false } '"'
          = s.close (.str (String.ofList chars.reverse)) s.frames := rfl
      have hspan : stringSpan ('"' :: cs) = some ([], 1) := by cases cs <;> rfl
      rw [run_of_close hclose rfl rfl, hspan]
      simp only [scanned, List.append_nil]
      rfl
    · have hstep : step reg place { s with mode := .string opened chars false } c
          = .more { s with mode := .string opened (c :: chars) false } := by
        simp only [step, hescape, hquote, Bool.false_eq_true, if_false]
      rw [run_cons hstep, run_string, stringSpan_of_ne hescape hquote,
        goOn_scanned_skip (Nat.le_add_left 1 cs.length)]
      simp only [List.reverse_cons, List.append_assoc, List.singleton_append]
      rfl

theorem run_rawString : ∀ {cs before place chars},
    run reg before place { s with mode := .rawString opened chars false } cs
      = (scanned ⟨before, cs, place⟩ (rawSpan cs) .openRawString opened
          fun text => some (.str (String.ofList (chars.reverse ++ text)))).goOn reg s
  | [], before, place, chars => rfl
  | c :: cs, before, place, chars => by
    have hstep : step reg place { s with mode := .rawString opened chars false } c
        = .more { s with mode := .rawString opened (c :: chars) (c == '/') } := rfl
    rw [run_cons hstep]
    by_cases hend : c = '/' ∧ cs.head? = some '#'
    · obtain ⟨rfl, hhead⟩ := hend
      obtain ⟨ds, rfl⟩ : ∃ ds, cs = '#' :: ds := by
        cases cs with
        | nil => cases hhead
        | cons d ds => cases hhead; exact ⟨ds, rfl⟩
      have hclose : step reg (place.step '/')
            { s with mode := .rawString opened ('/' :: chars) true } '#'
          = s.close (.str (String.ofList chars.reverse)) s.frames := rfl
      rw [show ('/' == '/') = true from rfl, run_of_close hclose rfl rfl]
      simp only [rawSpan, List.head?_cons, and_self, if_true, scanned, List.append_nil]
      rfl
    · -- the slash, if it is one, did not start the terminator
      have hslash : run reg (c :: before) (place.step c)
            { s with mode := .rawString opened (c :: chars) (c == '/') } cs
          = run reg (c :: before) (place.step c)
            { s with mode := .rawString opened (c :: chars) false } cs := by
        refine run_congr (fun _ => rfl) (fun d hd => ?_) rfl rfl
        have hd : (c == '/' && d == '#') = false := by
          rw [Bool.and_eq_false_iff, beq_eq_false_iff_ne, beq_eq_false_iff_ne]
          by_cases hc : c = '/'
          · exact .inr fun h => hend ⟨hc, h ▸ hd⟩
          · exact .inl hc
        simp only [step, hd, Bool.false_and, Bool.false_eq_true, if_false]
      rw [hslash, run_rawString, rawSpan, if_neg hend,
        goOn_scanned_skip (Nat.le_add_left 1 cs.length)]
      simp only [List.reverse_cons, List.append_assoc, List.singleton_append]
      rfl

theorem run_lineComment : ∀ {cs before place},
    run reg before place { s with mode := .lineComment } cs
      = (Outcome.ofSkip ⟨before, cs, place⟩ (lineSpan cs) (.ok none)).goOn reg s
  | [], before, place => rfl
  | c :: cs, before, place => by
    have hstep : step reg place { s with mode := .lineComment } c
        = .more { s with mode := if c = '\n' then .between else .lineComment } := rfl
    rw [run_cons hstep, lineSpan]
    split
    · rfl
    · rw [run_lineComment]
      rfl

/-- Block comments are skipped up to the end of the outermost. -/
theorem run_blockComment : ∀ {cs before place depth},
    run reg before place { s with mode := .blockComment opened depth none } cs
      = (scanned ⟨before, cs, place⟩ (commentSpan depth cs) .openComment opened
          fun _ => none).goOn reg s
  | [], before, place, depth => rfl
  | [c], before, place, depth => by
    have hstep : step reg place { s with mode := .blockComment opened depth none } c
        = .more { s with mode := .blockComment opened depth (delimiterStart c) } := rfl
    rw [run_cons hstep]
    rfl
  | c :: d :: cs, before, place, depth => by
    have hstep : step reg place { s with mode := .blockComment opened depth none } c
        = .more { s with mode := .blockComment opened depth (delimiterStart c) } := rfl
    rw [run_cons hstep, commentSpan]
    by_cases hclose : c = '|' ∧ d = '#'
    · rw [if_pos hclose]
      obtain ⟨rfl, rfl⟩ := hclose
      have hnext : step reg (place.step '|')
            { s with mode := .blockComment opened depth (delimiterStart '|') } '#'
          = .more { s with mode :=
              if depth ≤ 1 then .between else .blockComment opened (depth - 1) none } := rfl
      rw [run_cons hnext]
      split
      · rfl
      · rw [run_blockComment, goOn_scanned_skip (Nat.le_add_left 2 cs.length)]
        rfl
    rw [if_neg hclose]
    by_cases hopen : c = '#' ∧ d = '|'
    · rw [if_pos hopen]
      obtain ⟨rfl, rfl⟩ := hopen
      have hnext : step reg (place.step '#')
            { s with mode := .blockComment opened depth (delimiterStart '#') } '|'
          = .more { s with mode := .blockComment opened (depth + 1) none } := rfl
      rw [run_cons hnext, run_blockComment,
        goOn_scanned_skip (Nat.le_add_left 2 cs.length)]
      rfl
    · -- the character is no half of a delimiter
      have hlast : run reg (c :: before) (place.step c)
            { s with mode := .blockComment opened depth (delimiterStart c) } (d :: cs)
          = run reg (c :: before) (place.step c)
            { s with mode := .blockComment opened depth none } (d :: cs) := by
        refine run_congr (fun _ => rfl) ?_ rfl rfl
        rintro _ ⟨⟩
        have hbar : ¬ (delimiterStart c = some '|' ∧ d = '#') := by
          rintro ⟨hc, hd⟩
          exact hclose ⟨eq_of_delimiterStart hc, hd⟩
        have hhash : ¬ (delimiterStart c = some '#' ∧ d = '|') := by
          rintro ⟨hc, hd⟩
          exact hopen ⟨eq_of_delimiterStart hc, hd⟩
        simp only [step, hbar, hhash, reduceCtorEq, false_and, if_false]
      rw [hlast, if_neg hopen, run_blockComment,
        goOn_scanned_skip (Nat.le_add_left 1 (d :: cs).length)]
      rfl

/-! ## Tokens -/

/-- What ends before the next character, a form or a fault, goes to the frames around it. -/
theorem run_ended {result : Except ReadFault Expr}
    (hfinish : finish place s = s.endAtEnd result opened place)
    (hstep : ∀ c ∈ cs.head?, step reg place s c = s.endBefore reg result opened place c) :
    run reg before place s cs = (Outcome.ofSkip ⟨before, cs, place⟩ 0
      ((result.map some).mapError (·, opened))).goOn reg s := by
  cases result with
  | ok e => exact run_end hfinish hstep
  | error f =>
    cases cs with
    | nil => rw [run, hfinish]; rfl
    | cons c cs => rw [run, hstep c rfl]; rfl

/-- Characters that are kept up to the end of a token, behind `chars`. -/
theorem run_kept {mode : List Char → Mode} {result : List Char → Except ReadFault Expr}
    {faultPlace : Location → Location}
    (hfinish : ∀ place chars, finish place { s with mode := mode chars }
      = State.endAtEnd { s with mode := mode chars } (result chars) (faultPlace place) place)
    (hends : ∀ place chars c, chars ≠ [] → endsToken reg c = true →
      step reg place { s with mode := mode chars } c = State.endBefore reg
        { s with mode := mode chars } (result chars) (faultPlace place) place c)
    (hkeep : ∀ place chars c, chars ≠ [] → endsToken reg c = false →
      step reg place { s with mode := mode chars } c = .more { s with mode := mode (c :: chars) }) :
    ∀ {cs before place chars}, chars ≠ [] →
      run reg before place { s with mode := mode chars } cs =
        let cur : Cursor := ⟨before, cs, place⟩
        let token := cs.takeWhile (!endsToken reg ·)
        (Outcome.ofSkip cur token.length (((result (token.reverse ++ chars)).map some).mapError
          (·, faultPlace (cur.skip token.length).loc))).goOn reg s
  | [], before, place, chars, _ => run_ended (hfinish place chars) nofun
  | c :: cs, before, place, chars, hchars => by
    cases hc : endsToken reg c with
    | true =>
      rw [List.takeWhile_cons_of_neg (by simp [hc])]
      refine run_ended (hfinish place chars) ?_
      rintro _ ⟨⟩
      exact hends place chars c hchars hc
    | false =>
      rw [run_cons (hkeep place chars c hchars hc),
        run_kept hfinish hends hkeep (List.cons_ne_nil c chars),
        List.takeWhile_cons_of_pos (by simp [hc])]
      simp only [List.reverse_cons, List.append_assoc, List.singleton_append]
      rfl

theorem run_atom {h : endsToken reg c = false} :
    run reg (c :: before) (place.step c) { s with mode := .token [c] } cs
      = (atom reg before c cs place h).goOn reg s := by
  have hkept := @run_kept reg s .token tokenExpr id (fun _ _ => rfl)
    (fun _ _ _ _ hc => by simp only [step, hc, if_true, id])
    (fun _ _ _ _ hc => by simp only [step, hc, Bool.false_eq_true, if_false])
  rw [hkept (List.cons_ne_nil c [])]
  simp only [atom, Outcome.goOn, Outcome.ofSkip, readToken_cons h, String.toList_ofList, tokenExpr,
    List.reverse_append, List.reverse_reverse, List.reverse_singleton, List.singleton_append, id]

theorem run_path {trigger : Trigger} :
    run reg before place { s with mode := .path trigger place [] } cs
      = (path reg trigger ⟨before, cs, place⟩).goOn reg s := by
  let t : State := { s with mode := .path trigger place [] }
  have hfinish : finish place t = t.endAtEnd (pathExpr trigger []) place place := rfl
  cases cs with
  | nil => exact run_ended hfinish nofun
  | cons c cs =>
    by_cases hstop : endsToken reg c || reg.isCloser c
    · -- there is no token
      have hpath : path reg trigger ⟨before, c :: cs, place⟩
          = .ofSkip _ 0 (((pathExpr trigger []).map some).mapError (·, place)) := by
        rw [Bool.or_eq_true] at hstop
        by_cases hcloser : reg.isCloser c
        · simp only [path, List.head?_cons, Option.any_some, hcloser, if_true]
          rfl
        · simp [path, hcloser, hstop.resolve_right hcloser]
      rw [hpath]
      refine run_ended hfinish ?_
      rintro _ ⟨⟩
      simp only [step, t, List.isEmpty_nil, Bool.true_and, hstop, if_true]
    · have hstep : step reg place t c = .more { s with mode := .path trigger place [c] } := by
        simp only [step, t, List.isEmpty_nil, Bool.true_and, hstop, Bool.false_eq_true, if_false]
      rw [Bool.or_eq_true, not_or, Bool.not_eq_true, Bool.not_eq_true] at hstop
      have hkept := @run_kept reg s (.path trigger place) (pathExpr trigger) (fun _ => place)
        (fun _ _ => rfl)
        (fun _ _ _ _ hc => by simp only [step, hc, Bool.true_or, if_true])
        (fun _ _ _ hchars hc => by
          simp only [step, hc, List.isEmpty_eq_false_iff.2 hchars, Bool.false_and, Bool.or_false,
            Bool.false_eq_true, if_false])
      rw [run_cons hstep, hkept (List.cons_ne_nil c [])]
      simp only [path, List.head?_cons, Option.any_some, hstop.2, Bool.false_eq_true, if_false,
        List.takeWhile_cons_of_pos, hstop.1, Bool.not_false, List.reverse_cons]
      rfl

end Descent

end Sigil.Reader
