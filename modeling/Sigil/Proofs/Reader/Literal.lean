import Sigil.Proofs.Reader.Reprinted

/-!
# Reading printed literals

With the default extensions `#v(...)` and `#h(...)` are read as the calls that build a vector and
a map. A symbol or a keyword that the reader gives back when something follows it (`ReadsAs`) is
given back wherever a form may start (`takes_sym_of_readsAs`, `takes_kw_of_readsAs`): its text is a
token, or it is the trigger of paths, for a path is longer than the name that it starts with.
-/

namespace Sigil

namespace Reader

open Sigil.Expr

variable {reg : Registry} {place : Location} {s t : State} {c : Char} {e : Expr}
  {frames : List Frame} {taken : Bool} {p : Expr → Prop}

/-! ## Where symbols and keywords come from -/

/-- A list or a string. -/
def Compound : Expr → Prop
  | list _ | str _ => True
  | _ => False

/-- A form that its last character ends is compound, and a path starts without characters. -/
def Verdict.Regular : Verdict → Prop
  | .more t => ∀ trigger opened chars, t.mode = .path trigger opened chars → chars = []
  | .complete e taken => taken = true → Compound e
  | .fail .. => True

/-- A form that is handed on is the form itself or part of a list. -/
theorem deliver_cases {e' : Expr} {fs : List Frame} (h : deliver e fs = .complete e') :
    e' = e ∨ ∃ es, e' = list es := by
  induction fs generalizing e with
  | nil => cases h; exact .inl rfl
  | cons f fs ih =>
    cases f with
    | delimited => cases h
    | operand head =>
      rcases ih h with rfl | hes
      · exact .inr ⟨_, rfl⟩
      · exact .inr hes
    | positional =>
      rcases ih h with rfl | hes
      · exact .inr ⟨_, rfl⟩
      · exact .inr hes

theorem regular_close (he : Compound e) : (s.close e frames).Regular := by
  unfold State.close
  split
  · next hd =>
    intro _
    rcases deliver_cases hd with rfl | ⟨es, rfl⟩
    · exact he
    · trivial
  · exact nofun

theorem regular_invoke {kind : HandlerKind} {cue : Cue} {after : Location} :
    (s.invoke kind cue place after).Regular := by
  cases kind with
  | listClose => trivial
  | pathAccess =>
    intro _ _ _ hm
    cases hm
    rfl
  | _ => exact nofun

theorem regular_begin : (State.begin reg s place c).Regular := by
  unfold State.begin
  split
  · exact nofun
  · exact regular_invoke

theorem compound_build {m : MapLiteral Expr} {sized : Bool} : Compound (m.build sized) := by
  have hmake : Compound (m.constructor sized) := trivial
  unfold MapLiteral.build
  generalize m.constructor sized = made at hmake
  induction m.pairs generalizing made with
  | nil => exact hmake
  | cons kv pairs ih => exact ih _ trivial

theorem compound_of_build {shape : Shape} {items : List Expr} (h : shape.build items = .ok e) :
    Compound e := by
  cases shape with
  | list | vector => cases h; trivial
  | map sized label =>
    cases hm : MapLiteral.ofItems label items with
    | error f => rw [Shape.build, buildMap, hm] at h; cases h
    | ok m =>
      rw [Shape.build, buildMap, hm] at h
      cases h
      exact compound_build

theorem regular_stepBetween : (s.stepBetween reg place c).Regular := by
  unfold State.stepBetween
  split
  · exact nofun
  · split
    · exact regular_begin
    · split
      · split
        · trivial
        · next he => exact regular_close (compound_of_build he)
      · exact regular_begin
    · exact regular_begin

theorem regular_endBefore {result : Except ReadFault Expr} {faultPlace : Location} :
    (s.endBefore reg result faultPlace place c).Regular := by
  unfold State.endBefore
  split
  · trivial
  · split
    · exact nofun
    · exact regular_stepBetween

/-- A character of a path is kept, and all others have regular verdicts. -/
theorem regular_step (reg : Registry) (place : Location) (s : State) (c : Char) :
    (step reg place s c).Regular ∨ ∃ trigger opened chars,
      s.mode = .path trigger opened chars ∧
        step reg place s c = .more { s with mode := .path trigger opened (c :: chars) } := by
  unfold step
  split
  · exact .inl regular_stepBetween
  · split
    · exact .inl regular_endBefore
    · exact .inl nofun
  · next hm =>
    split
    · exact .inl regular_endBefore
    · exact .inr ⟨_, _, _, hm, rfl⟩
  · split
    · exact .inl nofun
    · split
      · exact .inl nofun
      · split
        · exact .inl (regular_close trivial)
        · exact .inl nofun
  · split
    · exact .inl (regular_close trivial)
    · exact .inl nofun
  · refine .inl fun _ _ _ hm => ?_
    dsimp only at hm
    split at hm <;> cases hm
  · split
    · refine .inl fun _ _ _ hm => ?_
      dsimp only at hm
      split at hm <;> cases hm
    · split <;> exact .inl nofun
  · split
    · exact .inl trivial
    · exact .inl trivial
    · exact .inl regular_invoke
  · split
    · refine .inl fun _ _ _ hm => ?_
      cases hm
    · exact .inl trivial

/-- The characters of a path stand behind those that started it. -/
theorem exists_start_of_path {u : List Char} {trigger : Trigger} {opened : Location}
    {chars : List Char} (h : feed reg place .idle u = some t)
    (hm : t.mode = .path trigger opened chars) : ∃ w, w ≠ [] ∧ u = w ++ chars.reverse := by
  induction u using List.reverseRecOn generalizing t chars with
  | nil => cases h; cases hm
  | append_singleton u c ih =>
    obtain ⟨t', ht', hstep⟩ := feed_concat_cases h
    rcases regular_step reg (place.advance u) t' c with hreg | ⟨tr, o, cs, hm', hpath⟩
    · rw [hstep] at hreg
      rw [hreg _ _ _ hm]
      exact ⟨u ++ [c], List.append_ne_nil_of_right_ne_nil _ (List.cons_ne_nil _ _),
        by rw [List.reverse_nil, List.append_nil]⟩
    · rw [hstep] at hpath
      cases hpath
      cases hm
      obtain ⟨w, hw, rfl⟩ := ih ht' hm'
      exact ⟨w, hw, by rw [List.reverse_cons, List.append_assoc]⟩

/-- A form that is not compound is a token or a path outside every other form. -/
theorem finish_cases {start : Location} (h : finish place s = .form e start)
    (he : ¬ Compound e) :
    (∃ chars, s.mode = .token chars ∧ tokenExpr chars = .ok e) ∨
    ∃ trigger opened chars, s.mode = .path trigger opened chars ∧
      pathExpr trigger chars = .ok e := by
  have hend : ∀ {result opened}, s.endAtEnd result opened place = .form e start →
      result = .ok e := by
    intro result opened h
    cases result with
    | error f => cases h
    | ok e' =>
      simp only [State.endAtEnd] at h
      split at h
      · next hd =>
        cases h
        rcases deliver_cases hd with rfl | ⟨es, rfl⟩
        · rfl
        · exact absurd trivial he
      · exact absurd h cutOff_ne_form
  unfold finish at h
  split at h
  · exact absurd h cutOff_ne_form
  · exact absurd h cutOff_ne_form
  · next hm => exact .inl ⟨_, hm, hend h⟩
  · next hm => exact .inr ⟨_, _, _, hm, hend h⟩
  all_goals cases h

/-- A form that is not compound is found at the end of a part of the text. -/
theorem exists_finish_of_read {text : String} {start : Location}
    (h : (read reg (.ofText text)).found = .form e start) (he : ¬ Compound e) :
    ∃ u v t, text.toList = u ++ v ∧ feed reg Location.start .idle u = some t ∧
      finish (Location.start.advance u) t = .form e t.start := by
  change (run reg [] Location.start .idle text.toList).found = .form e start at h
  rcases run_form_cases h with ⟨t, ht, hfin⟩ | ⟨u, c, v, t, taken, htext, ht, hstep, -⟩
  · have hstart : start = t.start := start_of_finish hfin
    subst hstart
    exact ⟨_, [], t, (List.append_nil _).symm, ht, hfin⟩
  · have htaken : taken = false := by
      rcases regular_step reg (Location.start.advance u) t c with hreg | ⟨tr, o, cs, -, hpath⟩
      · rw [hstep] at hreg
        exact Bool.eq_false_iff.2 fun htaken => he (hreg htaken)
      · rw [hstep] at hpath
        cases hpath
    subst htaken
    exact ⟨u, c :: v, t, htext, ht, finish_of_complete hstep⟩

theorem holds_of_feed {u : List Char} (h : Produces reg p) (hs : s.Holds reg p)
    (hfeed : feed reg place s u = some t) : t.Holds reg p := by
  induction u generalizing place s with
  | nil => cases hfeed; exact hs
  | cons c u ih =>
    have hstep := @State.Holds.step reg p place s c h hs
    rw [feed] at hfeed
    split at hfeed
    · next s' hs' => rw [hs'] at hstep; exact ih hstep hfeed
    · cases hfeed

/-! ## Symbols and keywords -/

/-- The characters of a token are a token that spells its value. -/
theorem spells_of_token {chars : List Char} (hm : (Mode.token chars).Holds reg)
    (he : tokenExpr chars = .ok e) : Spells reg chars.reverse e := by
  obtain ⟨c, cs, hcs, hkind, hblank, hends⟩ := hm
  refine ⟨by rw [hcs]; exact List.cons_ne_nil c cs, ?_, ?_, he⟩
  · rw [hcs]
    rintro _ ⟨⟩
    exact hkind
  · intro d hd
    rw [hcs] at hd
    rcases List.mem_cons.1 hd with rfl | hd
    · rw [endsToken, hblank, Registry.isTerminating_of_kindOf? hkind]
      rfl
    · exact hends d hd

theorem exists_list_of_access {seg : Segment} {e' : Expr} (h : Path.access e seg = .ok e') :
    ∃ es, e' = list es := by
  unfold Path.access at h
  split at h
  · split at h
    · cases h
    · cases h; exact ⟨_, rfl⟩
  · cases hindex : Path.index seg.text.toList with
    | error f => rw [hindex] at h; cases h
    | ok n => rw [hindex] at h; cases h; exact ⟨_, rfl⟩

theorem exists_list_of_accesses {es : List Expr} {segs : List Segment}
    (h : Path.accesses (list es) segs = .ok e) : ∃ es', e = list es' := by
  induction segs generalizing es with
  | nil => cases h; exact ⟨es, rfl⟩
  | cons seg segs ih =>
    rw [Path.accesses] at h
    split at h
    · cases h
    · next he =>
      obtain ⟨es', rfl⟩ := exists_list_of_access he
      exact ih h

/-- A path is read as its trigger, as the symbol that it spells, or as a call. -/
theorem pathExpr_cases {trigger : Trigger} {chars : List Char}
    (h : pathExpr trigger chars = .ok e) :
    (chars = [] ∧ e = sym trigger.written .written) ∨
    (chars ≠ [] ∧ e = sym (String.ofList chars.reverse) .written) ∨ ∃ es, e = list es := by
  by_cases hchars : chars = []
  · subst hchars
    cases h
    exact .inl ⟨rfl, rfl⟩
  rw [pathExpr, if_neg (by simpa using hchars)] at h
  have hwritten := Path.written_split chars.reverse
  generalize Path.split chars.reverse = segs at h hwritten
  unfold Path.fold at h
  split at h
  · cases h
  · next seg segs =>
    split at h
    · next hbase =>
      cases segs with
      | nil =>
        cases h
        have hnone : seg.separator = none := by simpa [Segment.isBase] using hbase
        have htext : seg.text.toList = chars.reverse := by
          rw [← hwritten]
          simp [Segment.written, hnone]
        rw [← htext, String.ofList_toList]
        exact .inr (.inl ⟨hchars, rfl⟩)
      | cons seg' segs =>
        rw [Path.accesses] at h
        split at h
        · cases h
        · next he =>
          obtain ⟨es, rfl⟩ := exists_list_of_access he
          exact .inr (.inr (exists_list_of_accesses h))
    · cases h

/-- The extended reader reads the text as `e` when a blank or a closing parenthesis follows. -/
def ReadsAs (text : String) (e : Expr) : Prop :=
  ∀ next ∈ [" ", ")"], ∃ start, (read .extended (.ofText (text ++ next))).found = .form e start

theorem takes_trigger : Takes .extended ['@'] (sym "@" .written) := by
  intro before place s cs hm hs hcs
  let t : State := { s.enter place with
    mode := .path (.ofChar '@') (place.step '@') []
    dispatched := ⟨.ofChar '@', .pathAccess, place⟩ :: (s.enter place).dispatched }
  have hstep : step .extended place s '@' = .more t := by
    rw [step_between hm, stepBetween_begin rfl hs (by decide), State.begin]
    rfl
  have hend : run .extended ('@' :: before) (place.step '@') t cs
      = resume .extended ('@' :: before) (place.step '@') t (sym "@" .written) cs := by
    have hfinish : finish (place.step '@') t
        = t.endAtEnd (.ok (sym "@" .written)) (place.step '@') (place.step '@') := rfl
    refine run_end hfinish fun c hc => ?_
    have hends : endsToken .extended c = true :=
      endsToken_of_follows Registry.lisp_extended (hcs c hc)
    simp only [step, t, hends, Bool.true_or, if_true]
    rfl
  refine ⟨t.dispatched, ?_⟩
  rw [List.singleton_append, run_cons hstep, hend]
  rfl

/-- A symbol or a keyword that is read is a token, or a path behind what starts it. -/
theorem token_or_path {text : String} {start : Location}
    (h : (read reg (.ofText text)).found = .form e start) (he : ¬ Compound e)
    (hp : Produces reg p) :
    (∃ u, Spells reg u e) ∨ ∃ trigger w chars v, StartsPath reg trigger ∧ w ≠ [] ∧
      text.toList = w ++ chars.reverse ++ v ∧ (∀ d ∈ chars, endsToken reg d = false) ∧
      pathExpr trigger chars = .ok e := by
  obtain ⟨u, v, t, htext, hfeed, hfin⟩ := exists_finish_of_read h he
  have hmode := (holds_of_feed hp holds_idle hfeed).mode
  rcases finish_cases hfin he with ⟨chars, hm, hvalue⟩ | ⟨trigger, opened, chars, hm, hvalue⟩
  · rw [hm] at hmode
    exact .inl ⟨_, spells_of_token hmode hvalue⟩
  · rw [hm] at hmode
    obtain ⟨w, hw, rfl⟩ := exists_start_of_path hfeed hm
    exact .inr ⟨trigger, w, chars, v, hmode.1, hw, htext, hmode.2, hvalue⟩

/-- A symbol that is given back is a token, or it is the trigger of paths. -/
theorem takes_sym_of_readsAs {name : String} (h : ReadsAs name (sym name .written)) :
    Takes .extended name.toList (sym name .written) := by
  obtain ⟨start, hread⟩ := h " " List.mem_cons_self
  rcases token_or_path hread id produces_extended with
    ⟨u, hspells⟩ | ⟨trigger, w, chars, v, htrigger, hw, htext, hends, hpath⟩
  · rcases Atom.ofToken_cases hspells.value with (⟨k, hk⟩ | ⟨x, hx⟩) | ⟨_, hk, -⟩ | hsym
    · cases hk
    · cases hx
    · cases hk
    · have hname : name.toList = u := by rw [(sym.inj hsym).1, String.toList_ofList]
      rw [hname]
      exact @takes_of_spells _ _ Registry.lisp_extended _ hspells
  · rcases pathExpr_cases hpath with ⟨-, hsym⟩ | ⟨hchars, hsym⟩ | ⟨es, hes⟩
    · rw [(sym.inj hsym).1, written_of_startsPath_extended htrigger]
      exact takes_trigger
    · -- a path that is as long as the text ends with the blank behind the text
      exfalso
      have hname : chars.reverse = name.toList := by rw [(sym.inj hsym).1, String.toList_ofList]
      rw [hname, String.toList_append] at htext
      have hv : v = [] := by
        have hlen := congrArg List.length htext
        simp only [List.length_append] at hlen
        have hw : 0 < w.length := List.length_pos_iff.2 hw
        have hblank : " ".toList.length = 1 := rfl
        exact List.eq_nil_of_length_eq_zero (by omega)
      have hlast : ' ' ∈ chars := by
        have hne : name.toList ≠ [] := fun h => hchars (List.reverse_eq_nil_iff.1 (hname.trans h))
        obtain ⟨d, hd⟩ := Option.isSome_iff_exists.1 (List.getLast?_isSome.2 hne)
        have hget := congrArg List.getLast? htext
        rw [hv, List.append_nil, List.getLast?_append, List.getLast?_append, hd] at hget
        cases hget
        rw [← List.mem_reverse, hname]
        exact List.mem_of_getLast? hd
      exact absurd (hends ' ' hlast) (by decide)
    · cases hes

theorem takes_kw_of_readsAs {name : String} (h : ReadsAs (":" ++ name) (kw name)) :
    Takes .extended (":" ++ name).toList (kw name) := by
  obtain ⟨start, hread⟩ := h " " List.mem_cons_self
  rcases token_or_path hread id produces_extended with
    ⟨u, hspells⟩ | ⟨trigger, w, chars, v, -, -, -, -, hpath⟩
  · rcases Atom.ofToken_cases hspells.value with (⟨k, hk⟩ | ⟨x, hx⟩) | ⟨s, hk, hu, -⟩ | hsym
    · cases hk
    · cases hx
    · cases hk
      rw [String.toList_append]
      rw [hu] at hspells
      exact @takes_of_spells _ _ Registry.lisp_extended _ hspells
    · cases hsym
  · rcases pathExpr_cases hpath with ⟨-, hsym⟩ | ⟨-, hsym⟩ | ⟨es, hes⟩
    · cases hsym
    · cases hsym
    · cases hes

theorem takes_word {name : String} (hne : name.toList ≠ [])
    (hall : name.toList.all (fun c => c.isAlpha && !Text.isBlank c) = true)
    (hvalue : Atom.ofToken name.toList = .ok (sym name .written)) :
    Takes .extended name.toList (sym name .written) := by
  have hchars : ∀ c ∈ name.toList, c.isAlpha = true ∧ Text.isBlank c = false := by
    simpa using hall
  have hfree : ∀ c ∈ name.toList, Registry.extended.find? (.char c) = none :=
    fun c hc => Registry.find?_extended_of_isAlpha (hchars c hc).1
  refine @takes_of_spells _ _ Registry.lisp_extended _ ⟨hne, ?_, ?_, hvalue⟩
  · intro c hc
    exact Registry.kindOf?_of_find? (hfree c (List.mem_of_head? hc))
  · intro c hc
    rw [endsToken, (hchars c hc).2, Registry.isTerminating_of_find? (hfree c hc)]
    rfl

/-! ## Vectors and maps -/

theorem takes_dispatched (hr : reg.Lisp) (sub : Char) (kind : HandlerKind) (shape : Shape)
    (hkind : reg.kindOf? (Key.ofPair '#' sub) = some kind) (hdispatch : kind ≠ .dispatch)
    (hinvoke : ∀ (s : State) place after, ∃ noted,
      s.invoke kind (.pair '#' sub) place after
        = .more { s with mode := .opener shape (.ofPair '#' sub) place, dispatched := noted })
    {ps : List (List Char)} {es : List Expr} (h : List.Forall₂ (Takes reg) ps es)
    (hbuild : shape.build es = .ok e) :
    Takes reg ('#' :: sub :: '(' :: ([' '].intercalate ps ++ [')'])) e :=
  takes_opened ['#', sub, '('] h hbuild fun {place s} hm hs => by
    obtain ⟨met, hmet⟩ := hinvoke { s.enter place with mode := .pair '#' place } place
      ((place.step '#').step sub)
    have hpair : step reg (place.step '#') { s.enter place with mode := .pair '#' place } sub
        = .more ⟨.opener shape (.ofPair '#' sub) place, (s.enter place).frames,
            (s.enter place).start, met⟩ := by
      rw [step]
      simp only [hkind]
      cases kind <;> exact hmet
    refine ⟨met, ?_⟩
    rw [feed_cons (step_dispatch hr hm hs), feed_cons hpair]
    rfl

theorem takes_vector {ps : List (List Char)} {es : List Expr}
    (h : List.Forall₂ (Takes .extended) ps es) :
    Takes .extended ('#' :: 'v' :: '(' :: ([' '].intercalate ps ++ [')'])) (Expr.vector es) :=
  takes_dispatched Registry.lisp_extended 'v' .vector .vector rfl nofun (fun _ _ _ => ⟨_, rfl⟩) h rfl

theorem takes_map {ps : List (List Char)} {es : List Expr}
    (h : List.Forall₂ (Takes .extended) ps es)
    (hbuild : buildMap "#h(...)" false es = .ok e) :
    Takes .extended ('#' :: 'h' :: '(' :: ([' '].intercalate ps ++ [')'])) e :=
  takes_dispatched Registry.lisp_extended 'h' .map (.map false "#h(...)") rfl nofun
    (fun _ _ _ => ⟨_, rfl⟩) h hbuild

end Reader

end Sigil
