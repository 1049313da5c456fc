import Sigil.Proofs.Reader.Faults
import Sigil.Proofs.Reader.Fresh

/-!
# The places of faults

A text is read, or it has a fault of some category at one of its own places, or it holds a number
with too many digits (`readAll_located`). The places that a fault can report are kept in the
state: where a frame was opened, where a string, a comment or a path began. Each is a place that
the reading has passed, and the characters of a token or of a path are the last ones read; both
are what one step leaves behind (`State.Recalls.step`).
-/

namespace Sigil

/-! ## Places of a text -/

/-- The place of an offset of the text, from its beginning to its end. -/
def Location.InText (text : String) (l : Location) : Prop :=
  ∃ i ≤ text.toList.length, ((Cursor.ofText text).skip i).loc = l

theorem Location.inText_advance {text : String} {u v : List Char} (h : text.toList = u ++ v) :
    (start.advance u).InText text := by
  refine ⟨u.length, by simp [h], ?_⟩
  have hskip : (Cursor.ofText text).skip u.length = ⟨u.reverse ++ [], v, start.advance u⟩ :=
    Cursor.skip_length h
  rw [hskip]

/-- A fault of some category, or a number in the text with too many digits. -/
def ReadFault.Explained (text : List Char) (f : ReadFault) : Prop :=
  f.category?.isSome = true ∨
    ∃ n token, f = .tooManyDigits n ∧ 4300 < n ∧ token <:+: text ∧ WritesNumber n token

theorem ReadFault.Explained.mono {text text' : List Char} {f : ReadFault} (h : f.Explained text)
    (ht : text <:+: text') : f.Explained text' := by
  rcases h with hcategory | ⟨n, token, hf, hn, htoken, hwrites⟩
  · exact .inl hcategory
  · exact .inr ⟨n, token, hf, hn, htoken.trans ht, hwrites⟩

theorem ReadFault.Explained.of_category {text : List Char} {f : ReadFault}
    {category : ReadCategory} (h : f.category? = some category) : f.Explained text := by
  rw [Explained, h]
  exact .inl rfl

namespace Reader

variable {reg : Registry} {P : Location → Prop} {before : List Char} {place loc : Location}
  {s t : State} {c : Char} {e : Expr} {f : ReadFault} {fs frames : List Frame}
  {chars : List Char}

/-- The reversed prefix of what was read last is a part of it. -/
theorem reverse_infix (h : chars <+: before) : chars.reverse <:+: before.reverse :=
  (List.reverse_suffix.2 h).isInfix

theorem explained_of_tokenExpr (hchars : chars <+: before) (h : tokenExpr chars = .error f) :
    f.Explained before.reverse := by
  obtain ⟨n, hf, hn, hwrites⟩ := tokenExpr_error h
  exact .inr ⟨n, _, hf, hn, reverse_infix hchars, hwrites⟩

theorem explained_of_pathExpr {trigger : Trigger} (hchars : chars <+: before)
    (h : pathExpr trigger chars = .error f) : f.Explained before.reverse := by
  rcases pathExpr_error h with hcategory | hcategory | ⟨n, hf, hn, hwrites⟩
  · exact .of_category hcategory
  · exact .of_category hcategory
  · exact .inr ⟨n, _, hf, hn, reverse_infix hchars, hwrites⟩

/-! ## What a state recalls -/

/-- The frame was opened at one of the places. -/
def Frame.Recalls (P : Location → Prop) : Frame → Prop
  | .delimited _ _ opened _ => P opened
  | .operand _ | .positional => True

/-- What the mode began at is one of the places, and the characters of a token or of a path are
the first ones of `before`. -/
def Mode.Recalls (P : Location → Prop) (before : List Char) : Mode → Prop
  | .between | .lineComment => True
  | .token chars => chars <+: before
  | .path _ opened chars => P opened ∧ chars <+: before
  | .string opened .. | .rawString opened .. | .blockComment opened .. | .pair _ opened
  | .opener _ _ opened => P opened

/-- All that the state holds was met in the text read so far, last character first. -/
structure State.Recalls (P : Location → Prop) (before : List Char) (s : State) : Prop where
  mode : s.mode.Recalls P before
  frames : ∀ f ∈ s.frames, f.Recalls P

/-- The reading goes on in such a state, or a fault is at one of the places and explained by the
text read so far. -/
def Verdict.Recalls (P : Location → Prop) (before : List Char) : Verdict → Prop
  | .more t => t.Recalls P before
  | .complete .. => True
  | .fail f loc _ => P loc ∧ f.Explained before.reverse

theorem recalls_idle : State.idle.Recalls P before := ⟨trivial, nofun⟩

theorem recalls_close (hfs : ∀ f ∈ fs, f.Recalls P) : (s.close e fs).Recalls P before := by
  unfold State.close
  split
  · trivial
  · next hd => exact ⟨trivial, forall_of_deliver id hfs hd⟩

theorem recalls_invoke {kind : HandlerKind} {cue : Cue} {opened after : Location}
    (hs : ∀ f ∈ s.frames, f.Recalls P) (hopened : P opened) (hafter : P after) :
    (s.invoke kind cue opened after).Recalls P before := by
  cases kind with
  | listClose => exact ⟨hopened, .inl rfl⟩
  | listOpen | fixedMap => exact ⟨trivial, List.forall_mem_cons.2 ⟨hopened, hs⟩⟩
  | quote | function | positionalLambda => exact ⟨trivial, List.forall_mem_cons.2 ⟨trivial, hs⟩⟩
  | string | dispatch | blockComment | vector | map => exact ⟨hopened, hs⟩
  | lineComment => exact ⟨trivial, hs⟩
  | rawString => exact ⟨hafter, hs⟩
  | pathAccess => exact ⟨⟨hafter, List.nil_prefix⟩, hs⟩

theorem recalls_begin (hs : ∀ f ∈ s.frames, f.Recalls P) (hplace : P place)
    (hafter : P (place.step c)) : (State.begin reg s place c).Recalls P (c :: before) := by
  unfold State.begin
  split
  · exact ⟨(List.cons_prefix_cons.2 ⟨rfl, List.nil_prefix⟩ : [c] <+: c :: before), hs⟩
  · exact recalls_invoke hs hplace hafter

theorem recalls_stepBetween (hs : ∀ f ∈ s.frames, f.Recalls P) (hplace : P place)
    (hafter : P (place.step c)) : (s.stepBetween reg place c).Recalls P (c :: before) := by
  unfold State.stepBetween
  split
  · exact ⟨trivial, hs⟩
  · split
    · exact recalls_begin hs hplace hafter
    · next shape closer opened items fs hf =>
      have hfs := hs
      rw [hf, List.forall_mem_cons] at hfs
      split
      · split
        · next hbuild => exact ⟨hfs.1, .of_category (category_of_build hbuild)⟩
        · exact recalls_close hfs.2
      · exact recalls_begin hs hplace hafter
    · exact recalls_begin hs hplace hafter

theorem recalls_endBefore {result : Except ReadFault Expr} {faultPlace : Location}
    (hs : ∀ f ∈ s.frames, f.Recalls P) (hplace : P place) (hafter : P (place.step c))
    (hfault : P faultPlace) (hresult : ∀ f, result = .error f → f.Explained before.reverse) :
    (s.endBefore reg result faultPlace place c).Recalls P (c :: before) := by
  unfold State.endBefore
  split
  · next f =>
    refine ⟨hfault, (hresult f rfl).mono ?_⟩
    rw [List.reverse_cons]
    exact (List.prefix_append _ _).isInfix
  · split
    · trivial
    · next hd => exact recalls_stepBetween (forall_of_deliver id hs hd) hplace hafter

/-- A character leaves nothing behind that was not met in the text. -/
theorem State.Recalls.step (h : s.Recalls P before) (hplace : P place)
    (hafter : P (place.step c)) : (step reg place s c).Recalls P (c :: before) := by
  obtain ⟨hmode, hs⟩ := h
  unfold Reader.step
  cases hm : s.mode with
  | between => exact recalls_stepBetween hs hplace hafter
  | token chars =>
    rw [hm] at hmode
    simp only
    split
    · exact recalls_endBefore hs hplace hafter hplace fun _ => explained_of_tokenExpr hmode
    · exact ⟨List.cons_prefix_cons.2 ⟨rfl, hmode⟩, hs⟩
  | path trigger opened chars =>
    rw [hm] at hmode
    simp only
    split
    · exact recalls_endBefore hs hplace hafter hmode.1 fun _ => explained_of_pathExpr hmode.2
    · exact ⟨⟨hmode.1, List.cons_prefix_cons.2 ⟨rfl, hmode.2⟩⟩, hs⟩
  | string opened chars escaped =>
    rw [hm] at hmode
    simp only
    split
    · exact ⟨hmode, hs⟩
    · split
      · exact ⟨hmode, hs⟩
      · split
        · exact recalls_close hs
        · exact ⟨hmode, hs⟩
  | rawString opened chars slash =>
    rw [hm] at hmode
    simp only
    split
    · exact recalls_close hs
    · exact ⟨hmode, hs⟩
  | lineComment =>
    refine ⟨?_, hs⟩
    simp only
    split <;> trivial
  | blockComment opened depth last =>
    rw [hm] at hmode
    simp only
    split
    · refine ⟨?_, hs⟩
      simp only
      split
      · trivial
      · exact hmode
    · split <;> exact ⟨hmode, hs⟩
  | pair lead opened =>
    rw [hm] at hmode
    simp only
    split
    · exact ⟨hmode, .inl rfl⟩
    · exact ⟨hmode, .inl rfl⟩
    · exact recalls_invoke hs hmode hafter
  | opener shape trigger opened =>
    rw [hm] at hmode
    simp only
    split
    · exact ⟨trivial, List.forall_mem_cons.2 ⟨hmode, hs⟩⟩
    · exact ⟨hplace, .inl rfl⟩

/-! ## The end of the text -/

theorem located_of_cutOff (hs : ∀ f ∈ fs, f.Recalls P) (hplace : P place)
    (h : cutOff place fs = .failure f loc) : P loc ∧ f.category?.isSome = true := by
  cases fs with
  | nil => cases h
  | cons g fs =>
    cases g with
    | delimited shape closer opened items => cases h; exact ⟨(List.forall_mem_cons.1 hs).1, rfl⟩
    | operand head => cases h; exact ⟨hplace, rfl⟩
    | positional => cases h; exact ⟨hplace, rfl⟩

theorem located_of_endAtEnd {result : Except ReadFault Expr} {faultPlace : Location}
    (hs : ∀ f ∈ s.frames, f.Recalls P) (hplace : P place) (hfault : P faultPlace)
    (hresult : ∀ f, result = .error f → f.Explained before.reverse)
    (h : s.endAtEnd result faultPlace place = .failure f loc) :
    P loc ∧ f.Explained before.reverse := by
  unfold State.endAtEnd at h
  split at h
  · cases h
    exact ⟨hfault, hresult _ rfl⟩
  · split at h
    · cases h
    · next hd =>
      obtain ⟨hloc, hcategory⟩ := located_of_cutOff (forall_of_deliver id hs hd) hplace h
      exact ⟨hloc, .inl hcategory⟩

/-- A fault at the end of the text is at one of the places and explained by the text. -/
theorem State.Recalls.finish (hs : s.Recalls P before) (hplace : P place)
    (h : finish place s = .failure f loc) : P loc ∧ f.Explained before.reverse := by
  obtain ⟨hmode, hframes⟩ := hs
  unfold Reader.finish at h
  cases hm : s.mode with
  | between | lineComment =>
    rw [hm] at h
    obtain ⟨hloc, hcategory⟩ := located_of_cutOff hframes hplace h
    exact ⟨hloc, .inl hcategory⟩
  | token chars =>
    rw [hm] at h hmode
    exact located_of_endAtEnd hframes hplace hplace (fun _ => explained_of_tokenExpr hmode) h
  | path trigger opened chars =>
    rw [hm] at h hmode
    exact located_of_endAtEnd hframes hplace hmode.1 (fun _ => explained_of_pathExpr hmode.2) h
  | string | rawString | blockComment | pair =>
    rw [hm] at h hmode
    cases h
    exact ⟨hmode, .inl rfl⟩
  | opener =>
    rw [hm] at h
    cases h
    exact ⟨hplace, .inl rfl⟩

/-! ## Readings -/

/-- A fault of a reading is at a place of its text and explained by it. -/
theorem State.Recalls.run {cs : List Char} (hs : s.Recalls P before)
    (hP : ∀ u, u <+: cs → P (place.advance u))
    (h : (run reg before place s cs).found = .failure f loc) :
    P loc ∧ f.Explained (before.reverse ++ cs) := by
  have hplace : P place := hP [] List.nil_prefix
  induction cs generalizing before place s with
  | nil => simpa using hs.finish hplace h
  | cons c cs ih =>
    have hafter : P (place.step c) := hP [c] (List.cons_prefix_cons.2 ⟨rfl, List.nil_prefix⟩)
    have hstep := @State.Recalls.step reg P before place s c hs hplace hafter
    unfold Reader.run at h
    cases hv : Reader.step reg place s c with
    | more t =>
      rw [hv] at h hstep
      have hrest := ih hstep (fun u hu => hP (c :: u) (List.cons_prefix_cons.2 ⟨rfl, hu⟩)) h hafter
      simpa using hrest
    | complete e taken =>
      rw [hv] at h
      cases h
    | fail fault place' taken =>
      rw [hv] at h hstep
      cases h
      refine ⟨hstep.1, hstep.2.mono ?_⟩
      rw [List.reverse_cons]
      exact ⟨[], cs, by simp⟩

theorem located_of_readForms {text : String} {cur : Cursor} (htext : cur.text = text.toList)
    (hloc : cur.Placed) (h : (readForms reg cur).fault = some (f, loc)) :
    loc.InText text ∧ f.Explained text.toList := by
  cases hfound : (read reg cur).found with
  | form e start =>
    have hlt : (read reg cur).rest.after.length < cur.after.length :=
      after_lt_of_read_form hfound
    rw [readForms_of_form hfound] at h
    exact located_of_readForms ((text_rest reg cur).trans htext) (placed_rest hloc) h
  | nothing =>
    rw [readForms_of_nothing hfound] at h
    cases h
  | failure fault place =>
    rw [readForms_of_failure hfound] at h
    cases h
    have hP : ∀ u, u <+: cur.after → (cur.loc.advance u).InText text := by
      rintro u ⟨v, hv⟩
      have hsplit : text.toList = cur.before.reverse ++ u ++ v := by
        rw [← htext, Cursor.text, ← hv, List.append_assoc]
      have hin := Location.inText_advance hsplit
      rwa [Location.advance_append, ← hloc] at hin
    have hfault := recalls_idle.run hP hfound
    exact htext ▸ hfault
termination_by cur.after.length

/-- A text has its forms, or a fault of some category at the place of one of its offsets, or it
holds a number with more digits than can be converted. No trigger is bound to a kind that has no
handler: whatever is bound starts its syntax, but for a closer, which is a fault at its place. -/
theorem readAll_located (reg : Registry) (text : String) :
    ((∃ forms, readAll reg text = .ok forms) ∨
      (∃ f loc, readAll reg text = .error (f, loc) ∧ f.category?.isSome = true ∧
        ∃ i ≤ text.toList.length, ((Cursor.ofText text).skip i).loc = loc) ∨
      ∃ n loc token, readAll reg text = .error (.tooManyDigits n, loc) ∧ 4300 < n ∧
        token <:+: text.toList ∧ WritesNumber n token) ∧
    ∀ (s : State) (kind : HandlerKind) (cue : Cue) (place after : Location),
      (∃ t, s.invoke kind cue place after = .more t) ∨
        kind = .listClose ∧
          s.invoke kind cue place after = .fail (.strayCloser cue.trigger) place true := by
  constructor
  · cases h : readAll reg text with
    | ok forms => exact .inl ⟨forms, rfl⟩
    | error fault =>
      obtain ⟨f, loc⟩ := fault
      obtain ⟨hloc, hcategory | ⟨n, token, rfl, hn, htoken, hwrites⟩⟩ :=
        located_of_readForms rfl (Cursor.placed_ofText text) (readAll_eq_error_iff.1 h)
      · exact .inr (.inl ⟨f, loc, rfl, hcategory, hloc⟩)
      · exact .inr (.inr ⟨n, loc, token, rfl, hn, htoken, hwrites⟩)
  · intro s kind cue place after
    cases kind with
    | listClose => exact .inr ⟨rfl, rfl⟩
    | listOpen | quote | string | lineComment | dispatch | function | blockComment | vector | map
    | fixedMap | rawString | positionalLambda | pathAccess => exact .inl ⟨_, rfl⟩

end Reader

end Sigil
