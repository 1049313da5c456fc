import Mathlib.Data.List.Infix
import Sigil.Proofs.Reader.Relocation

/-!
# Block comments nest

What a block comment may hold is given by a grammar (`Nested`): characters other than the two of the
delimiters, and comments. The reader counts the comments that are open. Inside a comment a nested
text leads back to the same count (`feed_nested`), and no prefix of it leads out of the comment
(`stays_nested`). So the comment ends with its own closing delimiter, and what follows is read as a
text of its own; a part of the comment is an open comment (`readForms_comment`).
-/

namespace Sigil.Reader

/-- What may stand inside a block comment. -/
inductive Nested : List Char → Prop where
  | nil : Nested []
  | plain {c : Char} {cs : List Char} (hc : c ≠ '#' ∧ c ≠ '|') (h : Nested cs) : Nested (c :: cs)
  | comment {inner cs : List Char} (hinner : Nested inner) (h : Nested cs) :
      Nested ('#' :: '|' :: (inner ++ '|' :: '#' :: cs))

variable {reg : Registry} {place opened : Location} {s t : State} {c : Char} {u v cs : List Char}
  {depth : Nat}

/-! ## Steps in a comment -/

theorem step_plain (hm : s.mode = .blockComment opened depth none) (hc : c ≠ '#' ∧ c ≠ '|') :
    step reg place s c = .more s := by
  obtain ⟨mode, frames, start, dispatched⟩ := s
  cases hm
  simp [step, delimiterStart, hc.1, hc.2]

theorem step_half (hm : s.mode = .blockComment opened depth none) (hc : c = '#' ∨ c = '|') :
    step reg place s c = .more { s with mode := .blockComment opened depth (some c) } := by
  rcases hc with rfl | rfl <;> simp [step, hm, delimiterStart]

theorem step_openComment (hm : s.mode = .blockComment opened depth (some '#')) :
    step reg place s '|' = .more { s with mode := .blockComment opened (depth + 1) none } := by
  simp [step, hm]

/-- A closing delimiter closes the innermost comment, which may be the outermost one. -/
theorem step_closeComment (hm : s.mode = .blockComment opened (depth + 1) (some '|')) :
    step reg place s '#' = .more { s with
      mode := if depth = 0 then .between else .blockComment opened depth none } := by
  simp [step, hm]

/-! ## Nested texts -/

/-- Inside a comment a nested text changes nothing. -/
theorem feed_nested (h : Nested cs) (hm : s.mode = .blockComment opened (depth + 1) none) :
    feed reg place s cs = some s := by
  induction h generalizing place s depth with
  | nil => rfl
  | plain hc _ ih => rw [feed_cons (step_plain hm hc), ih hm]
  | comment _ _ ihinner ih =>
    have hback : { s with mode := .blockComment opened (depth + 1) none } = s := hm ▸ rfl
    rw [feed_cons (step_half hm (.inl rfl)), feed_cons (step_openComment rfl),
      feed_append (ihinner rfl), feed_cons (step_half rfl (.inr rfl)),
      feed_cons (step_closeComment rfl), if_neg (Nat.succ_ne_zero depth), hback, ih hm]

/-- Inside the comment that starts at `opened`. -/
def State.InComment (opened : Location) (s : State) : Prop :=
  ∃ depth last, s.mode = .blockComment opened depth last

/-- Every state on the way through the text is inside the comment. -/
def Stays (reg : Registry) (opened : Location) : Location → State → List Char → Prop
  | _, s, [] => s.InComment opened
  | place, s, c :: cs =>
    s.InComment opened ∧ ∃ t, step reg place s c = .more t ∧ Stays reg opened (place.step c) t cs

theorem Stays.append (h : Stays reg opened place s u) (hu : feed reg place s u = some t)
    (ht : Stays reg opened (place.advance u) t v) : Stays reg opened place s (u ++ v) := by
  induction u generalizing place s with
  | nil => cases hu; exact ht
  | cons c u ih =>
    obtain ⟨hs, t', hstep, hrest⟩ := h
    rw [feed_cons hstep] at hu
    exact ⟨hs, t', hstep, ih hrest hu ht⟩

/-- A prefix of the text leads to a state inside the comment. -/
theorem Stays.exists_feed (h : Stays reg opened place s cs) (hu : u <+: cs) :
    ∃ t, feed reg place s u = some t ∧ t.InComment opened := by
  induction u generalizing place s cs with
  | nil =>
    cases cs with
    | nil => exact ⟨s, rfl, h⟩
    | cons c cs => exact ⟨s, rfl, h.1⟩
  | cons c u ih =>
    obtain ⟨v, rfl⟩ := hu
    obtain ⟨-, t, hstep, hrest⟩ := h
    rw [feed_cons hstep]
    exact ih hrest (List.prefix_append u v)

/-- A nested text does not lead out of the comment that it stands in. -/
theorem stays_nested (h : Nested cs) (hm : s.mode = .blockComment opened (depth + 1) none) :
    Stays reg opened place s cs := by
  induction h generalizing place s depth with
  | nil => exact ⟨_, _, hm⟩
  | plain hc _ ih => exact ⟨⟨_, _, hm⟩, s, step_plain hm hc, ih hm⟩
  | comment hinner _ ihinner ih =>
    refine ⟨⟨_, _, hm⟩, _, step_half hm (.inl rfl), ⟨_, _, rfl⟩, _, step_openComment rfl, ?_⟩
    refine (ihinner rfl).append (feed_nested hinner rfl) ?_
    refine ⟨⟨_, _, rfl⟩, _, step_half rfl (.inr rfl), ⟨_, _, rfl⟩, _, step_closeComment rfl, ?_⟩
    rw [if_neg (Nat.succ_ne_zero depth)]
    exact ih rfl

/-! ## Comments -/

/-- The characters of a block comment. -/
def commentChars (cs : List Char) : List Char := '#' :: '|' :: (cs ++ ['|', '#'])

/-- The state behind the delimiter that opens a comment at the start of a text. -/
def State.commenting : State := ⟨.blockComment .start 1 none, [], .start, []⟩

theorem feed_start : feed .standard .start .idle ('#' :: '|' :: cs)
    = feed .standard ((Location.start.step '#').step '|') .commenting cs := rfl

/-- Behind a comment the reader is before a form, outside every form. -/
theorem exists_fresh_of_comment (h : Nested cs) :
    ∃ t, feed .standard .start .idle (commentChars cs) = some t ∧ t.Fresh := by
  refine ⟨⟨.between, [], .start, []⟩, ?_, rfl, rfl⟩
  rw [commentChars, feed_start, feed_append (feed_nested h rfl), feed_cons (step_half rfl (.inr rfl)),
    feed_cons (step_closeComment rfl)]
  rfl

theorem read_of_prefix_comment (h : Nested cs) (hu : u <+: commentChars cs)
    (hne : u ≠ commentChars cs) (hlen : 2 ≤ u.length) :
    (read .standard (.ofText (String.ofList u))).found = .failure .openComment .start := by
  have hsplit : commentChars cs = ('#' :: '|' :: (cs ++ ['|'])) ++ ['#'] := by simp [commentChars]
  rw [hsplit] at hu hne
  obtain ⟨v, rfl, hv⟩ : ∃ v, u = '#' :: '|' :: v ∧ v <+: cs ++ ['|'] := by
    have hprefix := (List.prefix_concat_iff.1 hu).resolve_left hne
    match u, hlen with
    | _ :: _ :: v, _ =>
      obtain ⟨rfl, hrest⟩ := List.cons_prefix_cons.1 hprefix
      obtain ⟨rfl, hv⟩ := List.cons_prefix_cons.1 hrest
      exact ⟨v, rfl, hv⟩
  have hlast : Stays .standard .start
      (((Location.start.step '#').step '|').advance cs) .commenting ['|'] :=
    ⟨⟨_, _, rfl⟩, _, step_half rfl (.inr rfl), ⟨_, _, rfl⟩⟩
  obtain ⟨t, hfeed, depth, last, hm⟩ :=
    ((stays_nested h rfl).append (feed_nested h rfl) hlast).exists_feed hv
  rw [read, runAt, Cursor.ofText, String.toList_ofList, run_of_feed (feed_start.trans hfeed),
    finish, hm]

/-- Reading goes on behind a block comment as at the start of a text: it finds the same forms and the
same fault, each at the place behind the comment that it has in the rest. A proper prefix of the
comment, at least as long as the opening delimiter, is an open comment at the start of the text. -/
theorem readForms_comment (h : Nested cs) (rest : String) :
    let comment := String.ofList (commentChars cs)
    let shift := Location.within (Location.start.advance (commentChars cs))
    (∀ u, shift (Location.start.advance u) = Location.start.advance (commentChars cs ++ u)) ∧
    (readForms .standard (.ofText (comment ++ rest))).forms
      = (readForms .standard (.ofText rest)).forms.map (Prod.map id shift) ∧
    (readForms .standard (.ofText (comment ++ rest))).fault
      = (readForms .standard (.ofText rest)).fault.map (Prod.map id shift) ∧
    ∀ u, u <+: commentChars cs → u ≠ commentChars cs → 2 ≤ u.length →
      ∃ f, readAll .standard (String.ofList u) = .error (f, .start) ∧
        f.category? = some .unterminatedList := by
  intro comment shift
  have htracks : Location.Tracks shift .start := Location.tracks_within _
  have hstart : shift .start = Location.start.advance (commentChars cs) :=
    Location.within_start _
  obtain ⟨t, hfeed, ht⟩ := exists_fresh_of_comment h
  have hread : Reading.Relocated shift (read .standard (.ofText rest))
      (read .standard (.ofText (comment ++ rest))) := by
    have htext : (comment ++ rest).toList = commentChars cs ++ rest.toList := by
      rw [String.toList_append, String.toList_ofList]
    rw [read, runAt, read, runAt, Cursor.ofText, Cursor.ofText, htext, run_append hfeed, ← hstart]
    exact (relocated_of_fresh fresh_idle ht).run htracks
  have hforms := hread.readForms htracks
  refine ⟨fun u => ?_, hforms.1, hforms.2, fun u hu hne hlen => ?_⟩
  · rw [htracks u, hstart, ← Location.advance_append]
  · exact ⟨.openComment, readAll_of_failure (read_of_prefix_comment h hu hne hlen), rfl⟩

/-- A comment of two lines with an empty comment in it, before a form and a fault; and the same
comment cut off inside the delimiter that closes the inner one. -/
theorem readForms_comment_lines :
    Nested ['a', '#', '|', '|', '#', '\n'] ∧
      (readForms .standard (.ofText "#|a#||#\n|#x )")).forms = [(.sym "x" .written, ⟨2, 3⟩)] ∧
      (readForms .standard (.ofText "#|a#||#\n|#x )")).fault
        = some (.strayCloser (.ofChar ')'), ⟨2, 5⟩) ∧
      ∃ f, readAll .standard "#|a#||" = .error (f, .start) ∧
        f.category? = some .unterminatedList := by
  have h : Nested ['a', '#', '|', '|', '#', '\n'] :=
    .plain (by decide) (.comment .nil (.plain (by decide) .nil))
  have hrest : (readForms .standard (.ofText "x )")).forms = [(.sym "x" .written, ⟨1, 1⟩)] ∧
      (readForms .standard (.ofText "x )")).fault
        = some (.strayCloser (.ofChar ')'), ⟨1, 3⟩) := by
    constructor <;> cbv
  obtain ⟨-, hforms, hfault, hcut⟩ := readForms_comment h "x )"
  rw [hrest.1] at hforms
  rw [hrest.2] at hfault
  exact ⟨h, hforms, hfault, hcut ['#', '|', 'a', '#', '|', '|'] (by decide) (by decide) (by decide)⟩

end Sigil.Reader
