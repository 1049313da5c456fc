import Mathlib.Data.List.TakeWhile
import Sigil.Cursor
import Sigil.Proofs.Number.Numeral
import Sigil.Session.Report

/-!
# The source around a place

A report shows the line of source in which a place is, marked, with a caret under the column of the
place (`Report.Marks`). The places of a text count its line feeds, but its lines are cut at every
line boundary of Unicode; so the right line is shown up to the first line that has another boundary
in it, and no further (`Report.showsLine_iff`).
-/

namespace Sigil

/-! ## Lines -/

def Cursor.line (cur : Cursor) : List Char :=
  (cur.before.takeWhile (· != '\n')).reverse ++ cur.after.takeWhile (· != '\n')

theorem Cursor.skip_ofText {source : String} {q : Nat} (hq : q ≤ source.toList.length) :
    (ofText source).skip q = ⟨(source.toList.take q).reverse, source.toList.drop q,
      Location.start.advance (source.toList.take q)⟩ := by
  have hsplit : (ofText source).after = source.toList.take q ++ source.toList.drop q :=
    (List.take_append_drop q _).symm
  have hskip := skip_length hsplit
  rw [List.length_take_of_le hq] at hskip
  rw [hskip, ofText, List.append_nil]

namespace Text

variable {line u v cs : List Char} {c : Char}

/-- The only line boundary in the text is the line feed. -/
def OnlyFeeds (cs : List Char) : Prop := ∀ c ∈ cs, isLineBreak c = true → c = '\n'

theorem splitLinesFrom_newline : splitLinesFrom line ('\n' :: cs)
    = line.reverse :: splitLinesFrom [] cs := by
  rw [splitLinesFrom.eq_def]
  rfl

theorem splitLinesFrom_cons (h : isLineBreak c = false) :
    splitLinesFrom line (c :: cs) = splitLinesFrom (c :: line) cs := by
  rw [splitLinesFrom.eq_def]
  split
  · next heq => cases heq
  · next heq =>
    cases heq
    cases h
  · next heq =>
    cases heq
    rw [if_neg (Bool.eq_false_iff.1 h)]

/-- Every line boundary ends the line. -/
theorem exists_splitLinesFrom_cons (h : isLineBreak c = true) :
    ∃ rest, splitLinesFrom line (c :: cs) = line.reverse :: rest := by
  rw [splitLinesFrom.eq_def]
  split
  · next heq => cases heq
  · exact ⟨_, rfl⟩
  · next heq =>
    cases heq
    exact ⟨_, if_pos h⟩

theorem onlyFeeds_append : OnlyFeeds (u ++ v) ↔ OnlyFeeds u ∧ OnlyFeeds v := by
  simp only [OnlyFeeds, List.mem_append, or_imp, forall_and]

theorem drop_splitLinesFrom (hu : OnlyFeeds u) (hline : '\n' ∉ line) :
    (splitLinesFrom line (u ++ v)).drop (u.count '\n')
      = splitLinesFrom ((u.reverse ++ line).takeWhile (· != '\n')) v := by
  induction u generalizing line with
  | nil =>
    have hkeep : line.takeWhile (· != '\n') = line := by
      rw [List.takeWhile_eq_self_iff]
      intro c hc
      exact bne_iff_ne.2 fun heq => hline (heq ▸ hc)
    rw [List.reverse_nil, List.nil_append, List.nil_append, hkeep, List.count_nil, List.drop_zero]
  | cons c u ih =>
    have hrest : OnlyFeeds u := fun d hd => hu d (List.mem_cons_of_mem c hd)
    by_cases hc : c = '\n'
    · subst hc
      have hcut : (u.reverse ++ '\n' :: line).takeWhile (· != '\n')
          = u.reverse.takeWhile (· != '\n') := by
        rw [List.takeWhile_append]
        split
        · next hwhole =>
          have hsame := (List.takeWhile_prefix _).eq_of_length hwhole
          rw [hsame, List.takeWhile_cons_of_neg (by simp), List.append_nil]
        · rfl
      rw [List.count_cons_self, List.cons_append, splitLinesFrom_newline, List.drop_succ_cons,
        ih hrest List.not_mem_nil, List.reverse_cons, List.append_assoc, List.singleton_append,
        hcut, List.append_nil]
    · have hbreak : isLineBreak c = false :=
        Bool.eq_false_iff.2 fun h => hc (hu c List.mem_cons_self h)
      have hline' : '\n' ∉ c :: line := by
        rw [List.mem_cons, not_or]
        exact ⟨Ne.symm hc, hline⟩
      rw [List.count_cons_of_ne hc, List.cons_append, splitLinesFrom_cons hbreak, ih hrest hline',
        List.reverse_cons, List.append_assoc, List.singleton_append]

/-- The first line goes on to the first line boundary. -/
theorem head?_splitLinesFrom (h : line ≠ [] ∨ cs ≠ []) :
    (splitLinesFrom line cs).head?
      = some (line.reverse ++ cs.takeWhile (!isLineBreak ·)) := by
  induction cs generalizing line with
  | nil =>
    have hline : line ≠ [] := h.resolve_right (fun h => h rfl)
    have hempty : line.isEmpty = false := by simpa using hline
    rw [splitLinesFrom, hempty]
    simp
  | cons c cs ih =>
    cases hc : isLineBreak c with
    | true =>
      obtain ⟨rest, hrest⟩ := @exists_splitLinesFrom_cons line cs c hc
      rw [hrest, List.head?_cons, List.takeWhile_cons, hc]
      simp
    | false =>
      rw [splitLinesFrom_cons hc, ih (.inl (List.cons_ne_nil c line)), List.takeWhile_cons, hc]
      simp

theorem takeWhile_cons_of_ne (hc : c ≠ '\n') :
    (c :: cs).takeWhile (· != '\n') = c :: cs.takeWhile (· != '\n') := by
  simp [hc]

/-- A line reaches to its line feed when that is the first line boundary. -/
theorem takeWhile_eq_iff_onlyFeeds : cs.takeWhile (!isLineBreak ·) = cs.takeWhile (· != '\n') ↔
    OnlyFeeds (cs.takeWhile (· != '\n')) := by
  constructor
  · intro h c hc hbreak
    rw [← h] at hc
    have hnot := List.mem_takeWhile_imp hc
    rw [hbreak] at hnot
    cases hnot
  · intro h
    induction cs with
    | nil => rfl
    | cons c cs ih =>
      by_cases hc : c = '\n'
      · subst hc
        rfl
      · rw [takeWhile_cons_of_ne hc] at h ⊢
        have hbreak : isLineBreak c = false :=
          Bool.eq_false_iff.2 fun hbreak => hc (h c List.mem_cons_self hbreak)
        rw [List.takeWhile_cons_of_pos (by rw [hbreak]; rfl),
          ih fun d hd => h d (List.mem_cons_of_mem c hd)]

/-- The text up to the end of the line of an offset. -/
def throughLine (cs : List Char) (p : Nat) : List Char :=
  cs.take p ++ (cs.drop p).takeWhile (· != '\n')

theorem throughLine_prefix_succ (cs : List Char) (p : Nat) :
    throughLine cs p <+: throughLine cs (p + 1) := by
  unfold throughLine
  by_cases hp : p < cs.length
  · rw [List.take_succ_eq_append_getElem hp, List.drop_eq_getElem_cons hp, List.append_assoc,
      List.prefix_append_right_inj]
    by_cases hc : cs[p] = '\n'
    · rw [hc]
      exact List.nil_prefix
    · rw [takeWhile_cons_of_ne hc]
      exact List.prefix_refl _
  · simp only [List.take_of_length_le (Nat.le_of_not_lt hp),
      List.take_of_length_le (Nat.le_succ_of_le (Nat.le_of_not_lt hp)),
      List.drop_of_length_le (Nat.le_of_not_lt hp),
      List.drop_of_length_le (Nat.le_succ_of_le (Nat.le_of_not_lt hp)), List.prefix_refl]

theorem throughLine_prefix {q p : Nat} (h : q ≤ p) : throughLine cs q <+: throughLine cs p := by
  induction p, h using Nat.le_induction with
  | base => exact List.prefix_refl _
  | succ p hqp ih => exact ih.trans (throughLine_prefix_succ cs p)

end Text

/-! ## Marked lines -/

namespace Report

variable {l : Location} {source : String} {lines : List String} {text text' : List Char}
  {number col width indent indent' : Nat}

/-- What stands before the text of the marked line. -/
def gutter (indent number : Nat) : String :=
  "> " ++ String.ofList (List.replicate indent ' ') ++ toString number ++ " | "

/-- The lines show the text of the line with the number, marked, and below it a caret under its
column `col`. No other line is marked. -/
def Marks (lines : List String) (number col : Nat) (text : List Char) : Prop :=
  ∃ (above below : List String) (indent : Nat) (margin : String),
    lines = above ++ (gutter indent number ++ String.ofList text) :: (margin ++ "^") :: below ∧
      margin.length = (gutter indent number).length + (col - 1) ∧ '^' ∉ margin.toList ∧
        ∀ other ∈ above ++ (margin ++ "^") :: below, other.toList.head? ≠ some '>'

theorem eq_of_blanks {c c' : Char} {us vs : List Char} {m n : Nat} (hc : c ≠ ' ') (hc' : c' ≠ ' ')
    (h : List.replicate m ' ' ++ c :: us = List.replicate n ' ' ++ c' :: vs) :
    c :: us = c' :: vs := by
  induction m generalizing n with
  | zero =>
    cases n with
    | zero => exact h
    | succ n => exact absurd (List.cons.inj h).1 hc
  | succ m ih =>
    cases n with
    | zero => exact absurd (List.cons.inj h).1.symm hc'
    | succ n => exact ih (List.cons.inj h).2

theorem text_eq_of_gutter (h : gutter indent number ++ String.ofList text
      = gutter indent' number ++ String.ofList text') : text = text' := by
  have hne : Nat.toDigits 10 number ≠ [] := Nat.toDigits_ne_nil
  obtain ⟨d, ds, hdigits⟩ := List.exists_cons_of_ne_nil hne
  have hd : d ≠ ' ' := by
    rintro rfl
    cases Text.isAsciiDigit_of_mem_toDigits (hdigits ▸ List.mem_cons_self : ' ' ∈ _)
  have hlist := congrArg String.toList h
  simp only [gutter, String.toList_append, String.toList_ofList, String.append_assoc,
    List.append_cancel_left_eq, Nat.toString_eq_repr, Nat.toList_repr, hdigits,
    List.cons_append] at hlist
  have hsame := eq_of_blanks hd hd hlist
  simpa using hsame

theorem Marks.text_unique (h : Marks lines number col text) (h' : Marks lines number col text') :
    text = text' := by
  obtain ⟨above, below, indent, margin, rfl, -, -, hothers⟩ := h
  obtain ⟨above', below', indent', margin', hlines, -, -, hothers'⟩ := h'
  let marked (line : String) : Bool := decide (line.toList.head? = some '>')
  have hgutter : ∀ indent text, marked (gutter indent number ++ String.ofList text) = true :=
    fun _ _ => by simp [marked, gutter]
  have hfilter : ∀ {above below : List String} {indent text},
      (∀ other ∈ above ++ below, other.toList.head? ≠ some '>') →
      (above ++ (gutter indent number ++ String.ofList text) :: below).filter marked
        = [gutter indent number ++ String.ofList text] := by
    intro above below indent text hothers
    have hnone : ∀ {lines : List String}, (∀ other ∈ lines, other.toList.head? ≠ some '>') →
        lines.filter marked = [] := fun h =>
      List.filter_eq_nil_iff.2 fun other hother => by simpa [marked] using h other hother
    rw [List.filter_append, List.filter_cons_of_pos (hgutter _ _),
      hnone fun other h => hothers other (List.mem_append_left _ h),
      hnone fun other h => hothers other (List.mem_append_right _ h)]
    rfl
  have hline := congrArg (List.filter marked) hlines
  rw [hfilter hothers, hfilter hothers'] at hline
  exact text_eq_of_gutter (List.cons.inj hline).1

/-! ## The lines of a context -/

theorem length_toString_le {m n : Nat} (h : m ≤ n) : (toString m).length ≤ (toString n).length := by
  have hlength : ∀ k : Nat, (toString k).length = (Nat.toDigits 10 k).length := fun k => by
    rw [← String.length_toList, Nat.toString_eq_repr, Nat.toList_repr]
  have hpos : 0 < (Nat.toDigits 10 n).length := Nat.length_toDigits_pos
  have hn : n < 10 ^ (Nat.toDigits 10 n).length :=
    (Nat.length_toDigits_le_iff (by decide) hpos).1 (Nat.le_refl _)
  rw [hlength, hlength, Nat.length_toDigits_le_iff (by decide) hpos]
  exact Nat.lt_of_le_of_lt h hn

theorem head?_of_contextLine (h : number ≠ l.line) {other : String}
    (hother : other ∈ contextLine l width number text) : other.toList.head? ≠ some '>' := by
  have hhere : (number == l.line) = false := beq_eq_false_iff_ne.2 h
  simp only [contextLine, hhere, Bool.false_and, Bool.false_eq_true, if_false,
    List.mem_singleton] at hother
  rw [hother]
  simp

theorem contextLine_here (hcol : 1 ≤ l.col) :
    contextLine l width l.line text
      = [gutter (width - (toString l.line).length) l.line ++ String.ofList text,
          "  " ++ padded width "" ++ " | " ++ padded (l.col - 1) "" ++ "^"] := by
  have hne : l.col ≠ 0 := Nat.ne_of_gt hcol
  simp [contextLine, gutter, padded, hne, String.append_assoc]

theorem drop_take_around {α : Type} {above below : List α} {x : α} {k r : Nat}
    (hk : k ≤ above.length) :
    ((above ++ x :: below).take (above.length + 1 + r)).drop k
      = above.drop k ++ x :: below.take r := by
  have hlength : above.length + 1 = (above ++ [x]).length := by simp
  rw [← List.singleton_append, ← List.append_assoc, hlength, List.take_length_add_append,
    List.drop_append_of_le_length (by rw [← hlength]; omega),
    List.drop_append_of_le_length hk, List.append_assoc, List.singleton_append]

/-- Lines of source with their numbers, from `number` on. -/
def numbered (l : Location) (width number : Nat) : List (List Char) → List String
  | [] => []
  | text :: texts => contextLine l width number text ++ numbered l width (number + 1) texts

variable {texts above below : List (List Char)}

theorem flatMap_zipIdx_eq_numbered (first k : Nat) :
    ((texts.zipIdx k).flatMap fun (text, i) => contextLine l width (first + i) text)
      = numbered l width (first + k) texts := by
  induction texts generalizing k with
  | nil => rfl
  | cons text texts ih =>
    rw [List.zipIdx_cons, List.flatMap_cons, ih, numbered, Nat.add_assoc]

theorem numbered_append : numbered l width number (above ++ texts)
    = numbered l width number above ++ numbered l width (number + above.length) texts := by
  induction above generalizing number with
  | nil => rfl
  | cons text above ih =>
    rw [List.cons_append, numbered, ih, numbered, List.append_assoc, List.length_cons,
      Nat.add_assoc, Nat.add_comm 1]

theorem head?_of_numbered (h : l.line < number ∨ number + texts.length ≤ l.line) {other : String}
    (hother : other ∈ numbered l width number texts) : other.toList.head? ≠ some '>' := by
  induction texts generalizing number with
  | nil => cases hother
  | cons text texts ih =>
    rw [List.length_cons] at h
    rcases List.mem_append.1 hother with hother | hother
    · exact head?_of_contextLine (by omega) hother
    · exact ih (by omega) hother

/-- Of numbered lines the one at the place is marked. -/
theorem marks_numbered (hnumber : number + above.length = l.line) (hcol : 1 ≤ l.col)
    (hwidth : (toString l.line).length ≤ width) :
    Marks (numbered l width number (above ++ text :: below)) l.line l.col text := by
  refine ⟨numbered l width number above, numbered l width (l.line + 1) below,
    width - (toString l.line).length, "  " ++ padded width "" ++ " | " ++ padded (l.col - 1) "",
    ?_, ?_, by simp [padded], ?_⟩
  · rw [numbered_append, hnumber, numbered, contextLine_here hcol]
    rfl
  · simp only [gutter, padded, String.length_append, String.length_ofList, List.length_replicate,
      String.length_empty]
    have htwo : ("  " : String).length = 2 := rfl
    have hmark : ("> " : String).length = 2 := rfl
    omega
  · intro other hother
    rcases List.mem_append.1 hother with hother | hother
    · exact head?_of_numbered (.inr (Nat.le_of_eq hnumber)) hother
    · rcases List.mem_cons.1 hother with rfl | hother
      · simp
      · exact head?_of_numbered (.inl (Nat.lt_succ_self _)) hother

/-- The context of a place marks the line of the text that has its number. -/
theorem marks_context (hline : 1 ≤ l.line) (hcol : 1 ≤ l.col)
    (htext : (Text.splitLines source.toList)[l.line - 1]? = some text) :
    Marks (context source l) l.line l.col text := by
  obtain ⟨hlt, htext⟩ := List.getElem?_eq_some_iff.1 htext
  have hsplit : Text.splitLines source.toList = (Text.splitLines source.toList).take (l.line - 1)
      ++ text :: (Text.splitLines source.toList).drop (l.line - 1 + 1) := by
    rw [← htext, ← List.drop_eq_getElem_cons, List.take_append_drop]
  have hlength : ((Text.splitLines source.toList).take (l.line - 1)).length = l.line - 1 :=
    List.length_take_of_le (Nat.le_of_lt hlt)
  have hinside : ¬ (decide (l.line = 0)
      || decide ((Text.splitLines source.toList).length < l.line)) = true := by
    rw [Bool.or_eq_true, decide_eq_true_eq, decide_eq_true_eq]
    omega
  rw [context, if_neg hinside]
  generalize (Text.splitLines source.toList).take (l.line - 1) = above at hsplit hlength
  generalize (Text.splitLines source.toList).drop (l.line - 1 + 1) = below at hsplit
  have hreach : l.line + radius = above.length + 1 + radius := by omega
  have hfirst : max 1 (l.line - radius) - 1 ≤ above.length := by omega
  simp only [hsplit, hreach, drop_take_around hfirst, flatMap_zipIdx_eq_numbered]
  refine marks_numbered ?_ hcol (length_toString_le ?_)
  · rw [List.length_drop]
    omega
  · rw [List.length_append, List.length_drop, List.length_cons]
    omega

/-! ## Lines that are shown -/

/-- The context of an offset shows the line in which the offset is, and a caret under it. -/
def ShowsLine (source : String) (q : Nat) : Prop :=
  let cur := (Cursor.ofText source).skip q
  Marks (context source cur.loc) cur.loc.line cur.loc.col cur.line

variable {cur : Cursor}

/-- The line at a cursor that is behind no other line boundary than line feeds. -/
theorem getElem?_splitLines (hcur : cur.Placed) (hbefore : Text.OnlyFeeds cur.before.reverse)
    (hafter : cur.after ≠ []) : (Text.splitLines cur.text)[cur.loc.line - 1]?
      = some ((cur.before.takeWhile (· != '\n')).reverse
          ++ cur.after.takeWhile (!Text.isLineBreak ·)) := by
  have hline : cur.loc.line - 1 = cur.before.reverse.count '\n' := by
    rw [hcur, Location.advance_line]
    exact Nat.add_sub_cancel_left _ _
  have hdrop := @Text.drop_splitLinesFrom [] _ cur.after hbefore List.not_mem_nil
  rw [List.reverse_reverse, List.append_nil] at hdrop
  rw [← List.head?_drop, hline, Cursor.text, Text.splitLines, hdrop]
  exact Text.head?_splitLinesFrom (.inr hafter)

/-- Behind line feeds only, the line is shown when its end is the first line boundary. -/
theorem showsLine_iff_of_onlyFeeds {q : Nat} (hq : q < source.toList.length)
    (hbefore : Text.OnlyFeeds (source.toList.take q)) :
    ShowsLine source q ↔ Text.OnlyFeeds ((source.toList.drop q).takeWhile (· != '\n')) := by
  have hcur := (Cursor.placed_ofText source).skip q
  have htext : ((Cursor.ofText source).skip q).text = source.toList := Cursor.text_skip _ _
  rw [ShowsLine]
  rw [Cursor.skip_ofText (Nat.le_of_lt hq)] at hcur htext ⊢
  have hafter : source.toList.drop q ≠ [] :=
    List.ne_nil_of_length_pos (by rw [List.length_drop]; omega)
  have hline := getElem?_splitLines hcur (by rwa [List.reverse_reverse]) hafter
  rw [htext] at hline
  have hmarks := marks_context (by rw [Location.advance_line]; exact Nat.le_add_right _ _)
    (by rw [Location.advance_col]; exact Nat.le_add_right _ _) hline
  rw [← Text.takeWhile_eq_iff_onlyFeeds]
  constructor
  · intro h
    exact List.append_cancel_left (hmarks.text_unique h)
  · intro h
    rw [h] at hmarks
    exact hmarks

/-- Every character up to `p` is in a line that is shown, behind line feeds only. -/
theorem onlyFeeds_take_of_showsLine {p n : Nat} (hn : n ≤ p)
    (h : ∀ q ≤ p, q < source.toList.length → ShowsLine source q) :
    Text.OnlyFeeds (source.toList.take n) := by
  induction n with
  | zero => exact fun c hc => nomatch hc
  | succ n ih =>
    have hbefore := ih (Nat.le_of_succ_le hn)
    by_cases hlt : n < source.toList.length
    · have hline := (showsLine_iff_of_onlyFeeds hlt hbefore).1 (h n (Nat.le_of_succ_le hn) hlt)
      rw [List.take_succ_eq_append_getElem hlt, Text.onlyFeeds_append]
      refine ⟨hbefore, fun c hc hbreak => ?_⟩
      obtain rfl := List.mem_singleton.1 hc
      by_contra hne
      rw [List.drop_eq_getElem_cons hlt, Text.takeWhile_cons_of_ne hne] at hline
      exact hne (hline _ List.mem_cons_self hbreak)
    · rwa [List.take_of_length_le (by omega), ← List.take_of_length_le (Nat.not_lt.1 hlt)]

/-- The context shows the right line at every offset up to `p` exactly when the text has no line
boundary but line feeds up to the end of the line of `p`. -/
theorem showsLine_iff (source : String) (p : Nat) :
    (∀ q ≤ p, q < source.toList.length → ShowsLine source q) ↔
      Text.OnlyFeeds (Text.throughLine source.toList p) := by
  constructor
  · intro h
    have htake := onlyFeeds_take_of_showsLine (Nat.le_refl p) h
    refine Text.onlyFeeds_append.2 ⟨htake, ?_⟩
    by_cases hlt : p < source.toList.length
    · exact (showsLine_iff_of_onlyFeeds hlt htake).1 (h p (Nat.le_refl p) hlt)
    · rw [List.drop_of_length_le (Nat.not_lt.1 hlt)]
      exact fun c hc => nomatch hc
  · intro h q hq hlt
    have hthrough : Text.OnlyFeeds (Text.throughLine source.toList q) := fun c hc =>
      h c ((Text.throughLine_prefix hq).subset hc)
    obtain ⟨hbefore, hline⟩ := Text.onlyFeeds_append.1 hthrough
    exact (showsLine_iff_of_onlyFeeds hlt hbefore).2 hline

/-- A form feed counts as the end of a line for the context only: the line that is marked for the
place of the letter is empty. -/
theorem not_showsLine_formFeed : ¬ ShowsLine "\x0c\nx" 2 := by
  intro h
  have hmarks : Marks (context "\x0c\nx" ⟨2, 1⟩) 2 1 [] :=
    marks_context (by decide) (by decide) (by decide)
  have hline : ((Cursor.ofText "\x0c\nx").skip 2).line = [] := Marks.text_unique h hmarks
  revert hline
  decide

end Report

end Sigil
