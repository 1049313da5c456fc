import Mathlib.Data.List.Induction
import Sigil.Proofs.Reader.Extent

/-!
# The places of a cursor

A cursor that is moved about in a text keeps the place of its next character at hand. The place
can also be looked up: `lineStarts` is the table of the offsets at which lines start, a binary search
(`bisectRight`) counts those up to an offset, and the column counts from the last of them
(`Cursor.LooksUp`). Wherever `walk` takes a cursor, both give the same place, that of its offset
(`walk_exact`).
-/

namespace Sigil

/-! ## The table of line starts -/

/-- The offsets behind the line feeds of a text whose first character has offset `i`. -/
def startsFrom (i : Nat) : List Char → List Nat
  | [] => []
  | c :: cs => if c = '\n' then (i + 1) :: startsFrom (i + 1) cs else startsFrom (i + 1) cs

/-- The offsets at which the lines of a text start. -/
def lineStarts (text : List Char) : List Nat := 0 :: startsFrom 0 text

theorem startsFrom_append (i : Nat) (u v : List Char) :
    startsFrom i (u ++ v) = startsFrom i u ++ startsFrom (i + u.length) v := by
  induction u generalizing i with
  | nil => rfl
  | cons c u ih =>
    have hlen : i + (c :: u).length = i + 1 + u.length := by simp only [List.length_cons]; omega
    rw [List.cons_append, startsFrom, startsFrom, ih, hlen]
    split <;> rfl

theorem bounds_of_mem_startsFrom {i x : Nat} {cs : List Char} (h : x ∈ startsFrom i cs) :
    i < x ∧ x ≤ i + cs.length := by
  induction cs generalizing i with
  | nil => cases h
  | cons c cs ih =>
    have hrest : x ∈ startsFrom (i + 1) cs → i < x ∧ x ≤ i + (c :: cs).length := by
      intro hx
      have := ih hx
      rw [List.length_cons]
      omega
    rw [startsFrom] at h
    split at h
    · rcases List.mem_cons.1 h with rfl | h
      · rw [List.length_cons]
        omega
      · exact hrest h
    · exact hrest h

theorem lineStarts_append (u v : List Char) :
    lineStarts (u ++ v) = lineStarts u ++ startsFrom u.length v := by
  rw [lineStarts, startsFrom_append, Nat.zero_add]
  rfl

theorem le_of_mem_lineStarts {x : Nat} {u : List Char} (h : x ∈ lineStarts u) : x ≤ u.length := by
  rcases List.mem_cons.1 h with rfl | h
  · exact Nat.zero_le _
  · exact Nat.zero_add u.length ▸ (bounds_of_mem_startsFrom h).2

/-- The place behind a text: one line for each start, and the column counts from the last one. -/
theorem advance_eq_lineStarts (u : List Char) :
    ∃ s, (lineStarts u).getLast? = some s ∧ s ≤ u.length ∧
      Location.start.advance u = ⟨(lineStarts u).length, u.length - s + 1⟩ := by
  induction u using List.reverseRecOn with
  | nil => exact ⟨0, rfl, Nat.le_refl 0, rfl⟩
  | append_singleton u c ih =>
    obtain ⟨s, hlast, hle, hplace⟩ := ih
    rw [Location.advance_append, hplace, lineStarts_append]
    by_cases hc : c = '\n'
    · subst hc
      exact ⟨u.length + 1, by simp [startsFrom], by simp, by simp [startsFrom, Location.step]⟩
    · refine ⟨s, ?_, ?_, ?_⟩
      · simpa [startsFrom, hc] using hlast
      · rw [List.length_append]
        omega
      · simp only [startsFrom, hc, if_false, List.append_nil, List.length_append,
          List.length_singleton, Location.advance_cons, Location.advance_nil, Location.step,
          Location.mk.injEq, true_and]
        omega

/-! ## Binary search -/

/-- The index behind the last element of `xs` up to `x`, searched for between `lo` and `hi`. -/
def bisect (xs : List Nat) (x lo hi : Nat) (hhi : hi ≤ xs.length) : Nat :=
  if hlt : lo < hi then
    have hmid : (lo + hi) / 2 < xs.length := by omega
    if x < xs[(lo + hi) / 2] then bisect xs x lo ((lo + hi) / 2) (Nat.le_of_lt hmid)
    else bisect xs x ((lo + hi) / 2 + 1) hi hhi
  else lo
termination_by hi - lo

/-- The number of elements of the ordered list `xs` up to `x`, by binary search. -/
def bisectRight (xs : List Nat) (x : Nat) : Nat := bisect xs x 0 xs.length (Nat.le_refl _)

/-- The search keeps the border between the elements up to `x` and those beyond it. -/
theorem bisect_append {low high : List Nat} {x lo hi : Nat} {hhi : hi ≤ (low ++ high).length}
    (hlow : ∀ y ∈ low, y ≤ x) (hhigh : ∀ y ∈ high, x < y) (hl : lo ≤ low.length)
    (hh : low.length ≤ hi) : bisect (low ++ high) x lo hi hhi = low.length := by
  rw [bisect]
  split
  · next hlt =>
    have hmid : (lo + hi) / 2 < (low ++ high).length := by omega
    dsimp only
    by_cases hborder : (lo + hi) / 2 < low.length
    · have hle : (low ++ high)[(lo + hi) / 2] ≤ x := by
        rw [List.getElem_append_left hborder]
        exact hlow _ (List.getElem_mem hborder)
      rw [if_neg (Nat.not_lt.2 hle)]
      exact bisect_append hlow hhigh hborder hh
    · have hbeyond : x < (low ++ high)[(lo + hi) / 2] := by
        rw [List.getElem_append_right (Nat.not_lt.1 hborder)]
        exact hhigh _ (List.getElem_mem _)
      rw [if_pos hbeyond]
      exact bisect_append hlow hhigh hl (Nat.not_lt.1 hborder)
  · omega
termination_by hi - lo

theorem bisectRight_append {low high : List Nat} {x : Nat} (hlow : ∀ y ∈ low, y ≤ x)
    (hhigh : ∀ y ∈ high, x < y) : bisectRight (low ++ high) x = low.length := by
  refine bisect_append hlow hhigh (Nat.zero_le _) ?_
  rw [List.length_append]
  exact Nat.le_add_right _ _

namespace Cursor

variable {cur : Cursor}

/-! ## Walks -/

/-- A step of a program on a cursor. -/
inductive Move where
  | peek
  | read
  | unread

/-- What a step answers: the next character, if there is one; nothing; or that nothing can be
unread. -/
inductive Answer where
  | char (c : Option Char)
  | done
  | refused
  deriving DecidableEq

def move (cur : Cursor) : Move → Answer × Cursor
  | .peek => (.char cur.peek?, cur)
  | .read => (.char cur.peek?, cur.next)
  | .unread => match cur.unread? with
    | some back => (.done, back)
    | none => (.refused, cur)

def walk (cur : Cursor) (moves : List Move) : Cursor :=
  moves.foldl (fun cur m => (cur.move m).2) cur

/-- The offset after a step in a text of `length` characters. -/
def Move.offset (length pos : Nat) : Move → Nat
  | .peek => pos
  | .read => min (pos + 1) length
  | .unread => pos - 1

theorem text_move (cur : Cursor) (m : Move) : (cur.move m).2.text = cur.text := by
  cases m with
  | peek => rfl
  | read => exact text_next cur
  | unread =>
    simp only [move]
    split
    · next h => exact text_of_unread? h
    · rfl

theorem Placed.move (h : cur.Placed) (m : Move) : (cur.move m).2.Placed := by
  cases m with
  | peek => exact h
  | read => exact h.next
  | unread =>
    simp only [Cursor.move]
    split
    · next hback => exact placed_of_unread? hback
    · exact h

theorem pos_move (cur : Cursor) (m : Move) :
    (cur.move m).2.pos = m.offset cur.text.length cur.pos := by
  obtain ⟨before, after, loc⟩ := cur
  cases m with
  | peek => rfl
  | read => cases after <;> simp [move, Move.offset, next, pos, text]
  | unread => cases before <;> rfl

/-- Unreading is refused at the start of the text only. -/
theorem refused_iff : (cur.move .unread).1 = .refused ↔ cur.pos = 0 := by
  rw [← unread?_eq_none_iff]
  simp only [move]
  cases cur.unread? <;> simp

theorem eq_unread_of_refused {m : Move} (h : (cur.move m).1 = .refused) : m = .unread := by
  cases m with
  | peek | read => cases h
  | unread => rfl

theorem move_of_refused {m : Move} (h : (cur.move m).1 = .refused) : (cur.move m).2 = cur := by
  cases eq_unread_of_refused h
  simp only [move] at h ⊢
  split at h
  · cases h
  · rfl

theorem text_walk (cur : Cursor) (moves : List Move) : (cur.walk moves).text = cur.text := by
  induction moves generalizing cur with
  | nil => rfl
  | cons m moves ih => exact (ih (cur.move m).2).trans (text_move cur m)

theorem Placed.walk (h : cur.Placed) (moves : List Move) : (cur.walk moves).Placed := by
  induction moves generalizing cur with
  | nil => exact h
  | cons m moves ih => exact ih (h.move m)

/-- A walk goes where its steps lead. -/
theorem pos_walk (cur : Cursor) (moves : List Move) : (cur.walk moves).pos
    = moves.foldl (fun pos m => m.offset cur.text.length pos) cur.pos := by
  induction moves generalizing cur with
  | nil => rfl
  | cons m moves ih =>
    rw [List.foldl_cons, ← pos_move, ← text_move cur m]
    exact ih (cur.move m).2

/-! ## Places -/

/-- The place of the cursor is the one that the table of its text gives: the binary search finds the
line, the table holds the start of that line, and the column counts from there. -/
structure LooksUp (cur : Cursor) : Prop where
  line : bisectRight (lineStarts cur.text) cur.pos = cur.loc.line
  line_pos : 1 ≤ cur.loc.line
  col : ∃ s, (lineStarts cur.text)[cur.loc.line - 1]? = some s ∧ s ≤ cur.pos ∧
    cur.loc.col = cur.pos - s + 1

theorem Placed.looksUp (h : cur.Placed) : cur.LooksUp := by
  obtain ⟨s, hlast, hle, hplace⟩ := advance_eq_lineStarts cur.before.reverse
  rw [← h] at hplace
  have hpos : cur.before.reverse.length = cur.pos := List.length_reverse
  have htable : lineStarts cur.text
      = lineStarts cur.before.reverse ++ startsFrom cur.pos cur.after := by
    rw [text, lineStarts_append, hpos]
  have hcount : 1 ≤ (lineStarts cur.before.reverse).length := Nat.le_add_left _ _
  rw [hpos] at hle hplace
  refine ⟨?_, by rw [hplace]; exact hcount, s, ?_, hle, by rw [hplace]⟩
  · rw [htable, hplace]
    exact bisectRight_append (fun y hy => hpos ▸ le_of_mem_lineStarts hy)
      fun y hy => (bounds_of_mem_startsFrom hy).1
  · rw [htable, hplace, List.getElem?_append_left (by dsimp only; omega),
      ← List.getLast?_eq_getElem?]
    exact hlast

/-- The cursor is in the text, and its place is that of its offset: the line counts the line feeds
before it, and the column the characters since the last one. -/
structure Exact (text : List Char) (cur : Cursor) : Prop where
  text_eq : cur.text = text
  pos_le : cur.pos ≤ text.length
  peek? : cur.peek? = text[cur.pos]?
  line : cur.loc.line = 1 + (text.take cur.pos).count '\n'
  col : cur.loc.col = 1 + ((text.take cur.pos).reverse.takeWhile (· != '\n')).length
  table : cur.LooksUp

theorem Placed.exact (h : cur.Placed) : cur.Exact cur.text where
  text_eq := rfl
  pos_le := cur.pos_le
  peek? := by
    rw [Cursor.text, pos, ← List.length_reverse, List.getElem?_append_right (Nat.le_refl _),
      Nat.sub_self, peek?, List.head?_eq_getElem?]
  line := by rw [h.loc_eq, Location.advance_line]; rfl
  col := by rw [h.loc_eq, Location.advance_col]
  table := h.looksUp

/-- On one text, a cursor that is further on stands at a later place. -/
theorem Placed.before_iff {cur cur' : Cursor} (h : cur.Placed) (h' : cur'.Placed)
    (htext : cur'.text = cur.text) : cur.loc.Before cur'.loc ↔ cur.pos < cur'.pos := by
  have hloc : cur.loc = Location.start.advance (cur.text.take cur.pos) := h.loc_eq
  have hloc' : cur'.loc = Location.start.advance (cur.text.take cur'.pos) := htext ▸ h'.loc_eq
  constructor
  · intro hbefore
    by_contra hge
    rcases Nat.lt_or_eq_of_le (Nat.not_lt.1 hge) with hlt | heq
    · have hback : cur'.loc.Before cur.loc := by
        rw [hloc, hloc']
        exact Location.advance_take_before .start hlt cur.pos_le
      exact hbefore.asymm hback
    · have hsame : cur'.loc = cur.loc := by rw [hloc, hloc', heq]
      rw [hsame] at hbefore
      exact hbefore.asymm hbefore
  · intro hlt
    rw [hloc, hloc']
    exact Location.advance_take_before .start hlt (htext ▸ cur'.pos_le)

theorem Placed.loc_eq_iff {cur cur' : Cursor} (h : cur.Placed) (h' : cur'.Placed)
    (htext : cur'.text = cur.text) : cur.loc = cur'.loc ↔ cur.pos = cur'.pos := by
  rw [h.loc_eq, h'.loc_eq, htext]
  refine ⟨Location.advance_take_injective .start cur.pos_le (htext ▸ cur'.pos_le), ?_⟩
  intro hpos
  rw [hpos]

/-- Wherever steps take a cursor in a text: it stays in the text, at the offset that the steps count,
and its place is exactly that of the offset, as a search in the table of line starts finds it too. Only
unreading at the start of the text is refused, and changes nothing. Every offset can be reached, and
the places of two offsets are different and in the order of the offsets. -/
theorem walk_exact (text : String) :
    (∀ moves, ((ofText text).walk moves).Exact text.toList ∧
      ((ofText text).walk moves).pos
        = moves.foldl (fun pos m => m.offset text.toList.length pos) 0) ∧
    (∀ moves, let cur := (ofText text).walk moves
      ((cur.move .unread).1 = .refused ↔ cur.pos = 0) ∧
      ∀ m, (cur.move m).1 = .refused → m = .unread ∧ (cur.move m).2 = cur) ∧
    (∀ i, ∃ moves, ((ofText text).walk moves).pos = min i text.toList.length) ∧
    ∀ moves moves', let cur := (ofText text).walk moves
      let cur' := (ofText text).walk moves'
      (cur.loc.Before cur'.loc ↔ cur.pos < cur'.pos) ∧ (cur.loc = cur'.loc ↔ cur.pos = cur'.pos) := by
  have hplaced : ∀ moves, ((ofText text).walk moves).Placed := (placed_ofText text).walk
  have htext : ∀ moves, ((ofText text).walk moves).text = text.toList := text_walk (ofText text)
  have hpos : ∀ moves, ((ofText text).walk moves).pos
      = moves.foldl (fun pos m => m.offset text.toList.length pos) 0 := pos_walk (ofText text)
  refine ⟨fun moves => ⟨?_, hpos moves⟩, fun moves => ⟨refused_iff, ?_⟩, ?_, ?_⟩
  · exact htext moves ▸ (hplaced moves).exact
  · exact fun m h => ⟨eq_unread_of_refused h, move_of_refused h⟩
  · intro i
    induction i with
    | zero => exact ⟨[], by simp [hpos]⟩
    | succ i ih =>
      obtain ⟨moves, hi⟩ := ih
      refine ⟨moves ++ [.read], ?_⟩
      rw [hpos, List.foldl_append, ← hpos, hi]
      simp only [List.foldl_cons, List.foldl_nil, Move.offset]
      omega
  · intro moves moves'
    have hsame := (htext moves').trans (htext moves).symm
    exact ⟨(hplaced moves).before_iff (hplaced moves') hsame,
      (hplaced moves).loc_eq_iff (hplaced moves') hsame⟩

/-- Two line feeds in a row, and one at the end of the text. -/
example : [0, 1, 2, 3, 4].map (fun n => ((ofText "a\n\n\n").walk (List.replicate n .read)).loc)
    = [⟨1, 1⟩, ⟨1, 2⟩, ⟨2, 1⟩, ⟨3, 1⟩, ⟨4, 1⟩] := by
  decide

end Cursor

end Sigil
