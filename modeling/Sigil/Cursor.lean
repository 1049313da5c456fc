import Sigil.Location

/-!
# Cursors

A `Cursor` is a text and a place between two of its characters: what was read, last character
first, what is still to come, and the location of the next character. Reading and unreading
move one character. Every cursor on a text is `Placed`: its location is the one that the
characters read lead to.
-/

namespace Sigil

/-- A place in a text, between the characters read and those to come. -/
structure Cursor where
  /-- The characters read, last one first. -/
  before : List Char
  after : List Char
  /-- The place of the next character. -/
  loc : Location
  deriving DecidableEq

namespace Cursor

def ofText (s : String) : Cursor := ⟨[], s.toList, .start⟩

def text (cur : Cursor) : List Char := cur.before.reverse ++ cur.after

/-- The location is that after the characters read. -/
def Placed (cur : Cursor) : Prop := cur.loc = Location.start.advance cur.before.reverse

def pos (cur : Cursor) : Nat := cur.before.length

def atEnd (cur : Cursor) : Bool := cur.after.isEmpty

def peek? (cur : Cursor) : Option Char := cur.after.head?

/-- The cursor after the next character; at the end of the text nothing moves. -/
def next (cur : Cursor) : Cursor :=
  match cur.after with
  | [] => cur
  | c :: cs => ⟨c :: cur.before, cs, cur.loc.step c⟩

def unread? (cur : Cursor) : Option Cursor :=
  match cur.before with
  | [] => none
  | c :: cs => some ⟨cs, c :: cur.after, Location.start.advance cs.reverse⟩

def skip (cur : Cursor) : Nat → Cursor
  | 0 => cur
  | n + 1 => cur.next.skip n

def shown (cur : Cursor) : String :=
  "<CharStream line=" ++ toString cur.loc.line ++ " col=" ++ toString cur.loc.col ++ " eof="
    ++ (if cur.atEnd then "True" else "False") ++ ">"

@[simp] theorem text_next (cur : Cursor) : cur.next.text = cur.text := by
  unfold next
  split
  · rfl
  · next h => simp [text, h]

theorem text_of_unread? {cur back : Cursor} (h : cur.unread? = some back) :
    back.text = cur.text := by
  unfold unread? at h
  split at h
  · cases h
  · next hb => cases h; simp [text, hb]

theorem pos_le (cur : Cursor) : cur.pos ≤ cur.text.length := by
  simp [pos, text]

theorem pos_add_length_after (cur : Cursor) : cur.pos + cur.after.length = cur.text.length := by
  simp [pos, text]

theorem unread?_eq_none_iff {cur : Cursor} : cur.unread? = none ↔ cur.pos = 0 := by
  unfold unread? pos
  split <;> simp_all

theorem placed_ofText (s : String) : (ofText s).Placed := rfl

theorem Placed.next {cur : Cursor} (h : cur.Placed) : cur.next.Placed := by
  unfold Placed Cursor.next at *
  split
  · exact h
  · next c cs _ =>
    simp only [List.reverse_cons, Location.advance_append, Location.advance_cons,
      Location.advance_nil, h]

theorem placed_of_unread? {cur back : Cursor} (h : cur.unread? = some back) : back.Placed := by
  unfold unread? at h
  split at h
  · cases h
  · cases h
    rfl

/-! ## Skipping -/

@[simp] theorem length_after_next (cur : Cursor) :
    cur.next.after.length = cur.after.length - 1 := by
  unfold next
  split <;> simp_all

theorem length_after_skip (cur : Cursor) (n : Nat) :
    (cur.skip n).after.length = cur.after.length - n := by
  induction n generalizing cur with
  | zero => rfl
  | succ n ih =>
    rw [skip, ih, length_after_next]
    omega

theorem text_skip (cur : Cursor) (n : Nat) : (cur.skip n).text = cur.text := by
  induction n generalizing cur with
  | zero => rfl
  | succ n ih => rw [skip, ih, text_next]

theorem Placed.skip {cur : Cursor} (h : cur.Placed) (n : Nat) : (cur.skip n).Placed := by
  induction n generalizing cur with
  | zero => exact h
  | succ n ih => exact ih h.next

theorem take_pos_text (cur : Cursor) : cur.text.take cur.pos = cur.before.reverse := by
  rw [text, pos, ← List.length_reverse, List.take_left]

theorem drop_pos_text (cur : Cursor) : cur.text.drop cur.pos = cur.after := by
  rw [text, pos, ← List.length_reverse, List.drop_left]

theorem Placed.loc_eq {cur : Cursor} (h : cur.Placed) :
    cur.loc = Location.start.advance (cur.text.take cur.pos) := by
  rw [take_pos_text]
  exact h

theorem skip_add (cur : Cursor) (m n : Nat) : cur.skip (m + n) = (cur.skip m).skip n := by
  induction m generalizing cur with
  | zero => rw [Nat.zero_add]; rfl
  | succ m ih => rw [Nat.succ_add, skip, skip, ih]

theorem skip_length {cur : Cursor} {u v : List Char} (h : cur.after = u ++ v) :
    cur.skip u.length = ⟨u.reverse ++ cur.before, v, cur.loc.advance u⟩ := by
  induction u generalizing cur with
  | nil =>
    obtain ⟨before, after, loc⟩ := cur
    cases h
    rfl
  | cons c u ih =>
    obtain ⟨before, after, loc⟩ := cur
    obtain rfl : after = c :: (u ++ v) := h
    have hnext : (Cursor.mk before (c :: (u ++ v)) loc).skip (c :: u).length
        = (Cursor.mk (c :: before) (u ++ v) (loc.step c)).skip u.length := rfl
    rw [hnext, ih rfl]
    simp

end Cursor

end Sigil
