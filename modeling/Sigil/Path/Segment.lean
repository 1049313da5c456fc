import Sigil.Text.Quoted

/-!
# Segments of a path

A path such as `name.field#3` is a base followed by steps; each step starts with its
separator.
-/

namespace Sigil

inductive Separator where
  | field
  | index
  deriving DecidableEq, Repr

namespace Separator

def char : Separator → Char
  | field => '.'
  | index => '#'

def ofChar? (c : Char) : Option Separator :=
  if c = '.' then some field else if c = '#' then some index else none

theorem ofChar?_eq_some_iff {c : Char} {s : Separator} : ofChar? c = some s ↔ c = s.char := by
  cases s <;> simp only [ofChar?, char] <;> split <;> simp_all

def ofText? (s : String) : Option Separator :=
  match s.toList with
  | [c] => ofChar? c
  | _ => none

end Separator

/-- A piece of a path and the separator before it; the base has none. -/
structure Segment where
  separator : Option Separator
  text : String
  deriving DecidableEq

namespace Segment

def isBase (s : Segment) : Bool := s.separator.isNone
def isField (s : Segment) : Bool := s.separator == some .field
def isIndex (s : Segment) : Bool := s.separator == some .index

def shown (s : Segment) : String :=
  "PathSegment(" ++ s.separator.elim "None" (Text.quotedOne ·.char) ++ ", "
    ++ Text.quoted s.text ++ ")"

def written (s : Segment) : List Char :=
  (s.separator.elim [] fun sep => [sep.char]) ++ s.text.toList

end Segment

def Separator.unknownMessage (s : String) : String :=
  "Unknown path separator: " ++ Text.quoted s

def Segment.shownAll (segments : List Segment) : String :=
  "[" ++ String.intercalate ", " (segments.map Segment.shown) ++ "]"

end Sigil
