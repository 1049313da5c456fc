import Sigil.Location
import Sigil.Registry.Basic
import Sigil.Reader.Fault
import Sigil.Expr

/-!
# States of the reader

The reader is a pushdown machine that takes one character at a time. Its stack holds a
`Frame` for every form that is open, innermost first; its `Mode` says what the next character
belongs to. A state is all that a reading depends on besides the characters to come, so a
reading can be followed character by character and resumed anywhere.
-/

namespace Sigil.Reader

/-- What the elements between two delimiters become. -/
inductive Shape where
  | list
  | vector
  | map (sized : Bool) (label : String)

inductive Frame where
  /-- Elements, last one first, up to the character that `closer` consists of; a closer of any
  other length never comes. `opened` is where the form starts. -/
  | delimited (shape : Shape) (closer : List Char) (opened : Location) (items : List Expr)
  /-- A form `(head e)` that waits for `e`. -/
  | operand (head : String)
  /-- A positional function that waits for its body. -/
  | positional

/-- What the next character belongs to. Characters are kept last one first. -/
inductive Mode where
  | between
  | token (chars : List Char)
  | path (trigger : Trigger) (place : Location) (chars : List Char)
  | string (opened : Location) (chars : List Char) (escaped : Bool)
  /-- `slash`: the last character may start the terminator. -/
  | rawString (opened : Location) (chars : List Char) (slash : Bool)
  | lineComment
  /-- `last`: the last character, when it may be the first half of a delimiter. -/
  | blockComment (opened : Location) (depth : Nat) (last : Option Char)
  /-- After a dispatching character. -/
  | pair (lead : Char) (place : Location)
  /-- Before the list that a literal needs. -/
  | opener (shape : Shape) (trigger : Trigger) (opened : Location)

/-- A bound trigger as it was met in a text. -/
inductive Cue where
  | char (c : Char)
  | pair (lead sub : Char)

namespace Cue

def trigger : Cue → Trigger
  | char c => .ofChar c
  | pair lead sub => .ofPair lead sub

def lead : Cue → Char
  | char c => c
  | pair lead _ => lead

end Cue

structure Dispatch where
  trigger : Trigger
  kind : HandlerKind
  place : Location

def Dispatch.shown (d : Dispatch) : String :=
  "reader: dispatch " ++ d.trigger.shown ++ " -> " ++ d.kind.name ++ " at "
    ++ toString d.place.line ++ ":" ++ toString d.place.col

structure State where
  mode : Mode
  frames : List Frame
  /-- Where the outermost form starts. -/
  start : Location
  /-- The extensions met so far, last one first. -/
  dispatched : List Dispatch

def State.idle : State := ⟨.between, [], Location.start, []⟩

def State.inside (frame : Frame) : State := ⟨.between, [frame], Location.start, []⟩

def State.starting (mode : Mode) : State := ⟨mode, [], Location.start, []⟩

end Sigil.Reader
