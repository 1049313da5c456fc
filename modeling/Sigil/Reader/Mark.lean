import Sigil.Location
import Sigil.Text.Quoted

/-!
# Marks

A message about a text may name the place it is about. Of a `Mark` either half may be unknown,
and a message is located only when both are known. A caller may name any two numbers.
-/

namespace Sigil

/-- A place of which either half may be unknown. -/
structure Mark where
  line : Option Int
  col : Option Int
  deriving DecidableEq

def Location.mark (l : Location) : Mark := ⟨some (l.line : Int), some (l.col : Int)⟩

namespace Mark

def unknown : Mark := ⟨none, none⟩

/-- A message with its place after it, when both halves of the place are known. -/
def located (m : Mark) (message : String) : String :=
  match m.line, m.col with
  | some line, some col =>
    message ++ " (line " ++ toString line ++ ", col " ++ toString col ++ ")"
  | _, _ => message

def shownHalf (n : Option Int) : String := n.elim "None" toString

/-- An error of the category `name` in full. -/
def inFull (m : Mark) (name message : String) : String :=
  name ++ "(" ++ Text.quoted message ++ ", line=" ++ shownHalf m.line ++ ", col="
    ++ shownHalf m.col ++ ")"

end Mark

end Sigil
