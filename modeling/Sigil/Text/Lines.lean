/-!
# Lines

`splitLines` cuts a text at every line boundary of Unicode, the pair of return and line feed
being one boundary; nothing after the last boundary is no line. `unifyNewlines` is the
weaker reading of a file, in which only returns count as line feeds, and `inputLines` cuts an
input at its line feeds alone.
-/

namespace Sigil.Text

def isLineBreak (c : Char) : Bool :=
  let n := c.toNat
  (0x0A ≤ n && n ≤ 0x0D) || (0x1C ≤ n && n ≤ 0x1E) || n == 0x85 || n == 0x2028 || n == 0x2029

/-- The lines of a text, `line` holding, last character first, what the current one has. -/
def splitLinesFrom (line : List Char) : List Char → List (List Char)
  | [] => if line.isEmpty then [] else [line.reverse]
  | '\r' :: '\n' :: cs => line.reverse :: splitLinesFrom [] cs
  | c :: cs =>
    if isLineBreak c then line.reverse :: splitLinesFrom [] cs
    else splitLinesFrom (c :: line) cs

def splitLines (cs : List Char) : List (List Char) := splitLinesFrom [] cs

/-- The lines of an input, `line` holding, last character first, what the current one has. -/
def inputLinesFrom (line : List Char) : List Char → List String
  | [] => if line.isEmpty then [] else [String.ofList line.reverse]
  | c :: cs =>
    if c = '\n' then String.ofList line.reverse :: inputLinesFrom [] cs
    else inputLinesFrom (c :: line) cs

def inputLines (cs : List Char) : List String := inputLinesFrom [] cs

/-- Every return, and every return with the line feed after it, becomes a line feed. -/
def unifyNewlines : List Char → List Char
  | [] => []
  | '\r' :: '\n' :: cs => '\n' :: unifyNewlines cs
  | '\r' :: cs => '\n' :: unifyNewlines cs
  | c :: cs => c :: unifyNewlines cs

end Sigil.Text
