import Sigil.Text.Printable

/-!
# Quoted text

The quoted form of a text, as messages show it: in single quotes, or in double quotes when
the text holds a single quote and no double one. A backslash stands before the quote in use
and before itself, line feed, return and tab have letters of their own, and any other
character that is not printable is written by its code point, in two, four or eight
hexadecimal digits.
-/

namespace Sigil.Text

def hexDigits : Nat → Nat → List Char
  | 0, _ => []
  | width + 1, n => hexDigits width (n / 16) ++ [Nat.digitChar (n % 16)]

def codePoint (c : Char) : List Char :=
  if c.toNat < 0x100 then '\\' :: 'x' :: hexDigits 2 c.toNat
  else if c.toNat < 0x10000 then '\\' :: 'u' :: hexDigits 4 c.toNat
  else '\\' :: 'U' :: hexDigits 8 c.toNat

def quotedChar (q c : Char) : List Char :=
  if c = q ∨ c = '\\' then ['\\', c]
  else if c = '\n' then ['\\', 'n']
  else if c = '\r' then ['\\', 'r']
  else if c = '\t' then ['\\', 't']
  else if isPrintable c then [c]
  else codePoint c

/-- The quote that the quoted form of a text uses. -/
def quoteMark (cs : List Char) : Char :=
  if cs.contains '\'' && !cs.contains '"' then '"' else '\''

def quoted (s : String) : String :=
  let q := quoteMark s.toList
  String.ofList (q :: s.toList.flatMap (quotedChar q) ++ [q])

def quotedOne (c : Char) : String := quoted (String.singleton c)

end Sigil.Text
