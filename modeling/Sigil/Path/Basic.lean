import Sigil.Expr
import Sigil.Reader.Fault
import Sigil.Text.DecimalDigit

/-!
# Paths

`Path.split` cuts a token at its separators and `Path.fold` turns the segments into nested
accesses, so `name.field#3` stands for `(access-index (access-field name 'field) 3)`. A
separator at the very start belongs to the base. Main lemma: splitting loses nothing
(`written_split`).
-/

namespace Sigil.Path

/-- The offsets of the separators after the first character. -/
def separatorPositions (whole : List Char) : List Nat :=
  (List.range whole.length).filter fun i =>
    0 < i && (whole[i]?.bind Separator.ofChar?).isSome

/-- Cut a text before each of its separators; `text` holds, last character first, what the
current segment has. -/
def splitFrom (separator : Option Separator) (text : List Char) : List Char → List Segment
  | [] => [⟨separator, String.ofList text.reverse⟩]
  | c :: cs => match Separator.ofChar? c with
    | some next => ⟨separator, String.ofList text.reverse⟩ :: splitFrom (some next) [] cs
    | none => splitFrom separator (c :: text) cs

def split (whole : List Char) : List Segment :=
  match whole with
  | [] => [⟨none, ""⟩]
  | c :: cs => splitFrom none [c] cs

theorem written_splitFrom (separator : Option Separator) (text cs : List Char) :
    (splitFrom separator text cs).flatMap Segment.written
      = (separator.elim [] fun sep => [sep.char]) ++ text.reverse ++ cs := by
  induction cs generalizing separator text with
  | nil => simp [splitFrom, Segment.written]
  | cons c cs ih =>
    unfold splitFrom
    split
    · next sep h =>
      simp [Segment.written, ih, Separator.ofChar?_eq_some_iff.1 h]
    · simp [ih]

/-- Splitting loses nothing. -/
theorem written_split (whole : List Char) : (split whole).flatMap Segment.written = whole := by
  cases whole with
  | nil => rfl
  | cons c cs => simp [split, written_splitFrom]

/-- The number that an index segment writes: a row of ASCII digits, at most 4300 of them. -/
def index (text : List Char) : Except ReadFault Nat :=
  if text.isEmpty || !text.all Text.isAsciiDigit then .error (.badIndex (String.ofList text))
  else if 4300 < text.length then .error (.tooManyDigits text.length)
  else .ok (Text.digitsValue text)

def access (e : Expr) (s : Segment) : Except ReadFault Expr :=
  if s.isField then
    if s.text.isEmpty then .error .emptyField else .ok (e.accessField s.text)
  else (index s.text.toList).map e.accessIndex

def accesses (e : Expr) : List Segment → Except ReadFault Expr
  | [] => .ok e
  | s :: ss => match access e s with
    | .error f => .error f
    | .ok e => accesses e ss

def fold (segments : List Segment) : Except ReadFault Expr :=
  match segments with
  | [] => .error .noSegments
  | s :: ss => if s.isBase then accesses (.sym s.text .written) ss else .error (.noBase s)

end Sigil.Path
