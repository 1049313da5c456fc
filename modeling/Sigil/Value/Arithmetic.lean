import Sigil.Eval.Fault
import Sigil.Number.Nearest
import Sigil.Value.Basic

/-!
# Arithmetic

Whole numbers are unbounded, and truth values count among them. As soon as a double takes part
both operands are doubles, which fails for a whole number that is too large. A quotient of
whole numbers is whole when it can be, and otherwise the double nearest to the exact quotient.
-/

namespace Sigil.Value

def toDouble? : Value → Option (Except EvalFault Float)
  | .float x => some (.ok x)
  | v => v.integer?.map fun n => match Binary64.ofInt? n with
    | some x => .ok x
    | none => .error .integerTooLarge

def arithmetic (symbol : String) (whole : Int → Int → Int) (double : Float → Float → Float)
    (a b : Value) : Except EvalFault Value :=
  match a.integer?, b.integer? with
  | some m, some n => .ok (.int (whole m n))
  | _, _ => match a.toDouble?, b.toDouble? with
    | some x, some y => do
      let x ← x
      let y ← y
      return .float (double x y)
    | _, _ => .error (.unsupported symbol a.typeName b.typeName)

def add (a b : Value) : Except EvalFault Value := arithmetic "+" (· + ·) (· + ·) a b

def sub (a b : Value) : Except EvalFault Value := arithmetic "-" (· - ·) (· - ·) a b

def mul (a b : Value) : Except EvalFault Value := arithmetic "*" (· * ·) (· * ·) a b

def neg (a : Value) : Except EvalFault Value :=
  match a with
  | .float x => .ok (.float (-x))
  | a => match a.integer? with
    | some n => .ok (.int (-n))
    | none => .error (.unsupportedNegation a.typeName)

def div (a b : Value) : Except EvalFault Value :=
  match a.integer?, b.integer? with
  | some m, some n =>
    if n = 0 then .error .divisionByZero
    else if m % n = 0 then .ok (.int (m / n))
    else match Binary64.ofQuotient? m n with
      | some x => .ok (.float x)
      | none => .error .quotientTooLarge
  | _, _ => match a.toDouble?, b.toDouble? with
    | some x, some y => do
      let x ← x
      let y ← y
      if y == 0 then .error .floatDivisionByZero else return .float (x / y)
    | _, _ => .error (.unsupported "/" a.typeName b.typeName)

/-- A whole number within the index range of sequences. -/
def fitsIndex (n : Int) : Bool := -twoTo 63 ≤ n && n < twoTo 63

/-- Sequences longer than this are not built. -/
def lengthLimit : Nat := twoTo 32

/-- The number of copies in a repetition of something of the given length. Of something empty
there are none. -/
def copies (isText : Bool) (length : Nat) (count : Int) : Except EvalFault Nat :=
  if !fitsIndex count then .error .countTooLarge
  else if length = 0 then .ok 0
  else if isText && twoTo 63 ≤ count.toNat * length then .error .textTooLong
  else if lengthLimit < count.toNat * length then .error .outOfMemory
  else .ok count.toNat

end Sigil.Value
