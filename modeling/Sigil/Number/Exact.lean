import Sigil.Number.Power

/-!
# Exact values of numbers

Whole numbers and doubles are compared by their exact values, never by rounding one kind to
the other. `Binary64.exact` reads the value of a double off its 64 bits; `Extended.equal` and
`Extended.less` are the comparisons, in which the value that is no number takes no part.
-/

namespace Sigil

inductive Extended where
  | finite (q : Rat)
  | posInf
  | negInf
  | nan
  deriving DecidableEq

namespace Extended

def ofInt (n : Int) : Extended := .finite n

def equal : Extended → Extended → Bool
  | .finite p, .finite q => p == q
  | .posInf, .posInf => true
  | .negInf, .negInf => true
  | _, _ => false

def less : Extended → Extended → Bool
  | .finite p, .finite q => p < q
  | .finite _, .posInf => true
  | .negInf, .finite _ => true
  | .negInf, .posInf => true
  | _, _ => false

theorem equal_iff {a b : Extended} : equal a b = true ↔ a = b ∧ a ≠ .nan := by
  cases a <;> cases b <;> simp [equal]

end Extended

namespace Binary64

def isNegative (x : Float) : Bool := x.toBits.toNat / twoTo 63 == 1

def exponentField (x : Float) : Nat := x.toBits.toNat / twoTo 52 % twoTo 11

def fraction (x : Float) : Nat := x.toBits.toNat % twoTo 52

/-- A finite double is, up to its sign, `significand x * 2 ^ (scale x - 1074)`. -/
def significand (x : Float) : Nat :=
  if exponentField x = 0 then fraction x else fraction x + twoTo 52

def scale (x : Float) : Nat := exponentField x - 1

def exact (x : Float) : Extended :=
  if exponentField x = twoTo 11 - 1 then
    if fraction x ≠ 0 then .nan else if isNegative x then .negInf else .posInf
  else
    let m : Int := if isNegative x then -(significand x : Int) else significand x
    .finite (mkRat (m * twoTo (scale x)) (twoTo 1074))

/-- Neither infinite nor a value that is no number. -/
def isFinite (x : Float) : Bool := exponentField x != twoTo 11 - 1

end Binary64

end Sigil
