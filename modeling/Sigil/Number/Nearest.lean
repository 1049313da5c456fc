import Sigil.Number.Power

/-!
# The nearest double

`nearest? negative num den` is the double nearest to the quotient of two natural numbers with a sign, a
tie going to the even significand, unless it is out of range. Reading a decimal, widening a whole
number and dividing two whole numbers are all this one rounding.
-/

namespace Sigil.Binary64

/-- `num / den` rounded to the nearest whole number, a tie to the even one. -/
def roundDiv (num den : Nat) : Nat :=
  let q := num / den
  let r := num % den
  if 2 * r < den then q
  else if den < 2 * r then q + 1
  else q + q % 2

/-- The binary exponent of the last place of the double nearest to `num / den`, raised by
1074: the quotient has 53 binary digits before that place, or the exponent is the least one. -/
def lastPlace (num den : Nat) : Nat :=
  let e : Int := Int.ofNat num.log2 - Int.ofNat den.log2
  let below : Bool :=
    if 0 ≤ e then num < den * twoTo e.toNat else num * twoTo (-e).toNat < den
  (e - (if below then 1 else 0) - 52 + 1074).toNat

/-- The bits of the double nearest to `num / den`, were exponents not bounded above. -/
def nearestBits (num den : Nat) : Nat :=
  if num = 0 then 0
  else
    let place := lastPlace num den
    let m := if 1074 ≤ place then roundDiv num (den * twoTo (place - 1074))
      else roundDiv (num * twoTo (1074 - place)) den
    place * twoTo 52 + m

def infinityBits : Nat := 0x7FF * twoTo 52

/-- The double nearest to `num / den`, negated on request; none when it is out of range. -/
def nearest? (negative : Bool) (num den : Nat) : Option Float :=
  let bits := nearestBits num den
  if infinityBits ≤ bits then none
  else some (Float.ofBits (UInt64.ofNat (bits + (if negative then twoTo 63 else 0))))

def infinity (negative : Bool) : Float :=
  Float.ofBits (UInt64.ofNat (infinityBits + (if negative then twoTo 63 else 0)))

def ofInt? (n : Int) : Option Float := nearest? (n < 0) n.natAbs 1

def ofQuotient? (a b : Int) : Option Float :=
  nearest? ((a < 0) != (b < 0)) a.natAbs b.natAbs

/-- The double nearest to the decimal `digits * 10 ^ exponent`, infinite when that is out of
range. A decimal whose size is far out of range on either side is not computed. -/
def ofDecimal (negative : Bool) (digits : Nat) (exponent : Int) : Float :=
  let zero := Float.ofBits (if negative then 0x8000000000000000 else 0)
  if digits = 0 then zero
  else
    let size := exponent + ((Nat.toDigits 10 digits).length : Int)
    if size > 400 then infinity negative
    else if size < -400 then zero
    else
      let value := if 0 ≤ exponent then nearest? negative (digits * tenTo exponent.toNat) 1
        else nearest? negative digits (tenTo (-exponent).toNat)
      value.getD (infinity negative)

end Sigil.Binary64
