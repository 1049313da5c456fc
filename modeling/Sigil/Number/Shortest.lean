import Sigil.Number.Exact

/-!
# The shortest decimal of a double

A finite double is written with the fewest significant digits that read back as the same
double; of several such decimals the nearest is taken, and of two equally near the even one.
`shortest` finds it in exact arithmetic: a decimal grid is tried for one digit, two digits,
and so on, and only the two neighbours of the value on a grid can be on it and nearest.
-/

namespace Sigil.Binary64

/-- The interval of reals that round to a positive double, and the double itself, over one
denominator. The ends belong to the interval when `closed`. -/
structure Neighbourhood where
  low : Nat
  value : Nat
  high : Nat
  den : Nat
  closed : Bool

/-- The neighbourhood of a positive finite double. The gap below a power of two is half as
wide as the gap above it. -/
def neighbourhood (x : Float) : Neighbourhood :=
  let m := significand x
  let unit := twoTo (scale x)
  let narrow := fraction x == 0 && 1 < exponentField x
  { low := (4 * m - (if narrow then 1 else 2)) * unit
    value := 4 * m * unit
    high := (4 * m + 2) * unit
    den := 4 * twoTo 1074
    closed := m % 2 == 0 }

/-- The decimal exponent of the leading digit of a positive quotient. -/
def leadingExponent (num den : Nat) : Int :=
  if den ≤ num then ((Nat.toDigits 10 (num / den)).length : Int) - 1
  else
    let d := (Nat.toDigits 10 (den / num)).length
    if num * tenTo (d - 1) ≥ den then -((d : Int) - 1) else -(d : Int)

/-- Membership of `n / k` in a neighbourhood whose denominator is `den`. -/
def Neighbourhood.holds (b : Neighbourhood) (n k : Nat) : Bool :=
  if b.closed then b.low * k ≤ n * b.den && n * b.den ≤ b.high * k
  else b.low * k < n * b.den && n * b.den < b.high * k

/-- The better one of the two neighbours of the value on the grid of multiples of
`10 ^ place`, where one of them rounds to the double. -/
def Neighbourhood.onGrid? (b : Neighbourhood) (place : Int) : Option Nat :=
  let up := if 0 ≤ place then tenTo place.toNat else 1
  let down := if 0 ≤ place then 1 else tenTo (-place).toNat
  let s := b.value * down / (b.den * up)
  let inS := b.holds (s * up) down
  let inT := b.holds ((s + 1) * up) down
  if inS && inT then
    let belowS := b.value * down - s * up * b.den
    let aboveS := (s + 1) * up * b.den - b.value * down
    if belowS < aboveS then some s
    else if aboveS < belowS then some (s + 1)
    else some (s + s % 2)
  else if inS then some s
  else if inT then some (s + 1)
  else none

/-- The first grid with a hit, from `place` downwards. -/
def Neighbourhood.search (b : Neighbourhood) : Nat → Int → Nat × Int
  | 0, place => (0, place)
  | tries + 1, place =>
    match b.onGrid? place with
    | some n => (n, place)
    | none => b.search tries (place - 1)

/-- A whole number without its trailing zeros, each of them added to the exponent. -/
def dropZeros : Nat → Nat → Int → Nat × Int
  | 0, n, e => (n, e)
  | tries + 1, n, e => if n % 10 = 0 then dropZeros tries (n / 10) (e + 1) else (n, e)

/-- The digits and the exponent of the shortest decimal of a positive finite double. -/
def shortest (x : Float) : Nat × Int :=
  let b := neighbourhood x
  let hit := b.search 17 (leadingExponent b.value b.den)
  dropZeros 17 hit.1 hit.2

/-- Where positional notation ends and how an exponent is written. -/
structure FloatStyle where
  leastPositional : Int
  exponentialFrom : Int
  exponentDigits : Nat

/-- Positional notation from `10 ^ -4` up to `10 ^ 16`; exponents have a sign and at least two
digits. -/
def floatStyle : FloatStyle := ⟨-4, 16, 2⟩

def zeroPadded (width n : Nat) : List Char :=
  let ds := Nat.toDigits 10 n
  List.replicate (width - ds.length) '0' ++ ds

/-- The decimal `n * 10 ^ e` in the given style. A point is always followed by a digit. -/
def FloatStyle.render (style : FloatStyle) (n : Nat) (e : Int) : List Char :=
  let ds := Nat.toDigits 10 n
  let lead : Int := e + ds.length - 1
  if lead < style.leastPositional ∨ style.exponentialFrom ≤ lead then
    let mantissa := match ds with
      | [] => []
      | [d] => [d]
      | d :: r => d :: '.' :: r
    mantissa ++ 'e' :: (if lead < 0 then '-' else '+')
      :: zeroPadded style.exponentDigits lead.natAbs
  else if lead < 0 then
    '0' :: '.' :: List.replicate (lead.natAbs - 1) '0' ++ ds
  else
    let whole := lead.toNat + 1
    if ds.length ≤ whole then ds ++ List.replicate (whole - ds.length) '0' ++ ['.', '0']
    else ds.take whole ++ '.' :: ds.drop whole

def text (x : Float) : String :=
  match exact x with
  | .nan => "nan"
  | .posInf => "inf"
  | .negInf => "-inf"
  | .finite q =>
    let sign := if isNegative x then ['-'] else []
    if q = 0 then String.ofList (sign ++ ['0', '.', '0'])
    else
      let d := shortest x
      String.ofList (sign ++ floatStyle.render d.1 d.2)

end Sigil.Binary64
