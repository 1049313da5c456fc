import Sigil.Expr
import Sigil.Number.Nearest
import Sigil.Reader.Fault
import Sigil.Text.DecimalDigit

/-!
# Atoms

A token is a whole number, a decimal number, a keyword, or else a symbol. Digits may be those
of any script. `Numeral.scan?` recognises numbers and keeps their parts apart; `Atom.ofToken`
computes the atom.
-/

namespace Sigil

structure Numeral where
  negative : Bool
  whole : List Char
  /-- The digits after the point, or none without a point. -/
  fraction : Option (List Char)
  /-- The sign and the digits of the exponent. -/
  exponent : Option (Bool × List Char)

namespace Numeral

/-- Take a sign off; `true` is minus. -/
def takeSign : List Char → Bool × List Char
  | '-' :: cs => (true, cs)
  | '+' :: cs => (false, cs)
  | cs => (false, cs)

/-- A point and the digits after it. -/
def takeFraction : List Char → Option (List Char) × List Char
  | '.' :: cs => (some (cs.takeWhile Text.isDecimalDigit), cs.dropWhile Text.isDecimalDigit)
  | cs => (none, cs)

/-- All of the rest as an exponent; the outer option tells whether the rest is well formed. -/
def takeExponent : List Char → Option (Option (Bool × List Char))
  | [] => some none
  | c :: cs =>
    if c = 'e' ∨ c = 'E' then
      let (negative, ds) := takeSign cs
      if !ds.isEmpty && ds.all Text.isDecimalDigit then some (some (negative, ds)) else none
    else none

/-- The number that a whole text writes: digits with at most one point among or around them,
and after them perhaps an exponent. -/
def scan? (cs : List Char) : Option Numeral :=
  let (negative, cs) := takeSign cs
  let whole := cs.takeWhile Text.isDecimalDigit
  let (fraction, rest) := takeFraction (cs.dropWhile Text.isDecimalDigit)
  if whole.isEmpty && (fraction.getD []).isEmpty then none
  else (takeExponent rest).map (⟨negative, whole, fraction, ·⟩)

def isWhole (n : Numeral) : Bool := n.fraction.isNone && n.exponent.isNone

def expr (n : Numeral) : Except ReadFault Expr :=
  if n.isWhole then
    if 4300 < n.whole.length then .error (.tooManyDigits n.whole.length)
    else
      let value : Int := Text.digitsValue n.whole
      .ok (.int (if n.negative then -value else value))
  else
    let fraction := n.fraction.getD []
    let exponent : Int := match n.exponent with
      | none => 0
      | some (negative, ds) =>
        let e : Int := Text.digitsValue ds
        if negative then -e else e
    .ok (.float (Binary64.ofDecimal n.negative (Text.digitsValue (n.whole ++ fraction))
      (exponent - fraction.length)))

end Numeral

namespace Atom

def dropFinalNewline (cs : List Char) : List Char :=
  if cs.getLast? = some '\n' then cs.dropLast else cs

/-- The atom of a token. A line feed at the end does not keep a token from being a number. -/
def ofToken (cs : List Char) : Except ReadFault Expr :=
  match Numeral.scan? (dropFinalNewline cs) with
  | some n => n.expr
  | none => match cs with
    | ':' :: c :: rest => .ok (.kw (String.ofList (c :: rest)))
    | _ => .ok (.sym (String.ofList cs) .written)

end Atom

end Sigil
