/-!
# Tables of code points

Properties of characters are kept as short tables: `inRanges` tests membership in a list of
inclusive ranges, and a `CaseRun` maps evenly spaced code points to code points at the same
distance.
-/

namespace Sigil.Text

def inRanges (table : List (Nat × Nat)) (n : Nat) : Bool :=
  table.any fun r => r.1 ≤ n && n ≤ r.2

/-- The code points `first`, `first + step`, … up to `last`, mapped in order to `target`,
`target + step`, …. -/
structure CaseRun where
  first : Nat
  last : Nat
  step : Nat
  target : Nat

def CaseRun.find? (runs : List CaseRun) (n : Nat) : Option Nat :=
  (runs.find? fun r => r.first ≤ n && n ≤ r.last && (n - r.first) % r.step == 0).map
    fun r => r.target + (n - r.first)

end Sigil.Text
