/-!
# Tests of maps

A map compares its keys by one of four named tests, from the finest to the coarsest.
-/

namespace Sigil

inductive MapTest where
  | eq
  | eql
  | equal
  | equalp
  deriving DecidableEq, Repr

namespace MapTest

def all : List MapTest := [eq, eql, equal, equalp]

def name : MapTest → String
  | eq => "eq"
  | eql => "eql"
  | equal => "equal"
  | equalp => "equalp"

def ofName? (s : String) : Option MapTest := all.find? (·.name == s)

def default : MapTest := eql

theorem ofName?_name (t : MapTest) : ofName? t.name = some t := by cases t <;> decide

end MapTest

inductive Lapse where
  | missing
  /-- The key contains itself, so there is no end to looking at it. -/
  | endless
  deriving DecidableEq, Repr

/-- The number of entries that a map was asked to hold; it never limits the map. -/
inductive SizeHint where
  | count (n : Int)
  | flag (b : Bool)
  deriving DecidableEq

end Sigil
