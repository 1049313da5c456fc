import Sigil.Eval.Fault
import Sigil.Heap.View

/-!
# Equality and order of values

`Heap.equal` compares contents: numbers by value, strings by text, lists and vectors element by
element, maps by their entries, functions by their parameters and bodies. Elements that are
the same object count as equal without a look inside. Comparing maps needs keys that can be
hashed, so a comparison may fail, and so may one of values that contain themselves, which may
have no end. `Heap.ordered` is the order of numbers, strings and sequences.
-/

namespace Sigil

/-- Whether two values are one object, or one atom. A double that is no number is never the same
as another. -/
def Value.isSame (a b : Value) : Bool :=
  match a, b with
  | .float x, .float y => x == y
  | a, b => a == b

/-- The value of a number; a truth value counts as 0 or 1. -/
def Value.number? : Value → Option Extended
  | .float x => some (Binary64.exact x)
  | v => v.integer?.map .ofInt

/-- The key of a value in a hashed collection of contents, where numbers and truth values of
one numeric value are one key. -/
def Value.hashKey? (v : Value) : Option KeyAtom :=
  match v with
  | .list _ | .vector _ | .map _ | .dict _ => none
  | .str s => some (.text s.text)
  | .pusher a _ => some (.object (.pusher a 0))
  | v => match v.number? with
    | some x => some (.number x)
    | none => some v.identityKey

abbrev Contents := List (KeyAtom × Value)

namespace Contents

/-- The last value of a key counts. -/
def insert (k : KeyAtom) (v : Value) : Contents → Contents
  | [] => [(k, v)]
  | (l, w) :: rest => if l = k then (l, v) :: rest else (l, w) :: insert k v rest

def insertAll (c : Contents) : List (Value × Value) → Except EvalFault Contents
  | [] => .ok c
  | (k, v) :: rest => match k.hashKey? with
    | some key => insertAll (c.insert key v) rest
    | none => .error (.unhashable k.typeName)

end Contents

/-- Entries of a plain mapping: a repeated key keeps its first form and its last value. -/
def distinctEntries : List (Value × Value) → List (Value × Value) →
    Except EvalFault (List (Value × Value))
  | entries, [] => .ok entries
  | entries, (k, v) :: rest => match k.hashKey? with
    | none => .error (.unhashable k.typeName)
    | some key =>
      if entries.any (·.1.hashKey? = some key) then
        distinctEntries
          (entries.map fun e => if e.1.hashKey? = some key then (e.1, v) else e) rest
      else distinctEntries (entries ++ [(k, v)]) rest

namespace Heap

/-- The nearest scope on the chain that binds a key. Only a string is ever bound, and what cannot
be hashed cannot be looked for. -/
def ownerOf (h : Heap) (scope : Nat) (key : Value) : Except EvalFault (Option Nat) :=
  match key.hashKey? with
  | none => .error (.unhashable key.typeName)
  | some (.text s) => .ok (h.owner? scope s)
  | some _ => .ok none

def contents (h : Heap) (ref : Nat) : Except EvalFault Contents :=
  let (entries, lost) := h.mapEntries ref
  match Contents.insertAll [] entries, lost with
  | .error f, _ => .error f
  | .ok _, some (key, .missing) => .error (.missingKey (h.view key))
  | .ok _, some (_, .endless) => .error (.endless .key)
  | .ok c, none => .ok c

def dictContents (h : Heap) (ref : Nat) : Except EvalFault Contents :=
  Contents.insertAll [] (h.dictAt ref)

/-- Whether a test holds of all pairs of elements, the first failure ending the comparison. -/
def allPairs (test : Value → Value → Except EvalFault Bool) :
    List Value → List Value → Except EvalFault Bool
  | [], [] => .ok true
  | x :: xs, y :: ys => do if ← test x y then allPairs test xs ys else return false
  | _, _ => .ok false

/-- Whether every key of `c` has an equal value in `d`. -/
def within (test : Value → Value → Except EvalFault Bool) (d : Contents) :
    Contents → Except EvalFault Bool
  | [] => .ok true
  | (k, v) :: rest => match d.lookup k with
    | none => .ok false
    | some w => do if ← test v w then within test d rest else return false

def sameContents (test : Value → Value → Except EvalFault Bool) (c d : Contents) :
    Except EvalFault Bool :=
  if c.length = d.length then within test d c else .ok false

/-- Equality of elements: the same object, or what the test says. -/
def orSame (test : Value → Value → Except EvalFault Bool) (a b : Value) : Except EvalFault Bool :=
  if a.isSame b then .ok true else test a b

def sameSequence (test : Value → Value → Except EvalFault Bool) (xs ys : List Value) :
    Except EvalFault Bool :=
  if xs.length = ys.length then allPairs (orSame test) xs ys else .ok false

/-- Equality of contents, where `test` compares the parts that are not the same object. -/
def equalBy (h : Heap) (test : Value → Value → Except EvalFault Bool) (a b : Value) :
    Except EvalFault Bool :=
  match a, b with
  | .str s, .str t => .ok (s.text == t.text)
  | .sym s, .sym t => .ok (s.text == t.text)
  | .kw s, .kw t => .ok (s.text == t.text)
  | .list x, .vector y => sameSequence test (h.items y) (h.items x)
  | .list x, .list y | .vector x, .list y | .vector x, .vector y =>
    sameSequence test (h.items x) (h.items y)
  | .map x, .map y =>
    if (h.mapAt x).test = (h.mapAt y).test then do
      let c ← h.contents x
      let d ← h.contents y
      sameContents (orSame test) c d
    else .ok false
  | .map x, .dict y | .dict y, .map x => do
    let c ← h.contents x
    let d ← h.dictContents y
    sameContents (orSame test) c d
  | .dict x, .dict y => do
    let c ← h.dictContents x
    let d ← h.dictContents y
    sameContents (orSame test) c d
  | .closure x, .closure y =>
    let f := h.closureAt x
    let g := h.closureAt y
    allPairs (orSame test)
      [.list f.required, .list f.optional, f.rest.elim .nil .str, .list f.body]
      [.list g.required, .list g.optional, g.rest.elim .nil .str, .list g.body]
  | .pusher x _, .pusher y _ => .ok (x == y)
  | a, b => match a.number?, b.number? with
    | some x, some y => .ok (x.equal y)
    | _, _ => .ok (a == b)

def equalTo (h : Heap) : Nat → Value → Value → Except EvalFault Bool
  | 0 => fun _ _ => .error (.endless .comparison)
  | depth + 1 => h.equalBy (h.equalTo depth)

/-- More levels than there are relations between two values with parts. -/
def rounds (h : Heap) : Nat := 4 * (h.depth * h.depth) + 2

def equal (h : Heap) (a b : Value) : Except EvalFault Bool := h.equalTo h.rounds a b

/-- Equality of elements: the same object, or equal contents. -/
def sameItem (h : Heap) (a b : Value) : Except EvalFault Bool := orSame h.equal a b

end Heap

/-! ## Order -/

inductive Comparison where
  | lt | gt | le | ge
  deriving DecidableEq, Repr

namespace Comparison

def symbol : Comparison → String
  | lt => "<"
  | gt => ">"
  | le => "<="
  | ge => ">="

def swap : Comparison → Comparison
  | lt => gt
  | gt => lt
  | le => ge
  | ge => le

/-- A relation from the answers of `x < y`, `y < x` and `x = y`. -/
def decide (c : Comparison) (less greater same : Bool) : Bool :=
  match c with
  | lt => less
  | gt => greater
  | le => less || same
  | ge => greater || same

end Comparison

namespace Heap

def firstDifference (h : Heap) : List Value → List Value →
    Except EvalFault (Option (Value × Value))
  | x :: xs, y :: ys => do if ← h.sameItem x y then firstDifference h xs ys else return some (x, y)
  | _, _ => .ok none

/-- A relation of order between two sequences: by the first place at which they differ, where `test`
compares, or else by their lengths. -/
def orderedSequence (h : Heap) (test : Value → Value → Except EvalFault Bool) (c : Comparison)
    (xs ys : List Value) : Except EvalFault Bool := do
  match ← h.firstDifference xs ys with
  | some (x, y) => test x y
  | none => return c.decide (xs.length < ys.length) (ys.length < xs.length) (xs.length == ys.length)

def orderedBy (h : Heap) (test : Comparison → Value → Value → Except EvalFault Bool)
    (c : Comparison) (a b : Value) : Except EvalFault Bool :=
  match a, b with
  | .str s, .str t => .ok (c.decide (s.text < t.text) (t.text < s.text) (s.text == t.text))
  | .list x, .vector y => h.orderedSequence (test c.swap) c.swap (h.items y) (h.items x)
  | .list x, .list y | .vector x, .list y | .vector x, .vector y =>
    h.orderedSequence (test c) c (h.items x) (h.items y)
  | a, b => match a.number?, b.number? with
    | some x, some y => .ok (c.decide (x.less y) (y.less x) (x.equal y))
    | _, _ => .error (.notOrdered c.symbol a.typeName b.typeName)

def orderedTo (h : Heap) : Nat → Comparison → Value → Value → Except EvalFault Bool
  | 0 => fun _ _ _ => .error (.endless .comparison)
  | depth + 1 => h.orderedBy (h.orderedTo depth)

def ordered (h : Heap) (c : Comparison) (a b : Value) : Except EvalFault Bool :=
  h.orderedTo h.rounds c a b

end Heap

end Sigil
