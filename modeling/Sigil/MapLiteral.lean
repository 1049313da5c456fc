import Sigil.Datum.Printer
import Sigil.Reader.Fault

/-!
# Map literals

The elements of a map literal are alternating keys and values; an odd element at the start
names the test. `MapLiteral.ofItems` takes the elements apart, for expressions and for data
alike, and `MapLiteral.build` nests one insertion in the next, so that pairs are inserted in
the order in which they stand.
-/

namespace Sigil

class Element (α : Type) where
  sym : String → Origin → α
  int : Int → α
  list : List α → α
  /-- The test that an element names: a symbol, bare or quoted. -/
  testName? : α → Option String
  /-- The element in the message that it names no test. -/
  shown : α → String

/-- The text of a datum in a message, which a fault of printing leaves empty. -/
def Datum.label (d : Datum) : String :=
  match d with
  | .kw s => ":" ++ s
  | d => match d.shown with
    | .ok s => s
    | .error _ => ""

instance : Element Expr where
  sym := .sym
  int := .int
  list := .list
  testName?
    | .sym s _ => some s
    | .list [.sym "quote" _, .sym s _] => some s
    | _ => none
  shown e := (Datum.ofExpr e).label

instance : Element Datum where
  sym s _ := .sym s
  int := .int
  list := .list
  testName?
    | .sym s => some s
    | .list [.sym "quote", .sym s] | .vector [.sym "quote", .sym s] => some s
    | _ => none
  shown := Datum.label

/-- The test and the pairs of a map literal. The name of the test is written in the literal,
or else supplied. -/
structure MapLiteral (α : Type) where
  test : String
  origin : Origin
  pairs : List (α × α)

namespace MapLiteral

variable {α : Type}

/-- Neighbours as pairs; an odd element at the end is dropped. -/
def pairUp : List α → List (α × α)
  | k :: v :: rest => (k, v) :: pairUp rest
  | _ => []

def ofItems [Element α] (label : String) (items : List α) : Except ReadFault (MapLiteral α) :=
  if items.length % 2 = 0 then .ok ⟨MapTest.default.name, .supplied, pairUp items⟩
  else match items with
    | [] => .ok ⟨MapTest.default.name, .supplied, []⟩
    | spec :: rest => match Element.testName? spec with
      | some test => .ok ⟨test, .written, pairUp rest⟩
      | none => .error (.notTestName label (Element.shown spec))

/-- `(make-map 'test)`, with the number of pairs as its size when `sized`. -/
def constructor [Element α] (m : MapLiteral α) (sized : Bool) : α :=
  let test := Element.list [Element.sym "quote" .supplied, Element.sym m.test m.origin]
  Element.list ([Element.sym "make-map" .supplied, test]
    ++ if sized then [Element.int m.pairs.length] else [])

/-- `(map-put … k v)` around the constructor, once for each pair, the first pair innermost. -/
def build [Element α] (m : MapLiteral α) (sized : Bool) : α :=
  m.pairs.foldl (fun e p => Element.list [Element.sym "map-put" .supplied, e, p.1, p.2])
    (m.constructor sized)

end MapLiteral

def buildMap {α : Type} [Element α] (label : String) (sized : Bool) (items : List α) :
    Except ReadFault α :=
  (MapLiteral.ofItems label items).map (·.build sized)

end Sigil
