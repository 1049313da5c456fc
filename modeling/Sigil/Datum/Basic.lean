import Sigil.Expr
import Sigil.MapTest

/-!
# Data

A `Datum` is the whole contents of a value at one moment: a tree without sharing, in which
every list, vector, map and function is written out. Where an object contains itself, `again`
stands for it inside. Values are printed, compared with expected contents and handed in and out
as data.
-/

namespace Sigil

inductive Datum where
  | nil
  | bool (b : Bool)
  | int (n : Int)
  | float (x : Float)
  | str (s : String)
  | sym (name : String)
  | kw (name : String)
  | list (items : List Datum)
  | vector (items : List Datum)
  /-- Entries in the order of insertion. When a key can no longer be looked up because it was
  changed, `lost` is the first such key and the entries are those before it. -/
  | map (test : MapTest) (hint : Option SizeHint) (entries : List (Datum × Datum))
      (lost : Option (Datum × Lapse))
  | closure (name : Option String) (required optional : List Datum) (rest : Option String)
      (body : List Datum)
  | builtin (name : String)
  | scope (names : List String)
  | dict (entries : List (Datum × Datum))
  | eof
  /-- An object inside itself, by the name of its type. -/
  | again (type : String)
  deriving Inhabited

namespace Datum

mutual

def ofExpr : Expr → Datum
  | .int n => int n
  | .float x => float x
  | .str s => str s
  | .sym s _ => sym s
  | .kw s => kw s
  | .list items => list (ofExprs items)

def ofExprs : List Expr → List Datum
  | [] => []
  | e :: es => ofExpr e :: ofExprs es

end

theorem ofExprs_eq_map (es : List Expr) : ofExprs es = es.map ofExpr := by
  induction es with
  | nil => rfl
  | cons e es ih => simp [ofExprs, ih]

def typeName : Datum → String
  | nil => "NoneType"
  | bool _ => "bool"
  | int _ => "int"
  | float _ => "float"
  | str _ => "str"
  | sym _ => "Symbol"
  | kw _ => "Keyword"
  | list _ => "list"
  | vector _ => "Vector"
  | map .. => "HashMap"
  | closure .. => "Closure"
  | builtin _ => "method"
  | scope _ => "Scope"
  | dict _ => "dict"
  | eof => "_Sentinel"
  | again type => type

end Datum

end Sigil
