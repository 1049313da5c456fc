import Sigil.Value.Builtin

/-!
# Values

A value is an atom or a reference to an object in a heap. Two references to one object are
the same value, so changing the object through one of them shows through the other. Strings
are never changed, but each has an identity that `eq` sees.
-/

namespace Sigil

inductive Str where
  /-- The string that all symbols of this name have in common which the syntax supplies. -/
  | fixed (text : String)
  | made (id : Nat) (text : String)
  deriving DecidableEq, Inhabited

def Str.text : Str → String
  | fixed text | made _ text => text

/-- Runtime values. The references count the objects of their sort in the heap. -/
inductive Value where
  | nil
  | bool (b : Bool)
  | int (n : Int)
  | float (x : Float)
  | str (s : Str)
  | sym (name : Str)
  | kw (name : Str)
  | list (ref : Nat)
  | vector (ref : Nat)
  | map (ref : Nat)
  | closure (ref : Nat)
  | builtin (b : Builtin)
  /-- The function that appends to a vector, with the identity of this access to it. -/
  | pusher (vector : Nat) (id : Nat)
  | scope (ref : Nat)
  | dict (ref : Nat)
  /-- What a reader gives for the end of a text. -/
  | eof
  deriving DecidableEq, Inhabited

namespace Value

def typeName : Value → String
  | nil => "NoneType"
  | bool _ => "bool"
  | int _ => "int"
  | float _ => "float"
  | str _ => "str"
  | sym _ => "Symbol"
  | kw _ => "Keyword"
  | list _ => "list"
  | vector _ => "Vector"
  | map _ => "HashMap"
  | closure _ => "Closure"
  | builtin _ | pusher .. => "method"
  | scope _ => "Scope"
  | dict _ => "dict"
  | eof => "_Sentinel"

def qualifiedTypeName (v : Value) : String :=
  match v with
  | sym _ | kw _ | vector _ | map _ | closure _ | scope _ | eof =>
    "<class 'readmac.readmac_datatypes." ++ v.typeName ++ "'>"
  | _ => "<class '" ++ v.typeName ++ "'>"

/-- The elements of a list or a vector are kept at this reference. -/
def sequence? : Value → Option Nat
  | list a | vector a => some a
  | _ => none

/-- A whole number, or a truth value as 0 or 1. -/
def integer? : Value → Option Int
  | int n => some n
  | bool b => some (if b then 1 else 0)
  | _ => none

end Value

end Sigil
