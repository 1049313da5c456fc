import Sigil.Text.Quoted
import Sigil.Number.Shortest

/-!
# Plain data

What a readtable file holds once it is parsed: scalars, lists and mappings. `Plain.shown` is
the form in which messages quote a piece of it.
-/

namespace Sigil

inductive Plain where
  | null
  | bool (b : Bool)
  | int (n : Int)
  | float (x : Float)
  | text (s : String)
  | list (items : List Plain)
  | mapping (entries : List (String × Plain))
  deriving Inhabited

namespace Plain

def typeName : Plain → String
  | null => "NoneType"
  | bool _ => "bool"
  | int _ => "int"
  | float _ => "float"
  | text _ => "str"
  | list _ => "list"
  | mapping _ => "dict"

mutual

def shown : Plain → String
  | null => "None"
  | bool b => if b then "True" else "False"
  | int n => toString n
  | float x => Binary64.text x
  | text s => Text.quoted s
  | list items => "[" ++ String.intercalate ", " (shownAll items) ++ "]"
  | mapping entries => "\x7b" ++ String.intercalate ", " (shownEntries entries) ++ "\x7d"

def shownAll : List Plain → List String
  | [] => []
  | x :: xs => shown x :: shownAll xs

def shownEntries : List (String × Plain) → List String
  | [] => []
  | (k, v) :: rest => (Text.quoted k ++ ": " ++ shown v) :: shownEntries rest

end

def char? : Plain → Option Char
  | text s => match s.toList with
    | [c] => some c
    | _ => none
  | _ => none

def isHashable : Plain → Bool
  | list _ | mapping _ => false
  | _ => true

def field? (key : String) : Plain → Option Plain
  | mapping entries => entries.lookup key
  | _ => none

end Plain

end Sigil
