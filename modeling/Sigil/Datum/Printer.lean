import Sigil.Datum.Basic
import Sigil.Number.Shortest
import Sigil.Text.Quoted

/-!
# Printing data

`Datum.print` writes a datum as source text that the standard reader accepts wherever there is
source text for it. `Datum.shown` is the form in which messages quote a datum, and
`Datum.bare` the same but for a string, which stands for itself. All three fail on a whole
number of more than 4300 digits, on a map with a lost key, and on a function whose parameters
were replaced by something else than names. An object inside itself has no source text; messages
mark it when it is a list, a vector or a dictionary.
-/

namespace Sigil

/-- Why a datum has no text. -/
inductive PrintFault where
  | tooManyDigits
  | lostKey (key : Datum)
  | badParameter (index : Nat) (typeName : String)
  /-- An object contains itself. -/
  | endless

/-- The text of a whole number of at most 4300 digits. -/
def intText (n : Int) : Except PrintFault String :=
  let s := toString n
  if 4300 < s.length - (if n < 0 then 1 else 0) then .error .tooManyDigits else .ok s

namespace Datum

/-! ## Source text -/

def escaped (c : Char) : List Char :=
  if c = '\\' then ['\\', '\\']
  else if c = '"' then ['\\', '"']
  else if c = '\n' then ['\\', 'n']
  else if c = '\t' then ['\\', 't']
  else if c = '\r' then ['\\', 'r']
  else [c]

def literal (s : String) : String :=
  String.ofList ('"' :: s.toList.flatMap escaped ++ ['"'])

/-- The mark that abbreviates a list of two elements with the given head. -/
def abbreviation? : List Datum → Option String
  | [sym "quote", _] => some "'"
  | [sym "function", _] => some "#'"
  | _ => none

def printedList (items : List Datum) (texts : List String) : String :=
  match abbreviation? items, texts with
  | some mark, [_, x] => mark ++ x
  | _, _ => "(" ++ String.intercalate " " texts ++ ")"

/-- The contents of a vector or a map are evaluated when they are read back, so symbols and
lists among them are quoted. -/
def isQuotedInside : Datum → Bool
  | sym _ | list _ => true
  | _ => false

def inside (d : Datum) (text : String) : String := if d.isQuotedInside then "'" ++ text else text

/-- The parameters of a function, which must be strings. -/
def parameterNames : Nat → List Datum → Except PrintFault (List String)
  | _, [] => .ok []
  | i, str s :: ds => (parameterNames (i + 1) ds).map (s :: ·)
  | i, d :: _ => .error (.badParameter i d.typeName)

def signature (name : Option String) (required optional : List Datum) (rest : Option String) :
    Except PrintFault String := do
  let extra := match rest with
    | some r => if r.isEmpty then [] else [str r]
    | none => []
  let names ← parameterNames 0 (required ++ optional ++ extra)
  let label := match name with
    | some n => if n.isEmpty then "lambda" else n
    | none => "lambda"
  return label ++ " (" ++ String.intercalate " " names ++ ")"

def shownScope (names : List String) : String :=
  "<Scope bindings=[" ++ String.intercalate ", " names ++ "]>"

def checkLost : Option (Datum × Lapse) → Except PrintFault Unit
  | none => .ok ()
  | some (key, .missing) => .error (.lostKey key)
  | some (_, .endless) => .error .endless

mutual

def print : Datum → Except PrintFault String
  | nil => .ok "nil"
  | bool b => .ok (if b then "t" else "nil")
  | int n => intText n
  | float x => .ok (Binary64.text x)
  | str s => .ok (literal s)
  | sym s => .ok s
  | kw s => .ok (":" ++ s)
  | list items => do return printedList items (← printAll items)
  | vector items => do return "#v(" ++ String.intercalate " " (← printInside items) ++ ")"
  | map test _ entries lost => do
    let parts ← printEntries entries
    checkLost lost
    let parts := if test = .default then parts else test.name :: parts
    return "#h(" ++ String.intercalate " " parts ++ ")"
  | closure name required optional rest _ => do
    return "#<" ++ (← signature name required optional rest) ++ ">"
  | builtin name => .ok ("#<builtin " ++ name ++ ">")
  | scope names => .ok (shownScope names)
  | dict entries => do
    return "\x7b" ++ String.intercalate " " (← printEntries entries) ++ "\x7d"
  | eof => .ok "Eof<>"
  | again _ => .error .endless

def printAll : List Datum → Except PrintFault (List String)
  | [] => .ok []
  | d :: ds => do return (← print d) :: (← printAll ds)

def printInside : List Datum → Except PrintFault (List String)
  | [] => .ok []
  | d :: ds => do return inside d (← print d) :: (← printInside ds)

def printEntries : List (Datum × Datum) → Except PrintFault (List String)
  | [] => .ok []
  | (k, v) :: rest => do
    let key ← print k
    let value ← print v
    return inside k key :: inside v value :: (← printEntries rest)

end

/-! ## The form in messages -/

/-- The mark of an object inside itself. Maps have none. -/
def shownAgain : String → Except PrintFault String
  | "list" => .ok "[...]"
  | "Vector" => .ok "Vector([...])"
  | "dict" => .ok "\x7b...\x7d"
  | _ => .error .endless

mutual

def shown : Datum → Except PrintFault String
  | nil => .ok "None"
  | bool b => .ok (if b then "True" else "False")
  | int n => intText n
  | float x => .ok (Binary64.text x)
  | str s => .ok (Text.quoted s)
  | sym s => .ok ("Symbol<" ++ Text.quoted s ++ ">")
  | kw s => .ok ("Keyword<" ++ Text.quoted s ++ ">")
  | list items => do return "[" ++ String.intercalate ", " (← shownAll items) ++ "]"
  | vector items => do return "Vector([" ++ String.intercalate ", " (← shownAll items) ++ "])"
  | map test hint entries lost => print (map test hint entries lost)
  | closure name required optional rest _ => do
    return "<Closure " ++ (← signature name required optional rest) ++ ">"
  | builtin name => .ok ("#<builtin " ++ name ++ ">")
  | scope names => .ok (shownScope names)
  | dict entries => do
    return "\x7b" ++ String.intercalate ", " (← shownEntries entries) ++ "\x7d"
  | eof => .ok "Eof<>"
  | again type => shownAgain type

def shownAll : List Datum → Except PrintFault (List String)
  | [] => .ok []
  | d :: ds => do return (← shown d) :: (← shownAll ds)

def shownEntries : List (Datum × Datum) → Except PrintFault (List String)
  | [] => .ok []
  | (k, v) :: rest => do
    let key ← shown k
    let value ← shown v
    return (key ++ ": " ++ value) :: (← shownEntries rest)

end

/-- A datum as messages quote it, a string without its quotes. -/
def bare : Datum → Except PrintFault String
  | str s => .ok s
  | d => d.shown

end Datum

end Sigil
