import Sigil.Eval.Machine
import Sigil.Reader.Mark
import Sigil.Registry.Table
import Sigil.Text.Lines
import Sigil.Text.Occurs

/-!
# Reports of failures

A failure of a script is reported by a line that names its category, the place, the lines of
source around that place, and the calls that were under way. `Report.lines` puts them together;
`Outcome.formatted` adds the place to a message that does not show it yet.
-/

namespace Sigil

inductive Failure where
  | reading (f : ReadFault) (place : Location)
  | evaluating (f : EvalFault)
  | table (f : TableFault)
  | tooDeep

namespace Report

/-- The category of a fault of evaluation as reports name it. -/
def heading : EvalCategory → String
  | .form => "SyntaxError"
  | .unbound => "UnboundSymbol"
  | .field => "FieldNotFound"
  | .test => "UnknownTest"
  | .type | .arity => "TypeError"
  | .index => "IndexError"
  | .value | .key | .attribute | .zeroDivision | .overflow | .memory | .recursion
  | .internal => "InternalError"

/-- The function in which a fault of type arose, as the innermost call names it. -/
def callee (category : EvalCategory) (calls : List CallFrame) : String :=
  match category, calls with
  | .type, frame :: _ | .arity, frame :: _ =>
    if frame.name.isEmpty then "" else " in (" ++ frame.name ++ ")"
  | _, _ => ""

def summary (calls : List CallFrame) : Failure → Except PrintFault String
  | .reading f _ => match f.category? with
    | some c => .ok ("ReadError: " ++ c.name ++ ": " ++ f.message)
    | none => .ok ("InternalError: " ++ f.message)
  | .evaluating f => do
    return heading f.category ++ ": " ++ (← f.message) ++ callee f.category calls
  | .table f => .ok ("InternalError: " ++ f.message)
  | .tooDeep => .ok "InternalError: maximum recursion depth exceeded"

/-- The place of a failure: that of a fault of reading, or else the start of the form. -/
def place (form : Option Location) : Failure → Option Location
  | .reading f l => if f.category?.isSome then some l else form
  | _ => form

/-! ## The source around a place -/

/-- How many lines before and after the place are shown. -/
def radius : Nat := 2

def padded (width : Nat) (s : String) : String :=
  String.ofList (List.replicate (width - s.length) ' ') ++ s

/-- A line of source with its number, and a caret under the place when it is in this line. -/
def contextLine (l : Location) (width number : Nat) (text : List Char) : List String :=
  let here := number == l.line
  let shown := (if here then ">" else " ") ++ " " ++ padded width (toString number) ++ " | "
    ++ String.ofList text
  if here && l.col ≠ 0 then
    [shown, "  " ++ padded width "" ++ " | " ++ padded (l.col - 1) "" ++ "^"]
  else [shown]

/-- The lines of source around a place; none when the place is outside the lines. -/
def context (source : String) (l : Location) : List String :=
  let lines := Text.splitLines source.toList
  if l.line = 0 || lines.length < l.line then []
  else
    let first := max 1 (l.line - radius)
    let shown := (lines.take (l.line + radius)).drop (first - 1)
    let width := (toString (first + shown.length - 1)).length
    shown.zipIdx.flatMap fun (text, i) => contextLine l width (first + i) text

/-! ## The calls under way -/

def argument (h : Heap) (v : Value) : Except PrintFault String :=
  match v with
  | .closure _ => .ok "#<lambda>"
  | .list a => .ok ("(" ++ toString (h.items a).length ++ " items)")
  | v => h.print v

def call (h : Heap) (frame : CallFrame) : Except PrintFault String := do
  let args ← frame.args.mapM (argument h)
  let name := if frame.name.isEmpty then "<call>" else frame.name
  let shown := String.intercalate " " args
  return "(" ++ name ++ (if shown.isEmpty then "" else " " ++ shown) ++ ")"

def callStack (h : Heap) (calls : List CallFrame) : Except PrintFault (List String) := do
  if calls.isEmpty then return []
  let shown ← calls.reverse.mapM (call h)
  return ["Call stack: " ++ String.intercalate " " shown]

def message (m : Machine) (source : String) (form : Option Location) (f : Failure) :
    Except PrintFault String := do
  let head ← summary m.calls f
  let around := match place form f with
    | some l => ("(line " ++ toString l.line ++ ", col " ++ toString l.col ++ ")")
        :: context source l
    | none => []
  let stack ← callStack m.heap m.calls
  return String.intercalate "\n" (head :: around ++ stack)

end Report

/-! ## Outcomes -/

inductive Outcome where
  | success (v : Value)
  | failure (message : String) (place : Option Location)

/-- A message with a place, which is added unless the message shows it already. A message that
is missing or empty is unknown; a place without a line is no place. -/
def formatError (message : Option String) (place : Option Mark) : String :=
  let text := match message with
    | some m => if m.isEmpty then "Unknown error" else m
    | none => "Unknown error"
  match place with
  | some ⟨some line, col⟩ =>
    let located := "(line " ++ toString line ++ ", col " ++ Mark.shownHalf col ++ ")"
    if Text.occurs located.toList text.toList then text else text ++ "\n" ++ located
  | _ => text

def Outcome.formatted : Outcome → String
  | success _ => ""
  | failure message place => formatError (some message) (place.map Location.mark)

end Sigil
