import Sigil.Cli.Console
import Sigil.Text.Blank

/-!
# The interactive loop

The loop takes one line of input at a time and collects lines into an entry until the entry is
complete; then it runs the entry and prints its value. A blank line before an entry is
skipped, and the line `exit` before an entry ends the loop, as does the end of the input. A
fault of the entry is only complained about, but one for which there are no words ends the
loop.
-/

namespace Sigil.Cli

structure Repl where
  console : Console
  /-- The lines of the entry so far, last one first. -/
  entry : List String
  /-- How the loop ended, once it did. -/
  ending : Option Ending

namespace Repl

def banner : List Output :=
  [Console.outLine "readmac REPL v0.1", Console.outLine "Type 'exit' or press Ctrl+D to quit."]

def prompt (r : Repl) : Output := .out (if r.entry.isEmpty then "> " else ".. ")

def start (c : Console) : List Output × Repl :=
  let r : Repl := ⟨c, [], none⟩
  (banner ++ [r.prompt], r)

/-- Complain about a fault that leaves the entry without an outcome. -/
def complain (r : Repl) (f : EvalFault) : List Output × Repl :=
  match f.message with
  | .ok s => ([Console.errLine ("Error: " ++ s)], r)
  | .error e => ([], { r with ending := some (.faulted (.ofPrint e)) })

def source (entry : List String) : String := String.intercalate "\n" entry.reverse

def submit (r : Repl) : List Output × Repl :=
  let (output, outcome, console) := r.console.handle (source r.entry)
  let r := { r with console, entry := [] }
  let (answer, r) := match outcome with
    | .error f => r.complain (.ofPrint f)
    | .ok (.failure message place) =>
      ([Console.errLine (Outcome.failure message place).formatted], r)
    | .ok (.success v) => match console.world.heap.print v with
      | .ok s => ([Console.outLine s], r)
      | .error f => r.complain (.ofPrint f)
  (output ++ answer, r)

/-- Add a line to the entry and run the entry when it is complete. -/
def addLine (r : Repl) (line : String) : List Output × Repl :=
  let entry := line :: r.entry
  let forms := Reader.readForms r.console.runner.registry (.ofText (source entry))
  let world := r.console.world.noted (forms.dispatched.map .dispatch)
  let (notes, world) := Console.flush r.console.debug world
  let r := { r with console := { r.console with world }, entry }
  match forms.isIncomplete with
  | .ok true => (notes, r)
  | .ok false =>
    let (output, r) := r.submit
    (notes ++ output, r)
  | .error f => (notes ++ [Console.errLine ("Error: " ++ f.message)], { r with entry := [] })

/-- The end of the input: the entry is run as it is, and without one the loop ends. -/
def close (r : Repl) : List Output × Repl :=
  if r.entry.isEmpty then ([.out "\nExiting.\n"], { r with ending := some .returned })
  else r.submit

def isBlankLine (line : String) : Bool := line.toList.all Text.isBlank

def isExit (line : String) : Bool := Text.trim line.toList == ['e', 'x', 'i', 't']

def react (r : Repl) : Option String → List Output × Repl
  | none => r.close
  | some line =>
    if r.entry.isEmpty && isBlankLine line then ([], r)
    else if r.entry.isEmpty && isExit line then ([], { r with ending := some .returned })
    else r.addLine line

def feed (r : Repl) (input : Option String) : List Output × Repl :=
  if r.ending.isSome then ([], r)
  else
    let (output, r) := r.react input
    (if r.ending.isSome then output else output ++ [r.prompt], r)

def feedAll (r : Repl) : List String → List Output × Repl
  | [] => ([], r)
  | line :: lines =>
    let (output, r) := r.feed (some line)
    let (others, r) := r.feedAll lines
    (output ++ others, r)

/-- Take all lines of an input and its end. The end comes twice when it finds an open entry. -/
def session (r : Repl) (lines : List String) : List Output × Repl :=
  let (output, r) := r.feedAll lines
  let (first, r) := r.feed none
  let (second, r) := r.feed none
  (output ++ first ++ second, r)

end Repl

end Sigil.Cli
