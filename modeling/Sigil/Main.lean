import Sigil.Cli.Arguments
import Sigil.Cli.Repl

/-!
# The program

`main` reads the readtables, the script or the standard input, hands their texts to a console
or to the interactive loop, and writes the output that they give back.
-/

namespace Sigil.Cli

def Output.write : Output → IO Unit
  | .out s => do
    let stream ← IO.getStdout
    stream.putStr s
    stream.flush
  | .err s => do
    let stream ← IO.getStderr
    stream.putStr s
    stream.flush

def readFile? (path : String) : IO (Option String) := do
  try
    return some (← IO.FS.readFile path)
  catch
    | .noFileOrDirectory .. => return none
    | e => throw e

def readTable (path : String) : IO (Except TableFault (List Row)) := do
  match ← readFile? path with
  | some text => return Table.ofText path text
  | none => return .error (.missingFile path)

def setting (name : String) : IO (Option String) := return Arguments.given (← IO.getEnv name)

/-- A line of the standard input without its line feed; none at the end. -/
def readLine : IO (Option String) := do
  let line ← (← IO.getStdin).getLine
  if line.isEmpty then return none
  let cs := line.toList
  return some (String.ofList (if cs.getLast? = some '\n' then cs.dropLast else cs))

/-- The exit status of an ending. A fault that nothing handles is told. -/
def Ending.status : Ending → IO UInt32
  | .returned => return 0
  | .failed => return 1
  | .faulted f => do
    (Console.errLine ("Error: " ++ f.message.toOption.getD "")).write
    return 1

/-- Feed lines to the loop until it ends; the result is the exit status. -/
partial def interact (r : Repl) : IO UInt32 := do
  match r.ending with
  | some ending => ending.status
  | none =>
    let (output, r) := r.feed (← readLine)
    output.forM Output.write
    interact r

def runScript (c : Console) (path : String) : IO UInt32 := do
  match ← readFile? path with
  | none =>
    (Console.noScript path).forM Output.write
    return 1
  | some text =>
    let (output, ending) := c.script text
    output.forM Output.write
    ending.status

def run (a : Arguments) : IO UInt32 := do
  let debug := (← setting "READMAC_DEBUG").isSome
  let default ← match ← setting "READMAC_READTABLE" with
    | some path => readTable path
    | none => pure (.ok Readtable.bundled)
  let chosen ← (Arguments.given a.readtable).mapM readTable
  let (notes, started) := Console.start debug default chosen
  notes.forM Output.write
  match started with
  | .error f =>
    (Console.errLine ("Error: " ++ f.message)).write
    return 1
  | .ok c => match Arguments.given a.script with
    | some path => runScript c path
    | none =>
      let (output, r) := Repl.start c
      output.forM Output.write
      interact r

end Sigil.Cli

def main (argv : List String) : IO UInt32 := do
  match Sigil.Cli.Arguments.parse? argv with
  | some a => Sigil.Cli.run a
  | none =>
    (Sigil.Cli.Console.errLine Sigil.Cli.Arguments.usage).write
    return 1
