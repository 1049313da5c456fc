import Sigil.Session.Runner

/-!
# Consoles

A `Console` is a runner with what the command line adds to it: the effects of a script and its
value are printed, and the debugging notes too when they are asked for. Every operation gives
the pieces of output in the order in which they are written.
-/

namespace Sigil.Cli

inductive Output where
  | out (text : String)
  | err (text : String)
  deriving DecidableEq

/-- How a program ends: by itself, with the status of a failure, or by a fault that nothing
handles. -/
inductive Ending where
  | returned
  | failed
  | faulted (f : EvalFault)

structure Console where
  world : World
  runner : Runner
  /-- Whether the debugging notes are written. -/
  debug : Bool

namespace Console

def outLine (s : String) : Output := .out (s ++ "\n")

def errLine (s : String) : Output := .err (s ++ "\n")

/-- The notes of a world as output, and the world without them. -/
def flush (debug : Bool) (w : World) : List Output × World :=
  (if debug then w.notes.reverse.map (errLine ·.line) else [], { w with notes := [] })

/-- The registry that the command line asks for: the chosen rows on the standard registry, or
else the default one. -/
def registry (w : World) (chosen : Option (Except TableFault (List Row))) :
    Except TableFault Registry × World :=
  match chosen with
  | none => w.defaultRegistry
  | some (.error f) => (.error f, w)
  | some (.ok rows) => w.compose .standard rows

/-- Start a console. `default` is the default readtable, `chosen` the one that was asked for. -/
def start (debug : Bool) (default : Except TableFault (List Row))
    (chosen : Option (Except TableFault (List Row))) :
    List Output × Except TableFault Console :=
  let (reg, w) := registry (.ofTable default) chosen
  let (notes, w) := flush debug w
  match reg with
  | .error f => (notes, .error f)
  | .ok reg =>
    let (runner, world) := Runner.create w reg true
    (notes, .ok ⟨world, runner, debug⟩)

def effectLines (effects : List Effect) : List Output :=
  effects.reverse.filterMap fun e =>
    if e.topics = ["stdout"] then some (outLine e.message) else none

/-- Run a script: the outcome, or the fault that left none, and the output on the way. -/
def handle (c : Console) (source : String) : List Output × Except PrintFault Outcome × Console :=
  let (outcome, runner, world) := c.runner.handle c.world source
  let (notes, world) := flush c.debug world
  let effects := match outcome with
    | .ok _ => effectLines runner.effects
    | .error _ => []
  (notes ++ effects, outcome, { c with runner, world })

/-- Run the text of a script file, in which a return counts as the end of a line too. A value
other than nil is printed at the end. -/
def script (c : Console) (text : String) : List Output × Ending :=
  match c.handle (String.ofList (Text.unifyNewlines text.toList)) with
  | (output, .error f, _) => (output, .faulted (.ofPrint f))
  | (output, .ok (.failure message place), _) =>
    (output ++ [errLine (Outcome.failure message place).formatted], .failed)
  | (output, .ok (.success .nil), _) => (output, .returned)
  | (output, .ok (.success v), c) => match c.world.heap.print v with
    | .ok s => (output ++ [outLine s], .returned)
    | .error f => (output, .faulted (.ofPrint f))

def noScript (path : String) : List Output := [errLine ("Error: file not found: " ++ path)]

end Console

end Sigil.Cli
