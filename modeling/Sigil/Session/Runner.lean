import Sigil.Eval.Basic
import Sigil.Reader.Basic
import Sigil.Session.Prelude
import Sigil.Session.Report

/-!
# Runners

A `Runner` reads and evaluates scripts in a root scope of its own. Runners of one `World` share
the heap, the default registry and the forms of the prelude, both of which are made when they
are first needed. `Runner.handle` runs one script: form after form is read and evaluated, and
the first failure ends it.
-/

namespace Sigil

/-- What the runners of a process share. -/
structure World where
  /-- The rows of the default readtable, or why there are none. -/
  table : Except TableFault (List Row)
  heap : Heap
  /-- The default registry, once it was needed. -/
  registry : Option Registry
  /-- The forms of the prelude, once they were needed. -/
  prelude : Option (List Value)
  /-- Last note first. -/
  notes : List Note

namespace World

/-- A world with the given default readtable. -/
def ofTable (table : Except TableFault (List Row)) : World := ⟨table, .empty, none, none, []⟩

def initial : World := ofTable (.ok Readtable.bundled)

def noted (w : World) (ns : List Note) : World := { w with notes := ns.reverse ++ w.notes }

/-- A registry with rows on top, and the notes on its composition. -/
def compose (w : World) (base : Registry) (rows : List Row) :
    Except TableFault Registry × World :=
  let w := w.noted ((Readtable.notes base.copy rows).map .readtable)
  match Readtable.extend base rows with
  | .ok reg => (.ok reg, w)
  | .error f => (.error (.refused f), w)

/-- The default registry. -/
def defaultRegistry (w : World) : Except TableFault Registry × World :=
  match w.registry with
  | some reg => (.ok reg, w)
  | none => match w.table with
    | .error f => (.error f, w)
    | .ok rows => match w.compose .standard rows with
      | (.ok reg, w) => (.ok reg, { w with registry := some reg })
      | (.error f, w) => (.error f, w)

end World

structure Runner where
  registry : Registry
  /-- Whether the prelude is evaluated before the first script. -/
  usesPrelude : Bool
  ready : Bool
  root : Nat
  /-- Innermost call first. -/
  calls : List CallFrame
  /-- Last effect first. -/
  effects : List Effect

namespace Runner

/-- Bind a builtin under its name, which is a string of this scope. -/
def bindBuiltin (scope : Nat) (h : Heap) (b : Builtin) : Heap :=
  let (name, h) := h.newStr b.name
  h.define scope name (.builtin b)

/-- Bind a builtin under an operator, which is the same string in every scope. -/
def bindOperator (scope : Nat) (h : Heap) (o : String × Builtin) : Heap :=
  h.define scope (.fixed o.1) (.builtin o.2)

/-- Bind the builtins in a scope, and then the operators. -/
def defineBuiltins (h : Heap) (scope : Nat) : Heap :=
  Builtin.operators.foldl (bindOperator scope) (Builtin.all.foldl (bindBuiltin scope) h)

def create (w : World) (registry : Registry) (usesPrelude : Bool) : Runner × World :=
  let (root, h) := w.heap.newScope none
  (⟨registry, usesPrelude, false, root, [], []⟩, { w with heap := defineBuiltins h root })

def createDefault (w : World) : Except TableFault Runner × World :=
  match w.defaultRegistry with
  | (.error f, w) => (.error f, w)
  | (.ok reg, w) =>
    let (r, w) := create w reg true
    (.ok r, w)

def machine (r : Runner) (w : World) : Machine := ⟨w.heap, r.calls, r.effects, w.notes⟩

def after (r : Runner) (w : World) (m : Machine) : Runner × World :=
  ({ r with calls := m.calls, effects := m.effects }, { w with heap := m.heap, notes := m.notes })

def run {α : Type} (r : Runner) (w : World) (x : Eval α) :
    Except Failure α × Runner × World :=
  match x (r.machine w) with
  | .ok a m => (.ok a, r.after w m)
  | .error (.fault f) m => (.error (.evaluating f), r.after w m)
  | .error .exhausted m => (.error .tooDeep, r.after w m)

/-! ## The prelude -/

/-- What comes of reading the prelude: its forms, which the world keeps, or a failure. -/
def keepPrelude (w : World) (reading : Reader.Forms) : Except Failure (List Value) × World :=
  let w := w.noted (reading.dispatched.map .dispatch)
  match reading.fault with
  | some (f, place) =>
    if f.category?.isSome then
      (.error (.evaluating (.unreadablePrelude (place.mark.located f.message))), w)
    else (.error (.reading f place), w)
  | none =>
    let (forms, heap) := w.heap.loadAll (reading.forms.map (·.1))
    (.ok forms, { w with heap, prelude := some forms })

/-- The forms of the prelude, read with the default registry. -/
def preludeForms (w : World) : Except Failure (List Value) × World :=
  match w.prelude with
  | some forms => (.ok forms, w)
  | none => match w.defaultRegistry with
    | (.error f, w) => (.error (.table f), w)
    | (.ok reg, w) => keepPrelude w (Reader.readForms reg (.ofText Prelude.text))

/-- Evaluate the prelude, unless that was done before. -/
def prepare (r : Runner) (w : World) : Except Failure Unit × Runner × World :=
  if r.ready || !r.usesPrelude then (.ok (), { r with ready := true }, w)
  else match preludeForms w with
    | (.error f, w) => (.error f, r, w)
    | (.ok forms, w) =>
      match r.run w ((Interp.ofDepth Eval.depthLimit).body r.root forms) with
      | (.ok _, r, w) => (.ok (), { r with ready := true }, w)
      | (.error f, r, w) => (.error f, r, w)

/-! ## Scripts -/

def evaluate (r : Runner) (w : World) (e : Expr) : Except Failure Value × Runner × World :=
  let (form, heap) := w.heap.load e
  r.run { w with heap } (Eval.eval form r.root)

/-- Evaluate a form that is a value already, in a new runner of its own. -/
def evaluateAlone (w : World) (registry : Registry) (usesPrelude : Bool) (form : Value) :
    Except Failure Value × World :=
  let (r, w) := create w registry usesPrelude
  match r.prepare w with
  | (.error f, _, w) => (.error f, w)
  | (.ok (), r, w) =>
    let (x, _, w) := r.run w (Eval.eval form r.root)
    (x, w)

/-- Read and evaluate form after form. `value` is that of the last form and `last` its place;
with a failure comes the place of the form that was read last. -/
def runForms (r : Runner) (w : World) (value : Value) (last : Option Location) (cur : Cursor) :
    Except (Failure × Option Location) Value × Runner × World :=
  let reading := Reader.read r.registry cur
  let w := w.noted (reading.dispatched.map .dispatch)
  match h : reading.found with
  | .nothing => (.ok value, r, w)
  | .failure f place => (.error (.reading f place, last), r, w)
  | .form e start =>
    have : reading.rest.after.length < cur.after.length := Reader.after_lt_of_read_form h
    match r.evaluate w e with
    | (.ok v, s, w) => runForms s w v (some start) reading.rest
    | (.error f, s, w) => (.error (f, some start), s, w)
termination_by cur.after.length

/-- Everything that a runner does with a script, up to the report of a failure. -/
def attempt (r : Runner) (w : World) (source : String) :
    Except (Failure × Option Location) Value × Runner × World :=
  match { r with calls := [], effects := [] }.prepare w with
  | (.error f, r, w) => (.error (f, none), r, w)
  | (.ok (), r, w) => r.runForms w .nil none (.ofText source)

/-- Run a script. The message of a failure is also the last effect. There may be no text for
that message, which leaves no outcome. -/
def handle (r : Runner) (w : World) (source : String) :
    Except PrintFault Outcome × Runner × World :=
  match r.attempt w source with
  | (.ok v, r, w) => (.ok (.success v), r, w)
  | (.error (f, form), r, w) =>
    match Report.message (r.machine w) source form f with
    | .error e => (.error e, r, w)
    | .ok message =>
      (.ok (.failure message (Report.place form f)),
        { r with effects := ⟨["stderr"], message⟩ :: r.effects }, w)

end Runner

end Sigil
