import Sigil.Eval.Library
import Sigil.Eval.SpecialForm

/-!
# The evaluator

`Interp.step` gives the rules for one level of evaluation: forms (`evalForm`) and calls
(`callValue`). The interpreter of depth `n` is `n` such levels over the exhausted one, and
`Eval.eval` is the interpreter of a depth that no program within its limits uses up.
-/

namespace Sigil

open Eval

/-! ## Calls -/

def ClosureObject.label (c : ClosureObject) : String :=
  match c.name with
  | some s => if s.text.isEmpty then "lambda" else s.text
  | none => "lambda"

/-- Bind parameters to arguments. A missing argument is nil. -/
def bindParameters (scope : Nat) : List Value → List Value → Eval Unit
  | [], _ => return ()
  | p :: ps, args => do
    let name ← Container.scopeKey p
    modifyHeap (·.define scope name (args.headD .nil))
    bindParameters scope ps args.tail

def applyClosure (next : Interp) (ref : Nat) (args : List Value) : Eval Value := do
  let h ← heap
  let c := h.closureAt ref
  let required := h.items c.required
  let optional := h.items c.optional
  let most := required.length + optional.length
  if args.length < required.length then
    raise (.tooFewArguments c.label required.length args.length)
  if c.rest.isNone && most < args.length then
    raise (.tooManyArguments c.label most args.length)
  let scope ← onHeap (·.newScope (some c.scope))
  bindParameters scope (required ++ optional) args
  match c.rest with
  | some name =>
    let others ← newList (args.drop most)
    modifyHeap (·.define scope name others)
  | none => pure ()
  next.liveBody scope c.body (h.items c.body).length 0 .nil

/-- The parameters of the function that appends to a vector. -/
def pusherSignature : Signature := ⟨["value"], 0, false⟩

def applyBuiltin (next : Interp) (b : Builtin) (args : List Value) : Eval Value := do
  match b.signature.complaint? ("StdLib." ++ b.callName) args.length with
  | some complaint => raise (.wrongArguments complaint)
  | none => Library.run next b args

def applyPusher (ref : Nat) (args : List Value) : Eval Value := do
  match pusherSignature.complaint? "Vector.push_extend" args.length with
  | some complaint => raise (.wrongArguments complaint)
  | none => Library.pushOnto ref (Library.arg args 0)

/-- The first of two names that is not empty. -/
def nameOr (name : Option String) (other : String) : String :=
  match name with
  | some s => if s.isEmpty then other else s
  | none => other

/-- Call a function. The frame of the call has the name it was called by, if there is one. -/
def callValue (next : Interp) (f : Value) (args : List Value) (name : Option String) :
    Eval Value := do
  note (.call (nameOr name f.typeName) args.length)
  match f with
  | .closure ref =>
    let c := (← heap).closureAt ref
    inFrame ⟨nameOr name c.label, args⟩ (applyClosure next ref args)
  | .builtin b => inFrame ⟨nameOr name b.callName, args⟩ (applyBuiltin next b args)
  | .pusher ref _ => inFrame ⟨nameOr name "push_extend", args⟩ (applyPusher ref args)
  | f => raise (.notCallable (← shown f))

/-! ## Forms -/

/-- Evaluate the list at `ref`, which is not empty: a special form, or a call. -/
def evalList (next : Interp) (ref scope : Nat) (head : Value) : Eval Value := do
  let ordinary (name : Option String) : Eval Value := do
    let f ← next.eval head scope
    let args ← next.values scope ((← Form.parts ref).drop 1)
    next.call f args name
  match head with
  | .sym s => match SpecialForm.ofName? s.text with
    | some form => Form.special next form ref scope
    | none => ordinary (some s.text)
  | _ => ordinary none

/-- Evaluate a form. What is neither a symbol nor a list stands for itself. -/
def evalForm (next : Interp) (form : Value) (scope : Nat) : Eval Value := do
  match form with
  | .sym s => Form.lookup s.text scope
  | .list ref | .vector ref => match (← Form.parts ref).head? with
    | none => return .nil
    | some head => evalList next ref scope head
  | form => return form

/-! ## The interpreter -/

def Interp.step (next : Interp) : Interp := ⟨evalForm next, callValue next⟩

def Interp.ofDepth : Nat → Interp
  | 0 => .exhausted
  | n + 1 => (ofDepth n).step

def Eval.depthLimit : Nat := 430

def Eval.eval (form : Value) (scope : Nat) : Eval Value :=
  (Interp.ofDepth Eval.depthLimit).eval form scope

end Sigil
