import Sigil.Eval.Interp

/-!
# Special forms

A list whose first element is the name of a special form is evaluated by the rule of that
form, whatever the name may be bound to. The parts of a form are read when they are needed:
evaluating one part may change the others.
-/

namespace Sigil

inductive SpecialForm where
  | quote | function | cond | when | progn | letAll | letStar | setq | defvar | defun | lambda
  | declare | and | or
  deriving DecidableEq, Repr

namespace SpecialForm

def all : List SpecialForm :=
  [quote, function, cond, when, progn, letAll, letStar, setq, defvar, defun, lambda, declare,
    and, or]

def name : SpecialForm → String
  | quote => "quote"
  | function => "function"
  | cond => "if"
  | when => "when"
  | progn => "progn"
  | letAll => "let"
  | letStar => "let*"
  | setq => "setq"
  | defvar => "defvar"
  | defun => "defun"
  | lambda => "lambda"
  | declare => "declare"
  | and => "and"
  | or => "or"

def ofName? (s : String) : Option SpecialForm := all.find? (·.name == s)

theorem ofName?_name (f : SpecialForm) : ofName? f.name = some f := by cases f <;> decide

end SpecialForm

namespace Form

open Eval

def parts (ref : Nat) : Eval (List Value) := return (← heap).items ref

def part (ref index : Nat) : Eval Value := return (← parts ref)[index]?.getD .nil

def checkParts (ref least : Nat) (most : Option Nat) : Eval Unit := do
  let ps ← parts ref
  let n := ps.length - 1
  if n < least || most.any (· < n) then
    let head := match ps.head? with
      | some (.sym s) => s.text
      | _ => ""
    raise (.wrongParts head)

def symbol (what : String) (v : Value) : Eval Str :=
  match v with
  | .sym s => return s
  | v => do raise (.notSymbol what (← shown v))

/-- The value of a symbol. Two names are constants. -/
def lookup (name : String) (scope : Nat) : Eval Value :=
  if name = "nil" then return .nil
  else if name = "t" then return .bool true
  else do
    match (← heap).lookup? scope name with
    | some v => return v
    | none => raise (.unboundSymbol name)

/-! ## Bindings -/

/-- One binding of a `let`: a name alone, a name in a list, or a name and a form. -/
def binding (v : Value) : Eval (Str × Value) := do
  let malformed : Eval (Str × Value) := do raise (.badBinding (← shown v))
  match v with
  | .sym s => return (s, .nil)
  | .list a | .vector a => match (← heap).items a with
    | [name] => return (← symbol "Binding name" name, .nil)
    | [name, form] => return (← symbol "Binding name" name, form)
    | _ => malformed
  | _ => malformed

def bindings (ref : Nat) : Eval (List (Str × Value)) := do
  checkParts ref 1 none
  match (← part ref 1).sequence? with
  | some a => ((← heap).items a).mapM binding
  | none => match ← part ref 0 with
    | .sym s => raise (.bindingsNotList s.text)
    | _ => raise (.bindingsNotList "")

def bindingValues (next : Interp) (scope : Nat) :
    List (Str × Value) → Eval (List (Str × Value))
  | [] => return []
  | (name, form) :: rest => do
    let v ← next.eval form scope
    let vs ← bindingValues next scope rest
    return (name, v) :: vs

def defineAll (scope : Nat) : List (Str × Value) → Eval Unit
  | [] => return ()
  | (name, v) :: rest => do
    modifyHeap (·.define scope name v)
    defineAll scope rest

/-- Evaluate and bind one after the other, each form in the scope of the names before it. -/
def bindInTurn (next : Interp) (scope : Nat) : List (Str × Value) → Eval Unit
  | [] => return ()
  | (name, form) :: rest => do
    let v ← next.eval form scope
    modifyHeap (·.define scope name v)
    bindInTurn next scope rest

/-! ## Functions -/

structure Parameters where
  required : List Str
  optional : List Str
  rest : Option Str

inductive Section where
  | required
  | optional
  | rest

/-- Sort the names of a parameter list. A marker changes the section, any number of times. -/
def sortParameters (current : Section) (ps : Parameters) : List Value → Eval Parameters
  | [] => return ps
  | v :: vs => do
    let s ← symbol "Parameter" v
    if s.text = "&optional" then sortParameters .optional ps vs
    else if s.text = "&rest" then sortParameters .rest ps vs
    else match current with
      | .required => sortParameters current { ps with required := ps.required ++ [s] } vs
      | .optional => sortParameters current { ps with optional := ps.optional ++ [s] } vs
      | .rest =>
        if ps.rest.isSome then raise .secondRest
        else sortParameters current { ps with rest := some s } vs

def parameters (v : Value) : Eval Parameters := do
  match v.sequence? with
  | some a => sortParameters .required ⟨[], [], none⟩ ((← heap).items a)
  | none => raise (.parametersNotList (← shown v))

def isDeclaration (h : Heap) (v : Value) : Bool :=
  match v.sequence? with
  | some a => match (h.items a).head? with
    | some (.sym s) => s.text == "declare"
    | _ => false
  | none => false

/-- A new function. Declarations at the start of its body are left out. -/
def function (params : Value) (forms : List Value) (scope : Nat) (name : Option Str) :
    Eval Value := do
  let ps ← parameters params
  let h ← heap
  let required ← onHeap (·.newSequence (ps.required.map .str))
  let optional ← onHeap (·.newSequence (ps.optional.map .str))
  let body ← onHeap (·.newSequence (forms.dropWhile (isDeclaration h)))
  return .closure (← onHeap (·.newClosure ⟨required, optional, ps.rest, body, scope, name⟩))

/-! ## The rules -/

def assignAll (next : Interp) (scope : Nat) : Value → List Value → Eval Value
  | _, target :: form :: rest => do
    let name ← symbol "setq target" target
    let v ← next.eval form scope
    modifyHeap (·.assign scope name v)
    assignAll next scope v rest
  | result, _ => return result

/-- The first value that is not true, or else the last one. -/
def conjunction (next : Interp) (scope : Nat) : Value → List Value → Eval Value
  | result, [] => return result
  | _, form :: rest => do
    let v ← next.eval form scope
    if (← heap).isTrue v then conjunction next scope v rest else return v

/-- The first value that is true, or else nil. -/
def disjunction (next : Interp) (scope : Nat) : List Value → Eval Value
  | [] => return .nil
  | form :: rest => do
    let v ← next.eval form scope
    if (← heap).isTrue v then return v else disjunction next scope rest

def special (next : Interp) (form : SpecialForm) (ref scope : Nat) : Eval Value := do
  match form with
  | .quote =>
    checkParts ref 1 (some 1)
    part ref 1
  | .function =>
    checkParts ref 1 (some 1)
    match ← part ref 1 with
    | .sym s => lookup s.text scope
    | target => next.eval target scope
  | .cond =>
    checkParts ref 2 (some 3)
    let test ← next.eval (← part ref 1) scope
    if (← heap).isTrue test then next.eval (← part ref 2) scope
    else if (← parts ref).length = 4 then next.eval (← part ref 3) scope
    else return .nil
  | .when =>
    checkParts ref 1 none
    let test ← next.eval (← part ref 1) scope
    if (← heap).isTrue test then next.body scope ((← parts ref).drop 2) else return .nil
  | .progn => next.body scope ((← parts ref).drop 1)
  | .letAll =>
    let bound ← bindingValues next scope (← bindings ref)
    let inner ← onHeap (·.newScope (some scope))
    defineAll inner bound
    next.body inner ((← parts ref).drop 2)
  | .letStar =>
    let inner ← onHeap (·.newScope (some scope))
    bindInTurn next inner (← bindings ref)
    next.body inner ((← parts ref).drop 2)
  | .setq =>
    let targets := (← parts ref).drop 1
    if targets.length % 2 = 0 then assignAll next scope .nil targets
    else raise .unpairedAssignment
  | .defvar =>
    checkParts ref 1 (some 2)
    let name ← symbol "defvar name" (← part ref 1)
    let v ← if (← parts ref).length = 3 then next.eval (← part ref 2) scope else pure .nil
    modifyHeap fun h => h.define (h.root scope) name v
    part ref 1
  | .defun =>
    checkParts ref 2 none
    let name ← symbol "defun name" (← part ref 1)
    let f ← function (← part ref 2) ((← parts ref).drop 3) scope (some name)
    modifyHeap fun h => h.define (h.root scope) name f
    part ref 1
  | .lambda =>
    checkParts ref 1 none
    function (← part ref 1) ((← parts ref).drop 2) scope none
  | .declare => return .nil
  | .and => conjunction next scope (.bool true) ((← parts ref).drop 1)
  | .or => disjunction next scope ((← parts ref).drop 1)

end Form

end Sigil
