import Sigil.Eval.Machine

/-!
# Interpreters

Evaluating a form needs evaluating its parts and calling functions, one level deeper. The rules
of evaluation are written over an `Interp` for that next level, so each of them is a plain
definition; the interpreter itself iterates the rules.
-/

namespace Sigil

structure Interp where
  /-- The value of a form in a scope. -/
  eval : Value → Nat → Eval Value
  /-- The result of a function, called with arguments and perhaps under a name. -/
  call : Value → List Value → Option String → Eval Value

def Interp.exhausted : Interp := ⟨fun _ _ => throw .exhausted, fun _ _ _ => throw .exhausted⟩

/-- Every value counts as true but nil, false and the empty list. -/
def Heap.isTrue (h : Heap) (v : Value) : Bool :=
  match v with
  | .nil => false
  | .bool b => b
  | .list a => !(h.items a).isEmpty
  | _ => true

namespace Interp

variable (next : Interp)

/-- Evaluate forms in order; the value is that of the last one. -/
def body (scope : Nat) : List Value → Eval Value
  | [] => return .nil
  | [form] => next.eval form scope
  | form :: forms => do
    let _ ← next.eval form scope
    body scope forms

/-- Evaluate the forms of a list from an index on, each one as the list then is. -/
def liveBody (scope ref : Nat) : Nat → Nat → Value → Eval Value
  | 0, _, result => return result
  | count + 1, index, _ => do
    let form := ((← Eval.heap).items ref)[index]?.getD .nil
    let result ← next.eval form scope
    liveBody scope ref count (index + 1) result

def values (scope : Nat) : List Value → Eval (List Value)
  | [] => return []
  | form :: forms => do
    let v ← next.eval form scope
    let vs ← values scope forms
    return v :: vs

end Interp

end Sigil
