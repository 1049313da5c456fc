import Sigil.Eval.Fault
import Sigil.Heap.View
import Sigil.Trace

/-!
# The state of an evaluation

An evaluation works on a `Machine`: the heap, the calls under way, the effects so far, and the
notes for the debugging output. It ends with a result, with a fault, or by running out of
depth; in every case the machine that it leaves is kept.
-/

namespace Sigil

structure CallFrame where
  name : String
  args : List Value

structure Effect where
  topics : List String
  message : String
  deriving DecidableEq

structure Machine where
  heap : Heap
  /-- Innermost call first. -/
  calls : List CallFrame
  /-- Last effect first. -/
  effects : List Effect
  /-- Last note first. -/
  notes : List Note

inductive Stop where
  | fault (f : EvalFault)
  | exhausted

abbrev Eval := EStateM Stop Machine

namespace Eval

def raise {α : Type} (f : EvalFault) : Eval α := throw (.fault f)

/-- A computation that may fail but touches no machine. -/
def ofExcept {α : Type} : Except EvalFault α → Eval α
  | .ok a => pure a
  | .error f => raise f

def ofPrint {α : Type} : Except PrintFault α → Eval α
  | .ok a => pure a
  | .error f => raise (.ofPrint f)

def heap : Eval Heap := return (← get).heap

def onHeap {α : Type} (f : Heap → α × Heap) : Eval α :=
  modifyGet fun m =>
    let (a, h) := f m.heap
    (a, { m with heap := h })

def modifyHeap (f : Heap → Heap) : Eval Unit := modify fun m => { m with heap := f m.heap }

def newList (items : List Value) : Eval Value := return .list (← onHeap (·.newSequence items))

def newVector (items : List Value) : Eval Value := return .vector (← onHeap (·.newSequence items))

def newString (s : String) : Eval Value := return .str (← onHeap (·.newStr s))

def shown (v : Value) : Eval String := do ofPrint ((← heap).shown v)

def bare (v : Value) : Eval String := do ofPrint ((← heap).bare v)

def printed (v : Value) : Eval String := do ofPrint ((← heap).print v)

def emit (e : Effect) : Eval Unit := modify fun m => { m with effects := e :: m.effects }

def note (n : Note) : Eval Unit := modify fun m => { m with notes := n :: m.notes }

/-- Run a call. Its frame is on the stack of calls while it runs, and stays there when it
stops without a result. -/
def inFrame {α : Type} (frame : CallFrame) (body : Eval α) : Eval α := do
  modify fun m => { m with calls := frame :: m.calls }
  let a ← body
  modify fun m => { m with calls := m.calls.tail }
  return a

end Eval

end Sigil
