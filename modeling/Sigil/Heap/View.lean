import Sigil.Datum.Printer
import Sigil.Heap.Map
import Sigil.Heap.Scope

/-!
# Values as data

`Heap.view` writes out the contents of a value as a datum, `Heap.load` builds the value of an
expression. A value is printed by printing its view.
-/

namespace Sigil.Heap

/-- One level of the contents of a value, with its parts as `part` shows them. -/
def viewBy (h : Heap) (part : Value → Datum) (v : Value) : Datum :=
  match v with
  | .nil => .nil
  | .bool b => .bool b
  | .int n => .int n
  | .float x => .float x
  | .str s => .str s.text
  | .sym s => .sym s.text
  | .kw s => .kw s.text
  | .builtin b => .builtin b.name
  | .pusher .. => .builtin "push-extend"
  | .eof => .eof
  | .scope a => .scope ((h.ownNames a).map (·.text))
  | .list a => .list ((h.items a).map part)
  | .vector a => .vector ((h.items a).map part)
  | .map a =>
    let m := h.mapAt a
    let (entries, lost) := h.mapEntries a
    .map m.test m.hint (entries.map fun e => (part e.1, part e.2))
      (lost.map fun l => (part l.1, l.2))
  | .closure a =>
    let c := h.closureAt a
    .closure (c.name.map (·.text)) ((h.items c.required).map part) ((h.items c.optional).map part)
      (c.rest.map (·.text)) ((h.items c.body).map part)
  | .dict a => .dict ((h.dictAt a).map fun e => (part e.1, part e.2))

/-- The contents of a value inside the objects `outer`, none of which is looked into again. -/
def viewTo (h : Heap) : Nat → List Value → Value → Datum
  | 0, _, v => .again v.typeName
  | depth + 1, outer, v =>
    if v ∈ outer then .again v.typeName else h.viewBy (h.viewTo depth (v :: outer)) v

/-- The contents of a value. The objects that it is inside of are fewer than the depth. -/
def view (h : Heap) (v : Value) : Datum := h.viewTo h.depth [] v

def print (h : Heap) (v : Value) : Except PrintFault String := (h.view v).print

def shown (h : Heap) (v : Value) : Except PrintFault String := (h.view v).shown

def bare (h : Heap) (v : Value) : Except PrintFault String := (h.view v).bare

/-! ## Expressions as values -/

mutual

/-- The value of an expression, in new objects. Every string in it is a string of its own, but
for the names of the symbols that the syntax supplies. -/
def load (h : Heap) : Expr → Value × Heap
  | .int n => (.int n, h)
  | .float x => (.float x, h)
  | .str s =>
    let (s, h) := h.newStr s
    (.str s, h)
  | .sym s .supplied => (.sym (.fixed s), h)
  | .sym s .written =>
    let (s, h) := h.newStr s
    (.sym s, h)
  | .kw s =>
    let (s, h) := h.newStr s
    (.kw s, h)
  | .list items =>
    let (vs, h) := h.loadAll items
    let (a, h) := h.newSequence vs
    (.list a, h)

def loadAll (h : Heap) : List Expr → List Value × Heap
  | [] => ([], h)
  | e :: es =>
    let (v, h) := h.load e
    let (vs, h) := h.loadAll es
    (v :: vs, h)

end

end Sigil.Heap
