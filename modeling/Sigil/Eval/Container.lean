import Sigil.Eval.Interp
import Sigil.Heap.Compare
import Sigil.Value.Arithmetic

/-!
# Access to containers

Reading and writing elements by index, key and name, and walking through containers. A `Walk`
goes through a container as it is at each step: a vector may grow under it, a map may not.
-/

namespace Sigil.Container

open Eval

/-! ## By index or key -/

/-- The offset that an index means in a sequence; negative ones count from the end. -/
def offset? (length : Nat) (index : Int) : Option Nat :=
  let i := if index < 0 then index + length else index
  if 0 ≤ i ∧ i < length then some i.toNat else none

def offset (length : Nat) (index : Int) (outside : EvalFault) : Eval Nat :=
  if !Value.fitsIndex index then raise .indexTooLarge
  else match offset? length index with
    | some i => return i
    | none => raise outside

def scopeKey (key : Value) : Eval Str :=
  match key with
  | .str s | .sym s => return s
  | key => raise (.badScopeKey key.qualifiedTypeName)

def get (target key : Value) : Eval Value := do
  match target with
  | .list a | .vector a =>
    let items := (← heap).items a
    match key.integer? with
    | some n => return items[← offset items.length n .listIndexRange]?.getD .nil
    | none => raise (.badListIndex key.typeName)
  | .str s =>
    let chars := s.text.toList
    match key.integer? with
    | some n =>
      let i ← offset chars.length n .stringIndexRange
      newString (String.ofList (chars[i]?.toList))
    | none => raise (.badStringIndex key.typeName)
  | .map a => match (← heap).mapGet a key with
    | .ok v => return v
    | .error .missing => raise (.missingKey ((← heap).view key))
    | .error .endless => raise (.endless .key)
  | .scope a =>
    let name ← scopeKey key
    match (← heap).lookup? a name.text with
    | some v => return v
    | none => raise (.unboundSymbol name.text)
  | target => raise (.notSubscriptable target.typeName)

def putKey (ref : Nat) (key v : Value) : Eval Unit := do
  match (← heap).mapPut ref key v with
  | some h => modifyHeap fun _ => h
  | none => raise (.endless .key)

theorem putKey_eq (ref : Nat) (key v : Value) (m : Machine) :
    putKey ref key v m = match m.heap.mapPut ref key v with
      | some h => .ok () { m with heap := h }
      | none => .error (.fault (.endless .key)) m := by
  show (match m.heap.mapPut ref key v with
    | some h => modifyHeap fun _ => h
    | none => raise (.endless .key)) m = _
  cases m.heap.mapPut ref key v <;> rfl

def put (target key v : Value) : Eval Unit := do
  match target with
  | .list a | .vector a =>
    let items := (← heap).items a
    match key.integer? with
    | some n =>
      let i ← offset items.length n .listAssignmentRange
      modifyHeap (·.setItems a (items.set i v))
    | none => raise (.badListIndex key.typeName)
  | .map a => putKey a key v
  | .scope a =>
    let name ← scopeKey key
    modifyHeap (·.define a name v)
  | target => raise (.notAssignable target.typeName)

def length (v : Value) : Eval Nat := do
  match v with
  | .list a | .vector a => return ((← heap).items a).length
  | .str s => return s.text.length
  | .map a => return (← heap).mapSize a
  | .dict a => return ((← heap).dictAt a).length
  | v => raise (.noLength v.typeName)

/-- The keys of a map, or the names that a scope itself binds. -/
def keys (v : Value) : Eval (List Value) := do
  match v with
  | .map a => return (← heap).mapKeys a
  | .scope a => return ((← heap).ownNames a).map .str
  | .dict a => return ((← heap).dictAt a).map (·.1)
  | .builtin _ | .pusher .. => raise (.noKeys "function")
  | v => raise (.noKeys v.typeName)

/-! ## By name -/

def fieldName (v : Value) : Eval Str :=
  match v with
  | .sym s | .kw s | .str s => return s
  | v => raise (.badFieldName v.typeName)

/-- The first value that a map holds under the name as a symbol, a keyword or a string. -/
def mapField? (h : Heap) (ref : Nat) (name : Str) : Option Value :=
  [Value.sym name, .kw name, .str name].findSome? fun k => (h.mapGet ref k).toOption

def parameters (ref : Nat) : Eval Value := do
  let h ← heap
  let c := h.closureAt ref
  let rest := match c.rest with
    | some s => if s.text.isEmpty then [] else [Value.str s]
    | none => []
  newList (h.items c.required ++ h.items c.optional ++ rest)

/-- The property of an object that is no container of named fields. A hyphen in a name counts
as an underscore. -/
def property (target : Value) (name : Str) : Eval Value := do
  let missing : Eval Value := raise (.fieldNotFound name.text)
  let wanted := Builtin.underscored name.text
  match target with
  | .sym s | .kw s => if wanted = "text" then return .str s else missing
  | .vector a =>
    if wanted = "fill_pointer" then return .int ((← heap).items a).length
    else if wanted = "push_extend" then
      onHeap fun h => (.pusher a h.fresh, { h with fresh := h.fresh + 1 })
    else missing
  | .closure a =>
    let c := (← heap).closureAt a
    match wanted with
    | "required" => return .list c.required
    | "optional" => return .list c.optional
    | "rest" => return c.rest.elim .nil .str
    | "body" => return .list c.body
    | "closure" => return .scope c.scope
    | "name" => return c.name.elim .nil .str
    | "params" => parameters a
    | _ => missing
  | _ => missing

def field (target : Value) (name : Str) : Eval Value := do
  match target with
  | .map a => match mapField? (← heap) a name with
    | some v => return v
    | none => raise (.fieldNotFound name.text)
  | .scope a => match (← heap).lookup? a name.text with
    | some v => return v
    | none => raise (.fieldNotFound name.text)
  | target => property target name

/-! ## Walking through -/

/-- A place in a walk through a container. -/
inductive Walk where
  | items (ref index : Nat)
  | chars (rest : List Char)
  /-- Through the keys of a map that had `size` entries when the walk began. -/
  | keys (ref index size : Nat)
  | names

def walk (v : Value) : Eval Walk := do
  match v with
  | .list a | .vector a => return .items a 0
  | .str s => return .chars s.text.toList
  | .map a => return .keys a 0 ((← heap).mapSize a)
  | .scope _ => return .names
  | v => raise (.notIterable v.typeName)

def Walk.ahead (h : Heap) : Walk → Nat
  | .items ref index => (h.items ref).length - index
  | .chars rest => rest.length
  | .keys _ index size => size - index
  | .names => 0

/-- The next element, and the walk after it. A scope is asked for its element 0, which is no
name. -/
def Walk.next (w : Walk) : Eval (Option (Value × Walk)) := do
  match w with
  | .items ref index =>
    match ((← heap).items ref)[index]? with
    | some v => return some (v, .items ref (index + 1))
    | none => return none
  | .chars [] => return none
  | .chars (c :: cs) => return some (← newString (String.singleton c), .chars cs)
  | .keys ref index size =>
    let keys := (← heap).mapKeys ref
    if keys.length ≠ size then raise .changedDuringIteration
    match keys[index]? with
    | some v => return some (v, .keys ref (index + 1) size)
    | none => return none
  | .names => raise (.badScopeKey (Value.int 0).qualifiedTypeName)

/-- The next element of every walk; none as soon as one of them is at its end. -/
def Walk.nextAll : List Walk → Eval (Option (List Value × List Walk))
  | [] => return some ([], [])
  | w :: ws => do
    match ← w.next with
    | none => return none
    | some (v, w) => match ← nextAll ws with
      | none => return none
      | some (vs, ws) => return some (v :: vs, w :: ws)

def elements (v : Value) : Eval (List Value) := do
  match v with
  | .list a | .vector a => return (← heap).items a
  | .str s => s.text.toList.mapM fun c => newString (String.singleton c)
  | .map a => return (← heap).mapKeys a
  | .scope _ => raise (.badScopeKey (Value.int 0).qualifiedTypeName)
  | v => raise (.notIterable v.typeName)

/-- A container without elements, or another value that counts as nothing there. -/
def isNothing (h : Heap) (v : Value) : Bool :=
  match v with
  | .nil => true
  | .bool b => !b
  | .int n => n == 0
  | .float x => x == 0
  | .str s => s.text.isEmpty
  | .list a | .vector a => (h.items a).isEmpty
  | .map a => h.mapSize a == 0
  | .dict a => (h.dictAt a).isEmpty
  | _ => false

end Sigil.Container
