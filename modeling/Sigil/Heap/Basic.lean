import Sigil.MapTest
import Sigil.Number.Exact
import Sigil.Value.Basic

/-!
# Heaps

A heap holds the objects that values refer to, one array for each sort of object. Objects are
only ever added and changed, never removed. A map keeps each key also in the form in which its
test compares it (`MapKey`), taken when the key was put in.
-/

namespace Sigil

/-! ## Keys as tests compare them -/

inductive KeyAtom where
  | nil
  | bool (b : Bool)
  | int (n : Int)
  | float (x : Extended)
  | sym (name : String)
  | kw (name : String)
  | text (s : String)
  /-- A number of either sort by its value. -/
  | number (x : Extended)
  /-- An object by its identity. -/
  | object (v : Value)
  deriving DecidableEq

/-- A key in the form in which a test compares it. -/
inductive MapKey where
  | atom (a : KeyAtom)
  | sequence (items : List MapKey)

namespace MapKey

instance : Inhabited MapKey := ⟨.atom .nil⟩

mutual

def decEq : (a b : MapKey) → Decidable (a = b)
  | atom x, atom y => decidable_of_iff (x = y) (by simp)
  | atom _, sequence _ | sequence _, atom _ => isFalse (by simp)
  | sequence xs, sequence ys => match decEqAll xs ys with
    | isTrue h => isTrue (by rw [h])
    | isFalse h => isFalse (by simpa using h)

def decEqAll : (xs ys : List MapKey) → Decidable (xs = ys)
  | [], [] => isTrue rfl
  | [], _ :: _ | _ :: _, [] => isFalse (by simp)
  | x :: xs, y :: ys => match decEq x y, decEqAll xs ys with
    | isTrue h, isTrue hs => isTrue (by rw [h, hs])
    | isFalse h, _ => isFalse (by simp [h])
    | _, isFalse hs => isFalse (by simp [hs])

end

instance : DecidableEq MapKey := decEq

end MapKey

/-! ## Objects -/

/-- An entry of a map: the key as compared, the key that was put in first, and the value. -/
structure Entry where
  key : MapKey
  stored : Value
  value : Value

/-- A map: its test, the size it was asked for, and its entries in the order in which their
keys were put in. -/
structure MapObject where
  test : MapTest
  hint : Option SizeHint
  entries : List Entry

/-- A function. Parameter names and body are lists of their own; `rest` takes the arguments
left over. -/
structure ClosureObject where
  required : Nat
  optional : Nat
  rest : Option Str
  body : Nat
  scope : Nat
  name : Option Str

structure ScopeObject where
  bindings : List (Str × Value)
  parent : Option Nat
  deriving Inhabited

structure Heap where
  sequences : Array (List Value)
  maps : Array MapObject
  closures : Array ClosureObject
  scopes : Array ScopeObject
  dicts : Array (List (Value × Value))
  /-- The next identity of a string or of an access to a vector. -/
  fresh : Nat

namespace Heap

def empty : Heap := ⟨#[], #[], #[], #[], #[], 0⟩

def size (h : Heap) : Nat :=
  h.sequences.size + h.maps.size + h.closures.size + h.scopes.size + h.dicts.size

def items (h : Heap) (ref : Nat) : List Value := h.sequences[ref]?.getD []

def mapAt (h : Heap) (ref : Nat) : MapObject := h.maps[ref]?.getD ⟨.default, none, []⟩

/-- A function. A reference to none has the form of one whose references are to none either. -/
def closureAt (h : Heap) (ref : Nat) : ClosureObject :=
  h.closures[ref]?.getD
    ⟨h.sequences.size, h.sequences.size, none, h.sequences.size, h.scopes.size, none⟩

def scopeAt (h : Heap) (ref : Nat) : ScopeObject := h.scopes[ref]?.getD ⟨[], none⟩

def dictAt (h : Heap) (ref : Nat) : List (Value × Value) := h.dicts[ref]?.getD []

/-- More levels than there are values with parts: a list and a vector may have one reference. -/
def depth (h : Heap) : Nat := 2 * h.size + 1

/-! ## Adding objects -/

def newSequence (h : Heap) (items : List Value) : Nat × Heap :=
  (h.sequences.size, { h with sequences := h.sequences.push items })

def newMap (h : Heap) (m : MapObject) : Nat × Heap :=
  (h.maps.size, { h with maps := h.maps.push m })

def newClosure (h : Heap) (c : ClosureObject) : Nat × Heap :=
  (h.closures.size, { h with closures := h.closures.push c })

def newScope (h : Heap) (parent : Option Nat) : Nat × Heap :=
  (h.scopes.size, { h with scopes := h.scopes.push ⟨[], parent⟩ })

def newDict (h : Heap) (entries : List (Value × Value)) : Nat × Heap :=
  (h.dicts.size, { h with dicts := h.dicts.push entries })

def newStr (h : Heap) (text : String) : Str × Heap :=
  (.made h.fresh text, { h with fresh := h.fresh + 1 })

/-! ## Changing objects -/

def setItems (h : Heap) (ref : Nat) (items : List Value) : Heap :=
  { h with sequences := h.sequences.setIfInBounds ref items }

def setMap (h : Heap) (ref : Nat) (m : MapObject) : Heap :=
  { h with maps := h.maps.setIfInBounds ref m }

def setScope (h : Heap) (ref : Nat) (s : ScopeObject) : Heap :=
  { h with scopes := h.scopes.setIfInBounds ref s }

@[simp] theorem items_newSequence (h : Heap) (xs : List Value) :
    (h.newSequence xs).2.items (h.newSequence xs).1 = xs := by
  simp [newSequence, items]

theorem items_newSequence_of_lt {h : Heap} {xs : List Value} {ref : Nat}
    (hr : ref < h.sequences.size) : (h.newSequence xs).2.items ref = h.items ref := by
  simp [newSequence, items, Array.getElem?_push, Nat.ne_of_lt hr]

end Heap

end Sigil
