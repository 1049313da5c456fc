import Sigil.Heap.Map

/-!
# Operations on a map

A `MapStep` is one operation on a map with its arguments, `Heap.mapStep` does it. An operation
that needs an entry answers with the key when there is none, and then changes nothing. Nor does
one whose key contains itself.
-/

namespace Sigil

inductive MapStep where
  | put (key value : Value)
  | get (key : Value)
  | getOr (key default : Value)
  | delete (key : Value)
  | pop (key : Value)
  /-- The value of the key, which is put in when there is none. -/
  | getOrPut (key value : Value)
  | contains (key : Value)
  | clear
  deriving DecidableEq

inductive MapAnswer where
  | done
  | value (v : Value)
  | truth (b : Bool)
  /-- There is no entry of this key. -/
  | missing (key : Value)
  /-- The operation does not come to an end. -/
  | endless
  deriving DecidableEq

/-- What an operation answers that finds no value for its key. -/
def Lapse.answer (key : Value) : Lapse → MapAnswer
  | missing => .missing key
  | endless => .endless

namespace Heap

/-- The answer of an operation that changes the heap, if it does. -/
def changed (h : Heap) (answer : MapAnswer) : Option Heap → MapAnswer × Heap
  | some h' => (answer, h')
  | none => (.endless, h)

def mapStep (h : Heap) (ref : Nat) (s : MapStep) : MapAnswer × Heap :=
  match s with
  | .put k v => h.changed .done (h.mapPut ref k v)
  | .get k => match h.mapGet ref k with
    | .ok v => (.value v, h)
    | .error lapse => (lapse.answer k, h)
  | .getOr k v => match h.mapGet ref k with
    | .ok w => (.value w, h)
    | .error .missing => (.value v, h)
    | .error .endless => (.endless, h)
  | .delete k => match h.entryOf (h.mapAt ref) k with
    | .ok e => (.done, h.mapErase ref e.key)
    | .error lapse => (lapse.answer k, h)
  | .pop k => match h.entryOf (h.mapAt ref) k with
    | .ok e => (.value e.value, h.mapErase ref e.key)
    | .error lapse => (lapse.answer k, h)
  | .getOrPut k v => match h.mapGet ref k with
    | .ok w => (.value w, h)
    | .error .missing => h.changed (.value v) (h.mapPut ref k v)
    | .error .endless => (.endless, h)
  | .contains k => match h.mapGet ref k with
    | .ok _ => (.truth true, h)
    | .error .missing => (.truth false, h)
    | .error .endless => (.endless, h)
  | .clear => match h.mapClear ref with
    | (h, some .endless) => (.endless, h)
    | (h, _) => (.done, h)

def mapSteps (h : Heap) (ref : Nat) : List MapStep → List MapAnswer × Heap
  | [] => ([], h)
  | s :: ss =>
    let (answer, h) := h.mapStep ref s
    let (answers, h) := h.mapSteps ref ss
    (answer :: answers, h)

/-- An operation on a key that fails changes nothing. -/
theorem mapStep_eq_self {h : Heap} {ref : Nat} {s : MapStep} (hclear : s ≠ .clear)
    (hs : (∃ k, (h.mapStep ref s).1 = .missing k) ∨ (h.mapStep ref s).1 = .endless) :
    (h.mapStep ref s).2 = h := by
  cases s with
  | clear => exact absurd rfl hclear
  | put k v => cases hp : h.mapPut ref k v <;> simp [mapStep, changed, hp] at hs ⊢
  | get k => cases hg : h.mapGet ref k <;> simp [mapStep, hg]
  | getOr k v | contains k => rcases hg : h.mapGet ref k with (_ | _) | _ <;> simp [mapStep, hg]
  | delete k | pop k =>
    rcases he : h.entryOf (h.mapAt ref) k with lapse | e
    · simp [mapStep, he]
    · simp [mapStep, he] at hs
  | getOrPut k v =>
    rcases hg : h.mapGet ref k with (_ | _) | w
    · cases hp : h.mapPut ref k v <;> simp [mapStep, changed, hg, hp] at hs ⊢
    · simp [mapStep, hg]
    · simp [mapStep, hg]

end Heap

end Sigil
