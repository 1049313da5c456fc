import Sigil.Heap.Basic
import Sigil.Value.Arithmetic

/-!
# Renaming the objects of a heap

A `Renaming` gives every object another reference and every string another identity. A renamed value
has the same type, the same text and the same number as before, so arithmetic does not see the
renaming (`add_value` and its neighbours).
-/

namespace Sigil

/-- References for the objects of each sort, and identities for strings. -/
structure Renaming where
  sequence : Nat → Nat
  map : Nat → Nat
  closure : Nat → Nat
  scope : Nat → Nat
  dict : Nat → Nat
  identity : Nat → Nat

namespace Renaming

def same : Renaming := ⟨id, id, id, id, id, id⟩

def str (σ : Renaming) : Str → Str
  | .fixed text => .fixed text
  | .made i text => .made (σ.identity i) text

def value (σ : Renaming) : Value → Value
  | .nil => .nil
  | .bool b => .bool b
  | .int n => .int n
  | .float x => .float x
  | .str s => .str (σ.str s)
  | .sym s => .sym (σ.str s)
  | .kw s => .kw (σ.str s)
  | .list a => .list (σ.sequence a)
  | .vector a => .vector (σ.sequence a)
  | .map a => .map (σ.map a)
  | .closure a => .closure (σ.closure a)
  | .builtin b => .builtin b
  | .pusher a i => .pusher (σ.sequence a) (σ.identity i)
  | .scope a => .scope (σ.scope a)
  | .dict a => .dict (σ.dict a)
  | .eof => .eof

def closureObject (σ : Renaming) (c : ClosureObject) : ClosureObject where
  required := σ.sequence c.required
  optional := σ.sequence c.optional
  rest := c.rest.map σ.str
  body := σ.sequence c.body
  scope := σ.scope c.scope
  name := c.name.map σ.str

def binding (σ : Renaming) (b : Str × Value) : Str × Value := (σ.str b.1, σ.value b.2)

variable {σ : Renaming}

theorem str_same : same.str = id := by
  funext s
  cases s <;> rfl

theorem value_same : same.value = id := by
  funext v
  cases v <;> simp only [value, str_same, id] <;> rfl

theorem closureObject_same (c : ClosureObject) : same.closureObject c = c := by
  simp only [closureObject, str_same, Option.map_id, id]
  rfl

/-! ## What a renamed value shows -/

@[simp] theorem text_str (s : Str) : (σ.str s).text = s.text := by cases s <;> rfl

@[simp] theorem typeName_value (v : Value) : (σ.value v).typeName = v.typeName := by
  cases v <;> rfl

@[simp] theorem sequence?_value (v : Value) :
    (σ.value v).sequence? = v.sequence?.map σ.sequence := by
  cases v <;> rfl

@[simp] theorem integer?_value (v : Value) : (σ.value v).integer? = v.integer? := by
  cases v <;> rfl

/-! ## Numbers -/

@[simp] theorem toDouble?_value (v : Value) : (σ.value v).toDouble? = v.toDouble? := by
  cases v <;> rfl

theorem arithmetic_value (symbol : String) (whole : Int → Int → Int)
    (double : Float → Float → Float) (a b : Value) :
    Value.arithmetic symbol whole double (σ.value a) (σ.value b)
      = (Value.arithmetic symbol whole double a b).map σ.value := by
  simp only [Value.arithmetic, integer?_value, toDouble?_value, typeName_value]
  split
  · rfl
  · split
    · next x y _ _ => rcases x with _ | x <;> rcases y with _ | y <;> rfl
    · rfl

theorem add_value (a b : Value) : (σ.value a).add (σ.value b) = (a.add b).map σ.value :=
  arithmetic_value _ _ _ a b

theorem sub_value (a b : Value) : (σ.value a).sub (σ.value b) = (a.sub b).map σ.value :=
  arithmetic_value _ _ _ a b

theorem mul_value (a b : Value) : (σ.value a).mul (σ.value b) = (a.mul b).map σ.value :=
  arithmetic_value _ _ _ a b

theorem neg_value (a : Value) : (σ.value a).neg = a.neg.map σ.value := by
  cases a <;> rfl

theorem div_value (a b : Value) : (σ.value a).div (σ.value b) = (a.div b).map σ.value := by
  simp only [Value.div, integer?_value, toDouble?_value, typeName_value]
  split
  · split
    · rfl
    · split
      · rfl
      · split <;> rfl
  · split
    · next x y _ _ =>
      rcases x with _ | x <;> rcases y with _ | y <;> try rfl
      show (if y == 0 then _ else _) = Except.map σ.value (if y == 0 then _ else _)
      split <;> rfl
    · rfl

end Renaming

end Sigil
