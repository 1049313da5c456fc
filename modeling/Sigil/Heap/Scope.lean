import Sigil.Heap.Basic

/-!
# Scopes

A scope binds names to values and lies inside an enclosing scope, which is always older than
itself. A name is looked up in the nearest scope of the chain that owns it (`owner?`); an
assignment changes the owner, or the outermost scope when there is none.
-/

namespace Sigil.Heap

/-! ## Bindings of one scope -/

def bound? (name : String) : List (Str × Value) → Option Value
  | [] => none
  | (k, v) :: rest => if k.text = name then some v else bound? name rest

/-- Bind a name. A name that is bound already keeps its place and its first string. -/
def bind (name : Str) (v : Value) : List (Str × Value) → List (Str × Value)
  | [] => [(name, v)]
  | (k, w) :: rest => if k.text = name.text then (k, v) :: rest else (k, w) :: bind name v rest

theorem bound?_bind (name : Str) (v : Value) (bs : List (Str × Value)) (other : String) :
    bound? other (bind name v bs) = if name.text = other then some v else bound? other bs := by
  induction bs with
  | nil => simp [bind, bound?]
  | cons b bs ih =>
    obtain ⟨k, w⟩ := b
    simp only [bind]
    split
    · next h =>
      by_cases ho : name.text = other
      · simp [bound?, h, ho]
      · simp [bound?, h, ho]
    · next h =>
      simp only [bound?, ih]
      by_cases hk : k.text = other
      · have : name.text ≠ other := fun e => h (by rw [hk, e])
        simp [hk, this]
      · simp [hk]

/-! ## Chains of scopes -/

def own? (h : Heap) (scope : Nat) (name : String) : Option Value :=
  bound? name (h.scopeAt scope).bindings

/-- The enclosing scope. Only an older scope encloses. -/
def enclosing? (h : Heap) (scope : Nat) : Option { p : Nat // p < scope } :=
  match (h.scopeAt scope).parent with
  | some p => if hp : p < scope then some ⟨p, hp⟩ else none
  | none => none

def owner? (h : Heap) (scope : Nat) (name : String) : Option Nat :=
  if (h.own? scope name).isSome then some scope
  else match h.enclosing? scope with
    | some ⟨p, _⟩ => owner? h p name
    | none => none
termination_by scope

def root (h : Heap) (scope : Nat) : Nat :=
  match h.enclosing? scope with
  | some ⟨p, _⟩ => root h p
  | none => scope
termination_by scope

def lookup? (h : Heap) (scope : Nat) (name : String) : Option Value :=
  (h.owner? scope name).bind fun o => h.own? o name

def define (h : Heap) (scope : Nat) (name : Str) (v : Value) : Heap :=
  let s := h.scopeAt scope
  h.setScope scope { s with bindings := bind name v s.bindings }

/-- Rebind a name in the scope that owns it, or else in the outermost one. -/
def assign (h : Heap) (scope : Nat) (name : Str) (v : Value) : Heap :=
  h.define ((h.owner? scope name.text).getD (h.root scope)) name v

def ownNames (h : Heap) (scope : Nat) : List Str := (h.scopeAt scope).bindings.map (·.1)

theorem own?_define {h : Heap} {scope : Nat} (hs : scope < h.scopes.size) (name : Str) (v : Value)
    (other : String) :
    (h.define scope name v).own? scope other =
      if name.text = other then some v else h.own? scope other := by
  simp [define, own?, scopeAt, setScope, hs, bound?_bind]

theorem own?_define_of_ne {h : Heap} {scope t : Nat} (hne : scope ≠ t) (name : Str) (v : Value)
    (other : String) : (h.define scope name v).own? t other = h.own? t other := by
  simp [define, own?, scopeAt, setScope, hne]

/-- A name has a value exactly when some scope of the chain owns it. -/
theorem lookup?_eq_none_iff {h : Heap} {scope : Nat} {name : String} :
    h.lookup? scope name = none ↔ h.owner? scope name = none := by
  constructor
  · intro hn
    fun_induction owner? h scope name with
    | case1 s hs =>
      have hw : h.owner? s name = some s := by rw [owner?, if_pos hs]
      rw [lookup?, hw, Option.bind_some] at hn
      simp [hn] at hs
    | case2 s hs p hp he ih =>
      refine ih ?_
      rw [lookup?, owner?, if_neg hs, he] at hn
      exact hn
    | case3 => rfl
  · intro hn
    simp [lookup?, hn]

end Sigil.Heap
