import Sigil.Registry.Kind
import Sigil.Trigger

/-!
# Registries

A registry binds keys to handler kinds, in the order in which the keys were first bound. A
binding of a single character also says whether the character ends a token, so a terminating
character is always bound. `register` is the only write: the last one of a key wins and keeps
the key's place, and a pair is accepted only while its lead is a dispatching character.
-/

namespace Sigil

/-- A key, its kind, and, for a single character, whether it ends a token. -/
structure Binding where
  key : Key
  kind : HandlerKind
  terminating : Bool
  deriving DecidableEq

/-- Bindings, in the order in which their keys were first bound. -/
structure Registry where
  bindings : List Binding
  frozen : Bool
  deriving DecidableEq

inductive RegistryFault where
  | frozen (t : Trigger)
  | trigger (f : TriggerFault)
  | notDispatching (lead : Char)

def RegistryFault.message : RegistryFault → String
  | frozen t => "Cannot register " ++ t.shown ++ " on a frozen registry"
  | trigger f => f.message
  | notDispatching lead => Text.quotedOne lead ++ " is not a dispatching character"

namespace Registry

def empty : Registry := ⟨[], false⟩

def find? (reg : Registry) (k : Key) : Option Binding := reg.bindings.find? (·.key == k)

def kindOf? (reg : Registry) (k : Key) : Option HandlerKind := (reg.find? k).map (·.kind)

/-- Whether a character ends a token. -/
def isTerminating (reg : Registry) (c : Char) : Bool :=
  match reg.find? (.char c) with
  | some b => b.terminating
  | none => false

/-- The kind that a trigger dispatches to; a malformed trigger dispatches to nothing. -/
def dispatch (reg : Registry) (t : Trigger) : Option HandlerKind :=
  match t.key with
  | .ok k => reg.kindOf? k
  | .error _ => none

def isCloser (reg : Registry) (c : Char) : Bool := reg.kindOf? (.char c) == some .listClose

/-- Bindings with `b` in place of the binding of its key, or at their end. -/
def put (b : Binding) : List Binding → List Binding
  | [] => [b]
  | x :: xs => if x.key == b.key then b :: xs else x :: put b xs

def register (reg : Registry) (t : Trigger) (kind : HandlerKind) (terminating : Bool) :
    Except RegistryFault Registry :=
  if reg.frozen then .error (.frozen t)
  else match t.key with
    | .error f => .error (.trigger f)
    | .ok (.char c) => .ok { reg with bindings := put ⟨.char c, kind, terminating⟩ reg.bindings }
    | .ok (.pair lead sub) =>
      if reg.kindOf? (.char lead) = some .dispatch then
        .ok { reg with bindings := put ⟨.pair lead sub, kind, terminating⟩ reg.bindings }
      else .error (.notDispatching lead)

def copy (reg : Registry) : Registry := { reg with frozen := false }

def freeze (reg : Registry) : Registry := { reg with frozen := true }

def size (reg : Registry) : Nat := reg.bindings.length

def keys (reg : Registry) : List Trigger := reg.bindings.map (Trigger.ofKey ·.key)

def shown (reg : Registry) : String :=
  "<Registry " ++ toString reg.size ++ " bindings " ++ (if reg.frozen then "frozen" else "open")
    ++ ">"

/-! ## What a registration changes -/

theorem find?_put (b : Binding) (bs : List Binding) (k : Key) :
    (put b bs).find? (·.key == k) = if b.key = k then some b else bs.find? (·.key == k) := by
  induction bs with
  | nil => by_cases h : b.key = k <;> simp [put, h]
  | cons x xs ih =>
    simp only [put]
    split
    · next hx =>
      have hx := eq_of_beq hx
      by_cases h : b.key = k
      · simp [h]
      · simp [h, hx]
    · next hx =>
      by_cases hk : x.key = k
      · have : b.key ≠ k := fun h => hx (by simp [hk, h])
        simp [hk, this]
      · simp [beq_eq_false_iff_ne.2 hk, ih]

/-- A terminating character is bound. -/
theorem find?_of_isTerminating {reg : Registry} {c : Char} (h : reg.isTerminating c = true) :
    ∃ b, reg.find? (.char c) = some b := by
  unfold isTerminating at h
  split at h
  · next b hb => exact ⟨b, hb⟩
  · cases h

@[simp] theorem kindOf?_copy (reg : Registry) (k : Key) : reg.copy.kindOf? k = reg.kindOf? k := rfl

/-! ## The standard registry -/

/-- The bindings that every reader starts from. -/
def standard : Registry where
  bindings :=
    [⟨.char '(', .listOpen, true⟩,
     ⟨.char ')', .listClose, true⟩,
     ⟨.char '\'', .quote, true⟩,
     ⟨.char '"', .string, true⟩,
     ⟨.char ';', .lineComment, true⟩,
     ⟨.char '#', .dispatch, false⟩,
     ⟨.pair '#' "'", .function, true⟩,
     ⟨.pair '#' "|", .blockComment, true⟩]
  frozen := true

end Registry

end Sigil
