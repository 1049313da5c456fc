import Sigil.Plain
import Sigil.Text.Lowercase

/-!
# Triggers

A trigger is the character, or the pair of a dispatching character and a sub-character, that
starts a piece of syntax. A `Trigger` is what a caller names and may be malformed; a `Key` is
what a registry stores. The sub-character of a pair counts without regard to case, and the
lower case of one character may be two, so a stored sub-character is a text.
-/

namespace Sigil

inductive Trigger where
  | single (c : Plain)
  | tuple (parts : List Plain)
  deriving Inhabited

inductive Key where
  | char (c : Char)
  | pair (lead : Char) (sub : String)
  deriving DecidableEq

def Key.ofPair (lead sub : Char) : Key := .pair lead (String.ofList (Text.lowercase sub))

inductive TriggerFault where
  | notPair (t : Trigger)
  | notCharacter (t : Trigger)

namespace Trigger

def ofChar (c : Char) : Trigger := .single (.text (String.singleton c))

def ofPair (lead sub : Char) : Trigger :=
  .tuple [.text (String.singleton lead), .text (String.singleton sub)]

/-- The trigger that a stored key is listed as. -/
def ofKey : Key → Trigger
  | .char c => ofChar c
  | .pair lead sub => .tuple [.text (String.singleton lead), .text sub]

def key (t : Trigger) : Except TriggerFault Key :=
  match t with
  | .single p => match p.char? with
    | some c => .ok (.char c)
    | none => .error (.notCharacter t)
  | .tuple [p, q] => match p.char?, q.char? with
    | some c, some d => .ok (Key.ofPair c d)
    | _, _ => .error (.notPair t)
  | .tuple _ => .error (.notPair t)

def unhashable? : Trigger → Option Plain
  | .single p => if p.isHashable then none else some p
  | .tuple ps => ps.find? (!·.isHashable)

def shown : Trigger → String
  | .single p => p.shown
  | .tuple [p] => "(" ++ p.shown ++ ",)"
  | .tuple ps => "(" ++ String.intercalate ", " (ps.map Plain.shown) ++ ")"

def written : Trigger → String
  | .single (.text s) => s
  | .single p => p.shown
  | .tuple ps => String.join (ps.map fun
    | .text s => s
    | _ => "")

@[simp] theorem key_ofChar (c : Char) : (ofChar c).key = .ok (.char c) := by
  simp [ofChar, key, Plain.char?]

@[simp] theorem key_ofPair (c d : Char) : (ofPair c d).key = .ok (Key.ofPair c d) := by
  simp [ofPair, key, Plain.char?]

end Trigger

def TriggerFault.message : TriggerFault → String
  | notPair t => "Dispatch trigger must be a pair of characters: " ++ t.shown
  | notCharacter t => "Trigger must be a single character: " ++ t.shown

end Sigil
