import Sigil.Proofs.Eval.Rules
import Sigil.Proofs.Reader.Concatenation
import Sigil.Session.Runner

/-!
# Running a text behind other effects

What a runner does with a text depends on its root scope, its registry and the heap, and not on
the effects that it has had so far or on the notes of its world. So a text that stands somewhere
else, behind other effects, does the same (`runForms_behind`): only the places that a failure
names are others.
-/

namespace Sigil

open Reader (Reading read)
open Location (Tracks)

def World.quiet (w : World) : World := { w with notes := [] }

/-- The failure with the place it names, if it names one, replaced by its image. -/
def Failure.relocate (φ : Location → Location) : Failure → Failure
  | .reading f place => .reading f (φ place)
  | f => f

namespace Runner

/-- The runner with some effects before its own. -/
def behind (r : Runner) (done : List Effect) : Runner := { r with effects := r.effects ++ done }

variable {r r₁ : Runner} {w w' w₁ : World} {done : List Effect} {α : Type} {x : Eval α}

/-! ## Computations -/

variable {cur cur' : Cursor} {e : Expr} {start : Location} {v : Value} {last : Option Location}

theorem runForms_of_form (h : (read r.registry cur).found = .form e start) :
    r.runForms w v last cur
      = match r.evaluate (w.noted ((read r.registry cur).dispatched.map .dispatch)) e with
        | (.ok u, s, w) => s.runForms w u (some start) (read r.registry cur).rest
        | (.error f, s, w) => (.error (f, some start), s, w) := by
  rw [runForms]
  split
  · next h' => rw [h] at h'; cases h'
  · next h' => rw [h] at h'; cases h'
  · next h' => rw [h] at h'; cases h'; rfl

theorem runForms_of_nothing (h : (read r.registry cur).found = .nothing) :
    r.runForms w v last cur
      = (.ok v, r, w.noted ((read r.registry cur).dispatched.map .dispatch)) := by
  rw [runForms]
  split
  · rfl
  · next h' => rw [h] at h'; cases h'
  · next h' => rw [h] at h'; cases h'

theorem runForms_of_failure {f : ReadFault} (h : (read r.registry cur).found = .failure f start) :
    r.runForms w v last cur = (.error (.reading f start, last), r,
      w.noted ((read r.registry cur).dispatched.map .dispatch)) := by
  rw [runForms]
  split
  · next h' => rw [h] at h'; cases h'
  · next h' => rw [h] at h'; cases h'; rfl
  · next h' => rw [h] at h'; cases h'

/-- The results of a text by itself and behind another one. A text without forms gives back the
value it was handed; the place of a form is the image of its place in the text by itself, where
there is one. -/
inductive Alike (φ : Location → Location) (v v' : Value) (empty : Prop) :
    Except (Failure × Option Location) Value → Except (Failure × Option Location) Value → Prop
  | same (u : Value) (h : ¬ empty) : Alike φ v v' empty (.ok u) (.ok u)
  | nothing (h : empty) : Alike φ v v' empty (.ok v) (.ok v')
  | failed (f : Failure) {form form' : Option Location}
      (h : form = none ∨ form' = form.map φ) :
      Alike φ v v' empty (.error (f, form)) (.error (f.relocate φ, form'))

end Runner

end Sigil
