import Sigil.Reader.State
import Sigil.Registry.Readtable

/-!
# Debugging notes

What the debugging output reports, in the order in which it happens: the extensions that a
reader meets, the calls that an evaluator makes, and the composition of a registry.
-/

namespace Sigil

/-- An event that the debugging output reports. -/
inductive Note where
  | dispatch (d : Reader.Dispatch)
  | call (callee : String) (arguments : Nat)
  | readtable (n : Readtable.Note)

def Note.line : Note → String
  | dispatch d => "[DBG] " ++ d.shown
  | call callee n => "[DBG] Evaluator.call " ++ callee ++ " argc " ++ toString n
  | readtable n => "[DBG] " ++ n.shown

end Sigil
