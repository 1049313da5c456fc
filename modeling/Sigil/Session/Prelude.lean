/-!
# The prelude

The definitions that are evaluated in every root scope before the first script. They are read
as source text with the default extensions.
-/

namespace Sigil.Prelude

def lines : List String :=
  [";; Core definitions evaluated into every runner's root scope.",
   "",
   "(defun identity (x) x)",
   "",
   ";; A function that ignores its arguments and returns value.",
   "(defun constantly (value) ^value)",
   "",
   "(defun compose (f g) ^(funcall f (funcall g %)))",
   "",
   "(defun first (seq) @seq#0)",
   "(defun second (seq) @seq#1)",
   "",
   "(defun vector-from-list (items)",
   "  (make-vector (length items) items))",
   "",
   "(defun map-update (m key f)",
   "  (map-put m key (funcall f (map-get m key))))",
   "",
   "#| Insert every key/value pair of source into target and return target. |#",
   "(defun map-merge (target source)",
   "  (mapcar ^(map-put target % (map-get source %)) (map-keys source))",
   "  target)"]

def text : String := String.join (lines.map (· ++ "\n"))

end Sigil.Prelude
