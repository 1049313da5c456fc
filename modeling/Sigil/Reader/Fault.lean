import Sigil.Path.Segment
import Sigil.Trigger

/-!
# Faults of reading

A `ReadFault` is the cause of a failed reading. Each cause but one belongs to a category, has
a text and is reported at a place; an integer with too many digits is refused by the limit on
the conversion of numbers and has no place.
-/

namespace Sigil

inductive ReadCategory where
  | unterminatedList
  | unterminatedString
  | malformedLiteral
  | invalidIndex
  | invalidPath
  | unexpectedEnd
  | unmatchedClose
  | unknownDispatch
  deriving DecidableEq, Repr

def ReadCategory.name : ReadCategory → String
  | unterminatedList => "UnterminatedListError"
  | unterminatedString => "UnterminatedStringError"
  | malformedLiteral => "MalformedLiteralError"
  | invalidIndex => "InvalidIndexError"
  | invalidPath => "InvalidPathError"
  | unexpectedEnd => "UnexpectedEOFError"
  | unmatchedClose => "UnmatchedCloseError"
  | unknownDispatch => "UnknownDispatchError"

inductive ReadFault where
  /-- The text ended inside a list that `closer` would have closed. -/
  | openList (closer : List Char)
  | openComment
  | openString
  | openRawString
  /-- A literal that needs a list has something else, or nothing, after its trigger. -/
  | missingList (trigger : Trigger) (found : Option Char)
  /-- A map literal with an odd number of elements starts with no test name. -/
  | notTestName (label shown : String)
  | badIndex (text : String)
  | emptyField
  | noSegments
  | noBase (first : Segment)
  | endOfText
  | endAfterLead (lead : Char)
  | strayCloser (trigger : Trigger)
  | unboundPair (lead sub : Char)
  | tooManyDigits (count : Nat)

namespace ReadFault

/-- The category of a fault; none for the limit on digits. -/
def category? : ReadFault → Option ReadCategory
  | openList _ | openComment => some .unterminatedList
  | openString | openRawString => some .unterminatedString
  | missingList .. | notTestName .. => some .malformedLiteral
  | badIndex _ => some .invalidIndex
  | emptyField | noSegments | noBase _ => some .invalidPath
  | endOfText | endAfterLead _ => some .unexpectedEnd
  | strayCloser _ => some .unmatchedClose
  | unboundPair .. => some .unknownDispatch
  | tooManyDigits _ => none

def message : ReadFault → String
  | openList closer => "List is missing its closing " ++ Text.quoted (String.ofList closer)
  | openComment => "Block comment is missing its closing '|#'"
  | openString => "String is missing its closing '\"'"
  | openRawString => "Raw string is missing its closing /#"
  | missingList trigger found =>
    trigger.written ++ " must be followed by '(', found "
      ++ found.elim "end of input" Text.quotedOne
  | notTestName label shown =>
    label ++ " has an odd number of elements and " ++ shown ++ " is not an equality test name"
  | badIndex text => "Path index must be a non-negative integer, got " ++ Text.quoted text
  | emptyField => "Path field name is empty"
  | noSegments => "Path has no segments"
  | noBase first => "Path must start with a base name, got " ++ first.shown
  | endOfText => "Unexpected end of input"
  | endAfterLead lead => "End of input after dispatch character " ++ Text.quotedOne lead
  | strayCloser trigger => "Unmatched close delimiter " ++ trigger.shown
  | unboundPair lead sub =>
    "No dispatch handler for " ++ String.singleton lead ++ String.singleton sub
  | tooManyDigits count =>
    "Exceeds the limit (4300 digits) for integer string conversion: value has "
      ++ toString count ++ " digits; use sys.set_int_max_str_digits() to increase the limit"

end ReadFault

end Sigil
