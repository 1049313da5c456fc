import Sigil.Datum.Printer

/-!
# Faults of evaluation

An `EvalFault` is the cause of a failed evaluation. Values and types are named in it by the
text that its message shows. `EvalFault.category` is what a report names before the message.
-/

namespace Sigil

/-- What there is no end to on a value that contains itself. -/
inductive Endless where
  | key
  | comparison
  | text

inductive EvalCategory where
  | unbound
  | field
  | test
  | arity
  | form
  | type
  | value
  | index
  | key
  | attribute
  | zeroDivision
  | overflow
  | memory
  | recursion
  | internal
  deriving DecidableEq, Repr

inductive EvalFault where
  -- names
  | unboundSymbol (name : String)
  | fieldNotFound (name : String)
  | unknownTest (name : String)
  | badTest (shown : String)
  -- calls
  | notCallable (shown : String)
  | tooFewArguments (label : String) (least given : Nat)
  | tooManyArguments (label : String) (most given : Nat)
  | wrongArguments (complaint : String)
  -- forms
  | notSymbol (what shown : String)
  | wrongParts (head : String)
  | bindingsNotList (head : String)
  | badBinding (shown : String)
  | unpairedAssignment
  | parametersNotList (shown : String)
  | secondRest
  -- numbers
  | unsupported (operator left right : String)
  | unsupportedNegation (type : String)
  | badRepetition (type : String)
  | notOrdered (operator left right : String)
  | nothingToCompare
  | divisionByZero
  | floatDivisionByZero
  | integerTooLarge
  | quotientTooLarge
  | countTooLarge
  | textTooLong
  | outOfMemory
  | tooManyDigits
  -- containers
  | noLength (type : String)
  | notIterable (type : String)
  | notSubscriptable (type : String)
  | notAssignable (type : String)
  | badListIndex (type : String)
  | badStringIndex (type : String)
  | listIndexRange
  | listAssignmentRange
  | stringIndexRange
  | indexTooLarge
  | nilIndex (shown : String)
  | noKeys (type : String)
  | badScopeKey (type : String)
  | unhashable (type : String)
  | missingKey (key : Datum)
  | changedDuringIteration
  | endless (what : Endless)
  -- arguments of builtins
  | badVectorSize (shown : String)
  | sizeMismatch (size given : String)
  | notVector
  | badSizeHint (shown : String)
  | notSpreadable
  | badFieldName (type : String)
  | badIndex (shown : String)
  | badParameter (index : Nat) (type : String)
  -- the prelude
  | unreadablePrelude (reason : String)

namespace EvalFault

def category : EvalFault → EvalCategory
  | unboundSymbol _ => .unbound
  | fieldNotFound _ => .field
  | unknownTest _ | badTest _ => .test
  | tooFewArguments .. | tooManyArguments .. => .arity
  | notSymbol .. | wrongParts _ | bindingsNotList _ | badBinding _ | unpairedAssignment
  | parametersNotList _ | secondRest => .form
  | notCallable _ | wrongArguments _ | unsupported .. | unsupportedNegation _ | badRepetition _
  | notOrdered .. | nothingToCompare | noLength _ | notIterable _ | notSubscriptable _
  | notAssignable _ | badListIndex _ | badStringIndex _ | badScopeKey _ | unhashable _
  | badVectorSize _ | notVector | badSizeHint _ | notSpreadable | badFieldName _ | badIndex _
  | badParameter .. => .type
  | tooManyDigits | sizeMismatch .. => .value
  | listIndexRange | listAssignmentRange | stringIndexRange | indexTooLarge | nilIndex _ => .index
  | missingKey _ => .key
  | noKeys _ => .attribute
  | divisionByZero | floatDivisionByZero => .zeroDivision
  | integerTooLarge | quotientTooLarge | countTooLarge | textTooLong => .overflow
  | outOfMemory => .memory
  | endless _ => .recursion
  | changedDuringIteration | unreadablePrelude _ => .internal

/-- A fault of printing stops an evaluation that needs the text. -/
def ofPrint : PrintFault → EvalFault
  | .tooManyDigits => tooManyDigits
  | .lostKey key => missingKey key
  | .badParameter index type => badParameter index type
  | .endless => endless .text

def notFitting : String := "cannot fit 'int' into an index-sized integer"

/-- How the limit of recursion is told. The text hangs on the step that meets the limit; these are
the ones that meet it where each level takes the same steps. -/
def limitReached : Endless → String
  | .key => "maximum recursion depth exceeded in __instancecheck__"
  | .comparison => "maximum recursion depth exceeded in comparison"
  | .text => "maximum recursion depth exceeded"

/-- The text of a fault. Only that of a missing key may fail. -/
def message : EvalFault → Except PrintFault String
  | unboundSymbol name | fieldNotFound name => .ok name
  | unknownTest name => .ok ("Unknown map test: " ++ name)
  | badTest shown => .ok ("Map test must be a symbol, got " ++ shown)
  | notCallable shown => .ok ("Object is not callable: " ++ shown)
  | tooFewArguments label least given =>
    .ok (label ++ " expects at least " ++ toString least ++ " argument(s), got " ++ toString given)
  | tooManyArguments label most given =>
    .ok (label ++ " expects at most " ++ toString most ++ " argument(s), got " ++ toString given)
  | wrongArguments complaint => .ok complaint
  | notSymbol what shown => .ok (what ++ " must be a symbol, got " ++ shown)
  | wrongParts head => .ok ("Malformed (" ++ head ++ " ...): wrong number of parts")
  | bindingsNotList head => .ok ("(" ++ head ++ " ...) bindings must be a list")
  | badBinding shown => .ok ("Malformed binding: " ++ shown)
  | unpairedAssignment => .ok "(setq ...) needs name/value pairs"
  | parametersNotList shown => .ok ("Parameter list must be a list, got " ++ shown)
  | secondRest => .ok "Only one &rest parameter is allowed"
  | unsupported operator left right =>
    .ok ("unsupported operand type(s) for " ++ operator ++ ": '" ++ left ++ "' and '" ++ right
      ++ "'")
  | unsupportedNegation type => .ok ("bad operand type for unary -: '" ++ type ++ "'")
  | badRepetition type => .ok ("can't multiply sequence by non-int of type '" ++ type ++ "'")
  | notOrdered operator left right =>
    .ok ("'" ++ operator ++ "' not supported between instances of '" ++ left ++ "' and '"
      ++ right ++ "'")
  | nothingToCompare => .ok "Comparison needs at least one argument"
  | divisionByZero => .ok "division by zero"
  | floatDivisionByZero => .ok "float division by zero"
  | integerTooLarge => .ok "int too large to convert to float"
  | quotientTooLarge => .ok "integer division result too large for a float"
  | countTooLarge | indexTooLarge => .ok notFitting
  | textTooLong => .ok "repeated string is too long"
  | outOfMemory => .ok ""
  | tooManyDigits =>
    .ok ("Exceeds the limit (4300 digits) for integer string conversion; "
      ++ "use sys.set_int_max_str_digits() to increase the limit")
  | noLength type => .ok ("object of type '" ++ type ++ "' has no len()")
  | notIterable type => .ok ("'" ++ type ++ "' object is not iterable")
  | notSubscriptable type => .ok ("'" ++ type ++ "' object is not subscriptable")
  | notAssignable type => .ok ("'" ++ type ++ "' object does not support item assignment")
  | badListIndex type => .ok ("list indices must be integers or slices, not " ++ type)
  | badStringIndex type => .ok ("string indices must be integers, not '" ++ type ++ "'")
  | listIndexRange => .ok "list index out of range"
  | listAssignmentRange => .ok "list assignment index out of range"
  | stringIndexRange => .ok "string index out of range"
  | nilIndex shown => .ok ("Index " ++ shown ++ " out of range for nil")
  | noKeys type => .ok ("'" ++ type ++ "' object has no attribute 'keys'")
  | badScopeKey type => .ok ("Scope key must be a str or Symbol, not " ++ type)
  | unhashable type => .ok ("unhashable type: '" ++ type ++ "'")
  | missingKey key => key.shown
  | endless what => .ok (limitReached what)
  | changedDuringIteration => .ok "dictionary changed size during iteration"
  | badVectorSize shown => .ok ("Vector size must be a non-negative integer, got " ++ shown)
  | sizeMismatch size given =>
    .ok ("Vector of size " ++ size ++ " given " ++ given ++ " initial element(s)")
  | notVector => .ok "vector-push-extend needs a vector"
  | badSizeHint shown => .ok ("Map size hint must be a non-negative integer, got " ++ shown)
  | notSpreadable => .ok "The last argument to apply must be a list"
  | badFieldName type =>
    .ok ("Field name must be a symbol, keyword or string, not " ++ type)
  | badIndex shown => .ok ("Index must be an integer, got " ++ shown)
  | badParameter index type =>
    .ok ("sequence item " ++ toString index ++ ": expected str instance, " ++ type ++ " found")
  | unreadablePrelude reason => .ok ("Failed to read core.lisp: " ++ reason)

end EvalFault

end Sigil
