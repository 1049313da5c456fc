/-!
# Kinds of handlers

Every behaviour that a trigger can be bound to. The standard kinds are those of the plain
reader; the others are the extensions.
-/

namespace Sigil

/-- A behaviour that a trigger can be bound to. -/
inductive HandlerKind where
  | listOpen
  | listClose
  | quote
  | string
  | lineComment
  | dispatch
  | function
  | blockComment
  | vector
  | map
  | fixedMap
  | rawString
  | positionalLambda
  | pathAccess
  deriving DecidableEq, Repr

namespace HandlerKind

def all : List HandlerKind :=
  [listOpen, listClose, quote, string, lineComment, dispatch, function, blockComment,
    vector, map, fixedMap, rawString, positionalLambda, pathAccess]

def name : HandlerKind → String
  | listOpen => "list-open"
  | listClose => "list-close"
  | quote => "quote"
  | string => "string"
  | lineComment => "line-comment"
  | dispatch => "dispatch"
  | function => "function"
  | blockComment => "block-comment"
  | vector => "vector"
  | map => "map"
  | fixedMap => "fixed-map"
  | rawString => "raw-string"
  | positionalLambda => "positional-lambda"
  | pathAccess => "path-access"

def ofName? (s : String) : Option HandlerKind := all.find? (·.name == s)

/-- A kind of the plain reader. -/
def isStandard : HandlerKind → Bool
  | listOpen | listClose | quote | string | lineComment | dispatch | function | blockComment =>
    true
  | vector | map | fixedMap | rawString | positionalLambda | pathAccess => false

theorem ofName?_name (k : HandlerKind) : ofName? k.name = some k := by cases k <;> decide

end HandlerKind

end Sigil
