/-!
# Builtin functions

The functions that every root scope starts with. Each has the name under which it is bound,
the name under which a call of it is recorded, and a signature; the operators are second
names of the arithmetic ones.
-/

namespace Sigil

/-- A builtin function, in the order in which a root scope binds them. -/
inductive Builtin where
  | accessField | accessIndex | add | apply | concat | div | emit
  | eq | eql | equal | equalp | funcall | gt | gte | length | list | lt | lte
  | makeMap | makeVector | mapCount | mapGet | mapKeys | mapPut | mapcar | mul | not | numEq
  | print | sub | vectorPushExtend
  deriving DecidableEq, Repr

namespace Builtin

def all : List Builtin :=
  [accessField, accessIndex, add, apply, concat, div, emit, eq, eql, equal, equalp, funcall,
    gt, gte, length, list, lt, lte, makeMap, makeVector, mapCount, mapGet, mapKeys, mapPut,
    mapcar, mul, not, numEq, print, sub, vectorPushExtend]

def name : Builtin → String
  | accessField => "access-field"
  | accessIndex => "access-index"
  | add => "add"
  | apply => "apply"
  | concat => "concat"
  | div => "div"
  | emit => "emit"
  | eq => "eq"
  | eql => "eql"
  | equal => "equal"
  | equalp => "equalp"
  | funcall => "funcall"
  | gt => "gt"
  | gte => "gte"
  | length => "length"
  | list => "list"
  | lt => "lt"
  | lte => "lte"
  | makeMap => "make-map"
  | makeVector => "make-vector"
  | mapCount => "map-count"
  | mapGet => "map-get"
  | mapKeys => "map-keys"
  | mapPut => "map-put"
  | mapcar => "mapcar"
  | mul => "mul"
  | not => "not"
  | numEq => "num-eq"
  | print => "print"
  | sub => "sub"
  | vectorPushExtend => "vector-push-extend"

def operators : List (String × Builtin) :=
  [("+", add), ("-", sub), ("*", mul), ("/", div), ("=", numEq), ("<", lt), (">", gt),
    ("<=", lte), (">=", gte)]

/-- A name with its hyphens replaced by underscores. -/
def underscored (s : String) : String := s.map fun c => if c = '-' then '_' else c

/-- The name that a call records when the callee was not named. -/
def callName (b : Builtin) : String := "_" ++ underscored b.name

theorem mem_all (b : Builtin) : b ∈ all := by cases b <;> decide

end Builtin

/-- The parameters of a builtin: names of the required ones, the number of optional ones, and
whether more arguments are taken. -/
structure Signature where
  required : List String
  optional : Nat
  variadic : Bool

def Builtin.signature : Builtin → Signature
  | accessField => ⟨["target", "field_spec"], 0, false⟩
  | accessIndex => ⟨["target", "index"], 0, false⟩
  | add | mul | numEq | lt | gt | lte | gte | list | concat | print => ⟨[], 0, true⟩
  | sub | div => ⟨["first"], 0, true⟩
  | eq | eql | equal | equalp => ⟨["a", "b"], 0, false⟩
  | not => ⟨["x"], 0, false⟩
  | length => ⟨["seq"], 0, false⟩
  | funcall | apply => ⟨["func"], 0, true⟩
  | mapcar => ⟨["func", "seq"], 0, true⟩
  | emit => ⟨["topic_or_topics"], 0, true⟩
  | makeVector => ⟨["size"], 1, false⟩
  | vectorPushExtend => ⟨["value", "vector"], 0, false⟩
  | makeMap => ⟨[], 2, false⟩
  | mapPut => ⟨["target", "key", "value"], 0, false⟩
  | mapGet => ⟨["target", "key"], 1, false⟩
  | mapCount | mapKeys => ⟨["target"], 0, false⟩

namespace Signature

/-- Quoted names joined by commas and a final `and`. -/
def nameList : List String → String
  | [] => ""
  | [a] => "'" ++ a ++ "'"
  | [a, b] => "'" ++ a ++ "' and '" ++ b ++ "'"
  | names =>
    String.join (names.dropLast.map fun a => "'" ++ a ++ "', ") ++ "and '"
      ++ names.getLastD "" ++ "'"

def plural (n : Nat) : String := if n = 1 then "" else "s"

/-- The complaint about a number of arguments, if there is one. The receiver of the call counts
as an argument. -/
def complaint? (sig : Signature) (callee : String) (given : Nat) : Option String :=
  let least := sig.required.length
  let most := least + sig.optional
  if !sig.variadic && most < given then
    let takes := if sig.optional = 0 then toString (most + 1) ++ " positional argument"
        ++ plural (most + 1)
      else "from " ++ toString (least + 1) ++ " to " ++ toString (most + 1)
        ++ " positional arguments"
    some (callee ++ "() takes " ++ takes ++ " but " ++ toString (given + 1) ++ " were given")
  else if given < least then
    let missing := sig.required.drop given
    some (callee ++ "() missing " ++ toString missing.length ++ " required positional argument"
      ++ plural missing.length ++ ": " ++ nameList missing)
  else none

theorem complaint?_eq_none_iff {sig : Signature} {callee : String} {given : Nat} :
    sig.complaint? callee given = none ↔
      sig.required.length ≤ given ∧
        (sig.variadic = true ∨ given ≤ sig.required.length + sig.optional) := by
  unfold complaint?
  simp only []
  split
  · next h =>
    simp only [Bool.and_eq_true, Bool.not_eq_true', decide_eq_true_eq] at h
    simp only [reduceCtorEq, h.1, Bool.false_eq_true, false_or, false_iff]
    omega
  · next h =>
    split
    · simp only [reduceCtorEq, false_iff]
      omega
    · simp only [true_iff]
      refine ⟨by omega, ?_⟩
      cases hv : sig.variadic
      · simp only [hv, Bool.not_false, Bool.true_and, decide_eq_true_eq] at h
        exact .inr (by omega)
      · exact .inl rfl

end Signature

end Sigil
