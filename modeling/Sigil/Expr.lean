/-!
# Expressions

What a reader produces: numbers, strings, symbols, keywords, and lists of expressions. An
extension of the syntax never adds a new sort of expression; it stands for an ordinary call,
built here from the symbols that the evaluator knows. Such a symbol is marked as supplied by
the syntax: its name is one string wherever it occurs, while every symbol that is written out
has a string of its own for its name. `Expr.spelled` forgets the marks.
-/

namespace Sigil

/-- Where a symbol comes from: the text, or the syntax that stands for it. -/
inductive Origin where
  | written
  | supplied
  deriving DecidableEq, Repr, Inhabited

inductive Expr where
  | int (n : Int)
  | float (x : Float)
  | str (s : String)
  | sym (name : String) (origin : Origin)
  | kw (name : String)
  | list (items : List Expr)
  deriving Inhabited

namespace Expr

mutual

def decEq : (a b : Expr) → Decidable (a = b)
  | int m, int n => decidable_of_iff (m = n) (by simp)
  | float x, float y => decidable_of_iff (x = y) (by simp)
  | str s, str t => decidable_of_iff (s = t) (by simp)
  | sym s o, sym t u => decidable_of_iff (s = t ∧ o = u) (by simp)
  | kw s, kw t => decidable_of_iff (s = t) (by simp)
  | list xs, list ys => match decEqAll xs ys with
    | isTrue h => isTrue (by rw [h])
    | isFalse h => isFalse (by simpa using h)
  | int _, float _ | int _, str _ | int _, sym _ _ | int _, kw _ | int _, list _
  | float _, int _ | float _, str _ | float _, sym _ _ | float _, kw _ | float _, list _
  | str _, int _ | str _, float _ | str _, sym _ _ | str _, kw _ | str _, list _
  | sym _ _, int _ | sym _ _, float _ | sym _ _, str _ | sym _ _, kw _ | sym _ _, list _
  | kw _, int _ | kw _, float _ | kw _, str _ | kw _, sym _ _ | kw _, list _
  | list _, int _ | list _, float _ | list _, str _ | list _, sym _ _ | list _, kw _ =>
    isFalse (by simp)

def decEqAll : (xs ys : List Expr) → Decidable (xs = ys)
  | [], [] => isTrue rfl
  | [], _ :: _ | _ :: _, [] => isFalse (by simp)
  | x :: xs, y :: ys => match decEq x y, decEqAll xs ys with
    | isTrue h, isTrue hs => isTrue (by rw [h, hs])
    | isFalse h, _ => isFalse (by simp [h])
    | _, isFalse hs => isFalse (by simp [hs])

end

instance : DecidableEq Expr := decEq

mutual

def spelled : Expr → Expr
  | sym name _ => sym name .written
  | list items => list (spelledAll items)
  | e => e

def spelledAll : List Expr → List Expr
  | [] => []
  | e :: es => spelled e :: spelledAll es

end

/-! ## What the syntax supplies -/

/-- A symbol that the syntax supplies. -/
def known (name : String) : Expr := sym name .supplied

def quote (e : Expr) : Expr := list [known "quote", e]

/-- `(make-vector n (list e1 … en))` -/
def vector (items : List Expr) : Expr :=
  list [known "make-vector", int items.length, list (known "list" :: items)]

/-- `(access-field e 'name)` -/
def accessField (e : Expr) (name : String) : Expr :=
  list [known "access-field", e, quote (sym name .written)]

/-- `(access-index e n)` -/
def accessIndex (e : Expr) (n : Nat) : Expr := list [known "access-index", e, int n]

def placeholders : List Expr := [known "%", known "%%"]

/-- `(lambda (&optional % %%) (declare (ignorable % %%)) e …)`. A list that starts with a list
is a sequence of body forms. -/
def positionalLambda (e : Expr) : Expr :=
  let body := match e with
    | list (list head :: rest) => list head :: rest
    | _ => [e]
  list (known "lambda" :: list (known "&optional" :: placeholders)
    :: list [known "declare", list (known "ignorable" :: placeholders)] :: body)

end Expr

end Sigil
