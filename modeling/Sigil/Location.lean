/-!
# Places in a text

A `Location` is a line and a column, both counted from one. Only the line feed ends a line:
`advance_line` and `advance_col` give the place after any text as counts.
-/

namespace Sigil

structure Location where
  line : Nat
  col : Nat
  deriving DecidableEq, Repr, Inhabited

namespace Location

def start : Location := ⟨1, 1⟩

def step (l : Location) (c : Char) : Location :=
  if c = '\n' then ⟨l.line + 1, 1⟩ else ⟨l.line, l.col + 1⟩

def advance (l : Location) (cs : List Char) : Location := cs.foldl step l

@[simp] theorem advance_nil (l : Location) : l.advance [] = l := rfl

@[simp] theorem advance_cons (l : Location) (c : Char) (cs : List Char) :
    l.advance (c :: cs) = (l.step c).advance cs := rfl

theorem advance_append (l : Location) (a b : List Char) :
    l.advance (a ++ b) = (l.advance a).advance b := by
  simp [advance]

theorem advance_line (l : Location) (cs : List Char) :
    (l.advance cs).line = l.line + cs.count '\n' := by
  induction cs generalizing l with
  | nil => rfl
  | cons c cs ih =>
    rw [advance_cons, ih]
    by_cases h : c = '\n' <;> simp [step, h]
    omega

/-- The column counts the characters since the last line feed. -/
theorem advance_col (cs : List Char) :
    (start.advance cs).col = 1 + (cs.reverse.takeWhile (· != '\n')).length := by
  suffices ∀ ds : List Char,
      (start.advance ds.reverse).col = 1 + (ds.takeWhile (· != '\n')).length by
    simpa using this cs.reverse
  intro ds
  induction ds with
  | nil => rfl
  | cons c ds ih =>
    rw [List.reverse_cons, advance_append, advance_cons, advance_nil, step]
    by_cases h : c = '\n'
    · simp [h]
    · simp only [h, if_false, ih]
      simp [h]
      omega

end Location

end Sigil
