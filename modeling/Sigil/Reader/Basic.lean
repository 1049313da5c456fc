import Sigil.Cursor
import Sigil.Reader.Step

/-!
# Reading

`run` feeds the characters of a text to the machine until a form is complete, a fault is
found, or the text ends; `read` starts it before a form. A reading that finds a form takes at
least one character (`after_lt_of_read_form`), so reading form after form ends: `readForms`
gives all forms of a text with their places.
-/

namespace Sigil.Reader

/-- What a reading found, where it stopped, and the extensions that it met. -/
structure Reading where
  found : Found
  rest : Cursor
  dispatched : List Dispatch

/-- The cursor of a reading that stopped after the character `c`, if that was taken, or else
before it. -/
def stopped (before : List Char) (place : Location) (c : Char) (cs : List Char) (taken : Bool) :
    Cursor :=
  if taken then ⟨c :: before, cs, place.step c⟩ else ⟨before, c :: cs, place⟩

/-- Feed the characters to come to the machine. The next one stands at `place`. -/
def run (reg : Registry) (before : List Char) (place : Location) (s : State) :
    List Char → Reading
  | [] => ⟨finish place s, ⟨before, [], place⟩, s.dispatched.reverse⟩
  | c :: cs =>
    match step reg place s c with
    | .more s => run reg (c :: before) (place.step c) s cs
    | .complete e taken =>
      ⟨.form e s.start, stopped before place c cs taken, s.dispatched.reverse⟩
    | .fail f loc taken =>
      ⟨.failure f loc, stopped before place c cs taken, s.dispatched.reverse⟩

def runAt (reg : Registry) (s : State) (cur : Cursor) : Reading :=
  run reg cur.before cur.loc s cur.after

def read (reg : Registry) (cur : Cursor) : Reading := runAt reg .idle cur

/-! ## Progress -/

theorem length_after_stopped {before : List Char} {place : Location} {c : Char} {cs : List Char}
    {taken : Bool} : (stopped before place c cs taken).after.length ≤ (c :: cs).length := by
  cases taken <;> simp [stopped]

theorem after_le_of_run {reg : Registry} {before : List Char} {place : Location} {s : State}
    {cs : List Char} : (run reg before place s cs).rest.after.length ≤ cs.length := by
  induction cs generalizing before place s with
  | nil => simp [run]
  | cons c cs ih =>
    unfold run
    split
    · exact Nat.le_succ_of_le ih
    · exact length_after_stopped
    · exact length_after_stopped

/-- Before a form, outside every form, a character goes on with the reading or is taken by its
fault. -/
theorem step_between_outside {reg : Registry} {place : Location} {s : State} {c : Char}
    (hm : s.mode = .between) (hf : s.frames = []) :
    (∃ s', step reg place s c = .more s') ∨ ∃ f loc, step reg place s c = .fail f loc true := by
  simp only [step, hm, State.stepBetween, hf, State.begin]
  split
  · exact .inl ⟨_, rfl⟩
  · split
    · exact .inl ⟨_, rfl⟩
    · next kind _ =>
      cases kind <;> first | exact .inl ⟨_, rfl⟩ | exact .inr ⟨_, _, rfl⟩

/-- A form takes at least one character. -/
theorem after_lt_of_read_form {reg : Registry} {cur : Cursor} {e : Expr} {start : Location}
    (h : (read reg cur).found = .form e start) :
    (read reg cur).rest.after.length < cur.after.length := by
  rcases cur with ⟨before, _ | ⟨c, cs⟩, place⟩
  · simp [read, runAt, run, finish, State.idle, cutOff] at h
  · simp only [read, runAt] at h ⊢
    rcases @step_between_outside reg place State.idle c rfl rfl with
      ⟨s', hs⟩ | ⟨f, loc, hs⟩
    · rw [run, hs]
      exact Nat.lt_succ_of_le after_le_of_run
    · rw [run, hs] at h
      simp at h

/-! ## All forms of a text -/

/-- The forms of a text with their places, up to the end of the text or the first fault. -/
structure Forms where
  forms : List (Expr × Location)
  fault : Option (ReadFault × Location)
  rest : Cursor
  dispatched : List Dispatch

def readForms (reg : Registry) (cur : Cursor) : Forms :=
  let r := read reg cur
  match h : r.found with
  | .form e start =>
    have : r.rest.after.length < cur.after.length := after_lt_of_read_form h
    let others := readForms reg r.rest
    { others with
      forms := (e, start) :: others.forms
      dispatched := r.dispatched ++ others.dispatched }
  | .nothing => ⟨[], none, r.rest, r.dispatched⟩
  | .failure f loc => ⟨[], some (f, loc), r.rest, r.dispatched⟩
termination_by cur.after.length

/-- The forms of a text, or the first fault. -/
def readAll (reg : Registry) (text : String) : Except (ReadFault × Location) (List Expr) :=
  let r := readForms reg (.ofText text)
  match r.fault with
  | some f => .error f
  | none => .ok (r.forms.map (·.1))

/-! ## Reading parts of a text -/

/-- The longest token at a cursor, perhaps empty, and the cursor after it. -/
def readToken (reg : Registry) (cur : Cursor) : String × Cursor :=
  let token := cur.after.takeWhile (!endsToken reg ·)
  (String.ofList token,
    ⟨token.reverse ++ cur.before, cur.after.dropWhile (!endsToken reg ·), cur.loc.advance token⟩)

/-- Whether a text stopped inside an open list, comment or string. The limit on digits leaves
no answer. -/
def Forms.isIncomplete (r : Forms) : Except ReadFault Bool :=
  match r.fault with
  | none => .ok false
  | some (f, _) => match f.category? with
    | some .unterminatedList | some .unterminatedString => .ok true
    | some _ => .ok false
    | none => .error f

/-- Whether a text stops inside an open list, comment or string. -/
def isIncomplete (reg : Registry) (text : String) : Except ReadFault Bool :=
  (readForms reg (.ofText text)).isIncomplete

end Sigil.Reader
