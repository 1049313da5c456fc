import Sigil.Atom
import Sigil.MapLiteral
import Sigil.Path.Basic
import Sigil.Reader.State
import Sigil.Text.Blank

/-!
# Steps of the reader

`step` takes one character in a state and gives a `Verdict`: the reading goes on, or it ended
with this character, or it had ended before it. `finish` is the verdict at the end of the
text. A completed form goes to the innermost frame (`deliver`), which may complete in turn.
-/

namespace Sigil.Reader

inductive Verdict where
  | more (s : State)
  /-- A form is complete; `taken` tells whether the character belongs to it. -/
  | complete (e : Expr) (taken : Bool)
  | fail (fault : ReadFault) (place : Location) (taken : Bool)

/-! ## Completing forms -/

/-- The form that closes with its last element. -/
def Shape.build (shape : Shape) (items : List Expr) : Except ReadFault Expr :=
  match shape with
  | .list => .ok (.list items)
  | .vector => .ok (.vector items)
  | .map sized label => buildMap label sized items

/-- A form that is complete, or the frames around it that go on. -/
inductive Delivery where
  | complete (e : Expr)
  | resume (frames : List Frame)

/-- Hand a form to the frames around it. -/
def deliver (e : Expr) : List Frame → Delivery
  | [] => .complete e
  | .delimited shape closer opened items :: fs =>
    .resume (.delimited shape closer opened (e :: items) :: fs)
  | .operand head :: fs => deliver (.list [.known head, e]) fs
  | .positional :: fs => deliver e.positionalLambda fs

/-- The expression of a token. -/
def tokenExpr (chars : List Char) : Except ReadFault Expr := Atom.ofToken chars.reverse

/-- The expression of the token after a path trigger, or the trigger itself as a symbol when
there is no token. -/
def pathExpr (trigger : Trigger) (chars : List Char) : Except ReadFault Expr :=
  if chars.isEmpty then .ok (.sym trigger.written .written)
  else Path.fold (Path.split chars.reverse)

/-- The character that an escaped character of a string stands for. -/
def unescape (c : Char) : Char :=
  if c = 'n' then '\n' else if c = 't' then '\t' else if c = 'r' then '\r' else c

/-! ## Steps of each mode -/

/-- How messages name a map literal with a trigger. -/
def mapLabel (trigger : Trigger) : String := trigger.written ++ "(...)"

/-- How messages name a map literal of a fixed size. -/
def fixedMapLabel : String := "\x7b...\x7d"

/-- A character at which a token ends. -/
def endsToken (reg : Registry) (c : Char) : Bool := Text.isBlank c || reg.isTerminating c

def State.close (s : State) (e : Expr) (frames : List Frame) : Verdict :=
  match deliver e frames with
  | .complete e => .complete e true
  | .resume frames => .more { s with mode := .between, frames }

/-- Start what a trigger is bound to. The trigger stands at `place` and ends before `after`. -/
def State.invoke (s : State) (kind : HandlerKind) (cue : Cue) (place after : Location) :
    Verdict :=
  let trigger := cue.trigger
  let extended : State := { s with dispatched := ⟨trigger, kind, place⟩ :: s.dispatched }
  let enter (s : State) (mode : Mode) : Verdict := .more { s with mode }
  let push (s : State) (f : Frame) : Verdict :=
    .more { s with mode := .between, frames := f :: s.frames }
  match kind with
  | .listOpen => push s (.delimited .list [')'] place [])
  | .listClose => .fail (.strayCloser trigger) place true
  | .quote => push s (.operand "quote")
  | .string => enter s (.string place [] false)
  | .lineComment => enter s .lineComment
  | .dispatch => enter s (.pair cue.lead place)
  | .function => push s (.operand "function")
  | .blockComment => enter s (.blockComment place 1 none)
  | .vector => enter extended (.opener .vector trigger place)
  | .map => enter extended (.opener (.map false (mapLabel trigger)) trigger place)
  | .fixedMap => push extended (.delimited (.map true fixedMapLabel) ['}'] place [])
  | .rawString => enter extended (.rawString after [] false)
  | .positionalLambda => push extended .positional
  | .pathAccess => enter extended (.path trigger after [])

/-- A character that is no blank and closes nothing starts a form. -/
def State.begin (reg : Registry) (s : State) (place : Location) (c : Char) : Verdict :=
  match reg.kindOf? (.char c) with
  | none => .more { s with mode := .token [c] }
  | some kind => s.invoke kind (.char c) place (place.step c)

def State.stepBetween (reg : Registry) (s : State) (place : Location) (c : Char) : Verdict :=
  if Text.isBlank c then .more { s with mode := .between }
  else match s.frames with
    | [] => State.begin reg { s with start := place } place c
    | .delimited shape closer opened items :: fs =>
      if closer = [c] then match shape.build items.reverse with
        | .error f => .fail f opened true
        | .ok e => s.close e fs
      else State.begin reg s place c
    | _ => State.begin reg s place c

/-- A token or a path that ended before the character `c`. -/
def State.endBefore (reg : Registry) (s : State) (result : Except ReadFault Expr)
    (faultPlace place : Location) (c : Char) : Verdict :=
  match result with
  | .error f => .fail f faultPlace false
  | .ok e => match deliver e s.frames with
    | .complete e => .complete e false
    | .resume frames => State.stepBetween reg { s with frames } place c

/-- The first half of a delimiter of block comments. -/
def delimiterStart (c : Char) : Option Char := if c = '|' ∨ c = '#' then some c else none

/-- Take the character `c`, which stands at `place`. -/
def step (reg : Registry) (place : Location) (s : State) (c : Char) : Verdict :=
  match s.mode with
  | .between => s.stepBetween reg place c
  | .token chars =>
    if endsToken reg c then s.endBefore reg (tokenExpr chars) place place c
    else .more { s with mode := .token (c :: chars) }
  | .path trigger opened chars =>
    if endsToken reg c || (chars.isEmpty && reg.isCloser c) then
      s.endBefore reg (pathExpr trigger chars) opened place c
    else .more { s with mode := .path trigger opened (c :: chars) }
  | .string opened chars escaped =>
    if escaped then .more { s with mode := .string opened (unescape c :: chars) false }
    else if c = '\\' then .more { s with mode := .string opened chars true }
    else if c = '"' then s.close (.str (String.ofList chars.reverse)) s.frames
    else .more { s with mode := .string opened (c :: chars) false }
  | .rawString opened chars slash =>
    if slash && c == '#' then s.close (.str (String.ofList chars.tail.reverse)) s.frames
    else .more { s with mode := .rawString opened (c :: chars) (c == '/') }
  | .lineComment => .more { s with mode := if c = '\n' then .between else .lineComment }
  | .blockComment opened depth last =>
    if last = some '|' ∧ c = '#' then
      .more { s with
        mode := if depth ≤ 1 then .between else .blockComment opened (depth - 1) none }
    else if last = some '#' ∧ c = '|' then
      .more { s with mode := .blockComment opened (depth + 1) none }
    else .more { s with mode := .blockComment opened depth (delimiterStart c) }
  | .pair lead opened => match reg.kindOf? (Key.ofPair lead c) with
    | none | some .dispatch => .fail (.unboundPair lead c) opened true
    | some kind => s.invoke kind (.pair lead c) opened (place.step c)
  | .opener shape trigger opened =>
    if c = '(' then
      .more { s with mode := .between, frames := .delimited shape [')'] opened [] :: s.frames }
    else .fail (.missingList trigger (some c)) place true

/-! ## The end of the text -/

inductive Found where
  /-- A form and the place where it starts. -/
  | form (e : Expr) (start : Location)
  /-- No form before the end of the text. -/
  | nothing
  | failure (fault : ReadFault) (place : Location)

/-- The fault of a text that ends between the elements of an open form. -/
def cutOff (place : Location) : List Frame → Found
  | [] => .nothing
  | .delimited _ closer opened _ :: _ => .failure (.openList closer) opened
  | _ :: _ => .failure .endOfText place

def State.endAtEnd (s : State) (result : Except ReadFault Expr) (faultPlace place : Location) :
    Found :=
  match result with
  | .error f => .failure f faultPlace
  | .ok e => match deliver e s.frames with
    | .complete e => .form e s.start
    | .resume frames => cutOff place frames

def finish (place : Location) (s : State) : Found :=
  match s.mode with
  | .between | .lineComment => cutOff place s.frames
  | .token chars => s.endAtEnd (tokenExpr chars) place place
  | .path trigger opened chars => s.endAtEnd (pathExpr trigger chars) opened place
  | .string opened .. => .failure .openString opened
  | .rawString opened .. => .failure .openRawString opened
  | .blockComment opened .. => .failure .openComment opened
  | .pair lead opened => .failure (.endAfterLead lead) opened
  | .opener _ trigger _ => .failure (.missingList trigger none) place

end Sigil.Reader
