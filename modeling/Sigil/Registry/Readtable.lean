import Sigil.Registry.Basic

/-!
# Readtables

A readtable lists the rows that extend a registry. `Readtable.ofPlain` checks parsed plain
data row by row, `Readtable.extend` copies a registry, registers the rows in order and
freezes the result, and `Readtable.bundled` holds the rows of the default extensions.
-/

namespace Sigil

structure Row where
  trigger : Trigger
  kind : HandlerKind
  terminating : Bool

/-- Why parsed data is no readtable. Rows are counted from zero. -/
inductive ReadtableFault where
  | noTriggers
  | notMapping (row : Nat) (found : Plain)
  | badTrigger (row : Nat)
  | badSub (row : Nat)
  | unknownHandler (row : Nat) (found : Plain)
  | badTerminating (row : Nat)

def ReadtableFault.message (path : String) : ReadtableFault → String
  | noTriggers => path ++ ": expected a top-level 'triggers' list"
  | notMapping row found =>
    "Readtable row " ++ toString row ++ " must be a mapping, got " ++ found.typeName
  | badTrigger row => "Readtable row " ++ toString row ++ ": 'trigger' must be one character"
  | badSub row => "Readtable row " ++ toString row ++ ": 'sub' must be one character"
  | unknownHandler row found =>
    "Readtable row " ++ toString row ++ ": unknown handler " ++ found.shown
  | badTerminating row =>
    "Readtable row " ++ toString row ++ ": 'terminating' must be true or false"

namespace Readtable

/-- The sub-character of a row, if it has one; `null` counts as none. -/
def sub? (row : Nat) (p : Plain) : Except ReadtableFault (Option Char) :=
  match p.field? "sub" with
  | none | some .null => .ok none
  | some s => match s.char? with
    | some c => .ok (some c)
    | none => .error (.badSub row)

def kind? (row : Nat) (p : Plain) : Except ReadtableFault HandlerKind :=
  let found := (p.field? "handler").getD .null
  match found with
  | .text s => match HandlerKind.ofName? s with
    | some k => .ok k
    | none => .error (.unknownHandler row found)
  | _ => .error (.unknownHandler row found)

def terminating? (row : Nat) (p : Plain) : Except ReadtableFault Bool :=
  match p.field? "terminating" with
  | none => .ok true
  | some (.bool b) => .ok b
  | some _ => .error (.badTerminating row)

/-- The row that a piece of data describes. Of several faults the first one counts, in the
order trigger, sub-character, handler, terminating. -/
def row? (index : Nat) (p : Plain) : Except ReadtableFault Row :=
  match p with
  | .mapping _ => do
    let some lead := (p.field? "trigger").bind Plain.char? | .error (.badTrigger index)
    let sub ← sub? index p
    let kind ← kind? index p
    let terminating ← terminating? index p
    let trigger := match sub with
      | some c => Trigger.ofPair lead c
      | none => Trigger.ofChar lead
    return ⟨trigger, kind, terminating⟩
  | _ => .error (.notMapping index p)

def rowsFrom : Nat → List Plain → Except ReadtableFault (List Row)
  | _, [] => .ok []
  | index, p :: ps => do
    let row ← row? index p
    let rows ← rowsFrom (index + 1) ps
    return row :: rows

/-- The rows that parsed data lists under `triggers`. -/
def ofPlain (p : Plain) : Except ReadtableFault (List Row) :=
  match p.field? "triggers" with
  | some (.list rows) => rowsFrom 0 rows
  | _ => .error .noTriggers

/-- A row that replaced a binding, or the end of a composition. -/
inductive Note where
  | rebinding (trigger : Trigger) (kind : HandlerKind)
  | composed (size : Nat)

def Note.shown : Note → String
  | rebinding t k => "readtable: rebinding " ++ t.shown ++ " -> " ++ k.name
  | composed n => "readtable: composed " ++ toString n ++ " bindings"

/-- Register rows in order, up to the first refusal. -/
def apply (reg : Registry) : List Row → Except RegistryFault Registry
  | [] => .ok reg
  | row :: rows => do
    let reg ← reg.register row.trigger row.kind row.terminating
    apply reg rows

/-- The registry `base` with rows on top, frozen. The base itself is not changed. -/
def extend (base : Registry) (rows : List Row) : Except RegistryFault Registry :=
  (apply base.copy rows).map Registry.freeze

/-- What is noted while rows are put on top of a registry. -/
def notes (reg : Registry) : List Row → List Note
  | [] => [.composed reg.size]
  | row :: rows =>
    let noted := if (reg.dispatch row.trigger).isSome then [Note.rebinding row.trigger row.kind]
      else []
    match reg.register row.trigger row.kind row.terminating with
    | .ok reg => noted ++ notes reg rows
    | .error _ => noted

def graveAccent : Char := Char.ofNat 0x60

def bundled : List Row :=
  [⟨.ofPair '#' 'v', .vector, true⟩,
   ⟨.ofPair '#' 'h', .map, true⟩,
   ⟨.ofChar '{', .fixedMap, true⟩,
   ⟨.ofChar '}', .listClose, true⟩,
   ⟨.ofPair '#' graveAccent, .positionalLambda, true⟩,
   ⟨.ofChar '^', .positionalLambda, false⟩,
   ⟨.ofPair '#' '/', .rawString, true⟩,
   ⟨.ofChar '@', .pathAccess, false⟩]

end Readtable

def Registry.extended : Registry where
  bindings := Registry.standard.bindings ++
    [⟨.pair '#' "v", .vector, true⟩,
     ⟨.pair '#' "h", .map, true⟩,
     ⟨.char '{', .fixedMap, true⟩,
     ⟨.char '}', .listClose, true⟩,
     ⟨.pair '#' (String.singleton Readtable.graveAccent), .positionalLambda, true⟩,
     ⟨.char '^', .positionalLambda, false⟩,
     ⟨.pair '#' "/", .rawString, true⟩,
     ⟨.char '@', .pathAccess, false⟩]
  frozen := true

theorem Readtable.extend_standard_bundled :
    Readtable.extend Registry.standard Readtable.bundled = .ok Registry.extended := by
  rfl

end Sigil
