import Sigil.Proofs.Registry.Lisp
import Sigil.Reader.Basic

/-!
# Reading by recursive descent

The reader as functions that call each other: `next` reads a form and skips the comments before
it, `delimited` reads elements up to a closer, `once` reads one form or comment, and `invoke` runs
what a trigger is bound to, which may call `next` and `delimited` again. Each of them gives an
`Outcome`, whose type says that it stops somewhere at or behind the cursor where it began; `once`
begins behind the character that it was called for. So every call has fewer characters to come
than its caller, or as many and a lower rank, and the recursion is well-founded whatever a
registry binds. That a token is never empty rests on `endsToken_of_unbound`: a character that
starts a token does not end one.
-/

namespace Sigil

namespace Cursor

variable {cur cur' rest : Cursor}

/-- The cursor `rest` is `cur` or stands some characters further on. -/
def Reaches (cur rest : Cursor) : Prop := ∃ n, rest = cur.skip n

namespace Reaches

theorem skip (cur : Cursor) (n : Nat) : cur.Reaches (cur.skip n) := ⟨n, rfl⟩

theorem trans (h : cur.Reaches cur') (h' : cur'.Reaches rest) : cur.Reaches rest := by
  obtain ⟨m, rfl⟩ := h
  obtain ⟨n, rfl⟩ := h'
  exact ⟨m + n, (skip_add cur m n).symm⟩

theorem length_le (h : cur.Reaches rest) : rest.after.length ≤ cur.after.length := by
  obtain ⟨n, rfl⟩ := h
  rw [length_after_skip]
  exact Nat.sub_le _ _

theorem cons (before cs : List Char) (c : Char) (place : Location) :
    Reaches ⟨before, c :: cs, place⟩ ⟨c :: before, cs, place.step c⟩ :=
  ⟨1, rfl⟩

end Reaches

end Cursor

namespace Reader.Descent

/-- What a call found, the extensions that it met, and where it stopped. -/
structure Outcome (cur : Cursor) (α : Type) where
  result : Except (ReadFault × Location) α
  noted : List Dispatch
  rest : Cursor
  reached : cur.Reaches rest

namespace Outcome

variable {cur cur' : Cursor} {α β : Type}

/-- A result `n` characters further on. -/
def ofSkip (cur : Cursor) (n : Nat) (result : Except (ReadFault × Location) α) : Outcome cur α :=
  ⟨result, [], cur.skip n, .skip cur n⟩

def ok (a : α) : Outcome cur α := ofSkip cur 0 (.ok a)

/-- A fault with which nothing more is read. -/
def fail (f : ReadFault) (place : Location) : Outcome cur α := ofSkip cur 0 (.error (f, place))

/-- A call that began further on. -/
def widen (h : cur.Reaches cur') (o : Outcome cur' α) : Outcome cur α :=
  { o with reached := h.trans o.reached }

theorem length_rest_widen_le {h : cur.Reaches cur'} {o : Outcome cur' α} :
    (o.widen h).rest.after.length ≤ cur'.after.length :=
  o.reached.length_le

/-- Read on behind a result. -/
def andThen (o : Outcome cur α) (f : α → (rest : Cursor) → cur.Reaches rest → Outcome rest β) :
    Outcome cur β :=
  match o.result with
  | .error fault => ⟨.error fault, o.noted, o.rest, o.reached⟩
  | .ok a =>
    let p := f a o.rest o.reached
    ⟨p.result, o.noted ++ p.noted, p.rest, o.reached.trans p.reached⟩

def map (f : α → β) (o : Outcome cur α) : Outcome cur β := { o with result := o.result.map f }

/-- The extensions `ds` were met first. -/
def noting (ds : List Dispatch) (o : Outcome cur α) : Outcome cur α :=
  { o with noted := ds ++ o.noted }

/-- What the form that was looked for becomes; the end of the text is a fault. -/
def wrapped (wrap : Expr → Expr) (o : Outcome cur (Option (Expr × Location))) :
    Outcome cur (Option Expr) :=
  o.andThen fun
    | some (e, _), _, _ => ok (some (wrap e))
    | none, rest, _ => fail .endOfText rest.loc

section AndThen

variable {o : Outcome cur α} {f : α → (rest : Cursor) → cur.Reaches rest → Outcome rest β}

theorem andThen_of_error {fault : ReadFault × Location} (h : o.result = .error fault) :
    o.andThen f = ⟨.error fault, o.noted, o.rest, o.reached⟩ := by
  simp only [andThen, h]

theorem andThen_of_ok {a : α} (h : o.result = .ok a) :
    o.andThen f = ((f a o.rest o.reached).widen o.reached).noting o.noted := by
  simp only [andThen, h]
  rfl

end AndThen

/-- What elements become. The form starts at `opened`, and `items` are the elements before,
last one first. -/
def built (shape : Shape) (opened : Location) (items : List Expr) (o : Outcome cur (List Expr)) :
    Outcome cur (Option Expr) :=
  o.andThen fun es rest _ =>
    ofSkip rest 0 (((shape.build (items.reverse ++ es)).map some).mapError (·, opened))

section Built

variable {shape : Shape} {opened : Location} {items : List Expr} {o : Outcome cur (List Expr)}

theorem built_widen {h : cur'.Reaches cur} :
    (o.widen h).built shape opened items = (o.built shape opened items).widen h := by
  obtain ⟨result, noted, rest, reached⟩ := o
  cases result <;> rfl

theorem built_noting {ds : List Dispatch} :
    (o.noting ds).built shape opened items = (o.built shape opened items).noting ds := by
  obtain ⟨result, noted, rest, reached⟩ := o
  cases result with
  | error fault => rfl
  | ok es => simp only [built, andThen, noting, List.append_assoc]

theorem built_map_cons {e : Expr} :
    (o.map (e :: ·)).built shape opened items = o.built shape opened (e :: items) := by
  obtain ⟨result, noted, rest, reached⟩ := o
  cases result with
  | error fault => rfl
  | ok es =>
    simp only [built, andThen, map, Except.map, List.reverse_cons, List.append_assoc,
      List.singleton_append]

end Built

end Outcome

/-! ## Scanning inside one form -/

/-- The text of a string up to its closing quote, and how many characters that takes. -/
def stringSpan : List Char → Option (List Char × Nat)
  | [] => none
  | c :: cs =>
    if c = '\\' then
      match cs with
      | [] => none
      | d :: ds => (stringSpan ds).map (Prod.map (unescape d :: ·) (· + 2))
    else if c = '"' then some ([], 1)
    else (stringSpan cs).map (Prod.map (c :: ·) (· + 1))

theorem stringSpan_of_ne {c : Char} {cs : List Char} (hescape : c ≠ '\\') (hquote : c ≠ '"') :
    stringSpan (c :: cs) = (stringSpan cs).map (Prod.map (c :: ·) (· + 1)) := by
  cases cs <;> simp [stringSpan, hescape, hquote]

/-- The text of a raw string up to its terminator, and how many characters that takes. -/
def rawSpan : List Char → Option (List Char × Nat)
  | [] => none
  | c :: cs =>
    if c = '/' ∧ cs.head? = some '#' then some ([], 2)
    else (rawSpan cs).map (Prod.map (c :: ·) (· + 1))

/-- The number of characters up to the end of the line. -/
def lineSpan : List Char → Nat
  | [] => 0
  | c :: cs => if c = '\n' then 1 else lineSpan cs + 1

/-- How many characters there are up to the end of `depth` nested comments. -/
def commentSpan (depth : Nat) : List Char → Option (Unit × Nat)
  | [] => none
  | [_] => none
  | c :: d :: cs =>
    if c = '|' ∧ d = '#' then
      if depth ≤ 1 then some ((), 2) else (commentSpan (depth - 1) cs).map (Prod.map id (· + 2))
    else if c = '#' ∧ d = '|' then (commentSpan (depth + 1) cs).map (Prod.map id (· + 2))
    else (commentSpan depth (d :: cs)).map (Prod.map id (· + 1))

/-- The result of a scan, or the fault `f` at the end of the text. -/
def scanned {α β : Type} (cur : Cursor) (span : Option (α × Nat)) (f : ReadFault) (place : Location)
    (value : α → β) : Outcome cur β :=
  match span with
  | none => .ofSkip cur cur.after.length (.error (f, place))
  | some (a, n) => .ofSkip cur n (.ok (value a))

/-! ## Tokens -/

theorem endsToken_of_unbound {reg : Registry} {c : Char} (hblank : Text.isBlank c = false)
    (h : reg.kindOf? (.char c) = none) : endsToken reg c = false := by
  rw [endsToken, hblank, Registry.isTerminating_of_kindOf? h]
  rfl

theorem readToken_cons {reg : Registry} {before cs : List Char} {c : Char} {place : Location}
    (h : endsToken reg c = false) :
    readToken reg ⟨before, c :: cs, place⟩ =
      let token := cs.takeWhile (!endsToken reg ·)
      (String.ofList (c :: token),
        (⟨c :: before, cs, place.step c⟩ : Cursor).skip token.length) := by
  have hcs := (List.takeWhile_append_dropWhile (p := (!endsToken reg ·)) (l := cs)).symm
  have hskip := @Cursor.skip_length ⟨c :: before, cs, place.step c⟩ _ _ hcs
  simp [readToken, h, hskip]

/-- The token that starts with the character `c`. -/
def atom (reg : Registry) (before : List Char) (c : Char) (cs : List Char) (place : Location)
    (h : endsToken reg c = false) : Outcome ⟨c :: before, cs, place.step c⟩ (Option Expr) :=
  let token := readToken reg ⟨before, c :: cs, place⟩
  ⟨((Atom.ofToken token.1.toList).map some).mapError (·, token.2.loc), [], token.2,
    ⟨_, congrArg Prod.snd (readToken_cons h)⟩⟩

/-- The token after a path trigger, unless a closer comes first. -/
def path (reg : Registry) (trigger : Trigger) (cur : Cursor) : Outcome cur (Option Expr) :=
  let token :=
    if cur.after.head?.any reg.isCloser then [] else cur.after.takeWhile (!endsToken reg ·)
  .ofSkip cur token.length (((pathExpr trigger token.reverse).map some).mapError (·, cur.loc))

/-! ## Forms -/

/-- The extensions among what a trigger is bound to are noted. -/
def notes (kind : HandlerKind) (cue : Cue) (place : Location) : List Dispatch :=
  if kind.isStandard then [] else [⟨cue.trigger, kind, place⟩]

-- The calls recur on the characters to come, and at the same character on a rank: `once`, which has
-- taken its character, comes before `invoke`, and `invoke` before what it calls there.
mutual

/-- Read a form behind blanks and comments; none at the end of the text. -/
def next (reg : Registry) (cur : Cursor) : Outcome cur (Option (Expr × Location)) :=
  match cur with
  | ⟨_, [], _⟩ => .ok none
  | ⟨before, c :: cs, place⟩ =>
    if hblank : Text.isBlank c then (next reg ⟨c :: before, cs, place.step c⟩).widen (.cons ..)
    else
      ((once reg before c cs place (Bool.eq_false_iff.2 hblank)).andThen fun
        | some e, _, _ => .ok (some (e, place))
        | none, rest, _ => next reg rest).widen (.cons ..)
termination_by (cur.after.length, 0)
decreasing_by
  · decreasing_tactic
  · decreasing_tactic
  · next h => exact .left _ _ (Nat.lt_succ_of_le h.length_le)

/-- Read the elements up to a closer. -/
def delimited (reg : Registry) (closer : List Char) (opened : Location) (cur : Cursor) :
    Outcome cur (List Expr) :=
  match cur with
  | ⟨_, [], _⟩ => .fail (.openList closer) opened
  | ⟨before, c :: cs, place⟩ =>
    if hblank : Text.isBlank c then
      (delimited reg closer opened ⟨c :: before, cs, place.step c⟩).widen (.cons ..)
    else if closer = [c] then .ofSkip _ 1 (.ok [])
    else
      ((once reg before c cs place (Bool.eq_false_iff.2 hblank)).andThen fun
        | some e, rest, _ => (delimited reg closer opened rest).map (e :: ·)
        | none, rest, _ => delimited reg closer opened rest).widen (.cons ..)
termination_by (cur.after.length, 0)
decreasing_by
  · decreasing_tactic
  · decreasing_tactic
  · next h => exact .left _ _ (Nat.lt_succ_of_le h.length_le)
  · next h => exact .left _ _ (Nat.lt_succ_of_le h.length_le)

/-- Read one form or comment, which starts with the character `c`. -/
def once (reg : Registry) (before : List Char) (c : Char) (cs : List Char) (place : Location)
    (hblank : Text.isBlank c = false) : Outcome ⟨c :: before, cs, place.step c⟩ (Option Expr) :=
  match hkind : reg.kindOf? (.char c) with
  | none => atom reg before c cs place (endsToken_of_unbound hblank hkind)
  | some kind => invoke reg kind (.char c) place ⟨c :: before, cs, place.step c⟩
termination_by (cs.length, 3)

/-- Read the list that a literal needs. -/
def literal (reg : Registry) (shape : Shape) (trigger : Trigger) (opened : Location)
    (cur : Cursor) : Outcome cur (Option Expr) :=
  match cur with
  | ⟨_, [], place⟩ => .fail (.missingList trigger none) place
  | ⟨before, c :: cs, place⟩ =>
    if c = '(' then
      ((delimited reg [')'] opened ⟨c :: before, cs, place.step c⟩).built shape opened []).widen
        (.cons ..)
    else .ofSkip _ 1 (.error (.missingList trigger (some c), place))
termination_by (cur.after.length, 1)

/-- Run what the pair of the character `lead` and the next character is bound to. -/
def dispatch (reg : Registry) (lead : Char) (opened : Location) (cur : Cursor) :
    Outcome cur (Option Expr) :=
  match cur with
  | ⟨_, [], _⟩ => .fail (.endAfterLead lead) opened
  | ⟨before, sub :: cs, place⟩ =>
    match reg.kindOf? (Key.ofPair lead sub) with
    | none | some .dispatch => .ofSkip _ 1 (.error (.unboundPair lead sub, opened))
    | some kind =>
      (invoke reg kind (.pair lead sub) opened ⟨sub :: before, cs, place.step sub⟩).widen (.cons ..)
termination_by (cur.after.length, 1)

/-- Run what a trigger is bound to. The trigger stands at `place` and ends before the cursor. -/
def invoke (reg : Registry) (kind : HandlerKind) (cue : Cue) (place : Location) (cur : Cursor) :
    Outcome cur (Option Expr) :=
  let handled : Outcome cur (Option Expr) := match kind with
    | .listOpen => (delimited reg [')'] place cur).built .list place []
    | .listClose => .fail (.strayCloser cue.trigger) place
    | .quote => (next reg cur).wrapped fun e => .list [.known "quote", e]
    | .string => scanned cur (stringSpan cur.after) .openString place
        fun text => some (.str (String.ofList text))
    | .lineComment => .ofSkip cur (lineSpan cur.after) (.ok none)
    | .dispatch => dispatch reg cue.lead place cur
    | .function => (next reg cur).wrapped fun e => .list [.known "function", e]
    | .blockComment => scanned cur (commentSpan 1 cur.after) .openComment place
        fun _ => none
    | .vector => literal reg .vector cue.trigger place cur
    | .map => literal reg (.map false (mapLabel cue.trigger)) cue.trigger place cur
    | .fixedMap => (delimited reg ['}'] place cur).built (.map true fixedMapLabel) place []
    | .rawString => scanned cur (rawSpan cur.after) .openRawString cur.loc
        fun text => some (.str (String.ofList text))
    | .positionalLambda => (next reg cur).wrapped Expr.positionalLambda
    | .pathAccess => path reg cue.trigger cur
  handled.noting (notes kind cue place)
termination_by (cur.after.length, 2)

end

/-- Before the end of the text a call takes at least one character. -/
theorem after_lt_of_next {reg : Registry} {cur : Cursor} (h : cur.after ≠ []) :
    (next reg cur).rest.after.length < cur.after.length := by
  obtain ⟨before, _ | ⟨c, cs⟩, place⟩ := cur
  · exact absurd rfl h
  · rw [next]
    split
    · exact Nat.lt_succ_of_le Outcome.length_rest_widen_le
    · exact Nat.lt_succ_of_le Outcome.length_rest_widen_le

theorem result_next_nil {reg : Registry} {before : List Char} {place : Location} :
    (next reg ⟨before, [], place⟩).result = .ok none := by
  rw [next]
  rfl

/-- All forms of a text, or the first fault. -/
def all (reg : Registry) (cur : Cursor) : Except (ReadFault × Location) (List Expr) :=
  match h : (next reg cur).result with
  | .error fault => .error fault
  | .ok none => .ok []
  | .ok (some (e, _)) =>
    have : (next reg cur).rest.after.length < cur.after.length := by
      apply after_lt_of_next
      intro hnil
      obtain ⟨before, after, place⟩ := cur
      cases hnil
      rw [result_next_nil] at h
      cases h
    (all reg (next reg cur).rest).map (e :: ·)
termination_by cur.after.length

end Reader.Descent

end Sigil
