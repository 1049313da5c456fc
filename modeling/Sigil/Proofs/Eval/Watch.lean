import Sigil.Proofs.Eval.Bindings

/-!
# Watched evaluation

A `Watch` names what an evaluation is not to do: ask certain scopes for certain names, or take the
scope of certain functions as a value. In the watched evaluator (`Interp.watched`) that is refused. An
evaluation that is not refused does there what it does otherwise (`Interp.mirrors_watched`), and a watch
over nothing refuses nothing (`Interp.watched_nothing`).
-/

namespace Sigil

open Eval

/-- What an evaluation is not to do. -/
structure Watch where
  /-- A scope, and what lies in it, is not to be asked for the name. -/
  hides : Heap → Nat → String → Bool
  /-- The scope of the function is not to be taken as a value. -/
  keeps : Nat → Bool

namespace Watch

def nothing : Watch := ⟨fun _ _ _ => false, fun _ => false⟩

variable (w : Watch) (next : Interp)

/-! ## The watched rules -/

def lookup (name : String) (scope : Nat) : Eval Value :=
  if name = "nil" then return .nil
  else if name = "t" then return .bool true
  else do
    let h ← heap
    if w.hides h scope name then raise Interp.refusal
    else match h.lookup? scope name with
      | some v => return v
      | none => raise (.unboundSymbol name)

def assign (scope : Nat) (name : Str) (v : Value) : Eval Unit := do
  if w.hides (← heap) scope name.text then raise Interp.refusal
  else modifyHeap (·.assign scope name v)

def assignAll (scope : Nat) : Value → List Value → Eval Value
  | _, target :: form :: rest => do
    let name ← Form.symbol "setq target" target
    let v ← next.eval form scope
    w.assign scope name v
    assignAll scope v rest
  | result, _ => return result

def special (form : SpecialForm) (ref scope : Nat) : Eval Value := do
  match form with
  | .function =>
    Form.checkParts ref 1 (some 1)
    match ← Form.part ref 1 with
    | .sym s => w.lookup s.text scope
    | target => next.eval target scope
  | .setq =>
    let targets := (← Form.parts ref).drop 1
    if targets.length % 2 = 0 then w.assignAll next scope .nil targets
    else raise .unpairedAssignment
  | form => Form.special next form ref scope

def evalList (ref scope : Nat) (head : Value) : Eval Value := do
  let ordinary (name : Option String) : Eval Value := do
    let f ← next.eval head scope
    let args ← next.values scope ((← Form.parts ref).drop 1)
    next.call f args name
  match head with
  | .sym s => match SpecialForm.ofName? s.text with
    | some form => w.special next form ref scope
    | none => ordinary (some s.text)
  | _ => ordinary none

def evalForm (form : Value) (scope : Nat) : Eval Value := do
  match form with
  | .sym s => w.lookup s.text scope
  | .list ref | .vector ref => match (← Form.parts ref).head? with
    | none => return .nil
    | some head => w.evalList next ref scope head
  | form => return form

/-- The function whose scope a call takes as a value. -/
def taken? : Value → List Value → Option Nat
  | .builtin .accessField, [.closure a, .sym s] | .builtin .accessField, [.closure a, .kw s]
  | .builtin .accessField, [.closure a, .str s] =>
    if Builtin.underscored s.text = "closure" then some a else none
  | _, _ => none

def callValue (f : Value) (args : List Value) (name : Option String) : Eval Value :=
  if (taken? f args).any w.keeps then raise Interp.refusal else Sigil.callValue next f args name

end Watch

/-- The watched evaluator of a given depth. -/
def Interp.watched (w : Watch) : Nat → Interp
  | 0 => .exhausted
  | n + 1 => ⟨w.evalForm (watched w n), w.callValue (watched w n)⟩

/-! ## Evaluations that are not refused -/

namespace Watch

variable {w : Watch} {next other : Interp}

/-- The watched computation does the same or is refused. -/
abbrev Obeys {α : Type} (x y : Eval α) : Prop := Mirrors (.fault Interp.refusal) id x y

theorem obeys_self {α : Type} (x : Eval α) : Obeys x x :=
  mirrors_self fun m => by cases x m <;> rfl

theorem obeys_refused {α : Type} (x : Eval α) : Obeys x (raise Interp.refusal) :=
  fun m => .inl ⟨m, rfl⟩

theorem obeys_lookup (name : String) (scope : Nat) :
    Obeys (Form.lookup name scope) (w.lookup name scope) := by
  unfold Form.lookup lookup
  split
  · exact obeys_self _
  · split
    · exact obeys_self _
    · refine (obeys_self heap).bind fun h => ?_
      by_cases hhidden : w.hides h scope name = true
      · simp only [id, if_pos hhidden]
        exact obeys_refused _
      · simp only [id, if_neg hhidden]
        exact obeys_self _

theorem obeys_assign (scope : Nat) (name : Str) (v : Value) :
    Obeys (modifyHeap (·.assign scope name v)) (w.assign scope name v) := by
  intro m
  have hread : w.assign scope name v m =
    (if w.hides m.heap scope name.text then raise Interp.refusal
      else modifyHeap (·.assign scope name v) : Eval Unit) m := rfl
  rw [hread]
  split
  · exact obeys_refused _ m
  · exact obeys_self _ m

section

variable (hn : Interp.Related .same (Mirrors (.fault Interp.refusal)) next other)
include hn

theorem obeys_eval (form : Value) (scope : Nat) :
    Obeys (next.eval form scope) (other.eval form scope) := by
  have heval := hn.eval form scope
  rwa [Renaming.value_same] at heval

theorem obeys_assignAll (scope : Nat) : ∀ (result : Value) (targets : List Value),
    Obeys (Form.assignAll next scope result targets) (w.assignAll other scope result targets)
  | _, [] | _, [_] => obeys_self _
  | _, target :: form :: rest =>
    (obeys_self (Form.symbol "setq target" target)).bind fun name =>
      (obeys_eval hn form scope).bind fun v => (obeys_assign scope name v).bind fun _ =>
        obeys_assignAll scope v rest

theorem obeys_special (form : SpecialForm) (ref scope : Nat) :
    Obeys (Form.special next form ref scope) (w.special other form ref scope) := by
  have u := parametric_mirrors (.fault Interp.refusal)
  have hspecial := u.special hn form ref scope
  rw [Renaming.value_same] at hspecial
  cases form with
  | function =>
    refine (obeys_self (Form.checkParts ref 1 (some 1))).bind fun _ =>
      (obeys_self (Form.part ref 1)).bind fun target => ?_
    cases target with
    | sym s => exact obeys_lookup _ _
    | _ => exact obeys_eval hn _ scope
  | setq =>
    refine (obeys_self (Form.parts ref)).bind fun ps => ?_
    dsimp only [id]
    split
    · exact obeys_assignAll hn scope _ _
    · exact obeys_self _
  | _ => exact hspecial

theorem obeys_evalList (ref scope : Nat) (head : Value) :
    Obeys (Sigil.evalList next ref scope head) (w.evalList other ref scope head) := by
  have u := parametric_mirrors (.fault Interp.refusal)
  have hlist := u.evalList hn ref scope head
  rw [Renaming.value_same] at hlist
  cases head with
  | sym s =>
    unfold evalList
    dsimp only
    cases hform : SpecialForm.ofName? s.text with
    | some form =>
      simp only [Sigil.evalList, hform]
      exact obeys_special hn form ref scope
    | none =>
      unfold Sigil.evalList at hlist
      simp only [Sigil.evalList, hform, id] at hlist ⊢
      exact hlist
  | _ => exact hlist

theorem obeys_evalForm (form : Value) (scope : Nat) :
    Obeys (Sigil.evalForm next form scope) (w.evalForm other form scope) := by
  cases form with
  | sym s => exact obeys_lookup _ _
  | list ref | vector ref =>
    refine (obeys_self (Form.parts ref)).bind fun ps => ?_
    dsimp only [id]
    cases ps.head? with
    | none => exact obeys_self _
    | some head => exact obeys_evalList hn ref scope head
  | _ => exact obeys_self _

theorem obeys_callValue (f : Value) (args : List Value) (name : Option String) :
    Obeys (Sigil.callValue next f args name) (w.callValue other f args name) := by
  have u := parametric_mirrors (.fault Interp.refusal)
  have hcall := u.callValue hn f args name fun _ _ => trivial
  rw [Renaming.value_same, List.map_id] at hcall
  unfold callValue
  split
  · exact obeys_refused _
  · exact hcall

end

end Watch

/-- An evaluation that is not refused anything does what it does otherwise. -/
theorem Interp.mirrors_watched (w : Watch) : ∀ depth,
    Interp.Related .same (Mirrors (.fault refusal)) (ofDepth depth) (watched w depth)
  | 0 => ⟨fun _ _ => mirrors_self fun _ => rfl, fun _ _ _ => mirrors_self fun _ => rfl⟩
  | depth + 1 => by
    have hn := mirrors_watched w depth
    refine ⟨fun form scope => ?_, fun f args name => ?_⟩
    · rw [Renaming.value_same]
      exact Watch.obeys_evalForm hn form scope
    · rw [Renaming.value_same, List.map_id]
      exact Watch.obeys_callValue hn f args name

/-! ## A watch over nothing -/

namespace Watch

theorem assign_nothing (scope : Nat) (name : Str) (v : Value) :
    nothing.assign scope name v = modifyHeap (·.assign scope name v) := rfl

theorem assignAll_nothing (next : Interp) (scope : Nat) : ∀ (result : Value) (targets : List Value),
    nothing.assignAll next scope result targets = Form.assignAll next scope result targets
  | _, [] | _, [_] => rfl
  | _, target :: form :: rest => by
    simp only [assignAll, Form.assignAll, assign_nothing, assignAll_nothing next scope _ rest]

theorem special_nothing (next : Interp) (form : SpecialForm) (ref scope : Nat) :
    nothing.special next form ref scope = Form.special next form ref scope := by
  cases form with
  | setq => simp only [special, Form.special, assignAll_nothing]
  | _ => rfl

theorem evalForm_nothing (next : Interp) (form : Value) (scope : Nat) :
    nothing.evalForm next form scope = Sigil.evalForm next form scope := by
  have hlist : ∀ ref head, nothing.evalList next ref scope head = Sigil.evalList next ref scope head := by
    intro ref head
    cases head with
    | sym s =>
      unfold evalList Sigil.evalList
      dsimp only
      cases SpecialForm.ofName? s.text with
      | some form => exact special_nothing next form ref scope
      | none => rfl
    | _ => rfl
  have hparts : ∀ ref, nothing.evalForm next (.list ref) scope = Sigil.evalForm next (.list ref) scope := by
    intro ref
    refine bind_congr fun ps => ?_
    cases ps.head? with
    | none => rfl
    | some head => exact hlist ref head
  cases form with
  | list ref | vector ref => exact hparts ref
  | _ => rfl

theorem callValue_nothing (next : Interp) (f : Value) (args : List Value) (name : Option String) :
    nothing.callValue next f args name = Sigil.callValue next f args name := by
  have hany : (taken? f args).any nothing.keeps = false := by
    cases taken? f args <;> rfl
  rw [callValue, hany]
  rfl

end Watch

theorem Interp.watched_nothing : ∀ depth, watched .nothing depth = ofDepth depth
  | 0 => rfl
  | depth + 1 => by
    show Interp.mk _ _ = Interp.mk _ _
    rw [watched_nothing depth]
    congr 1
    · exact funext fun form => funext fun scope => Watch.evalForm_nothing _ form scope
    · exact funext fun f => funext fun args => funext fun name => Watch.callValue_nothing _ f args name

end Sigil
