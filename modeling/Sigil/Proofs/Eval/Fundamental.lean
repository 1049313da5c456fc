import Sigil.Proofs.Eval.Parametric

/-!
# The rules of evaluation are parametric

When a parametric relation holds of the next level of evaluation, it holds of every rule over it: of
the builtins (`Parametric.run`), the special forms (`Parametric.special`), calls
(`Parametric.callValue`) and forms (`Parametric.evalForm`).
-/

namespace Sigil

open Eval

/-- The activities of `other` are those of `next`, with everything renamed. -/
structure Interp.Related (σ : Renaming) (R : ∀ {α : Type}, (α → α) → Eval α → Eval α → Prop)
    (next other : Interp) : Prop where
  eval : ∀ form scope,
    R σ.value (next.eval form scope) (other.eval (σ.value form) (σ.scope scope))
  call : ∀ f args name,
    R σ.value (next.call f args name) (other.call (σ.value f) (args.map σ.value) name)

/-- The scope into which a call of `map-put` puts. -/
def putScope? (f : Value) (args : List Value) : Option Nat :=
  match f, args with
  | .builtin .mapPut, [.scope s, _, _] => some s
  | _, _ => none

namespace Parametric

variable {σ : Renaming} {I : Heap → Heap → Prop} {Fresh : Nat → Prop}
  {R : ∀ {α : Type}, (α → α) → Eval α → Eval α → Prop} {next other : Interp}

section

variable (u : Parametric σ I Fresh R) (hn : Interp.Related σ R next other)
include u hn

theorem body (scope : Nat) : ∀ forms : List Value,
    R σ.value (next.body scope forms) (other.body (σ.scope scope) (forms.map σ.value))
  | [] => u.pure σ.value .nil
  | [form] => hn.eval form scope
  | form :: form' :: forms => u.bind (hn.eval form scope) fun _ => body scope (form' :: forms)

theorem liveBody (scope a : Nat) : ∀ (count index : Nat) (result : Value),
    R σ.value (next.liveBody scope a count index result)
      (other.liveBody (σ.scope scope) (σ.sequence a) count index (σ.value result))
  | 0, _, result => u.pure σ.value result
  | count + 1, index, _ => u.readHeap fun h h' hI => by
    rw [u.items a hI, Renaming.getD_value]
    exact u.bind (hn.eval _ scope) fun result => liveBody scope a count (index + 1) result

theorem values (scope : Nat) : ∀ forms : List Value,
    R (List.map σ.value) (next.values scope forms)
      (other.values (σ.scope scope) (forms.map σ.value))
  | [] => u.pure (List.map σ.value) []
  | form :: forms => u.bind (hn.eval form scope) fun _ => u.map (values scope forms) fun _ => rfl

/-! ### Builtins -/

theorem mapRounds (f : Value) : ∀ (rounds : Nat) (walks : List Container.Walk)
    (results : List Value),
    R (List.map σ.value) (Library.mapRounds next f rounds walks results)
      (Library.mapRounds other (σ.value f) rounds (walks.map σ.walk) (results.map σ.value))
  | 0, _, _ => u.throw _ _
  | rounds + 1, walks, results => by
    refine u.bind (u.nextAll walks) fun r => ?_
    rcases r with _ | ⟨args, walks⟩
    · exact u.pure_eq List.map_reverse.symm
    · exact u.bind (hn.call f args none) fun v => mapRounds f rounds walks (v :: results)

theorem mapcar (f : Value) (sequences : List Value) :
    R σ.value (Library.mapcar next f sequences)
      (Library.mapcar other (σ.value f) (sequences.map σ.value)) :=
  u.bind (u.mapM u.walkThrough sequences) fun walks => u.readHeap fun h h' hI => by
    rw [Renaming.roundLimit_walk u.toReads hI]
    exact u.bind (u.mapRounds hn f _ walks []) fun results => u.newList results

/-- Every builtin, but for `map-put` with a scope that is not new. -/
theorem run (b : Builtin) (args : List Value)
    (hput : b = .mapPut → ∀ s, Library.arg args 0 = .scope s → Fresh s) :
    R σ.value (Library.run next b args) (Library.run other b (args.map σ.value)) := by
  have harg : ∀ i, Library.arg (args.map σ.value) i = σ.value (Library.arg args i) :=
    Renaming.getD_value args
  have hdrop : ∀ n, (args.map σ.value).drop n = (args.drop n).map σ.value := fun n =>
    List.map_drop.symm
  unfold Library.run
  dsimp only
  simp only [harg, hdrop]
  cases b with
  | add => exact u.combine (fun a b => u.ofExcept (Renaming.add_value a b)) (.int 0) args
  | sub =>
    rcases args with _ | ⟨a, _ | ⟨b, args⟩⟩
    · exact u.combine (fun a b => u.ofExcept (Renaming.sub_value a b)) .nil []
    · exact u.ofExcept (Renaming.neg_value a)
    · exact u.combine (fun a b => u.ofExcept (Renaming.sub_value a b)) a (b :: args)
  | div =>
    rcases args with _ | ⟨a, _ | ⟨b, args⟩⟩
    · exact u.combine (fun a b => u.ofExcept (Renaming.div_value a b)) .nil []
    · exact u.ofExcept (Renaming.div_value (.int 1) a)
    · exact u.combine (fun a b => u.ofExcept (Renaming.div_value a b)) a (b :: args)
  | mul => exact u.combine u.product (.int 1) args
  | numEq => exact u.comparison u.equal args
  | lt => exact u.comparison (u.ordered .lt) args
  | gt => exact u.comparison (u.ordered .gt) args
  | lte => exact u.comparison (u.ordered .le) args
  | gte => exact u.comparison (u.ordered .ge) args
  | not =>
    refine u.readHeap fun h h' hI => u.pure_eq ?_
    rw [Renaming.isTrue_value u.toReads hI]
    rfl
  | eq => exact u.predicate .eq _ _
  | eql => exact u.predicate .eql _ _
  | equal => exact u.predicate .equal _ _
  | equalp => exact u.predicate .equalp _ _
  | list => exact u.newList args
  | length =>
    have hlength : ∀ v, R σ.value (do return Value.int (← Container.length v))
        (do return Value.int (← Container.length (σ.value v))) := fun v =>
      u.map (u.length v) fun _ => rfl
    cases Library.arg args 0 with
    | nil => exact u.pure σ.value (.int 0)
    | _ => exact hlength _
  | concat => exact u.concat args
  | funcall => exact hn.call _ _ none
  | apply => exact u.bind (u.spread _) fun args => hn.call _ args none
  | mapcar => exact u.mapcar hn _ _
  | emit =>
    refine u.bind (u.topics _) fun ts => u.bind (u.mapM u.bare _) fun texts => ?_
    rw [List.map_id]
    exact u.bind (u.emit _) fun _ => u.pure σ.value .nil
  | print =>
    refine u.bind (u.mapM u.printedBare args) fun texts => ?_
    rw [List.map_id]
    refine u.bind (u.emit _) fun _ => u.pure_eq ?_
    rw [List.getLastD_eq_getLast?, List.getLastD_eq_getLast?, List.getLast?_map]
    cases args.getLast? <;> rfl
  | makeVector => exact u.makeVector _ _
  | vectorPushExtend =>
    cases Library.arg args 1 with
    | vector a => exact u.pushOnto a _
    | _ => exact u.raise _ _
  | makeMap =>
    exact u.bind (u.sizeHint _) fun hint => u.bind (u.mapTest _) fun test =>
      u.map (u.newMap test hint) fun _ => rfl
  | mapPut => exact u.bind (u.put _ _ _ (hput rfl)) fun _ => u.pure σ.value _
  | mapGet => exact u.mapGet _ _ _
  | mapCount => exact u.map (u.length _) fun _ => rfl
  | mapKeys => exact u.bind (u.keys _) fun keys => u.newList keys
  | accessField => exact u.bind (u.fieldName _) fun name => u.field _ name
  | accessIndex => exact u.accessIndex _ _

/-! ### Special forms -/

theorem bindingValues (scope : Nat) : ∀ bs : List (Str × Value),
    R (List.map σ.binding) (Form.bindingValues next scope bs)
      (Form.bindingValues other (σ.scope scope) (bs.map σ.binding))
  | [] => u.pure (List.map σ.binding) []
  | (_, form) :: rest => u.bind (hn.eval form scope) fun _ =>
      u.map (bindingValues scope rest) fun _ => rfl

theorem bindInTurn {scope : Nat} (hfresh : Fresh scope) : ∀ bs : List (Str × Value),
    R id (Form.bindInTurn next scope bs)
      (Form.bindInTurn other (σ.scope scope) (bs.map σ.binding))
  | [] => u.pure id ()
  | (name, form) :: rest => u.bind (hn.eval form scope) fun v =>
      u.bind (u.define scope name v hfresh) fun _ => bindInTurn hfresh rest

theorem assignAll (scope : Nat) : ∀ (result : Value) (targets : List Value),
    R σ.value (Form.assignAll next scope result targets)
      (Form.assignAll other (σ.scope scope) (σ.value result) (targets.map σ.value))
  | result, [] | result, [_] => u.pure σ.value result
  | _, target :: form :: rest => u.bind (u.symbol _ target) fun name =>
      u.bind (hn.eval form scope) fun v => u.bind (u.assign scope name v) fun _ =>
        assignAll scope v rest

theorem conjunction (scope : Nat) : ∀ (result : Value) (forms : List Value),
    R σ.value (Form.conjunction next scope result forms)
      (Form.conjunction other (σ.scope scope) (σ.value result) (forms.map σ.value))
  | result, [] => u.pure σ.value result
  | _, form :: rest => by
    refine u.bind (hn.eval form scope) fun v => u.readHeap fun h h' hI => ?_
    rw [Renaming.isTrue_value u.toReads hI]
    split
    · exact conjunction scope v rest
    · exact u.pure σ.value v

theorem disjunction (scope : Nat) : ∀ forms : List Value,
    R σ.value (Form.disjunction next scope forms)
      (Form.disjunction other (σ.scope scope) (forms.map σ.value))
  | [] => u.pure σ.value .nil
  | form :: rest => by
    refine u.bind (hn.eval form scope) fun v => u.readHeap fun h h' hI => ?_
    rw [Renaming.isTrue_value u.toReads hI]
    split
    · exact u.pure σ.value v
    · exact disjunction scope rest

theorem special (form : SpecialForm) (a scope : Nat) :
    R σ.value (Form.special next form a scope)
      (Form.special other form (σ.sequence a) (σ.scope scope)) := by
  have hpart : ∀ index, R σ.value (do next.eval (← Form.part a index) scope)
      (do other.eval (← Form.part (σ.sequence a) index) (σ.scope scope)) := fun index =>
    u.bind (u.part a index) fun form => hn.eval form scope
  have hbody : ∀ inner count, R σ.value (do next.body inner ((← Form.parts a).drop count))
      (do other.body (σ.scope inner) ((← Form.parts (σ.sequence a)).drop count)) :=
    fun inner count => u.bind (u.parts a) fun ps => by
      rw [← List.map_drop]
      exact u.body hn inner _
  cases form with
  | quote => exact u.bind (u.checkParts a _ _) fun _ => u.part a 1
  | function =>
    refine u.bind (u.checkParts a _ _) fun _ => u.bind (u.part a 1) fun target => ?_
    cases target with
    | sym s =>
      dsimp only [Renaming.value]
      rw [Renaming.text_str]
      exact u.lookup _ scope
    | _ => exact hn.eval _ scope
  | cond =>
    refine u.bind (u.checkParts a _ _) fun _ => u.bind (u.part a 1) fun test =>
      u.bind (hn.eval test scope) fun v => u.readHeap fun h h' hI => ?_
    rw [Renaming.isTrue_value u.toReads hI]
    split
    · exact hpart 2
    · refine u.bind (u.parts a) fun ps => ?_
      rw [List.length_map]
      split
      · exact hpart 3
      · exact u.pure σ.value .nil
  | when =>
    refine u.bind (u.checkParts a _ _) fun _ => u.bind (u.part a 1) fun test =>
      u.bind (hn.eval test scope) fun v => u.readHeap fun h h' hI => ?_
    rw [Renaming.isTrue_value u.toReads hI]
    split
    · exact hbody scope 2
    · exact u.pure σ.value .nil
  | progn => exact hbody scope 1
  | letAll =>
    exact u.bind (u.bindings a) fun bs => u.bind (u.bindingValues hn scope bs) fun bound =>
      u.newScope scope fun inner hfresh => u.bind (u.defineAll hfresh bound) fun _ =>
        hbody inner 2
  | letStar =>
    exact u.newScope scope fun inner hfresh => u.bind (u.bindings a) fun bs =>
      u.bind (u.bindInTurn hn hfresh bs) fun _ => hbody inner 2
  | setq =>
    refine u.bind (u.parts a) fun ps => ?_
    rw [← List.map_drop]
    dsimp only
    rw [List.length_map]
    split
    · exact u.assignAll hn scope .nil _
    · exact u.raise _ _
  | defvar =>
    refine u.bind (u.checkParts a _ _) fun _ => u.bind (u.part a 1) fun target =>
      u.bind (u.symbol _ target) fun name => u.bind (u.parts a) fun ps => ?_
    have hdefine : ∀ v, R σ.value
        (do
          modifyHeap fun h => h.define (h.root scope) name v
          Form.part a 1)
        (do
          modifyHeap fun h => h.define (h.root (σ.scope scope)) (σ.str name) (σ.value v)
          Form.part (σ.sequence a) 1) := fun v =>
      u.bind (u.defineRoot scope name v) fun _ => u.part a 1
    dsimp only
    rw [List.length_map]
    split
    · exact u.bind (u.part a 2) fun form => u.bind (hn.eval form scope) hdefine
    · exact u.bind (u.pure σ.value .nil) hdefine
  | defun =>
    refine u.bind (u.checkParts a _ _) fun _ => u.bind (u.part a 1) fun target =>
      u.bind (u.symbol _ target) fun name => u.bind (u.part a 2) fun params =>
        u.bind (u.parts a) fun ps => ?_
    rw [← List.map_drop]
    exact u.bind (u.function params _ scope (some name)) fun f =>
      u.bind (u.defineRoot scope name f) fun _ => u.part a 1
  | lambda =>
    refine u.bind (u.checkParts a _ _) fun _ => u.bind (u.part a 1) fun params =>
      u.bind (u.parts a) fun ps => ?_
    rw [← List.map_drop]
    exact u.function params _ scope none
  | declare => exact u.pure σ.value .nil
  | and =>
    refine u.bind (u.parts a) fun ps => ?_
    rw [← List.map_drop]
    exact u.conjunction hn scope (.bool true) _
  | or =>
    refine u.bind (u.parts a) fun ps => ?_
    rw [← List.map_drop]
    exact u.disjunction hn scope _

/-! ### Calls and forms -/

theorem applyClosure (a : Nat) (args : List Value) :
    R σ.value (Sigil.applyClosure next a args)
      (Sigil.applyClosure other (σ.closure a) (args.map σ.value)) := by
  refine u.readHeap fun h h' hI => ?_
  have hlabel : (σ.closureObject (h.closureAt a)).label = (h.closureAt a).label := by
    unfold ClosureObject.label Renaming.closureObject
    rcases (h.closureAt a).name with _ | s
    · rfl
    · simp only [Option.map_some, Renaming.text_str]
  simp only [u.closureAt a hI, hlabel]
  simp only [Renaming.closureObject, u.items _ hI, List.length_map, Option.isNone_map,
    ← List.map_append, ← List.map_drop]
  split
  · exact u.raise_bind _ _ _ _
  · split
    · exact u.raise_bind _ _ _ _
    · refine u.newScope _ fun scope hfresh => u.bind (u.bindParameters hfresh _ args) fun _ => ?_
      have hbody : R σ.value
          (next.liveBody scope (h.closureAt a).body (h.items (h.closureAt a).body).length 0 .nil)
          (other.liveBody (σ.scope scope) (σ.sequence (h.closureAt a).body)
            (h.items (h.closureAt a).body).length 0 .nil) :=
        u.liveBody hn scope _ _ 0 .nil
      rcases (h.closureAt a).rest with _ | name
      · exact hbody
      · exact u.bind (u.newList _) fun others =>
          u.bind (u.define scope name others hfresh) fun _ => hbody

theorem applyBuiltin (b : Builtin) (args : List Value)
    (hput : ∀ s, putScope? (.builtin b) args = some s → Fresh s) :
    R σ.value (Sigil.applyBuiltin next b args)
      (Sigil.applyBuiltin other b (args.map σ.value)) := by
  unfold Sigil.applyBuiltin
  rw [List.length_map]
  split
  · exact u.raise _ _
  · next hnone =>
    refine u.run hn b args fun hb s hs => hput s ?_
    subst hb
    obtain ⟨hleast, hmost⟩ := Signature.complaint?_eq_none_iff.1 hnone
    have hthree : args.length = 3 := by
      refine Nat.le_antisymm (hmost.resolve_left ?_) hleast
      simp [Builtin.signature]
    rcases args with _ | ⟨target, _ | ⟨key, _ | ⟨v, _ | ⟨other, args⟩⟩⟩⟩
    case cons.cons.cons.nil =>
      obtain rfl : target = .scope s := hs
      rfl
    all_goals simp only [List.length_cons, List.length_nil] at hthree; omega

theorem callValue (f : Value) (args : List Value) (name : Option String)
    (hput : ∀ s, putScope? f args = some s → Fresh s) :
    R σ.value (Sigil.callValue next f args name)
      (Sigil.callValue other (σ.value f) (args.map σ.value) name) := by
  unfold Sigil.callValue
  rw [Renaming.typeName_value, List.length_map]
  refine u.bind (u.note _) fun _ => ?_
  cases f with
  | closure a =>
    refine u.readHeap fun h h' hI => ?_
    have hlabel : (h'.closureAt (σ.closure a)).label = (h.closureAt a).label := by
      rw [u.closureAt a hI]
      unfold ClosureObject.label Renaming.closureObject
      rcases (h.closureAt a).name with _ | s
      · rfl
      · simp only [Option.map_some, Renaming.text_str]
    dsimp only
    rw [hlabel]
    exact u.inFrame _ args (u.applyClosure hn a args)
  | builtin b => exact u.inFrame _ args (u.applyBuiltin hn b args hput)
  | pusher a i => exact u.inFrame _ args (u.applyPusher a args)
  | _ => exact u.complaint _ _ .notCallable

theorem evalList (a scope : Nat) (head : Value) :
    R σ.value (Sigil.evalList next a scope head)
      (Sigil.evalList other (σ.sequence a) (σ.scope scope) (σ.value head)) := by
  have hcall : ∀ name, R σ.value
      (do
        let f ← next.eval head scope
        let args ← next.values scope ((← Form.parts a).drop 1)
        next.call f args name)
      (do
        let f ← other.eval (σ.value head) (σ.scope scope)
        let args ← other.values (σ.scope scope) ((← Form.parts (σ.sequence a)).drop 1)
        other.call f args name) := fun name =>
    u.bind (hn.eval head scope) fun f => u.bind (u.parts a) fun ps => by
      rw [← List.map_drop]
      exact u.bind (u.values hn scope _) fun args => hn.call f args name
  unfold Sigil.evalList
  cases head with
  | sym s =>
    dsimp only [Renaming.value]
    rw [Renaming.text_str]
    split
    · exact u.special hn _ a scope
    · exact hcall _
  | _ => exact hcall none

theorem evalForm (form : Value) (scope : Nat) :
    R σ.value (Sigil.evalForm next form scope)
      (Sigil.evalForm other (σ.value form) (σ.scope scope)) := by
  cases form with
  | sym s =>
    show R σ.value (Form.lookup s.text scope) (Form.lookup (σ.str s).text (σ.scope scope))
    rw [Renaming.text_str]
    exact u.lookup _ scope
  | list a | vector a =>
    refine u.bind (u.parts a) fun ps => ?_
    rcases ps with _ | ⟨head, ps⟩
    · exact u.pure σ.value .nil
    · exact u.evalList hn a scope head
  | _ => exact u.pure σ.value _

end

end Parametric

end Sigil
