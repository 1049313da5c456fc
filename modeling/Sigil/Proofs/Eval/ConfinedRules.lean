import Sigil.Proofs.Eval.Confined
import Sigil.Proofs.Eval.Fundamental

/-!
# The rules of evaluation stay in a region

When a relation holds in a region of the next level of evaluation, it holds of every rule over it: of
the builtins (`Confined.run`), the special forms (`Confined.special`), calls (`Confined.callValue`)
and forms (`Confined.evalForm`).
-/

namespace Sigil

open Eval

/-- The activities of `next` and `other` are the same on values of the region, in corresponding
scopes. -/
structure Interp.Confined (ρ : Region) (E : Nat → Nat → Nat → Prop)
    (R : Nat → ∀ {α : Type}, (α → Prop) → Eval α → Eval α → Prop) (next other : Interp) : Prop where
  eval : ∀ {n form s s'}, ρ.Covers form → E n s s' →
    R n ρ.Covers (next.eval form s) (other.eval form s')
  call : ∀ {n f args} name, ρ.Covers f → ρ.CoversAll args →
    R n ρ.Covers (next.call f args name) (other.call f args name)

namespace Confined

variable {w : Watch} {ρ : Region} {E : Nat → Nat → Nat → Prop} {Up Fresh : Nat → Nat → Prop}
  {I : Heap → Heap → Prop} {R : Nat → ∀ {α : Type}, (α → Prop) → Eval α → Eval α → Prop} {n : Nat}
  {next other : Interp}

section

variable (u : Confined w ρ E Up Fresh I R) (hn : Interp.Confined ρ E R next other)
include u hn

theorem body {s s' : Nat} (hs : E n s s') : ∀ {forms : List Value}, ρ.CoversAll forms →
    R n ρ.Covers (next.body s forms) (other.body s' forms)
  | [], _ => u.pure trivial
  | [_], hforms => hn.eval (Region.coversAll_cons.1 hforms).1 hs
  | _ :: _ :: _, hforms => by
    obtain ⟨hform, hforms⟩ := Region.coversAll_cons.1 hforms
    exact u.bind (hn.eval hform hs) fun _ _ => body hs hforms

theorem liveBody {s s' a : Nat} (ha : ρ.sequence a) :
    ∀ {n : Nat}, E n s s' → ∀ (count index : Nat) {result : Value}, ρ.Covers result →
      R n ρ.Covers (next.liveBody s a count index result) (other.liveBody s' a count index result)
  | _, _, 0, _, _, hresult => u.pure hresult
  | _, hs, count + 1, index, _, _ => u.readHeap fun h h' hI hle => by
    obtain ⟨hitems, hcovers⟩ := u.items hI ha
    rw [hitems]
    exact u.bind (hn.eval (hcovers.getD index) (u.mono hle hs)) fun _ hv =>
      liveBody ha (u.mono hle hs) count (index + 1) hv

theorem values {s s' : Nat} (hs : E n s s') : ∀ {forms : List Value}, ρ.CoversAll forms →
    R n ρ.CoversAll (next.values s forms) (other.values s' forms)
  | [], _ => u.pure Region.coversAll_nil
  | _ :: _, hforms => by
    obtain ⟨hform, hforms⟩ := Region.coversAll_cons.1 hforms
    exact u.bind (hn.eval hform hs) fun _ hv =>
      u.map (values hs hforms) fun _ hvs => Region.coversAll_cons.2 ⟨hv, hvs⟩

/-! ### Builtins -/

theorem mapRounds {f : Value} (hf : ρ.Covers f) : ∀ (rounds : Nat) {walks : List Container.Walk}
    {results : List Value}, (∀ w ∈ walks, ρ.CoversWalk w) → ρ.CoversAll results →
    R n ρ.CoversAll (Library.mapRounds next f rounds walks results)
      (Library.mapRounds other f rounds walks results)
  | 0, _, _, _, _ => u.throw _ _
  | rounds + 1, _, _, hwalks, hresults => by
    refine u.bind (u.nextAll hwalks) fun r hr => ?_
    rcases r with _ | ⟨args, walks⟩
    · exact u.pure fun v hv => hresults v (List.mem_reverse.1 hv)
    · obtain ⟨hargs, hwalks⟩ := hr _ rfl
      exact u.bind (hn.call none hf hargs) fun v hv =>
        mapRounds hf rounds hwalks (Region.coversAll_cons.2 ⟨hv, hresults⟩)

theorem mapcar {f : Value} {sequences : List Value} (hf : ρ.Covers f)
    (hsequences : ρ.CoversAll sequences) :
    R n ρ.Covers (Library.mapcar next f sequences) (Library.mapcar other f sequences) :=
  u.bind (u.mapM (fun _ hv => u.walkThrough hv) hsequences) fun _ hwalks =>
    u.readHeap fun h h' hI _ => by
      rw [Region.roundLimit_eq u.toReads hI hwalks]
      exact u.bind (u.mapRounds hn hf _ hwalks Region.coversAll_nil) fun _ hresults =>
        u.newList hresults

/-- Every builtin, but for taking the scope of a function that keeps it. -/
theorem run (b : Builtin) {args : List Value} (hargs : ρ.CoversAll args)
    (hopen : b = .accessField → ∀ a s, Library.arg args 0 = .closure a →
      (Library.arg args 1 = .sym s ∨ Library.arg args 1 = .kw s ∨ Library.arg args 1 = .str s) →
      Builtin.underscored s.text = "closure" → w.keeps a = false) :
    R n ρ.Covers (Library.run next b args) (Library.run other b args) := by
  have harg : ∀ i, ρ.Covers (Library.arg args i) := hargs.getD
  have hcombine : ∀ {f : Value → Value → Except EvalFault Value},
      (∀ a b, ρ.CoversResult (f a b)) → ∀ {a}, ρ.Covers a → ∀ {bs}, ρ.CoversAll bs →
      R n ρ.Covers (Library.combine (fun x y => Eval.ofExcept (f x y)) a bs)
        (Library.combine (fun x y => Eval.ofExcept (f x y)) a bs) :=
    fun hf _ ha _ hbs => u.combine (fun _ _ => u.ofExcept (hf _ _)) ha hbs
  unfold Library.run
  dsimp only
  cases b with
  | add => exact hcombine (Region.covers_arithmetic _ _ _) (a := .int 0) trivial hargs
  | sub =>
    rcases args with _ | ⟨a, _ | ⟨b, args⟩⟩
    · exact hcombine (Region.covers_arithmetic _ _ _) (harg 0) (hargs.drop 1)
    · exact u.ofExcept (Region.covers_neg a)
    · exact hcombine (Region.covers_arithmetic _ _ _) (harg 0) (hargs.drop 1)
  | div =>
    rcases args with _ | ⟨a, _ | ⟨b, args⟩⟩
    · exact hcombine Region.covers_div (harg 0) (hargs.drop 1)
    · exact u.ofExcept (Region.covers_div (.int 1) a)
    · exact hcombine Region.covers_div (harg 0) (hargs.drop 1)
  | mul => exact u.combine u.product trivial hargs
  | numEq => exact u.comparison u.equal hargs
  | lt => exact u.comparison (u.ordered .lt) hargs
  | gt => exact u.comparison (u.ordered .gt) hargs
  | lte => exact u.comparison (u.ordered .le) hargs
  | gte => exact u.comparison (u.ordered .ge) hargs
  | not =>
    exact u.readHeap fun h h' hI _ =>
      u.pure_eq (by rw [Region.isTrue_eq u.toReads hI (harg 0)]) trivial
  | eq => exact u.predicate .eq (harg 0) (harg 1)
  | eql => exact u.predicate .eql (harg 0) (harg 1)
  | equal => exact u.predicate .equal (harg 0) (harg 1)
  | equalp => exact u.predicate .equalp (harg 0) (harg 1)
  | list => exact u.newList hargs
  | length =>
    have hlength : ∀ {v}, ρ.Covers v → R n ρ.Covers (do return Value.int (← Container.length v))
        (do return Value.int (← Container.length v)) := fun hv =>
      u.map (u.length hv) fun _ _ => trivial
    have hv := harg 0
    generalize Library.arg args 0 = v at hv
    cases v with
    | nil => exact u.pure trivial
    | _ => exact hlength hv
  | concat => exact u.concat hargs
  | funcall => exact hn.call none (harg 0) (hargs.drop 1)
  | apply => exact u.bind (u.spread (hargs.drop 1)) fun _ hargs => hn.call none (harg 0) hargs
  | mapcar => exact u.mapcar hn (harg 0) (hargs.drop 1)
  | emit =>
    exact u.bind (u.topics (harg 0)) fun ts _ =>
      u.bind (u.mapM (fun _ hv => u.bare hv) (hargs.drop 1)) fun texts _ =>
        u.bind (u.emit _) fun _ _ => u.pure trivial
  | print =>
    refine u.bind (u.mapM (fun _ hv => u.printedBare hv) hargs) fun texts _ =>
      u.bind (u.emit _) fun _ _ => u.pure ?_
    rw [List.getLastD_eq_getLast?]
    cases hlast : args.getLast? with
    | none => trivial
    | some v => exact hargs v (List.mem_of_getLast? hlast)
  | makeVector => exact u.makeVector (harg 0) (harg 1)
  | vectorPushExtend =>
    have hv := harg 1
    generalize Library.arg args 1 = v at hv
    cases v with
    | vector a => exact u.pushOnto hv (harg 0)
    | _ => exact u.raise _ _
  | makeMap =>
    exact u.bind (u.sizeHint (harg 1)) fun hint _ => u.bind (u.mapTest (harg 0)) fun test _ =>
      u.map (u.newMap test hint) fun _ ha => ha
  | mapPut => exact u.bind (u.put (harg 0) (harg 1) (harg 2)) fun _ _ => u.pure (harg 0)
  | mapGet => exact u.mapGet (harg 0) (harg 1) (harg 2)
  | mapCount => exact u.map (u.length (harg 0)) fun _ _ => trivial
  | mapKeys => exact u.bind (u.keys (harg 0)) fun _ hkeys => u.newList hkeys
  | accessField =>
    have hfield : ∀ s, (Library.arg args 1 = .sym s ∨ Library.arg args 1 = .kw s ∨
        Library.arg args 1 = .str s) →
        R n ρ.Covers (Container.field (Library.arg args 0) s) (Container.field (Library.arg args 0) s) :=
      fun s hs => u.field (harg 0) s fun a ha hname => hopen rfl a s ha hs hname
    generalize Library.arg args 1 = v at hfield
    cases v with
    | sym s | kw s | str s => exact hfield s (by simp)
    | _ => exact u.raise_bind _ _ _ _
  | accessIndex => exact u.accessIndex (harg 0) (harg 1)

/-! ### Special forms -/

theorem bindingValues {s s' : Nat} (hs : E n s s') : ∀ {bs : List (Str × Value)},
    (∀ b ∈ bs, ρ.Covers b.2) →
    R n (fun bs => ∀ b ∈ bs, ρ.Covers b.2) (Form.bindingValues next s bs)
      (Form.bindingValues other s' bs)
  | [], _ => u.pure fun _ hb => nomatch hb
  | (_, _) :: _, hbs => by
    obtain ⟨hform, hrest⟩ := List.forall_mem_cons.1 hbs
    exact u.bind (hn.eval hform hs) fun _ hv =>
      u.map (bindingValues hs hrest) fun _ hvs => List.forall_mem_cons.2 ⟨hv, hvs⟩

theorem bindInTurn {s s' : Nat} (hs : Fresh s s') : ∀ {bs : List (Str × Value)},
    (∀ b ∈ bs, ρ.Covers b.2) →
    R (s + 1) (fun _ => True) (Form.bindInTurn next s bs) (Form.bindInTurn other s' bs)
  | [], _ => u.done ()
  | (name, _) :: _, hbs => by
    obtain ⟨hform, hrest⟩ := List.forall_mem_cons.1 hbs
    exact u.bind (hn.eval hform (u.linked hs)) fun _ hv =>
      u.bind (u.define name hs hv) fun _ _ => bindInTurn hs hrest

theorem assignAll {s s' : Nat} (hs : E n s s') : ∀ {result : Value} {targets : List Value},
    ρ.Covers result → ρ.CoversAll targets →
    R n ρ.Covers (w.assignAll next s result targets) (Form.assignAll other s' result targets)
  | _, [], hresult, _ | _, [_], hresult, _ => u.pure hresult
  | _, _ :: _ :: _, _, htargets => by
    obtain ⟨htarget, htargets⟩ := Region.coversAll_cons.1 htargets
    obtain ⟨hform, hrest⟩ := Region.coversAll_cons.1 htargets
    exact u.bind (u.symbol _ htarget) fun name _ => u.bind (hn.eval hform hs) fun _ hv =>
      u.bind (u.assign name hs hv) fun _ _ => assignAll hs hv hrest

theorem conjunction {s s' : Nat} : ∀ {n : Nat}, E n s s' → ∀ {result : Value} {forms : List Value},
    ρ.Covers result → ρ.CoversAll forms →
    R n ρ.Covers (Form.conjunction next s result forms) (Form.conjunction other s' result forms)
  | _, _, _, [], hresult, _ => u.pure hresult
  | _, hs, _, _ :: _, _, hforms => by
    obtain ⟨hform, hrest⟩ := Region.coversAll_cons.1 hforms
    refine u.bind (hn.eval hform hs) fun v hv => u.readHeap fun h h' hI hle => ?_
    rw [Region.isTrue_eq u.toReads hI hv]
    split
    · exact conjunction (u.mono hle hs) hv hrest
    · exact u.pure hv

theorem disjunction {s s' : Nat} : ∀ {n : Nat}, E n s s' → ∀ {forms : List Value},
    ρ.CoversAll forms →
    R n ρ.Covers (Form.disjunction next s forms) (Form.disjunction other s' forms)
  | _, _, [], _ => u.pure trivial
  | _, hs, _ :: _, hforms => by
    obtain ⟨hform, hrest⟩ := Region.coversAll_cons.1 hforms
    refine u.bind (hn.eval hform hs) fun v hv => u.readHeap fun h h' hI hle => ?_
    rw [Region.isTrue_eq u.toReads hI hv]
    split
    · exact u.pure hv
    · exact disjunction (u.mono hle hs) hrest

theorem special (form : SpecialForm) {a s s' : Nat} (ha : ρ.sequence a) (hs : E n s s') :
    R n ρ.Covers (w.special next form a s) (Form.special other form a s') := by
  have hpart : ∀ {n} index, E n s s' → R n ρ.Covers (do next.eval (← Form.part a index) s)
      (do other.eval (← Form.part a index) s') := fun index hs =>
    u.bind (u.part ha index) fun form hform => hn.eval hform hs
  have hbody : ∀ {n t t'} count, E n t t' → R n ρ.Covers
      (do next.body t ((← Form.parts a).drop count))
      (do other.body t' ((← Form.parts a).drop count)) := fun count ht =>
    u.bind (u.parts ha) fun ps hps => u.body hn ht (hps.drop count)
  cases form with
  | quote => exact u.bind (u.checkParts ha _ _) fun _ _ => u.part ha 1
  | function =>
    refine u.bind (u.checkParts ha _ _) fun _ _ => u.bind (u.part ha 1) fun target ht => ?_
    cases target with
    | sym s => exact u.lookup _ hs
    | _ => exact hn.eval ht hs
  | cond =>
    refine u.bind (u.checkParts ha _ _) fun _ _ => u.bind (u.part ha 1) fun test ht =>
      u.bind (hn.eval ht hs) fun v hv => u.readHeap fun h h' hI hle => ?_
    rw [Region.isTrue_eq u.toReads hI hv]
    split
    · exact hpart 2 (u.mono hle hs)
    · refine u.bind (u.parts ha) fun ps hps => ?_
      split
      · exact hpart 3 (u.mono hle hs)
      · exact u.pure trivial
  | when =>
    refine u.bind (u.checkParts ha _ _) fun _ _ => u.bind (u.part ha 1) fun test ht =>
      u.bind (hn.eval ht hs) fun v hv => u.readHeap fun h h' hI hle => ?_
    rw [Region.isTrue_eq u.toReads hI hv]
    split
    · exact hbody 2 (u.mono hle hs)
    · exact u.pure trivial
  | progn => exact hbody 1 hs
  | letAll =>
    exact u.bind (u.bindings ha) fun bs hbs => u.bind (u.bindingValues hn hs hbs) fun bound hbound =>
      u.newScope (u.up hs) fun t t' _ ht => u.bind (u.defineAll ht hbound) fun _ _ =>
        hbody 2 (u.linked ht)
  | letStar =>
    exact u.newScope (u.up hs) fun t t' _ ht => u.bind (u.bindings ha) fun bs hbs =>
      u.bind (u.bindInTurn hn ht hbs) fun _ _ => hbody 2 (u.linked ht)
  | setq =>
    refine u.bind (u.parts ha) fun ps hps => ?_
    dsimp only
    split
    · exact u.assignAll hn hs trivial (hps.drop 1)
    · exact u.raise _ _
  | defvar =>
    refine u.bind (u.checkParts ha _ _) fun _ _ => u.bind (u.part ha 1) fun target ht =>
      u.bind (u.symbol _ ht) fun name _ => u.bind (u.parts ha) fun ps hps => ?_
    have hdefine : ∀ v, ρ.Covers v → R n ρ.Covers
        (do
          modifyHeap fun h => h.define (h.root s) name v
          Form.part a 1)
        (do
          modifyHeap fun h => h.define (h.root s') name v
          Form.part a 1) := fun v hv =>
      u.bind (u.defineRoot name hs hv) fun _ _ => u.part ha 1
    dsimp only
    split
    · exact u.bind (u.part ha 2) fun form hform => u.bind (hn.eval hform hs) hdefine
    · exact u.bind (u.pure (P := ρ.Covers) (a := .nil) trivial) hdefine
  | defun =>
    refine u.bind (u.checkParts ha _ _) fun _ _ => u.bind (u.part ha 1) fun target ht =>
      u.bind (u.symbol _ ht) fun name _ => u.bind (u.part ha 2) fun params hparams =>
        u.bind (u.parts ha) fun ps hps => ?_
    exact u.bind (u.function hparams (hps.drop 3) hs (some name)) fun f hf =>
      u.bind (u.defineRoot name hs hf) fun _ _ => u.part ha 1
  | lambda =>
    refine u.bind (u.checkParts ha _ _) fun _ _ => u.bind (u.part ha 1) fun params hparams =>
      u.bind (u.parts ha) fun ps hps => ?_
    exact u.function hparams (hps.drop 2) hs none
  | declare => exact u.pure trivial
  | and =>
    exact u.bind (u.parts ha) fun ps hps => u.conjunction hn hs trivial (hps.drop 1)
  | or => exact u.bind (u.parts ha) fun ps hps => u.disjunction hn hs (hps.drop 1)

/-! ### Calls and forms -/

theorem applyClosure {a : Nat} {args : List Value} (ha : ρ.closure a) (hargs : ρ.CoversAll args) :
    R n ρ.Covers (Sigil.applyClosure next a args) (Sigil.applyClosure other a args) := by
  refine u.readHeap fun h h' hI _ => ?_
  obtain ⟨s, hclosure, hscope, hrequired, hoptional, hbody⟩ := u.closureAt hI ha
  simp only [hclosure, (u.items hI hrequired).1, (u.items hI hoptional).1, (u.items hI hbody).1,
    ClosureObject.label]
  split
  · exact u.raise_bind _ _ _ _
  · split
    · exact u.raise_bind _ _ _ _
    · refine u.newScope hscope fun t t' _ ht => u.bind (u.bindParameters ht hargs) fun _ _ => ?_
      have hrun : R (t + 1) ρ.Covers
          (next.liveBody t (h.closureAt a).body (h.items (h.closureAt a).body).length 0 .nil)
          (other.liveBody t' (h.closureAt a).body (h.items (h.closureAt a).body).length 0 .nil) :=
        u.liveBody hn hbody (u.linked ht) _ 0 trivial
      rcases (h.closureAt a).rest with _ | name
      · exact hrun
      · exact u.bind (u.newList (hargs.drop _)) fun others hothers =>
          u.bind (u.define name ht hothers) fun _ _ => hrun

theorem applyBuiltin (b : Builtin) {args : List Value} (hargs : ρ.CoversAll args)
    (hopen : ∀ a, Watch.taken? (.builtin b) args = some a → w.keeps a = false) :
    R n ρ.Covers (Sigil.applyBuiltin next b args) (Sigil.applyBuiltin other b args) := by
  unfold Sigil.applyBuiltin
  split
  · exact u.raise _ _
  · next hnone =>
    refine u.run hn b hargs ?_
    rintro rfl a s ha hs hname
    obtain ⟨hleast, hmost⟩ := Signature.complaint?_eq_none_iff.1 hnone
    have htwo : args.length = 2 := by
      refine Nat.le_antisymm (hmost.resolve_left ?_) hleast
      simp [Builtin.signature]
    rcases args with _ | ⟨target, _ | ⟨key, _ | ⟨other, args⟩⟩⟩
    case cons.cons.nil =>
      obtain rfl : target = .closure a := ha
      refine hopen a ?_
      obtain rfl | rfl | rfl : key = .sym s ∨ key = .kw s ∨ key = .str s := hs <;>
        exact if_pos hname
    all_goals simp only [List.length_cons, List.length_nil] at htwo; omega

theorem callValue {f : Value} {args : List Value} (name : Option String) (hf : ρ.Covers f)
    (hargs : ρ.CoversAll args) :
    R n ρ.Covers (w.callValue next f args name) (Sigil.callValue other f args name) := by
  unfold Watch.callValue
  by_cases htaken : (Watch.taken? f args).any w.keeps = true
  · rw [if_pos htaken]
    exact u.refused _
  rw [if_neg htaken]
  have hopen : ∀ a, Watch.taken? f args = some a → w.keeps a = false := fun a ha => by
    rw [ha] at htaken
    exact Bool.eq_false_iff.2 htaken
  unfold Sigil.callValue
  refine u.bind (u.note _) fun _ _ => ?_
  cases f with
  | closure a =>
    refine u.readHeap fun h h' hI _ => ?_
    obtain ⟨s, hclosure, -⟩ := u.closureAt hI hf
    have hlabel : (h'.closureAt a).label = (h.closureAt a).label := by
      rw [hclosure]
      rfl
    dsimp only
    rw [hlabel]
    exact u.inFrame _ (u.applyClosure hn hf hargs)
  | builtin b => exact u.inFrame _ (u.applyBuiltin hn b hargs hopen)
  | pusher a i => exact u.inFrame _ (u.applyPusher hf hargs)
  | _ => exact u.complaint _ hf .notCallable

theorem evalList {a s s' : Nat} {head : Value} (ha : ρ.sequence a) (hhead : ρ.Covers head)
    (hs : E n s s') : R n ρ.Covers (w.evalList next a s head) (Sigil.evalList other a s' head) := by
  have hcall : ∀ name, R n ρ.Covers
      (do
        let f ← next.eval head s
        let args ← next.values s ((← Form.parts a).drop 1)
        next.call f args name)
      (do
        let f ← other.eval head s'
        let args ← other.values s' ((← Form.parts a).drop 1)
        other.call f args name) := fun name =>
    u.bind (hn.eval hhead hs) fun f hf => u.bind (u.parts ha) fun ps hps =>
      u.bind (u.values hn hs (hps.drop 1)) fun args hargs => hn.call name hf hargs
  unfold Sigil.evalList Watch.evalList
  cases head with
  | sym x =>
    dsimp only
    cases SpecialForm.ofName? x.text with
    | some form => exact u.special hn form ha hs
    | none => exact hcall _
  | _ => exact hcall none

theorem evalForm {form : Value} {s s' : Nat} (hform : ρ.Covers form) (hs : E n s s') :
    R n ρ.Covers (w.evalForm next form s) (Sigil.evalForm other form s') := by
  cases form with
  | sym x => exact u.lookup _ hs
  | list a | vector a =>
    refine u.bind (u.parts hform) fun ps hps => ?_
    rcases ps with _ | ⟨head, ps⟩
    · exact u.pure trivial
    · exact u.evalList hn hform (Region.coversAll_cons.1 hps).1 hs
  | _ => exact u.pure hform

end

end Confined

end Sigil
