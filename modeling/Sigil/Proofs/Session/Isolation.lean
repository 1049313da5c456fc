import Sigil.Proofs.Session.Beside
import Sigil.Proofs.Session.Loading

/-!
# Isolated runners

Runners of one world have the forms of the prelude in common, and a script can reach and change the
lists of these forms. As long as they are as they were read, a runner does with a script what it
does in a world in which no other runner was (`Runner.handle_isolated`). A script that changes one
of them is seen by the runners after it (`Runner.not_isolated_changing`).
-/

namespace Sigil

open Reader (read)
open Heap (Grown)

/-! ## What a script leaves of its world -/

/-- The registry and the forms of the prelude are kept, and the heap is grown. -/
structure World.Later (w w' : World) : Prop where
  registry_eq : w'.registry = w.registry
  prelude_eq : w'.prelude = w.prelude
  grown : Grown w.heap w'.heap

theorem World.Later.refl (w : World) : World.Later w w := ⟨rfl, rfl, Grown.refl _⟩

theorem World.Later.trans {w w₁ w' : World} (hl : w.Later w₁) (hl' : w₁.Later w') : w.Later w' where
  registry_eq := hl'.registry_eq.trans hl.registry_eq
  prelude_eq := hl'.prelude_eq.trans hl.prelude_eq
  grown := hl.grown.trans hl'.grown

namespace Runner

variable {r : Runner} {w : World}

theorem run_later {α : Type} {x : Eval α} (hx : Eval.Grows x) : w.Later (r.run w x).2.2 := by
  have hgrown := hx (r.machine w)
  unfold run
  cases hrun : x (r.machine w) with
  | ok a m =>
    rw [hrun] at hgrown
    exact ⟨rfl, rfl, hgrown⟩
  | error s m =>
    rw [hrun] at hgrown
    cases s <;> exact ⟨rfl, rfl, hgrown⟩

theorem evaluate_later (r : Runner) (w : World) (e : Expr) : w.Later (r.evaluate w e).2.2 := by
  have hloaded : w.Later { w with heap := (w.heap.load e).2 } :=
    ⟨rfl, rfl, (Heap.loaded_load e w.heap).grown⟩
  exact hloaded.trans (run_later ((Interp.grows_ofDepth Eval.depthLimit).eval _ _))

theorem runForms_later (r : Runner) (w : World) (v : Value) (last : Option Location)
    (cur : Cursor) : w.Later (r.runForms w v last cur).2.2 := by
  have hnoted : w.Later (w.noted ((read r.registry cur).dispatched.map .dispatch)) :=
    ⟨rfl, rfl, Grown.refl _⟩
  cases hf : (read r.registry cur).found with
  | nothing =>
    rw [runForms_of_nothing hf]
    exact hnoted
  | failure f place =>
    rw [runForms_of_failure hf]
    exact hnoted
  | form e start =>
    have hlt : (read r.registry cur).rest.after.length < cur.after.length :=
      Reader.after_lt_of_read_form hf
    have hlater := hnoted.trans (evaluate_later r _ e)
    rw [runForms_of_form hf]
    generalize r.evaluate _ e = x at hlater ⊢
    obtain ⟨result, s, w₁⟩ := x
    cases result with
    | error f => exact hlater
    | ok u => exact hlater.trans (runForms_later s w₁ u (some start) (read r.registry cur).rest)
termination_by cur.after.length

/-- What a runner does with its first script leaves what it finds after loading the prelude. -/
theorem handle_later (hready : r.ready = false) (huses : r.usesPrelude = true) (source : String) :
    (preludeForms w).2.Later (r.handle w source).2.2 := by
  have hprepare : ∀ r : Runner, r.ready = false → r.usesPrelude = true →
      (preludeForms w).2.Later (r.prepare w).2.2 := by
    intro r hready huses
    unfold prepare
    rw [hready, huses]
    generalize preludeForms w = x
    obtain ⟨forms, w₁⟩ := x
    cases forms with
    | error f => exact World.Later.refl _
    | ok forms =>
      have hbody := Eval.parametric_grows.body (Interp.grows_ofDepth Eval.depthLimit) r.root forms
      have hlater := run_later (r := r) (w := w₁) hbody
      simp only [Bool.not_true, Bool.or_self, Bool.false_eq_true, if_false]
      generalize r.run w₁ _ = x at hlater ⊢
      obtain ⟨result, s, w₂⟩ := x
      cases result <;> exact hlater
  have hattempt : (preludeForms w).2.Later (r.attempt w source).2.2 := by
    have hlater := hprepare { r with calls := [], effects := [] } hready huses
    unfold attempt
    generalize prepare _ w = x at hlater ⊢
    obtain ⟨result, s, w₁⟩ := x
    cases result with
    | error f => exact hlater
    | ok _ => exact hlater.trans (runForms_later s w₁ .nil none (.ofText source))
  unfold handle
  generalize r.attempt w source = x at hattempt ⊢
  obtain ⟨result, s, w₁⟩ := x
  rcases result with ⟨f, form⟩ | v
  · dsimp only
    cases Report.message (s.machine w₁) source form f <;> exact hattempt
  · exact hattempt

/-! ## The forms of the prelude -/

/-- What runners of one registry find of the prelude in the end: forms that the world keeps, or the
same failure each time. -/
inductive PreludeFound (reg : Registry) : Except Failure (List Value) → World → Prop
  | forms {w : World} (es : List Expr)
      (prelude_eq : w.prelude = some (Heap.empty.withRoot.loadAll es).1)
      (heap_eq : w.heap = Heap.loadedWith es) :
      PreludeFound reg (.ok (Heap.empty.withRoot.loadAll es).1) w
  | failure {w : World} (f : Failure) (prelude_eq : w.prelude = none)
      (heap_eq : w.heap = Heap.loadedWith [])
      (again : ∀ w' : World, w'.registry = some reg → w'.prelude = none →
        ∃ w₁, preludeForms w' = (.error f, w₁) ∧ w₁.heap = w'.heap) :
      PreludeFound reg (.error f) w

theorem exists_preludeFound_of_read {reg : Registry} {reading : Reader.Forms}
    (hread : ∀ {w : World}, w.prelude = none → w.registry = some reg →
      preludeForms w = keepPrelude w reading)
    (hreg : w.registry = some reg) (hprelude : w.prelude = none)
    (hheap : w.heap = Heap.empty.withRoot) :
    ∃ forms w₁, preludeForms w = (forms, w₁) ∧ w₁.registry = some reg ∧
      PreludeFound reg forms w₁ := by
  cases hfault : reading.fault with
  | none =>
    rw [hread hprelude hreg, keepPrelude_of_read hfault, hheap]
    refine ⟨_, _, rfl, hreg, .forms (reading.forms.map (·.1)) ?_ ?_⟩
    · rw [World.withPrelude, hheap]
    · rw [World.withPrelude, hheap, Heap.loadedWith]
  | some fault =>
    obtain ⟨f, hfailure⟩ : ∃ f, ∀ w : World, keepPrelude w reading
        = (.error f, w.noted (reading.dispatched.map .dispatch)) := by
      by_cases hcategory : fault.1.category?.isSome
      · exact ⟨_, fun w => by rw [keepPrelude, hfault]; exact if_pos hcategory⟩
      · exact ⟨_, fun w => by rw [keepPrelude, hfault]; exact if_neg hcategory⟩
    rw [hread hprelude hreg, hfailure]
    refine ⟨_, _, rfl, hreg, .failure f hprelude hheap fun w' hreg' hprelude' => ?_⟩
    exact ⟨_, (hread hprelude' hreg').trans (hfailure w'), rfl⟩

theorem exists_preludeFound {reg : Registry} (hreg : w.registry = some reg)
    (hprelude : w.prelude = none) (hheap : w.heap = Heap.empty.withRoot) :
    ∃ forms w₁, preludeForms w = (forms, w₁) ∧ w₁.registry = some reg ∧
      PreludeFound reg forms w₁ :=
  exists_preludeFound_of_read preludeForms_eq_keepPrelude hreg hprelude hheap

/-! ## A second runner -/

theorem createDefault_ofTable {table : Except TableFault (List Row)}
    (hfirst : createDefault (.ofTable table) = (.ok r, w)) :
    ∃ reg, r = ⟨reg, true, false, 0, [], []⟩ ∧ w.registry = some reg ∧ w.prelude = none ∧
      w.heap = Heap.empty.withRoot := by
  cases table with
  | error f => cases hfirst
  | ok rows =>
    rw [createDefault, World.defaultRegistry] at hfirst
    simp only [World.ofTable, World.compose] at hfirst
    cases hrows : Readtable.extend .standard rows with
    | error f =>
      rw [hrows] at hfirst
      cases hfirst
    | ok reg =>
      rw [hrows] at hfirst
      cases hfirst
      exact ⟨reg, rfl, rfl, rfl, rfl⟩

theorem createDefault_of_registry {reg : Registry} (hreg : w.registry = some reg) :
    createDefault w =
      (.ok ⟨reg, true, false, w.heap.scopes.size, [], []⟩, { w with heap := w.heap.withRoot }) := by
  have hdefault : w.defaultRegistry = (.ok reg, w) := by rw [World.defaultRegistry, hreg]
  rw [createDefault, hdefault]
  rfl

/-- The lists of the prelude, as they are read in the world `w`, are the same in the later world. -/
def KeepsPrelude (w later : World) : Prop :=
  ∀ ref < (preludeForms w).2.heap.sequences.size,
    later.heap.items ref = (preludeForms w).2.heap.items ref

/-- After a script the world has the registry of its first runner. -/
theorem worldRegistry_handle {reg : Registry} (hreg : w.registry = some reg)
    (hprelude : w.prelude = none) (hheap : w.heap = Heap.empty.withRoot)
    (hready : r.ready = false) (huses : r.usesPrelude = true)
    (source : String) : (r.handle w source).2.2.registry = some reg := by
  obtain ⟨forms, w₁, hforms, hreg₁, -⟩ := exists_preludeFound hreg hprelude hheap
  have hlater := handle_later (w := w) hready huses source
  rw [hforms] at hlater
  rw [hlater.registry_eq, hreg₁]

/-- After a script a second runner can be created. -/
theorem exists_createDefault {table : Except TableFault (List Row)}
    (hfirst : createDefault (.ofTable table) = (.ok r, w)) (source : String) :
    ∃ s w', createDefault (r.handle w source).2.2 = (.ok s, w') := by
  obtain ⟨reg, rfl, hreg, hprelude, hheap⟩ := createDefault_ofTable hfirst
  exact ⟨_, _, createDefault_of_registry (worldRegistry_handle hreg hprelude hheap rfl rfl source)⟩

/-- Runners are isolated from each other by all that they share but the lists of the prelude. After a
first runner has run any script, a second one can be created, and when the lists of the prelude are
still as they were read it runs every script as the first one would have: with the same status, the
same value but for the references of its objects, the same effects, and the same error. -/
theorem handle_isolated {table : Except TableFault (List Row)}
    (hfirst : createDefault (.ofTable table) = (.ok r, w)) (a b : String) :
    ∃ s w', createDefault (r.handle w a).2.2 = (.ok s, w') ∧
      (KeepsPrelude w (r.handle w a).2.2 → SameRun (r.handle w b) (s.handle w' b)) := by
  obtain ⟨reg, rfl, hreg, hprelude, hheap⟩ := createDefault_ofTable hfirst
  have hreg₂ :=
    worldRegistry_handle (r := ⟨reg, true, false, 0, [], []⟩) hreg hprelude hheap rfl rfl a
  obtain ⟨forms, w₁, hforms, -, hfound⟩ := exists_preludeFound hreg hprelude hheap
  have hlater := handle_later (r := ⟨reg, true, false, 0, [], []⟩) (w := w) rfl rfl a
  unfold KeepsPrelude
  rw [hforms] at hlater ⊢
  generalize (handle _ w a).2.2 = w₂ at hlater hreg₂ ⊢
  refine ⟨_, _, createDefault_of_registry hreg₂, fun hkeeps => ?_⟩
  have hrunner : ∀ es, Renamed (Heap.beside es w₂.heap) ⟨reg, true, false, 0, [], []⟩
      ⟨reg, true, false, w₂.heap.scopes.size, [], []⟩ := fun _ => ⟨rfl, rfl, rfl, rfl, rfl, rfl⟩
  have hgrown := hlater.grown
  cases hfound with
  | forms es hprelude₁ hheap₁ =>
    have hprelude₂ := hlater.prelude_eq.trans hprelude₁
    rw [hheap₁] at hgrown hkeeps
    refine handle_twins (hrunner es) rfl rfl ?_ b
    constructor
    · rw [hforms, preludeForms_of_prelude (w := { w₂ with heap := w₂.heap.withRoot }) hprelude₂]
      exact congrArg Except.ok (Heap.fixed_beside es w₂.heap).1.symm
    · rw [hforms, preludeForms_of_prelude (w := { w₂ with heap := w₂.heap.withRoot }) hprelude₂,
        hheap₁]
      exact Heap.image_beside hgrown hkeeps
  | failure f hprelude₁ hheap₁ hagain =>
    obtain ⟨w₃, hforms₃, hheap₃⟩ := hagain { w₂ with heap := w₂.heap.withRoot } hreg₂
      (hlater.prelude_eq.trans hprelude₁)
    rw [hheap₁] at hgrown hkeeps
    refine handle_twins (hrunner []) rfl rfl ?_ b
    constructor
    · rw [hforms, hforms₃]
      rfl
    · rw [hforms, hforms₃, hheap₁, hheap₃]
      exact Heap.image_beside hgrown hkeeps

/-! ## Scripts that change nothing, and one that does -/

def first : Runner × World := create World.initial.defaultRegistry.2 .extended true

theorem createDefault_initial : createDefault World.initial = (.ok first.1, first.2) := rfl

theorem handle_isolated_first :
    ∃ s w', createDefault (first.1.handle first.2 "(map-put (list 1) 0 2)").2.2 = (.ok s, w') ∧
      SameRun (first.1.handle first.2 "(first (list 10 20))")
        (s.handle w' "(first (list 10 20))") := by
  have hkeeps : KeepsPrelude first.2 (first.1.handle first.2 "(map-put (list 1) 0 2)").2.2 := by
    unfold KeepsPrelude
    rw [handle_withPrelude rfl rfl rfl rfl rfl Prelude.readable,
      preludeForms_of_registry rfl rfl rfl Prelude.readable, preludeForms_of_prelude rfl]
    decide +kernel
  obtain ⟨s, w', hsecond, hsame⟩ :=
    handle_isolated createDefault_initial "(map-put (list 1) 0 2)" "(first (list 10 20))"
  exact ⟨s, w', hsecond, hsame hkeeps⟩

def value? : Except PrintFault Outcome → Option Value
  | .ok (.success v) => some v
  | _ => none

theorem SameRun.value? {x y : Except PrintFault Outcome × Runner × World} (hxy : SameRun x y) :
    ∃ σ : Renaming, Runner.value? y.1 = (Runner.value? x.1).map σ.value := by
  obtain ⟨σ, houtcome, -⟩ := hxy
  refine ⟨σ, ?_⟩
  rw [houtcome]
  rcases x.1 with f | (v | ⟨message, place⟩) <;> rfl

/-- A script that changes the body of a function of the prelude, in the list that all functions of
this form have in common. -/
def changing : String := "(map-put (access-index (access-field first 'body) 0) 2 1)"

def valueOfNew? (w : World) (script : String) : Option Value :=
  match createDefault w with
  | (.ok s, w') => value? (s.handle w' script).1
  | _ => none

/-- Behind it, another runner has another value for a call of that function. -/
theorem not_isolated_changing :
    ∃ s w', createDefault (first.1.handle first.2 changing).2.2 = (.ok s, w') ∧
      value? (first.1.handle first.2 "(first (list 10 20))").1 = some (.int 10) ∧
      value? (s.handle w' "(first (list 10 20))").1 = some (.int 20) ∧
      ¬ SameRun (first.1.handle first.2 "(first (list 10 20))")
        (s.handle w' "(first (list 10 20))") := by
  have hchanging := handle_withPrelude (r := first.1) (w := first.2) rfl rfl rfl rfl rfl
    Prelude.readable changing
  have hfirst : value? (first.1.handle first.2 "(first (list 10 20))").1 = some (.int 10) := by
    rw [handle_withPrelude rfl rfl rfl rfl rfl Prelude.readable]
    decide +kernel
  have hsecond : valueOfNew? (first.1.handle first.2 changing).2.2 "(first (list 10 20))"
      = some (.int 20) := by
    rw [hchanging]
    decide +kernel
  obtain ⟨s, w', hcreate⟩ := exists_createDefault createDefault_initial changing
  rw [valueOfNew?, hcreate] at hsecond
  have hchanged : value? (s.handle w' "(first (list 10 20))").1 = some (.int 20) := hsecond
  refine ⟨s, w', hcreate, hfirst, hchanged, fun hsame => ?_⟩
  obtain ⟨σ, hvalue⟩ := hsame.value?
  rw [hfirst, hchanged] at hvalue
  cases hvalue

end Runner

end Sigil
