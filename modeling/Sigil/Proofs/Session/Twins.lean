import Sigil.Proofs.Eval.Renamed
import Sigil.Proofs.Session.Behind

/-!
# Runs of a script in images of heaps

Two runners whose heaps are images and whose root scopes correspond run every script the same way
(`Runner.handle_twins`): reading does not see the heap, and evaluating does not see the references of
objects. The two need not come to the forms of their preludes in the same way, as long as the forms
correspond.
-/

namespace Sigil

open Reader (read)

variable {σ : Renaming} {h h' : Heap}

/-! ## Loading -/

mutual

/-- An expression is loaded as the same value in new objects of each heap. -/
theorem Image.load : ∀ (e : Expr) {h h' : Heap}, Image σ h h' →
    (h'.load e).1 = σ.value (h.load e).1 ∧ Image σ (h.load e).2 (h'.load e).2
  | .int _, _, _, hI | .float _, _, _, hI | .sym _ .supplied, _, _, hI => ⟨rfl, hI⟩
  | .str s, _, _, hI => ⟨congrArg Value.str (hI.newStr_fst s), hI.nextFresh⟩
  | .sym s .written, _, _, hI => ⟨congrArg Value.sym (hI.newStr_fst s), hI.nextFresh⟩
  | .kw s, _, _, hI => ⟨congrArg Value.kw (hI.newStr_fst s), hI.nextFresh⟩
  | .list items, _, _, hI => by
    obtain ⟨hvalues, hI⟩ := Image.loadAll items hI
    simp only [Heap.load, hvalues]
    exact ⟨congrArg Value.list hI.sequences.size_eq.symm, hI.newSequence _⟩

theorem Image.loadAll : ∀ (es : List Expr) {h h' : Heap}, Image σ h h' →
    (h'.loadAll es).1 = (h.loadAll es).1.map σ.value ∧ Image σ (h.loadAll es).2 (h'.loadAll es).2
  | [], _, _, hI => ⟨rfl, hI⟩
  | e :: es, _, _, hI => by
    obtain ⟨hvalue, hI⟩ := Image.load e hI
    obtain ⟨hvalues, hI⟩ := Image.loadAll es hI
    simp only [Heap.loadAll, hvalue, hvalues, List.map_cons]
    exact ⟨trivial, hI⟩

end

/-! ## Reports -/

namespace Report

theorem argument_value (hI : Image σ h h') (v : Value) :
    argument h' (σ.value v) = argument h v := by
  have hprint : h'.print (σ.value v) = h.print v := by rw [Heap.print, Heap.print, hI.view]
  cases v with
  | list a => simp [argument, Renaming.value, hI.items]
  | closure a => rfl
  | _ => exact hprint

theorem callStack_frame (hI : Image σ h h') (calls : List CallFrame) :
    callStack h' (calls.map σ.frame) = callStack h calls := by
  have hcall : ∀ frame, call h' (σ.frame frame) = call h frame := by
    intro frame
    have hargs : (frame.args.map σ.value).mapM (argument h') = frame.args.mapM (argument h) := by
      rw [List.mapM_map]
      exact congrArg (fun f => frame.args.mapM f) (funext fun v => argument_value hI v)
    simp only [call, Renaming.frame, hargs]
    rfl
  have hcalls : ((calls.map σ.frame).reverse).mapM (call h') = calls.reverse.mapM (call h) := by
    rw [← List.map_reverse, List.mapM_map]
    exact congrArg (fun f => calls.reverse.mapM f) (funext hcall)
  rw [callStack, callStack, List.isEmpty_map, hcalls]

theorem callee_frame (category : EvalCategory) (calls : List CallFrame) :
    callee category (calls.map σ.frame) = callee category calls := by
  cases category <;> cases calls <;> rfl

theorem summary_frame (calls : List CallFrame) (f : Failure) :
    summary (calls.map σ.frame) f = summary calls f := by
  cases f with
  | evaluating f => simp only [summary, callee_frame]
  | _ => rfl

/-- A report does not see the references of objects. -/
theorem message_renamed {m m' : Machine} (hm : m.Renamed σ m') (source : String)
    (form : Option Location) (f : Failure) : message m' source form f = message m source form f := by
  simp only [message, hm.calls, summary_frame, callStack_frame hm.heap]

end Report

/-! ## Runners -/

def Renaming.outcome (σ : Renaming) : Outcome → Outcome
  | .success v => .success (σ.value v)
  | .failure message place => .failure message place

namespace Runner

/-- The second runner is the first one with a renamed root scope and renamed calls. -/
structure Renamed (σ : Renaming) (r r' : Runner) : Prop where
  registry : r'.registry = r.registry
  usesPrelude : r'.usesPrelude = r.usesPrelude
  ready : r'.ready = r.ready
  root : r'.root = σ.scope r.root
  calls : r'.calls = r.calls.map σ.frame
  effects : r'.effects = r.effects

/-- Renamed runners whose heaps are images. -/
structure Twins (σ : Renaming) (x y : Runner × World) : Prop where
  runner : x.1.Renamed σ y.1
  heap : Image σ x.2.heap y.2.heap

variable {r r' : Runner} {w w' : World} {α : Type} {φ : α → α}

theorem Twins.machine (hxy : Twins σ (r, w) (r', w')) : (r.machine w).Renamed σ (r'.machine w') :=
  ⟨hxy.heap, hxy.runner.calls, hxy.runner.effects⟩

theorem Twins.after {m m' : Machine} (hr : r.Renamed σ r') (hm : m.Renamed σ m') :
    Twins σ (r.after w m) (r'.after w' m') :=
  ⟨{ hr with calls := hm.calls, effects := hm.effects }, hm.heap⟩

theorem run_twins (hxy : Twins σ (r, w) (r', w')) {x y : Eval α} (hx : Eval.Renamed σ φ x y) :
    (r'.run w' y).1 = (r.run w x).1.map φ ∧ Twins σ (r.run w x).2 (r'.run w' y).2 := by
  have hresult := hx _ _ hxy.machine
  unfold run
  generalize x (r.machine w) = result, y (r'.machine w') = result' at hresult
  cases hresult with
  | ok hm => exact ⟨rfl, Twins.after hxy.runner hm⟩
  | @error s _ _ hm => cases s <;> exact ⟨rfl, Twins.after hxy.runner hm⟩

theorem evaluate_twins (hxy : Twins σ (r, w) (r', w')) (e : Expr) :
    (r'.evaluate w' e).1 = (r.evaluate w e).1.map σ.value ∧
      Twins σ (r.evaluate w e).2 (r'.evaluate w' e).2 := by
  obtain ⟨hform, hheap⟩ := Image.load e hxy.heap
  have heval := (Interp.renamed_ofDepth σ Eval.depthLimit).eval (w.heap.load e).1 r.root
  rw [← hform, ← hxy.runner.root] at heval
  have hloaded : Twins σ (r, { w with heap := (w.heap.load e).2 })
      (r', { w' with heap := (w'.heap.load e).2 }) := ⟨hxy.runner, hheap⟩
  exact run_twins hloaded heval

theorem runForms_twins {r r' : Runner} {w w' : World} (hxy : Twins σ (r, w) (r', w')) (v : Value)
    (last : Option Location) (cur : Cursor) :
    (r'.runForms w' (σ.value v) last cur).1 = (r.runForms w v last cur).1.map σ.value ∧
      Twins σ (r.runForms w v last cur).2 (r'.runForms w' (σ.value v) last cur).2 := by
  have hreg := hxy.runner.registry
  cases hf : (read r.registry cur).found with
  | nothing =>
    rw [runForms_of_nothing hf, runForms_of_nothing (by rw [hreg, hf])]
    exact ⟨rfl, hxy.runner, hxy.heap⟩
  | failure f place =>
    rw [runForms_of_failure hf, runForms_of_failure (by rw [hreg, hf])]
    exact ⟨rfl, hxy.runner, hxy.heap⟩
  | form e start =>
    have hlt : (read r.registry cur).rest.after.length < cur.after.length :=
      Reader.after_lt_of_read_form hf
    have hnoted : Twins σ (r, w.noted ((read r.registry cur).dispatched.map .dispatch))
        (r', w'.noted ((read r.registry cur).dispatched.map .dispatch)) := ⟨hxy.runner, hxy.heap⟩
    obtain ⟨hresult, htwins⟩ := evaluate_twins hnoted e
    rw [runForms_of_form hf, runForms_of_form (by rw [hreg, hf]), hreg]
    generalize r.evaluate (w.noted ((read r.registry cur).dispatched.map .dispatch)) e = x,
      r'.evaluate (w'.noted ((read r.registry cur).dispatched.map .dispatch)) e = y
      at hresult htwins
    obtain ⟨result, s, w₁⟩ := x
    obtain ⟨_, s', w₁'⟩ := y
    obtain rfl : _ = result.map σ.value := hresult
    cases result with
    | error f => exact ⟨rfl, htwins⟩
    | ok u => exact runForms_twins htwins u (some start) (read r.registry cur).rest
termination_by cur.after.length

/-- Two worlds give the forms of the prelude, or no forms, for the same reason. -/
structure PreludeTwins (σ : Renaming) (w w' : World) : Prop where
  forms : (preludeForms w').1 = (preludeForms w).1.map (List.map σ.value)
  heap : Image σ (preludeForms w).2.heap (preludeForms w').2.heap

theorem prepare_twins (hr : r.Renamed σ r') (hready : r.ready = false)
    (huses : r.usesPrelude = true) (hw : PreludeTwins σ w w') :
    (r'.prepare w').1 = (r.prepare w).1 ∧ Twins σ (r.prepare w).2 (r'.prepare w').2 := by
  have hforms := hw.forms
  have hheap := hw.heap
  unfold prepare
  rw [hr.ready, hr.usesPrelude, hready, huses, hr.root]
  generalize preludeForms w = x, preludeForms w' = y at hforms hheap
  obtain ⟨forms, w₁⟩ := x
  obtain ⟨_, w₁'⟩ := y
  obtain rfl : _ = forms.map (List.map σ.value) := hforms
  cases forms with
  | error f => exact ⟨rfl, hr, hheap⟩
  | ok forms =>
    have hbody := (Eval.parametric_renamed σ).body (Interp.renamed_ofDepth σ Eval.depthLimit) r.root
      forms
    have hfound : Twins σ (r, w₁) (r', w₁') := ⟨hr, hheap⟩
    obtain ⟨hresult, htwins⟩ := run_twins hfound hbody
    simp only [Bool.not_true, Bool.or_self, Bool.false_eq_true, if_false, Except.map]
    generalize r.run w₁ _ = x, r'.run w₁' _ = y at hresult htwins ⊢
    obtain ⟨result, s, w₂⟩ := x
    obtain ⟨_, s', w₂'⟩ := y
    obtain rfl : _ = result.map σ.value := hresult
    cases result with
    | error f => exact ⟨rfl, htwins⟩
    | ok v => exact ⟨rfl, { htwins.runner with ready := rfl }, htwins.heap⟩

theorem attempt_twins (hr : r.Renamed σ r') (hready : r.ready = false)
    (huses : r.usesPrelude = true) (hw : PreludeTwins σ w w') (source : String) :
    (r'.attempt w' source).1 = (r.attempt w source).1.map σ.value ∧
      Twins σ (r.attempt w source).2 (r'.attempt w' source).2 := by
  have hnew : Renamed σ { r with calls := [], effects := [] } { r' with calls := [], effects := [] } :=
    { hr with calls := rfl, effects := rfl }
  obtain ⟨hresult, htwins⟩ := prepare_twins hnew hready huses hw
  unfold attempt
  generalize prepare _ w = x, prepare _ w' = y at hresult htwins ⊢
  obtain ⟨_, s, w₁⟩ := x
  obtain ⟨result, s', w₁'⟩ := y
  obtain rfl : result = _ := hresult
  cases result with
  | error f => exact ⟨rfl, htwins⟩
  | ok _ => exact runForms_twins htwins .nil none (.ofText source)

/-- Two runs of a script are the same but for the references of objects: they have the same status,
the renamed value, the same effects and the same message and place of a failure. The objects of the
first run are those of the second one under other references. -/
def SameRun (x y : Except PrintFault Outcome × Runner × World) : Prop :=
  ∃ σ : Renaming, y.1 = x.1.map σ.outcome ∧ y.2.1.effects = x.2.1.effects ∧
    Image σ x.2.2.heap y.2.2.heap

theorem handle_twins (hr : r.Renamed σ r') (hready : r.ready = false)
    (huses : r.usesPrelude = true) (hw : PreludeTwins σ w w') (source : String) :
    SameRun (r.handle w source) (r'.handle w' source) := by
  obtain ⟨hresult, htwins⟩ := attempt_twins hr hready huses hw source
  refine ⟨σ, ?_⟩
  unfold handle
  generalize r.attempt w source = x, r'.attempt w' source = y at hresult htwins ⊢
  obtain ⟨result, s, w₁⟩ := x
  obtain ⟨_, s', w₁'⟩ := y
  obtain rfl : _ = result.map σ.value := hresult
  rcases result with ⟨f, form⟩ | v
  · have hmessage := Report.message_renamed htwins.machine source form f
    simp only [Except.map, hmessage]
    cases Report.message (s.machine w₁) source form f with
    | error e => exact ⟨rfl, htwins.runner.effects, htwins.heap⟩
    | ok message => exact ⟨rfl, congrArg (_ :: ·) htwins.runner.effects, htwins.heap⟩
  · exact ⟨rfl, htwins.runner.effects, htwins.heap⟩

end Runner

end Sigil
