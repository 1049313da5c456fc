import Sigil.Proofs.Eval.Fundamental
import Sigil.Proofs.Heap.Compared

/-!
# Evaluation in images of heaps

An evaluation does not see the references of objects: on the image of a heap it gives the renamed
result or the same fault, has the same effects, and leaves the image of what it leaves on the heap
(`Interp.renamed_ofDepth`).
-/

namespace Sigil

open Eval

def Renaming.frame (σ : Renaming) (f : CallFrame) : CallFrame := ⟨f.name, f.args.map σ.value⟩

/-- The heap has an image, and the calls and the effects are the same but for renaming. -/
structure Machine.Renamed (σ : Renaming) (m m' : Machine) : Prop where
  heap : Image σ m.heap m'.heap
  calls : m'.calls = m.calls.map σ.frame
  effects : m'.effects = m.effects

namespace Eval

variable {α β : Type} {σ : Renaming} {φ : α → α} {ψ : β → β} {x y : Eval α} {f g : α → Eval β}

/-- The second result is the first one, renamed. -/
inductive ResultRenamed (σ : Renaming) (φ : α → α) :
    EStateM.Result Stop Machine α → EStateM.Result Stop Machine α → Prop
  | ok {a : α} {m m' : Machine} (hm : m.Renamed σ m') : ResultRenamed σ φ (.ok a m) (.ok (φ a) m')
  | error {s : Stop} {m m' : Machine} (hm : m.Renamed σ m') :
    ResultRenamed σ φ (.error s m) (.error s m')

/-- On renamed machines the two computations have renamed results. -/
def Renamed (σ : Renaming) {α : Type} (φ : α → α) (x y : Eval α) : Prop :=
  ∀ m m' : Machine, m.Renamed σ m' → ResultRenamed σ φ (x m) (y m')

theorem Renamed.bind (hx : Renamed σ φ x y) (hf : ∀ a, Renamed σ ψ (f a) (g (φ a))) :
    Renamed σ ψ (x >>= f) (y >>= g) := by
  intro m m' hm
  show ResultRenamed σ ψ (EStateM.bind x f m) (EStateM.bind y g m')
  unfold EStateM.bind
  have hresult := hx m m' hm
  generalize x m = r, y m' = r' at hresult
  cases hresult with
  | ok hm => exact hf _ _ _ hm
  | error hm => exact .error hm

theorem renamed_onHeap {f g : Heap → α × Heap}
    (hfg : ∀ {h h'}, Image σ h h' → (g h').1 = φ (f h).1 ∧ Image σ (f h).2 (g h').2) :
    Renamed σ φ (onHeap f) (onHeap g) := by
  intro m m' hm
  obtain ⟨hresult, himage⟩ := hfg hm.heap
  show ResultRenamed σ φ (.ok (f m.heap).1 { m with heap := (f m.heap).2 })
    (.ok (g m'.heap).1 { m' with heap := (g m'.heap).2 })
  rw [hresult]
  exact .ok { hm with heap := himage }

theorem renamed_modifyHeap {f g : Heap → Heap}
    (hfg : ∀ {h h'}, Image σ h h' → Image σ (f h) (g h')) :
    Renamed σ id (modifyHeap f) (modifyHeap g) :=
  fun _ _ hm => .ok { hm with heap := hfg hm.heap }

theorem renamed_modifyCalls {f g : List CallFrame → List CallFrame}
    (hfg : ∀ cs, g (cs.map σ.frame) = (f cs).map σ.frame) :
    Renamed σ id (modify fun m => { m with calls := f m.calls })
      (modify fun m => { m with calls := g m.calls }) := by
  intro m m' hm
  have hcalls : g m'.calls = (f m.calls).map σ.frame := by rw [hm.calls, hfg]
  exact .ok { hm with calls := hcalls }

theorem Renamed.inFrame {x y : Eval Value} (name : String) (args : List Value)
    (hx : Renamed σ σ.value x y) :
    Renamed σ σ.value (inFrame ⟨name, args⟩ x) (inFrame ⟨name, args.map σ.value⟩ y) := by
  have henter := renamed_modifyCalls (σ := σ) (f := (⟨name, args⟩ :: ·))
    (g := (⟨name, args.map σ.value⟩ :: ·)) fun _ => rfl
  have hleave := renamed_modifyCalls (σ := σ) (f := List.tail) (g := List.tail)
    fun _ => List.map_tail.symm
  exact henter.bind fun _ => hx.bind fun a => hleave.bind fun _ => fun _ _ hm => .ok hm

theorem parametric_renamed (σ : Renaming) :
    Parametric σ (Image σ) (fun _ => True) (Renamed σ) where
  toReads := σ.reads_image
  pure φ a := fun _ _ hm => .ok hm
  throw φ s := fun _ _ hm => .error hm
  bind := Renamed.bind
  readHeap hf := fun m m' hm => hf m.heap m'.heap hm.heap m m' hm
  emit e := fun _ _ hm => .ok { hm with effects := congrArg (e :: ·) hm.effects }
  note n := fun _ _ hm => .ok { hm with }
  inFrame := Renamed.inFrame
  newSequence vs := renamed_onHeap fun hI => ⟨hI.sequences.size_eq.symm, hI.newSequence vs⟩
  newStr s := renamed_onHeap fun hI => ⟨hI.newStr_fst s, hI.nextFresh⟩
  newMap test hint := renamed_onHeap fun hI => ⟨hI.maps.size_eq.symm, hI.newMap ⟨test, hint, []⟩⟩
  newClosure c := renamed_onHeap fun hI => ⟨hI.closures.size_eq.symm, hI.newClosure c⟩
  newPusher a := renamed_onHeap fun hI =>
    ⟨congrArg (Value.pusher _) (hI.fresh 0).symm, hI.nextFresh⟩
  newScope parent hf := by
    have hnew : Renamed σ σ.scope (onHeap (·.newScope (some parent)))
        (onHeap (·.newScope (some (σ.scope parent)))) :=
      renamed_onHeap fun hI => ⟨hI.scopes.size_eq.symm, hI.newScope (some parent)⟩
    exact hnew.bind fun s => hf s trivial
  setItems a vs := renamed_modifyHeap fun hI => hI.setItems a vs
  putKey a k v := fun m m' hm => by
    have hput := hm.heap.mapPut a k v
    rw [Container.putKey_eq, Container.putKey_eq]
    generalize m.heap.mapPut a k v = r, m'.heap.mapPut (σ.map a) (σ.value k) (σ.value v) = r' at hput
    cases hput with
    | none => exact .error hm
    | some himage => exact .ok { hm with heap := himage }
  define s name v _ := renamed_modifyHeap fun hI => hI.define s name v
  defineRoot s name v := renamed_modifyHeap fun hI => hI.defineRoot s name v
  assign s name v := renamed_modifyHeap fun hI => hI.assign s name v

end Eval

/-- Interpreters do not see the references of objects. -/
theorem Interp.renamed_ofDepth (σ : Renaming) : ∀ depth,
    Interp.Related σ (Renamed σ) (ofDepth depth) (ofDepth depth)
  | 0 => ⟨fun _ _ _ _ hm => .error hm, fun _ _ _ _ _ hm => .error hm⟩
  | depth + 1 =>
    ⟨(parametric_renamed σ).evalForm (renamed_ofDepth σ depth), fun f args name =>
      (parametric_renamed σ).callValue (renamed_ofDepth σ depth) f args name fun _ _ => trivial⟩

end Sigil
