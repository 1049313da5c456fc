import Sigil.Proofs.Eval.Framed
import Sigil.Proofs.Eval.Fundamental

/-!
# The rules of evaluation are framed

Every elementary computation reads the heap only and takes its own calls off when it gives a
result, and so does a sequence of such computations. So every rule of evaluation is framed
(`Eval.parametric_framed`), and the interpreter of every depth is (`Interp.framed_ofDepth`).
-/

namespace Sigil

open Eval

/-- Every rule of evaluation is framed. -/
theorem Eval.parametric_framed :
    Parametric .same (fun h h' => h' = h) (fun _ => True) fun _ x _ => Framed x where
  toReads := Renaming.reads_same
  pure _ := framed_pure
  throw _ := framed_throw
  bind := Framed.bind
  readHeap hf := framed_heap.bind fun h => hf h h rfl
  emit := framed_emit
  note := framed_note
  inFrame _ _ := Framed.inFrame _
  newSequence _ := framed_onHeap _
  newStr _ := framed_onHeap _
  newMap _ _ := framed_onHeap _
  newClosure _ := framed_onHeap _
  newPusher _ := framed_onHeap _
  newScope _ hf := (framed_onHeap _).bind fun s => hf s trivial
  setItems _ _ := framed_modifyHeap _
  putKey a k v := framed_heap.bind fun h => by
    cases h.mapPut a k v with
    | some h' => exact framed_modifyHeap _
    | none => exact framed_raise _
  define _ _ _ _ := framed_modifyHeap _
  defineRoot _ _ _ := framed_modifyHeap _
  assign _ _ _ := framed_modifyHeap _

/-! ## The interpreter -/

structure Interp.Framed (next : Interp) : Prop where
  eval : ∀ form scope, Eval.Framed (next.eval form scope)
  call : ∀ f args name, Eval.Framed (next.call f args name)

namespace Interp

variable {next : Interp}

theorem Framed.related (hn : next.Framed) :
    Related .same (fun _ x _ => Eval.Framed x) next next :=
  ⟨hn.eval, hn.call⟩

theorem Framed.body (hn : next.Framed) (scope : Nat) (forms : List Value) :
    Eval.Framed (next.body scope forms) :=
  parametric_framed.body hn.related scope forms

theorem Framed.values (hn : next.Framed) (scope : Nat) (forms : List Value) :
    Eval.Framed (next.values scope forms) :=
  parametric_framed.values hn.related scope forms

theorem Framed.step (hn : next.Framed) : next.step.Framed where
  eval := parametric_framed.evalForm hn.related
  call f args name := parametric_framed.callValue hn.related f args name fun _ _ => trivial

/-- The interpreter of every depth reads the heap only, keeps what stands on the machine, and
leaves the calls as they were when it gives a result. -/
theorem framed_ofDepth : ∀ n : Nat, (ofDepth n).Framed
  | 0 => ⟨fun _ _ => framed_throw _, fun _ _ _ => framed_throw _⟩
  | n + 1 => (framed_ofDepth n).step

end Interp

end Sigil
