import Sigil.Eval.Machine

/-!
# What an evaluation leaves alone

A computation reads nothing of a machine but its heap. The calls, the effects and the notes that
stand on the machine stay below those that the computation adds, and a computation that gives a
result has taken its own calls off again. `Framed` says both; it holds of the elementary
computations and is kept by sequencing, so it holds of every rule that is built from them.
-/

namespace Sigil

/-- The machine with the calls, effects and notes of another one below its own. -/
def Machine.onto (m below : Machine) : Machine :=
  ⟨m.heap, m.calls ++ below.calls, m.effects ++ below.effects, m.notes ++ below.notes⟩

namespace Eval

variable {α β : Type} {x : Eval α} {f : α → Eval β}

/-- A result with the calls, effects and notes of another machine below its own. -/
def resultOnto (below : Machine) :
    EStateM.Result Stop Machine α → EStateM.Result Stop Machine α
  | .ok a m => .ok a (m.onto below)
  | .error s m => .error s (m.onto below)

/-- The computation keeps what stands on the machine below what it adds, and a result leaves the
calls as they were. -/
structure Framed (x : Eval α) : Prop where
  onto : ∀ m below, x (m.onto below) = resultOnto below (x m)
  calls : ∀ {m a m'}, x m = .ok a m' → m'.calls = m.calls

/-! ## Elementary computations -/

theorem framed_pure (a : α) : Framed (pure a) where
  onto _ _ := rfl
  calls h := by cases h; rfl

theorem framed_throw (s : Stop) : Framed (throw s : Eval α) where
  onto _ _ := rfl
  calls h := nomatch h

theorem framed_raise (e : EvalFault) : Framed (raise e : Eval α) := framed_throw _

theorem framed_heap : Framed heap where
  onto _ _ := rfl
  calls h := by cases h; rfl

theorem framed_onHeap (g : Heap → α × Heap) : Framed (onHeap g) where
  onto _ _ := rfl
  calls h := by cases h; rfl

theorem framed_modifyHeap (g : Heap → Heap) : Framed (modifyHeap g) where
  onto _ _ := rfl
  calls h := by cases h; rfl

theorem framed_emit (e : Effect) : Framed (emit e) where
  onto _ _ := rfl
  calls h := by cases h; rfl

theorem framed_note (n : Note) : Framed (note n) where
  onto _ _ := rfl
  calls h := by cases h; rfl

/-! ## Sequences -/

theorem Framed.bind (hx : Framed x) (hf : ∀ a, Framed (f a)) : Framed (x >>= f) where
  onto m below := by
    show EStateM.bind x f (m.onto below) = resultOnto below (EStateM.bind x f m)
    unfold EStateM.bind
    rw [hx.onto]
    cases x m with
    | ok a m' => exact (hf a).onto m' below
    | error s m' => rfl
  calls {m b m'} h := by
    change EStateM.bind x f m = .ok b m' at h
    unfold EStateM.bind at h
    cases hm : x m with
    | ok a m₁ =>
      rw [hm] at h
      rw [(hf a).calls h, hx.calls hm]
    | error s m₁ =>
      rw [hm] at h
      cases h

theorem inFrame_eq (frame : CallFrame) (x : Eval α) (m : Machine) :
    inFrame frame x m = match x { m with calls := frame :: m.calls } with
      | .ok a m' => .ok a { m' with calls := m'.calls.tail }
      | .error s m' => .error s m' := by
  let leave (a : α) : Eval α := do
    modify fun m => { m with calls := m.calls.tail }
    return a
  have hbody : inFrame frame x m = EStateM.bind x leave { m with calls := frame :: m.calls } := rfl
  rw [hbody, EStateM.bind]
  cases x { m with calls := frame :: m.calls } <;> rfl

/-- The frame of a call stands on the calls while the body runs, and a result takes it off. -/
theorem Framed.inFrame (frame : CallFrame) (hx : Framed x) : Framed (inFrame frame x) where
  onto m below := by
    have hpush : ({ m.onto below with calls := frame :: (m.onto below).calls } : Machine)
        = Machine.onto { m with calls := frame :: m.calls } below := rfl
    rw [inFrame_eq, inFrame_eq, hpush, hx.onto]
    cases hm : x { m with calls := frame :: m.calls } with
    | ok a m' =>
      have hcalls : m'.calls = frame :: m.calls := hx.calls hm
      simp [resultOnto, Machine.onto, hcalls]
    | error s m' => rfl
  calls {m a m'} h := by
    rw [inFrame_eq] at h
    cases hm : x { m with calls := frame :: m.calls } with
    | ok b m₁ =>
      rw [hm] at h
      cases h
      exact congrArg List.tail (hx.calls hm)
    | error s m₁ =>
      rw [hm] at h
      cases h

end Eval

end Sigil
