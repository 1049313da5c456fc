import Sigil.Proofs.Eval.Bindings

/-!
# Depth

An evaluation that does not run out of depth does the same with more depth
(`Interp.mirrors_deeper`). So a form has one result at most, whatever the depth (`Interp.Ends`).
-/

namespace Sigil

open Eval

namespace Eval

variable {α : Type} {x y : Eval α} {m : Machine}

/-- The computation has a result or a fault: it did not run out of depth. -/
def Finished {α : Type} (r : EStateM.Result Stop Machine α) : Prop := ∀ m, r ≠ .error .exhausted m

theorem finished_ok (a : α) (m : Machine) :
    Finished (.ok a m : EStateM.Result Stop Machine α) := fun _ h => by cases h

theorem mapResult_id (r : EStateM.Result Stop Machine α) : mapResult id r = r := by
  cases r <;> rfl

/-- A computation that finishes with less depth finishes in the same way with more. -/
theorem Mirrors.eq_of_finished (h : Mirrors .exhausted id x y) (hy : Finished (y m)) : x m = y m := by
  rcases h m with ⟨m', hstop⟩ | hsame
  · exact absurd hstop (hy m')
  · rw [hsame, mapResult_id]

end Eval

namespace Interp

/-- More depth does not change what an evaluation does that has enough. -/
theorem mirrors_deeper : ∀ {n k : Nat}, n ≤ k →
    Interp.Related .same (Mirrors .exhausted) (ofDepth k) (ofDepth n)
  | 0, _, _ => ⟨fun _ _ m => .inl ⟨m, rfl⟩, fun _ _ _ m => .inl ⟨m, rfl⟩⟩
  | n + 1, 0, hn => absurd hn (Nat.not_succ_le_zero n)
  | n + 1, k + 1, hn => by
    have u := parametric_mirrors .exhausted
    have hnext := mirrors_deeper (Nat.le_of_succ_le_succ hn)
    exact ⟨u.evalForm hnext, fun f args name => u.callValue hnext f args name fun _ _ => trivial⟩

theorem mirrors_eval {n k : Nat} (hn : n ≤ k) (form : Value) (scope : Nat) :
    Mirrors .exhausted id ((ofDepth k).eval form scope) ((ofDepth n).eval form scope) := by
  have heval := (mirrors_deeper hn).eval form scope
  rwa [Renaming.value_same] at heval

/-- The evaluation of the form has this result or fault, with enough depth. -/
def Ends (form : Value) (scope : Nat) (m : Machine) (r : EStateM.Result Stop Machine Value) : Prop :=
  Finished r ∧ ∃ depth, (ofDepth depth).eval form scope m = r

variable {form : Value} {scope : Nat} {m : Machine} {r r' : EStateM.Result Stop Machine Value}

theorem Ends.eval_of_le {n k : Nat} (hr : Finished r) (hn : (ofDepth n).eval form scope m = r)
    (hle : n ≤ k) : (ofDepth k).eval form scope m = r := by
  rw [← hn] at hr ⊢
  exact (mirrors_eval hle form scope).eq_of_finished hr

/-! ### Integers -/

/-- The result is the integer. -/
def isInt (i : Int) : EStateM.Result Stop Machine Value → Bool
  | .ok (.int k) _ => k == i
  | _ => false

theorem exists_of_isInt {i : Int} (hr : isInt i r = true) : ∃ m', r = .ok (.int i) m' := by
  cases r with
  | error => cases hr
  | ok v m' =>
    cases v with
    | int k =>
      obtain rfl := eq_of_beq hr
      exact ⟨m', rfl⟩
    | _ => cases hr

/-- An evaluation whose result is an integer at some depth has that result. -/
theorem Ends.of_isInt {i : Int} {n : Nat}
    (hr : isInt i ((ofDepth n).eval form scope m) = true) : ∃ m', Ends form scope m (.ok (.int i) m') := by
  obtain ⟨m', hrun⟩ := exists_of_isInt hr
  exact ⟨m', finished_ok _ _, n, hrun⟩

end Interp

end Sigil
