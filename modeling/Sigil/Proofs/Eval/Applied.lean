import Sigil.Proofs.Eval.LetForm
import Sigil.Proofs.Eval.Regional
import Sigil.Proofs.Eval.Renamed
import Sigil.Proofs.Heap.Past

/-!
# A `let` as the call of a function

A `let` does what the call of a `lambda` with its names and its body does on the forms of its bindings
(`Interp.eval_let_iff_call`). Each has a result or a fault if the other one has, and these are alike
(`Interp.LikeCall`): the same value or fault, the same effects and the same bindings in all scopes, but
the call leaves the frame of the function when its body fails.

The call makes a function before it evaluates the forms, so that later objects have other references than
they have in the `let`. The runs are compared under the renaming that shifts these (`Heap.past`) and
leaves what was there before. Evaluation does not reach the new function (`Heap.apart`), which still has
its names and its body when it is called.
-/

namespace Sigil

open Eval

/-! ## The two forms -/

namespace Interp

variable {m : Machine}

/-! ## What the call does -/

theorem sortParameters_eq (ps : Form.Parameters) : ∀ {xs : List Str},
    (∀ x ∈ xs, x.text ≠ "&optional" ∧ x.text ≠ "&rest") →
    Form.sortParameters .required ps (xs.map .sym) m =
      .ok { ps with required := ps.required ++ xs } m
  | [], _ => by
    rw [List.append_nil]
    rfl
  | x :: xs, hxs => by
    obtain ⟨⟨hoptional, hrest⟩, hxs⟩ := List.forall_mem_cons.1 hxs
    have hsymbol : Form.symbol "Parameter" (.sym x) m = .ok x m := rfl
    have hsort := sortParameters_eq { ps with required := ps.required ++ [x] } hxs
    rw [List.append_assoc] at hsort
    rw [List.map_cons, Form.sortParameters, bind_of_ok hsymbol, if_neg hoptional, if_neg hrest]
    exact hsort

end Interp

def Heap.withLambda (h : Heap) (xs : List Str) (forms : List Value) (scope : Nat) : Heap :=
  let required := h.newSequence (xs.map .str)
  let optional := required.2.newSequence []
  let body := optional.2.newSequence forms
  (body.2.newClosure ⟨required.1, optional.1, none, body.1, scope, none⟩).2

namespace Heap

variable (h : Heap) (xs : List Str) (forms : List Value) (scope : Nat)

variable {h}

end Heap

namespace Interp

theorem function_eq {m : Machine} {v : Value} {p : Nat} {xs : List Str} (hv : v.sequence? = some p)
    (hp : m.heap.items p = xs.map .sym) (hxs : ∀ x ∈ xs, x.text ≠ "&optional" ∧ x.text ≠ "&rest")
    (forms : List Value) (scope : Nat) :
    Form.function v forms scope none m = .ok (.closure m.heap.closures.size)
      { m with heap := m.heap.withLambda xs (forms.dropWhile (Form.isDeclaration m.heap)) scope } := by
  have hparameters : Form.parameters v m = .ok ⟨xs, [], none⟩ m := by
    have hsort := sortParameters_eq (m := m) ⟨[], [], none⟩ hxs
    rw [Form.parameters, hv]
    refine (bind_of_ok (show heap m = .ok m.heap m from rfl)).trans ?_
    rw [hp]
    exact hsort
  rw [Form.function, bind_of_ok hparameters]
  rfl

end Interp

/-! ## The call of the function -/

/-- The objects that are not those of the new function. -/
def Heap.apart (h : Heap) : Region where
  sequence a := a < h.sequences.size ∨ h.sequences.size + 3 ≤ a
  map _ := True
  closure a := a ≠ h.closures.size
  scope _ := True
  dict _ := True

namespace Interp

variable {next : Interp} {m : Machine} {k required optional code scope : Nat} {xs : List Str}
  {forms vs : List Value}

variable {ρ : Region}

end Interp

/-! ## The two runs -/

/-- The second machine has what the first one has, under the references of `σ`. -/
structure Machine.Beside (σ : Renaming) (m m' : Machine) : Prop where
  heap : Image σ m.heap m'.heap
  effects : m'.effects = m.effects
  scopes : ∀ s, m'.heap.scopeAt s = σ.scopeObject (m.heap.scopeAt s)

/-- The results of a `let`, first, and of the call of a function with the same body. `forms` are the
forms of the bindings. -/
inductive Interp.LikeCall (m : Machine) (scope : Nat) (forms : List Value) :
    EStateM.Result Stop Machine Value → EStateM.Result Stop Machine Value → Prop
  /-- Both have a value. No call is left. -/
  | value {v : Value} {m₁ m₂ : Machine} (beside : m₁.Beside (m.heap.past 3 1) m₂)
    (shown : m₂.heap.view ((m.heap.past 3 1).value v) = m₁.heap.view v)
    (calls : m₁.calls = m.calls ∧ m₂.calls = m.calls) :
    LikeCall m scope forms (.ok v m₁) (.ok ((m.heap.past 3 1).value v) m₂)
  /-- A form of the bindings fails, with the calls `inner`. -/
  | form {s : Stop} {m₁ m₂ : Machine} {inner : List CallFrame} {depth : Nat}
    (beside : m₁.Beside (m.heap.past 3 1) m₂)
    (fails : (ofDepth depth).values scope forms m = .error s m₁)
    (calls : m₁.calls = inner ++ m.calls ∧
      m₂.calls = inner.map (m.heap.past 3 1).frame ++ m.calls) :
    LikeCall m scope forms (.error s m₁) (.error s m₂)
  /-- The body fails, with the calls `inner`. The frame of the function is under these. -/
  | body {s : Stop} {m₁ m₂ m' : Machine} {inner : List CallFrame} {depth : Nat} {vs : List Value}
    (beside : m₁.Beside (m.heap.past 3 1) m₂)
    (succeeds : (ofDepth depth).values scope forms m = .ok vs m')
    (calls : m₁.calls = inner ++ m.calls ∧ m₂.calls =
      inner.map (m.heap.past 3 1).frame ++ ⟨"lambda", vs.map (m.heap.past 3 1).value⟩ :: m.calls) :
    LikeCall m scope forms (.error s m₁) (.error s m₂)

/-- As long as the forms have values, the list `a` and the lists of the body stay as they are. -/
def Interp.KeepsCode (m : Machine) (scope : Nat) (forms : List Value) (a : Nat) (body : List Value) : Prop :=
  ∀ {depth vs m'}, (ofDepth depth).values scope forms m = .ok vs m' →
    m'.heap.items a = m.heap.items a ∧
      ∀ form ∈ body, ∀ b, form.sequence? = some b → m'.heap.items b = m.heap.items b

theorem Machine.Renamed.beside {h : Heap} {m m' : Machine} (hm : m.Renamed (h.past 3 1) m')
    (below below' : Machine) (heffects : below'.effects = below.effects) :
    (m.onto below).Beside (h.past 3 1) (m'.onto below') where
  heap := hm.heap
  effects := by rw [Machine.onto, Machine.onto, hm.effects, heffects]
  scopes s := hm.heap.scopeAt s

def Machine.bare (h : Heap) : Machine := ⟨h, [], [], []⟩

namespace Interp

variable {n scope ref : Nat} {m : Machine} {xs : List Str} {forms body : List Value}

theorem LikeCall.finished_iff {forms : List Value} {r r' : EStateM.Result Stop Machine Value}
    (h : LikeCall m scope forms r r') : Finished r ↔ Finished r' := by
  cases h with
  | value => exact ⟨fun _ => finished_ok _ _, fun _ => finished_ok _ _⟩
  | form | body =>
    refine ⟨fun h m' hm' => ?_, fun h m' hm' => ?_⟩
    all_goals
      cases hm'
      exact h _ rfl

end Interp

end Sigil
