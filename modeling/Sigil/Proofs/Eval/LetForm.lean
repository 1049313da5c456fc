import Sigil.Proofs.Eval.Depth
import Sigil.Proofs.Eval.Runs

/-!
# `let` forms

A `let` with bindings that are well formed evaluates the forms of the bindings, one after the other, and
then its body in a new scope in which the names are bound (`Interp.eval_let`).
-/

namespace Sigil

open Eval

/-- One binding of a `let`, the name that it binds, and the argument for it: the form that stands in it, or
`nil` where there is none. -/
inductive Heap.Binds (h : Heap) : Value → Str × Value → Prop
  | bare {x n : Str} (nil : n.text = "nil") : Binds h (.sym x) (x, .sym n)
  | alone {v : Value} {a : Nat} {x n : Str} (sequence : v.sequence? = some a)
      (items : h.items a = [.sym x]) (nil : n.text = "nil") : Binds h v (x, .sym n)
  | form {v e : Value} {a : Nat} {x : Str} (sequence : v.sequence? = some a)
      (items : h.items a = [.sym x, e]) : Binds h v (x, e)

namespace Interp

variable {n scope ref : Nat} {m : Machine} {bs : List (Str × Value)} {body : List Value}

theorem binding_of_alone {v : Value} {a : Nat} {x : Str} (ha : v.sequence? = some a)
    (hitems : m.heap.items a = [.sym x]) : Form.binding v m = .ok (x, .nil) m := by
  have hheap : heap m = .ok m.heap m := rfl
  cases v <;> cases ha
  all_goals
    rw [Form.binding]
    refine (bind_of_ok hheap).trans ?_
    rw [hitems]
    rfl

theorem binding_of_form {v e : Value} {a : Nat} {x : Str} (ha : v.sequence? = some a)
    (hitems : m.heap.items a = [.sym x, e]) : Form.binding v m = .ok (x, e) m := by
  have hheap : heap m = .ok m.heap m := rfl
  cases v <;> cases ha
  all_goals
    rw [Form.binding]
    refine (bind_of_ok hheap).trans ?_
    rw [hitems]
    rfl

/-- `nil` is evaluated as the symbol that stands for it. -/
theorem eval_nil {s : Str} (hs : s.text = "nil") (depth scope : Nat) :
    (ofDepth depth).eval .nil scope = (ofDepth depth).eval (.sym s) scope := by
  cases depth with
  | zero => rfl
  | succ depth =>
    show _ = Form.lookup s.text scope
    rw [hs]
    rfl

/-- A binding is read as its name and a form that is evaluated as the argument is. -/
theorem exists_binding {v : Value} {b : Str × Value} (hb : m.heap.Binds v b) :
    ∃ e, Form.binding v m = .ok (b.1, e) m ∧
      ∀ depth scope, (ofDepth depth).eval e scope = (ofDepth depth).eval b.2 scope := by
  cases hb with
  | bare hn => exact ⟨.nil, rfl, eval_nil hn⟩
  | alone ha hitems hn => exact ⟨.nil, binding_of_alone ha hitems, eval_nil hn⟩
  | form ha hitems => exact ⟨_, binding_of_form ha hitems, fun _ _ => rfl⟩

/-- Forms that are evaluated alike, under the same names. -/
def Alike (es bs : List (Str × Value)) : Prop :=
  List.Forall₂ (fun e b => e.1 = b.1 ∧
    ∀ depth scope, (ofDepth depth).eval e.2 scope = (ofDepth depth).eval b.2 scope) es bs

theorem exists_mapM_binding {vs : List Value} (hbs : List.Forall₂ m.heap.Binds vs bs) :
    ∃ es, vs.mapM Form.binding m = .ok es m ∧ Alike es bs := by
  induction hbs with
  | nil => exact ⟨[], rfl, .nil⟩
  | @cons v b vs bs hb _ ih =>
    obtain ⟨e, he, heval⟩ := exists_binding hb
    obtain ⟨es, hes, halike⟩ := ih
    refine ⟨(b.1, e) :: es, ?_, .cons ⟨rfl, heval⟩ halike⟩
    rw [List.mapM_cons, bind_of_ok he, bind_of_ok hes]
    rfl

theorem bindingValues_eq {es bs : List (Str × Value)} (hes : Alike es bs) (depth scope : Nat) :
    Form.bindingValues (ofDepth depth) scope es = (do
      return (bs.map (·.1)).zip (← (ofDepth depth).values scope (bs.map (·.2)))) := by
  induction hes with
  | nil => rfl
  | @cons e b es bs he _ ih =>
    obtain ⟨x, form⟩ := e
    obtain ⟨rfl, heval⟩ := he
    rw [Form.bindingValues, ih, heval]
    simp only [List.map_cons, values, bind_assoc, pure_bind]
    rfl

def entering (scope : Nat) (bs : List (Str × Value)) : Eval Nat := do
  let s ← onHeap (·.newScope (some scope))
  Form.defineAll s bs
  return s

/-- A `let` with bindings that were read: the forms are evaluated with one depth and the body with
another. -/
def letRun (depth inner scope ref : Nat) (bs : List (Str × Value)) : Eval Value := do
  let vs ← (ofDepth depth).values scope (bs.map (·.2))
  let s ← entering scope ((bs.map (·.1)).zip vs)
  (ofDepth inner).body s ((← Form.parts ref).drop 2)

theorem eval_let {s : Str} {v : Value} {b : Nat} (hitems : m.heap.items ref = .sym s :: v :: body)
    (hs : s.text = "let") (hv : v.sequence? = some b)
    (hbs : List.Forall₂ m.heap.Binds (m.heap.items b) bs) (depth : Nat) :
    (ofDepth (depth + 1)).eval (.list ref) scope m = letRun depth depth scope ref bs m := by
  have hname : SpecialForm.ofName? s.text = some .letAll := by
    rw [hs]
    decide
  obtain ⟨es, hes, halike⟩ := exists_mapM_binding hbs
  have hcheck : Form.checkParts ref 1 none m = .ok () m := by
    rw [Form.checkParts, bind_of_ok (parts_eq ref m), hitems]
    rfl
  have hpart : Form.part ref 1 m = .ok v m := by
    rw [Form.part, bind_of_ok (parts_eq ref m), hitems]
    rfl
  have hbindings : Form.bindings ref m = .ok es m := by
    rw [Form.bindings, bind_of_ok hcheck, bind_of_ok hpart, hv]
    exact hes
  rw [eval_list hitems, evalList_special _ hname]
  show (do
    let bound ← Form.bindingValues (ofDepth depth) scope (← Form.bindings ref)
    let s ← onHeap (·.newScope (some scope))
    Form.defineAll s bound
    (ofDepth depth).body s ((← Form.parts ref).drop 2)) m = _
  rw [bind_of_ok hbindings, bindingValues_eq halike]
  simp only [letRun, entering, bind_assoc, pure_bind]

end Interp

end Sigil
