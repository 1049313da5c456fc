import Sigil.Proofs.Eval.Makes
import Sigil.Proofs.Eval.Rules
import Sigil.Proofs.Heap.Closed

/-!
# Runs of evaluations

What the evaluation of a form comes to on one machine, from what its parts come to: symbols, lists,
quotations and calls of builtins by their names. Forms that are evaluated one after the other come to
a list of values or to the first stop (`Interp.InTurn`).
-/

namespace Sigil

open Eval

namespace Eval

variable {α β : Type} {x : Eval α} {f : α → Eval β} {m m₁ : Machine}

theorem bind_of_ok {a : α} (hx : x m = .ok a m₁) : (x >>= f) m = f a m₁ := by
  show EStateM.bind x f m = f a m₁
  rw [EStateM.bind, hx]

theorem bind_of_error {s : Stop} (hx : x m = .error s m₁) : (x >>= f) m = .error s m₁ := by
  show EStateM.bind x f m = .error s m₁
  rw [EStateM.bind, hx]

end Eval

namespace Interp

/-! ## Forms in turn -/

/-- The forms are evaluated one after the other, each once, up to the first that stops. -/
inductive InTurn (next : Interp) (scope : Nat) :
    List Value → Machine → EStateM.Result Stop Machine (List Value) → Prop
  | nil (m : Machine) : InTurn next scope [] m (.ok [] m)
  | stop {form : Value} {forms : List Value} {m m' : Machine} {s : Stop}
      (head : next.eval form scope m = .error s m') : InTurn next scope (form :: forms) m (.error s m')
  | later {form v : Value} {forms : List Value} {m m₁ m' : Machine} {s : Stop}
      (head : next.eval form scope m = .ok v m₁) (rest : InTurn next scope forms m₁ (.error s m')) :
      InTurn next scope (form :: forms) m (.error s m')
  | cons {form v : Value} {forms vs : List Value} {m m₁ m' : Machine}
      (head : next.eval form scope m = .ok v m₁) (rest : InTurn next scope forms m₁ (.ok vs m')) :
      InTurn next scope (form :: forms) m (.ok (v :: vs) m')

variable {next : Interp} {scope : Nat}

theorem inTurn_values (next : Interp) (scope : Nat) : ∀ (forms : List Value) (m : Machine),
    InTurn next scope forms m (next.values scope forms m)
  | [], m => .nil m
  | form :: forms, m => by
    have hrest := inTurn_values next scope forms
    rw [values]
    cases hhead : next.eval form scope m with
    | error s m₁ =>
      rw [bind_of_error hhead]
      exact .stop hhead
    | ok v m₁ =>
      specialize hrest m₁
      rw [bind_of_ok hhead]
      cases htail : next.values scope forms m₁ with
      | error s m₂ =>
        rw [htail] at hrest
        rw [bind_of_error htail]
        exact .later hhead hrest
      | ok vs m₂ =>
        rw [htail] at hrest
        rw [bind_of_ok htail]
        exact .cons hhead hrest

theorem InTurn.length_eq {forms : List Value} {m : Machine}
    {r : EStateM.Result Stop Machine (List Value)} (h : InTurn next scope forms m r) :
    ∀ {vs m'}, r = .ok vs m' → vs.length = forms.length := by
  induction h with
  | nil =>
    rintro _ _ ⟨⟩
    rfl
  | stop | later => exact fun h => nomatch h
  | cons _ _ ih =>
    rintro _ _ ⟨⟩
    rw [List.length_cons, List.length_cons, ih rfl]

/-! ## Calls of builtins by their names -/

variable {ref n : Nat} {s : Str} {forms args : List Value} {b : Builtin} {m m' : Machine}

theorem parts_eq (ref : Nat) (m : Machine) : Form.parts ref m = .ok (m.heap.items ref) m := rfl

theorem eval_list {head : Value} (hitems : m.heap.items ref = head :: forms) :
    (ofDepth (n + 1)).eval (.list ref) scope m = evalList (ofDepth n) ref scope head m := by
  show evalForm (ofDepth n) (.list ref) scope m = _
  refine (bind_of_ok (parts_eq ref m)).trans ?_
  rw [hitems]
  rfl

theorem evalList_call (next : Interp) (hs : SpecialForm.ofName? s.text = none) :
    evalList next ref scope (.sym s) = (do
      let f ← next.eval (.sym s) scope
      let args ← next.values scope ((← Form.parts ref).drop 1)
      next.call f args (some s.text)) := by
  simp only [evalList, hs]

theorem evalList_special (next : Interp) {form : SpecialForm}
    (hs : SpecialForm.ofName? s.text = some form) :
    evalList next ref scope (.sym s) = Form.special next form ref scope := by
  simp only [evalList, hs]

theorem eval_sym {v : Value} (hnil : s.text ≠ "nil") (ht : s.text ≠ "t")
    (hv : m.heap.lookup? scope s.text = some v) :
    (ofDepth (n + 1)).eval (.sym s) scope m = .ok v m := by
  show Form.lookup s.text scope m = _
  rw [Form.lookup, if_neg hnil, if_neg ht]
  refine (bind_of_ok (show heap m = .ok m.heap m from rfl)).trans ?_
  rw [hv]
  rfl

/-- The call of a builtin by its name: the builtin is looked up and the forms are read before any of
them is evaluated. -/
theorem eval_named (hitems : m.heap.items ref = .sym s :: forms) (hs : s.text = b.name)
    (hb : m.heap.lookup? scope b.name = some (.builtin b)) :
    (ofDepth (n + 2)).eval (.list ref) scope m =
      ((ofDepth (n + 1)).values scope forms >>= fun args =>
        (ofDepth (n + 1)).call (.builtin b) args (some b.name)) m := by
  obtain ⟨hnil, ht⟩ := name_builtin_ne b
  have hhead : (ofDepth (n + 1)).eval (.sym s) scope m = .ok (.builtin b) m :=
    eval_sym (hs ▸ hnil) (hs ▸ ht) (hs ▸ hb)
  rw [eval_list hitems, evalList_call _ (hs ▸ ofName?_builtin b), bind_of_ok hhead,
    bind_of_ok (parts_eq ref m), hitems, hs]
  rfl

/-- One level does not reach a call. -/
theorem eval_named_exhausted (hitems : m.heap.items ref = .sym s :: forms) (hs : s.text = b.name) :
    ∀ {depth : Nat}, depth < 2 → (ofDepth depth).eval (.list ref) scope m = .error .exhausted m
  | 0, _ => rfl
  | 1, _ => by
    rw [eval_list hitems, evalList_call _ (hs ▸ ofName?_builtin b)]
    rfl

/-- The machine on which a builtin runs that was called by its name. -/
def called (b : Builtin) (args : List Value) (m : Machine) : Machine :=
  { m with calls := ⟨b.name, args⟩ :: m.calls, notes := .call b.name args.length :: m.notes }

theorem nameOr_builtin (b : Builtin) (other : String) : nameOr (some b.name) other = b.name := by
  cases b <;> rfl

theorem call_builtin (hcount : b.signature.complaint? ("StdLib." ++ b.callName) args.length = none) :
    (ofDepth (n + 1)).call (.builtin b) args (some b.name) m =
      inFrame ⟨b.name, args⟩ (Library.run (ofDepth n) b args)
        { m with notes := .call b.name args.length :: m.notes } := by
  have happly : applyBuiltin (ofDepth n) b args = Library.run (ofDepth n) b args := by
    rw [applyBuiltin, hcount]
  show (do
    note (.call (nameOr (some b.name) (Value.builtin b).typeName) args.length)
    inFrame ⟨nameOr (some b.name) b.callName, args⟩ (applyBuiltin (ofDepth n) b args)) m = _
  rw [happly, nameOr_builtin, nameOr_builtin]
  rfl

theorem call_builtin_of_ok {v : Value} {k : Machine}
    (hcount : b.signature.complaint? ("StdLib." ++ b.callName) args.length = none)
    (hrun : Library.run (ofDepth n) b args (called b args m) = .ok v k) :
    (ofDepth (n + 1)).call (.builtin b) args (some b.name) m =
      .ok v { k with calls := k.calls.tail } := by
  rw [called] at hrun
  rw [call_builtin hcount, Eval.inFrame_eq, hrun]

theorem call_builtin_of_error {s : Stop}
    (hcount : b.signature.complaint? ("StdLib." ++ b.callName) args.length = none)
    (hrun : Library.run (ofDepth n) b args (called b args m) = .error s m') :
    (ofDepth (n + 1)).call (.builtin b) args (some b.name) m = .error s m' := by
  rw [called] at hrun
  rw [call_builtin hcount, Eval.inFrame_eq, hrun]

theorem values_nil (m : Machine) : next.values scope [] m = .ok [] m := rfl

theorem values_cons_of_ok {form v : Value} {vs : List Value} {m₁ m₂ : Machine}
    (hhead : next.eval form scope m = .ok v m₁) (hrest : next.values scope forms m₁ = .ok vs m₂) :
    next.values scope (form :: forms) m = .ok (v :: vs) m₂ := by
  rw [values, bind_of_ok hhead, bind_of_ok hrest]
  rfl

theorem values_cons_of_head {form : Value} {s : Stop} {m₁ : Machine}
    (hhead : next.eval form scope m = .error s m₁) :
    next.values scope (form :: forms) m = .error s m₁ := by
  rw [values, bind_of_error hhead]

theorem values_cons_of_rest {form v : Value} {s : Stop} {m₁ m₂ : Machine}
    (hhead : next.eval form scope m = .ok v m₁) (hrest : next.values scope forms m₁ = .error s m₂) :
    next.values scope (form :: forms) m = .error s m₂ := by
  rw [values, bind_of_ok hhead, bind_of_error hrest]

theorem eval_quote {v : Value} (hitems : m.heap.items ref = [.sym s, v]) (hs : s.text = "quote") :
    (ofDepth (n + 1)).eval (.list ref) scope m = .ok v m := by
  have hcheck : Form.checkParts ref 1 (some 1) m = .ok () m := by
    rw [Form.checkParts, bind_of_ok (parts_eq ref m), hitems]
    rfl
  have hname : SpecialForm.ofName? s.text = some .quote := by
    rw [hs]
    decide
  rw [eval_list hitems, evalList_special _ hname]
  refine (bind_of_ok hcheck).trans ((bind_of_ok (parts_eq ref m)).trans ?_)
  rw [hitems]
  rfl

/-! ## Machines with builtins -/

/-- A scope in which builtins are bound under their names. -/
def libraryScope (bs : List Builtin) : Heap :=
  bs.foldl (fun h b => h.define 0 (.fixed b.name) (.builtin b)) (Heap.empty.newScope none).2

def loaded (h : Heap) (e : Expr) : Machine := ⟨(h.load e).2, [], [], []⟩

theorem has_loaded (h : Heap) (e : Expr) : (loaded h e).heap.Has ∅ (h.load e).1 (.ofExpr e) :=
  (Heap.load_has e h).2

theorem closed_libraryScope (bs : List Builtin) : (libraryScope bs).Closed := by
  have hscope : (Heap.empty.newScope none).2.Closed :=
    Heap.closed_empty.newScope fun _ h => nomatch h
  rw [libraryScope]
  generalize (Heap.empty.newScope none).2 = h at hscope
  induction bs generalizing h with
  | nil => exact hscope
  | cons b bs ih => exact ih _ (hscope.define 0 _ (v := .builtin b) trivial)

theorem closed_loaded {h : Heap} (hc : h.Closed) (e : Expr) : (loaded h e).heap.Closed :=
  (Heap.Closed.load e hc).1

end Interp

end Sigil
