import Sigil.Proofs.Eval.LetForm
import Sigil.Proofs.Eval.NestLinks

/-!
# `let*` and nested `let` forms

The two forms with the same bindings and the same body, and what each evaluates: a `let*` binds its names
in one new scope (`Interp.eval_letStar`), and nested `let` forms bind each name in a scope of its own
(`Interp.eval_nested`), as long as the evaluation leaves the lists of the forms as they are.
-/

namespace Sigil

open Eval

/-! ## The two forms -/

/-- The lists of the code are the same in both heaps. -/
def Heap.KeepsCode (code : Nat → Prop) (h h' : Heap) : Prop := ∀ a, code a → h'.items a = h.items a

/-- The bindings of a `let` are a single one, and belong to the code. -/
def Heap.BindsOne (h : Heap) (code : Nat → Prop) (v : Value) (b : Str × Value) : Prop :=
  ∃ l w, v.sequence? = some l ∧ code l ∧ h.items l = [w] ∧ h.Binds w b ∧
    ∀ d, w.sequence? = some d → code d

/-- The list `a` is made of nested `let` forms, with one binding each, around a body. -/
inductive Heap.NestedLets (h : Heap) (code : Nat → Prop) :
    Nat → List (Str × Value) → List Value → Prop
  | none {a : Nat} {s : Str} {body : List Value} (own : code a) (items : h.items a = .sym s :: body)
    (name : s.text = "progn") : NestedLets h code a [] body
  | last {a : Nat} {s : Str} {v : Value} {b : Str × Value} {body : List Value} (own : code a)
    (items : h.items a = .sym s :: v :: body) (name : s.text = "let") (binding : h.BindsOne code v b) :
    NestedLets h code a [b] body
  | more {a r : Nat} {s : Str} {v : Value} {b b' : Str × Value} {bs : List (Str × Value)}
    {body : List Value} (own : code a) (items : h.items a = [.sym s, v, .list r])
    (name : s.text = "let") (binding : h.BindsOne code v b) (rest : NestedLets h code r (b' :: bs) body) :
    NestedLets h code a (b :: b' :: bs) body

/-- The list `c` is a `let*` with the bindings and the body. -/
structure Heap.LetStar (h : Heap) (code : Nat → Prop) (c : Nat) (bs : List (Str × Value))
    (body : List Value) : Prop where
  own : code c
  form : ∃ s v l, h.items c = .sym s :: v :: body ∧ s.text = "let*" ∧ v.sequence? = some l ∧
    List.Forall₂ h.Binds (h.items l) bs

namespace Heap

variable {h h' : Heap} {code : Nat → Prop}

theorem Binds.keep {v : Value} {b : Str × Value} (hb : h.Binds v b)
    (hkeep : ∀ d, v.sequence? = some d → h'.items d = h.items d) : h'.Binds v b := by
  cases hb with
  | bare hn => exact .bare hn
  | alone ha hitems hn => exact .alone ha ((hkeep _ ha).trans hitems) hn
  | form ha hitems => exact .form ha ((hkeep _ ha).trans hitems)

theorem BindsOne.keep {v : Value} {b : Str × Value} (hkeep : KeepsCode code h h')
    (hb : h.BindsOne code v b) : h'.BindsOne code v b := by
  obtain ⟨l, w, hl, hown, hitems, hbinds, hcode⟩ := hb
  exact ⟨l, w, hl, hown, (hkeep l hown).trans hitems,
    hbinds.keep fun d hd => hkeep d (hcode d hd), hcode⟩

theorem NestedLets.keep (hkeep : KeepsCode code h h') {a : Nat} {bs : List (Str × Value)}
    {body : List Value} (hn : h.NestedLets code a bs body) : h'.NestedLets code a bs body := by
  induction hn with
  | none hown hitems hname => exact .none hown ((hkeep _ hown).trans hitems) hname
  | last hown hitems hname hb => exact .last hown ((hkeep _ hown).trans hitems) hname (hb.keep hkeep)
  | more hown hitems hname hb _ ih =>
    exact .more hown ((hkeep _ hown).trans hitems) hname (hb.keep hkeep) ih

end Heap

namespace Interp

/-! ## Runs of the two forms -/

variable {code : Nat → Prop} {m : Machine} {scope : Nat} {b : Str × Value}
  {bs : List (Str × Value)} {body : List Value}

/-- The machine after a name was bound in a new scope. -/
def bound (m : Machine) (scope : Nat) (x : Str) (v : Value) : Machine :=
  { m with heap := (m.heap.newScope (some scope)).2.define m.heap.scopes.size x v }

theorem entering_single (x : Str) (v : Value) :
    entering scope [(x, v)] m = .ok m.heap.scopes.size (bound m scope x v) := rfl

/-- The nested forms, all evaluated with one depth. -/
def nestedRun (depth : Nat) (body : List Value) : Nat → List (Str × Value) → Eval Value
  | scope, [] => (ofDepth depth).body scope body
  | scope, b :: bs => do
    let v ← (ofDepth depth).eval b.2 scope
    let s ← entering scope [(b.1, v)]
    nestedRun depth body s bs

def starRun (depth c flat : Nat) (bs : List (Str × Value)) : Eval Value := do
  Form.bindInTurn (ofDepth depth) flat bs
  (ofDepth depth).body flat ((← Form.parts c).drop 2)

/-- As long as the forms of the bindings have values, the code stays as it is. -/
def KeepsAlong (code : Nat → Prop) : Nat → List (Str × Value) → Machine → Prop
  | _, [], _ => True
  | scope, b :: bs, m => ∀ depth v m', (ofDepth depth).eval b.2 scope m = .ok v m' →
      Heap.KeepsCode code m.heap m'.heap ∧
        KeepsAlong code m'.heap.scopes.size bs (bound m' scope b.1 v)

theorem bindInTurn_eq {es : List (Str × Value)} (hes : Alike es bs) (depth scope : Nat) :
    Form.bindInTurn (ofDepth depth) scope es = Form.bindInTurn (ofDepth depth) scope bs := by
  induction hes with
  | nil => rfl
  | @cons e b es bs he _ ih =>
    obtain ⟨x, form⟩ := e
    obtain ⟨rfl, heval⟩ := he
    rw [Form.bindInTurn, Form.bindInTurn, ih, heval]

theorem eval_letStar {c : Nat} (hform : m.heap.LetStar code c bs body) (depth : Nat) :
    (ofDepth (depth + 1)).eval (.list c) scope m = starRun depth c m.heap.scopes.size bs
      { m with heap := (m.heap.newScope (some scope)).2 } := by
  obtain ⟨s, v, l, hitems, hs, hl, hbs⟩ := hform.form
  have hname : SpecialForm.ofName? s.text = some .letStar := by
    rw [hs]
    decide
  obtain ⟨m₀, hm₀⟩ : ∃ m₀ : Machine, { m with heap := (m.heap.newScope (some scope)).2 } = m₀ :=
    ⟨_, rfl⟩
  have hsame : ∀ a, m₀.heap.items a = m.heap.items a := fun a => by rw [← hm₀]; rfl
  have hbs₀ : List.Forall₂ m₀.heap.Binds (m₀.heap.items l) bs := by
    rw [hsame]
    exact hbs.imp fun _ _ hb => hb.keep fun d _ => hsame d
  obtain ⟨es, hes, halike⟩ := exists_mapM_binding hbs₀
  have hbindings : Form.bindings c m₀ = .ok es m₀ := by
    have hcheck : Form.checkParts c 1 none m₀ = .ok () m₀ := by
      rw [Form.checkParts, bind_of_ok (parts_eq c m₀), hsame, hitems]
      rfl
    have hpart : Form.part c 1 m₀ = .ok v m₀ := by
      rw [Form.part, bind_of_ok (parts_eq c m₀), hsame, hitems]
      rfl
    rw [Form.bindings, bind_of_ok hcheck, bind_of_ok hpart, hl]
    exact hes
  rw [eval_list hitems, evalList_special _ hname, hm₀, starRun, ← bindInTurn_eq halike]
  show (do
    let inner ← onHeap (·.newScope (some scope))
    Form.bindInTurn (ofDepth depth) inner (← Form.bindings c)
    (ofDepth depth).body inner ((← Form.parts c).drop 2)) m = _
  have hnew : onHeap (·.newScope (some scope)) m = .ok m.heap.scopes.size m₀ := by
    rw [← hm₀]
    rfl
  refine (bind_of_ok hnew).trans ?_
  rw [bind_of_ok hbindings]

/-! ### Steps of the runs -/

variable {depth c flat : Nat} {v : Value} {m₁ : Machine} {stop : Stop}

theorem nestedRun_of_ok (hrun : (ofDepth depth).eval b.2 scope m = .ok v m₁) :
    nestedRun depth body scope (b :: bs) m =
      nestedRun depth body m₁.heap.scopes.size bs (bound m₁ scope b.1 v) := by
  rw [nestedRun, bind_of_ok hrun, bind_of_ok (entering_single b.1 v)]

theorem nestedRun_of_error (hrun : (ofDepth depth).eval b.2 scope m = .error stop m₁) :
    nestedRun depth body scope (b :: bs) m = .error stop m₁ := by
  rw [nestedRun, bind_of_error hrun]

theorem starRun_nil (depth c flat : Nat) (m : Machine) :
    starRun depth c flat [] m = (ofDepth depth).body flat ((m.heap.items c).drop 2) m := by
  rw [starRun, Form.bindInTurn, pure_bind, bind_of_ok (parts_eq c m)]

theorem starRun_of_ok (hrun : (ofDepth depth).eval b.2 flat m = .ok v m₁) :
    starRun depth c flat (b :: bs) m =
      starRun depth c flat bs { m₁ with heap := m₁.heap.define flat b.1 v } := by
  have hdefine : modifyHeap (·.define flat b.1 v) m₁ =
    .ok () { m₁ with heap := m₁.heap.define flat b.1 v } := rfl
  rw [starRun, Form.bindInTurn]
  simp only [bind_assoc]
  rw [bind_of_ok hrun, bind_of_ok hdefine, starRun]

theorem starRun_of_error (hrun : (ofDepth depth).eval b.2 flat m = .error stop m₁) :
    starRun depth c flat (b :: bs) m = .error stop m₁ := by
  rw [starRun, Form.bindInTurn]
  simp only [bind_assoc]
  rw [bind_of_error hrun]

theorem mirrors_nestedRun {n k : Nat} (hn : n ≤ k) (body : List Value) : ∀ (bs : List (Str × Value))
    (scope : Nat), Mirrors .exhausted id (nestedRun k body scope bs) (nestedRun n body scope bs)
  | [], scope => by
    have hbody := (parametric_mirrors .exhausted).body (mirrors_deeper hn) scope body
    rwa [Renaming.value_same, List.map_id] at hbody
  | b :: bs, scope => (mirrors_eval hn b.2 scope).bind fun _ =>
    (mirrors_self fun _ => (mapResult_id _).symm).bind fun s => mirrors_nestedRun hn body bs s

/-! ### The nested forms -/

theorem eval_zero (form : Value) (scope : Nat) (m : Machine) :
    ¬Finished ((ofDepth 0).eval form scope m) := fun hfinished => hfinished m rfl

/-- A `let` with one binding, evaluated as the first one of nested forms. -/
theorem eval_single {a : Nat} {s : Str} {w : Value} {forms : List Value} (hown : code a)
    (hitems : m.heap.items a = .sym s :: w :: forms) (hname : s.text = "let")
    (hb : m.heap.BindsOne code w b)
    (hkept : ∀ v m₁, (ofDepth depth).eval b.2 scope m = .ok v m₁ → Heap.KeepsCode code m.heap m₁.heap) :
    (ofDepth (depth + 1)).eval (.list a) scope m = nestedRun depth forms scope [b] m := by
  obtain ⟨l, x, hl, -, hx, hbinds, -⟩ := hb
  have hbs : List.Forall₂ m.heap.Binds (m.heap.items l) [b] := by
    rw [hx]
    exact .cons hbinds .nil
  rw [eval_let hitems hname hl hbs, letRun, List.map_singleton, List.map_singleton, values, values]
  simp only [bind_assoc, pure_bind]
  cases hrun : (ofDepth depth).eval b.2 scope m with
  | error stop m₁ => rw [bind_of_error hrun, nestedRun_of_error hrun]
  | ok v m₁ =>
    have hparts : (bound m₁ scope b.1 v).heap.items a = .sym s :: w :: forms :=
      (hkept v m₁ hrun a hown).trans hitems
    rw [bind_of_ok hrun, nestedRun_of_ok hrun]
    refine (bind_of_ok (entering_single b.1 v)).trans ?_
    rw [bind_of_ok (parts_eq a _), hparts]
    rfl

/-- Two or more nested forms, evaluated as the first one around the others. -/
theorem nestedRun_around {a' : Nat} {b' : Str × Value} {k : Nat} (hle : depth ≤ k)
    (hrest : ∀ v m₁, (ofDepth depth).eval b.2 scope m = .ok v m₁ →
      Finished (nestedRun depth body m₁.heap.scopes.size (b' :: bs) (bound m₁ scope b.1 v)) →
      (ofDepth k).eval (.list a') m₁.heap.scopes.size (bound m₁ scope b.1 v) =
        nestedRun depth body m₁.heap.scopes.size (b' :: bs) (bound m₁ scope b.1 v))
    (hfinished : Finished (nestedRun depth body scope (b :: b' :: bs) m)) :
    nestedRun k [.list a'] scope [b] m = nestedRun depth body scope (b :: b' :: bs) m := by
  cases hrun : (ofDepth depth).eval b.2 scope m with
  | error stop m₁ =>
    rw [nestedRun_of_error hrun] at hfinished ⊢
    rw [nestedRun_of_error (Ends.eval_of_le hfinished hrun hle)]
  | ok v m₁ =>
    have hdeep := Ends.eval_of_le (finished_ok v m₁) hrun hle
    rw [nestedRun_of_ok hrun] at hfinished ⊢
    rw [nestedRun_of_ok hdeep]
    exact hrest v m₁ hrun hfinished

/-- The run of two or more nested forms is that of the first one around the others. -/
theorem nestedRun_eq_around {a' : Nat} {b' : Str × Value}
    (hrest : ∀ v m₁, (ofDepth depth).eval b.2 scope m = .ok v m₁ →
      Finished ((ofDepth depth).eval (.list a') m₁.heap.scopes.size (bound m₁ scope b.1 v)) →
      nestedRun depth body m₁.heap.scopes.size (b' :: bs) (bound m₁ scope b.1 v) =
        (ofDepth depth).eval (.list a') m₁.heap.scopes.size (bound m₁ scope b.1 v))
    (hfinished : Finished (nestedRun depth [.list a'] scope [b] m)) :
    nestedRun depth body scope (b :: b' :: bs) m = nestedRun depth [.list a'] scope [b] m := by
  cases hrun : (ofDepth depth).eval b.2 scope m with
  | error stop m₁ => rw [nestedRun_of_error hrun, nestedRun_of_error hrun]
  | ok v m₁ =>
    rw [nestedRun_of_ok hrun] at hfinished
    rw [nestedRun_of_ok hrun, nestedRun_of_ok hrun]
    exact hrest v m₁ hrun hfinished

/-- A form whose evaluation comes down to the run of nested forms one level further down. -/
theorem nestedRun_of_eval {a : Nat}
    (hstep : ∀ d, Finished ((ofDepth (d + 1)).eval (.list a) scope m) →
      (ofDepth (d + 1)).eval (.list a) scope m = nestedRun d body scope bs m)
    (hfinished : Finished ((ofDepth depth).eval (.list a) scope m)) :
    nestedRun depth body scope bs m = (ofDepth depth).eval (.list a) scope m := by
  cases depth with
  | zero => exact absurd hfinished (eval_zero _ _ _)
  | succ d =>
    have hrun := hstep d hfinished
    rw [hrun] at hfinished ⊢
    exact (mirrors_nestedRun (Nat.le_succ d) body bs scope).eq_of_finished hfinished

/-- Nested forms do what their run does, at depths that are large enough. -/
theorem eval_nested : ∀ {bs : List (Str × Value)} {a scope : Nat} {m : Machine} (depth : Nat),
    m.heap.NestedLets code a bs body → KeepsAlong code scope bs m →
    (Finished (nestedRun depth body scope bs m) →
      (ofDepth (depth + bs.length + 1)).eval (.list a) scope m = nestedRun depth body scope bs m) ∧
    (Finished ((ofDepth depth).eval (.list a) scope m) →
      nestedRun depth body scope bs m = (ofDepth depth).eval (.list a) scope m)
  | [], a, scope, m, depth, hn, _ => by
    cases hn with
    | @none _ s _ hown hitems hname =>
    have hform : SpecialForm.ofName? s.text = some .progn := by
      rw [hname]
      decide
    have heval : ∀ d, (ofDepth (d + 1)).eval (.list a) scope m = nestedRun d body scope [] m := by
      intro d
      rw [eval_list hitems, evalList_special _ hform]
      show (do (ofDepth d).body scope ((← Form.parts a).drop 1)) m = _
      rw [bind_of_ok (parts_eq a m), hitems]
      rfl
    exact ⟨fun _ => heval depth, nestedRun_of_eval fun d _ => heval d⟩
  | [b], a, scope, m, depth, hn, hkept => by
    cases hn with
    | last hown hitems hname hb =>
    have heval : ∀ d, (ofDepth (d + 1)).eval (.list a) scope m = nestedRun d body scope [b] m :=
      fun d => eval_single hown hitems hname hb fun v m₁ hrun => (hkept d v m₁ hrun).1
    refine ⟨fun hfinished => ?_, nestedRun_of_eval fun d _ => heval d⟩
    rw [heval]
    exact (mirrors_nestedRun (Nat.le_succ depth) body [b] scope).eq_of_finished hfinished
  | b :: b' :: bs, a, scope, m, depth, hn, hkept => by
    cases hn with
    | @more _ a' _ _ _ _ _ _ hown hitems hname hb hrest =>
    have heval : ∀ d, (ofDepth (d + 1)).eval (.list a) scope m = nestedRun d [.list a'] scope [b] m :=
      fun d => eval_single hown hitems hname hb fun v m₁ hrun => (hkept d v m₁ hrun).1
    have hinner : ∀ d v m₁, (ofDepth d).eval b.2 scope m = .ok v m₁ → _ := fun d v m₁ hrun => by
      obtain ⟨hcode, hlater⟩ := hkept d v m₁ hrun
      have hsame : Heap.KeepsCode code m.heap (bound m₁ scope b.1 v).heap := hcode
      exact eval_nested d (hrest.keep hsame) hlater
    refine ⟨fun hfinished => ?_, nestedRun_of_eval fun d hfinished => ?_⟩
    · rw [heval]
      refine nestedRun_around (by omega) (fun v m₁ hrun => ?_) hfinished
      exact (hinner depth v m₁ hrun).1
    · rw [heval] at hfinished ⊢
      exact (nestedRun_eq_around (fun v m₁ hrun => (hinner d v m₁ hrun).2) hfinished).symm

end Interp

end Sigil
