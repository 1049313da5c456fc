import Mathlib.Logic.Relation
import Sigil.Proofs.Eval.Fundamental

/-!
# Where an evaluation binds names

An evaluation changes the scopes of a heap in four ways (`Heap.ScopeStep`): it adds a scope inside
another one, it binds a name in a scope that was not there when it began, it assigns to a name, and
it defines a name in the outermost scope of a chain. So a scope that was there before and lies inside
another one keeps its names, and only an assignment changes what they are bound to
(`Interp.eval_binds`).

The exception is `map-put`, which binds a name in any scope that it is given. In the evaluator with
sealed scopes (`Interp.sealed`) it refuses that. An evaluation that never puts into a scope does
there what it does otherwise (`Interp.eval_eq_sealed`).
-/

namespace Sigil

namespace Heap

/-! ## Changes of scopes -/

/-- One change of the scopes of a heap, of which the first `n` are old. -/
inductive ScopeStep (n : Nat) (h h' : Heap) : Prop
  /-- Something other than a scope is changed. -/
  | other (scopes_eq : h'.scopes = h.scopes)
  /-- A scope is added inside another one. -/
  | enter (parent : Nat) (scopes_eq : h'.scopes = (h.newScope (some parent)).2.scopes)
  /-- A name is bound in a new scope. -/
  | bind {s : Nat} (name : Str) (v : Value) (new : n ≤ s)
      (scopes_eq : h'.scopes = (h.define s name v).scopes)
  /-- A name is assigned to. -/
  | assign (s : Nat) (name : Str) (v : Value)
      (scopes_eq : h'.scopes = (h.assign s name v).scopes)
  /-- A name is defined in the outermost scope. -/
  | top (s : Nat) (name : Str) (v : Value)
      (scopes_eq : h'.scopes = (h.define (h.root s) name v).scopes)

abbrev ScopeSteps (n : Nat) : Heap → Heap → Prop := Relation.ReflTransGen (ScopeStep n)

variable {n : Nat} {h h' : Heap} {s t : Nat} {name : Str} {v : Value}

theorem scopeAt_congr (heq : h'.scopes = h.scopes) (s : Nat) : h'.scopeAt s = h.scopeAt s := by
  rw [scopeAt, scopeAt, heq]

theorem scopeAt_newScope (parent : Option Nat) (hs : s < h.scopes.size) :
    (h.newScope parent).2.scopeAt s = h.scopeAt s := by
  simp [newScope, scopeAt, Array.getElem?_push, Nat.ne_of_lt hs]

theorem size_scopes_define (h : Heap) (s : Nat) (name : Str) (v : Value) :
    (h.define s name v).scopes.size = h.scopes.size := by
  simp [define, setScope]

theorem parent_define (h : Heap) (t : Nat) (name : Str) (v : Value) (s : Nat) :
    ((h.define t name v).scopeAt s).parent = (h.scopeAt s).parent := by
  by_cases hst : t = s
  · subst hst
    by_cases ht : t < h.scopes.size
    · simp [define, scopeAt, setScope, ht]
    · simp [define, scopeAt, setScope, ht]
  · simp [define, scopeAt, setScope, hst]

theorem enclosing?_congr (heq : (h'.scopeAt s).parent = (h.scopeAt s).parent) :
    h'.enclosing? s = h.enclosing? s := by
  rw [enclosing?, enclosing?, heq]

/-- The outermost scope of a chain lies in no other one. -/
theorem enclosing?_root (h : Heap) (s : Nat) : h.enclosing? (h.root s) = none := by
  fun_induction root h s with
  | case1 s p hp he ih => exact ih
  | case2 s he => exact he

theorem names_bind {bs : List (Str × Value)} (hbound : (bound? name.text bs).isSome) :
    (bind name v bs).map (·.1) = bs.map (·.1) := by
  induction bs with
  | nil => cases hbound
  | cons b bs ih =>
    rw [bind]
    split
    · rfl
    · next hne =>
      rw [bound?, if_neg hne] at hbound
      rw [List.map_cons, List.map_cons, ih hbound]

theorem ownNames_define_of_ne (hne : t ≠ s) : (h.define t name v).ownNames s = h.ownNames s := by
  simp [define, ownNames, scopeAt, setScope, hne]

theorem ownNames_define_of_bound (hown : (h.own? s name.text).isSome) :
    (h.define s name v).ownNames s = h.ownNames s := by
  by_cases hs : s < h.scopes.size
  · have hnames := names_bind (v := v) hown
    simpa [define, ownNames, scopeAt, setScope, hs] using hnames
  · simp [define, ownNames, scopeAt, setScope, hs]

theorem isSome_own?_of_owner? {text : String} (how : h.owner? s text = some t) :
    (h.own? t text).isSome := by
  fun_induction owner? h s text with
  | case1 s hs =>
    cases how
    exact hs
  | case2 s hs p hp he ih => exact ih how
  | case3 => cases how

/-! ## What changes of scopes keep -/

/-- What changes keep of the first `n` scopes: what they lie in, and the names of those that lie in
another one. -/
structure KeepsNames (n : Nat) (h h' : Heap) : Prop where
  size_le : h.scopes.size ≤ h'.scopes.size
  enclosing_eq : ∀ s < n, h'.enclosing? s = h.enclosing? s
  names_eq : ∀ s < n, (h.enclosing? s).isSome → h'.ownNames s = h.ownNames s

theorem KeepsNames.of_scopes (hsize : h.scopes.size ≤ h'.scopes.size)
    (hscope : ∀ s < n, h'.scopeAt s = h.scopeAt s) : KeepsNames n h h' where
  size_le := hsize
  enclosing_eq s hs := enclosing?_congr (by rw [hscope s hs])
  names_eq s hs _ := by rw [ownNames, ownNames, hscope s hs]

/-- A name is bound in a scope that is new, binds it already, or lies in no other one. -/
theorem KeepsNames.define
    (ht : n ≤ t ∨ (h.own? t name.text).isSome ∨ h.enclosing? t = none) :
    KeepsNames n h (h.define t name v) where
  size_le := by simp [Heap.define, setScope]
  enclosing_eq s _ := enclosing?_congr (parent_define h t name v s)
  names_eq s hs hin := by
    by_cases hst : t = s
    · subst hst
      rcases ht with hnew | hown | houter
      · omega
      · exact ownNames_define_of_bound hown
      · rw [houter] at hin
        cases hin
    · exact ownNames_define_of_ne hst

theorem KeepsNames.congr {h₁ : Heap} (hk : KeepsNames n h h₁) (heq : h'.scopes = h₁.scopes) :
    KeepsNames n h h' where
  size_le := by rw [heq]; exact hk.size_le
  enclosing_eq s hs := by
    rw [← hk.enclosing_eq s hs]
    exact enclosing?_congr (by rw [scopeAt_congr heq])
  names_eq s hs hin := by
    rw [← hk.names_eq s hs hin, ownNames, ownNames, scopeAt_congr heq]

theorem KeepsNames.trans {h₁ : Heap} (hk : KeepsNames n h h₁) (hk' : KeepsNames n h₁ h') :
    KeepsNames n h h' where
  size_le := Nat.le_trans hk.size_le hk'.size_le
  enclosing_eq s hs := by rw [hk'.enclosing_eq s hs, hk.enclosing_eq s hs]
  names_eq s hs hin := by
    rw [hk'.names_eq s hs (by rwa [hk.enclosing_eq s hs]), hk.names_eq s hs hin]

/-- The scope that an assignment changes binds the name, or lies in no other one. -/
theorem assigned_cases (h : Heap) (s : Nat) (text : String) :
    (h.own? ((h.owner? s text).getD (h.root s)) text).isSome ∨
      h.enclosing? ((h.owner? s text).getD (h.root s)) = none := by
  cases how : h.owner? s text with
  | some t => exact .inl (isSome_own?_of_owner? how)
  | none => exact .inr (enclosing?_root h s)

theorem ScopeStep.keepsNames (hstep : ScopeStep n h h') (hn : n ≤ h.scopes.size) :
    KeepsNames n h h' := by
  cases hstep with
  | other heq => exact .of_scopes (Nat.le_of_eq (by rw [heq])) fun s _ => scopeAt_congr heq s
  | enter parent heq =>
    have hsize : h.scopes.size ≤ (h.newScope (some parent)).2.scopes.size := by simp [newScope]
    exact (KeepsNames.of_scopes hsize fun s _ => scopeAt_newScope _ (by omega)).congr heq
  | bind name v hnew heq => exact (KeepsNames.define (.inl hnew)).congr heq
  | assign s name v heq =>
    exact (KeepsNames.define (.inr (assigned_cases h s name.text))).congr heq
  | top s name v heq => exact (KeepsNames.define (.inr (.inr (enclosing?_root h s)))).congr heq

theorem ScopeSteps.keepsNames (hsteps : ScopeSteps n h h') (hn : n ≤ h.scopes.size) :
    KeepsNames n h h' := by
  induction hsteps with
  | refl => exact ⟨Nat.le_refl _, fun _ _ => rfl, fun _ _ _ => rfl⟩
  | tail _ hstep ih => exact ih.trans (hstep.keepsNames (Nat.le_trans hn ih.size_le))

/-! ## What changes of scopes change -/

theorem own?_congr (heq : h'.scopes = h.scopes) (s : Nat) (text : String) :
    h'.own? s text = h.own? s text := by
  rw [own?, own?, scopeAt_congr heq]

theorem own?_define_of_text_ne {text : String} (hne : name.text ≠ text) :
    (h.define t name v).own? s text = h.own? s text := by
  by_cases hst : t = s
  · subst hst
    by_cases ht : t < h.scopes.size
    · rw [own?_define ht, if_neg hne]
    · simp [define, own?, scopeAt, setScope, ht]
  · exact own?_define_of_ne hst name v text

/-- A definition changes nothing but the name in the scope. -/
theorem of_own?_define_ne {text : String}
    (hne : (h.define t name v).own? s text ≠ h.own? s text) : t = s ∧ name.text = text := by
  constructor
  · exact Decidable.of_not_not fun hts => hne (own?_define_of_ne hts name v text)
  · exact Decidable.of_not_not fun htext => hne (own?_define_of_text_ne htext)

/-- A change of what an old scope binds to a name is an assignment to the name there, or one to a
name that no scope of the chain binds, or a definition; the last two are in an outermost scope. -/
theorem ScopeStep.of_own?_ne {text : String} (hstep : ScopeStep n h h') (hs : s < n)
    (hsize : n ≤ h.scopes.size) (hne : h'.own? s text ≠ h.own? s text) :
    ∃ (t : Nat) (name : Str) (v : Value), name.text = text ∧
      (h.owner? t text = some s ∧ ScopeStep n (h.assign t name v) h' ∨
        h.root t = s ∧ h.owner? t text = none ∧ ScopeStep n (h.assign t name v) h' ∨
        h.root t = s ∧ ScopeStep n (h.define s name v) h') := by
  cases hstep with
  | other heq => exact absurd (own?_congr heq s text) hne
  | enter parent heq =>
    have hscope : (h.newScope (some parent)).2.scopeAt s = h.scopeAt s :=
      scopeAt_newScope _ (by omega)
    rw [own?_congr heq, own?, own?, hscope] at hne
    exact absurd rfl hne
  | bind name v hnew heq =>
    rw [own?_congr heq] at hne
    obtain ⟨rfl, -⟩ := of_own?_define_ne hne
    omega
  | assign t name v heq =>
    rw [own?_congr heq, Heap.assign] at hne
    obtain ⟨hts, htext⟩ := of_own?_define_ne hne
    refine ⟨t, name, v, htext, ?_⟩
    rw [htext] at hts
    cases how : h.owner? t text with
    | some o =>
      rw [how, Option.getD_some] at hts
      exact .inl ⟨congrArg some hts, .other heq⟩
    | none =>
      rw [how, Option.getD_none] at hts
      exact .inr (.inl ⟨hts, rfl, .other heq⟩)
  | top t name v heq =>
    rw [own?_congr heq] at hne
    obtain ⟨hts, htext⟩ := of_own?_define_ne hne
    refine ⟨t, name, v, htext, .inr (.inr ⟨hts, .other ?_⟩)⟩
    rw [heq, hts]

/-- What comes about in the course of changes does so with one of them. -/
theorem ScopeSteps.exists_step {P : Heap → Prop} (hsteps : ScopeSteps n h h') (hnot : ¬P h)
    (hP : P h') : ∃ h₁ h₂, ScopeSteps n h h₁ ∧ ¬P h₁ ∧ ScopeStep n h₁ h₂ ∧ P h₂ ∧
      ScopeSteps n h₂ h' := by
  induction hsteps with
  | refl => exact absurd hP hnot
  | @tail h₁ h₂ hsteps hstep ih =>
    by_cases hP₁ : P h₁
    · obtain ⟨g₁, g₂, hbefore, hnot₁, hchange, hP₂, hafter⟩ := ih hP₁
      exact ⟨g₁, g₂, hbefore, hnot₁, hchange, hP₂, hafter.tail hstep⟩
    · exact ⟨h₁, h₂, hsteps, hP₁, hstep, hP, .refl⟩

/-- What an old scope inside another one binds to a name is changed by an assignment there only. -/
theorem ScopeSteps.exists_assign {text : String} (hsteps : ScopeSteps n h h') (hs : s < n)
    (hsize : n ≤ h.scopes.size) (hin : (h.enclosing? s).isSome)
    (hne : h'.own? s text ≠ h.own? s text) :
    ∃ (h₁ : Heap) (t : Nat) (name : Str) (v : Value), ScopeSteps n h h₁ ∧ name.text = text ∧
      h₁.owner? t text = some s ∧ ScopeSteps n (h₁.assign t name v) h' := by
  obtain ⟨h₁, h₂, hbefore, hsame, hstep, hne, hafter⟩ :=
    ScopeSteps.exists_step (P := fun g => g.own? s text ≠ h.own? s text) hsteps (fun h => h rfl) hne
  have heq : h₁.own? s text = h.own? s text := Decidable.not_not.1 hsame
  have hkeeps := ScopeSteps.keepsNames hbefore hsize
  have hnotRoot : ∀ t, h₁.root t ≠ s := by
    rintro t rfl
    have henclosed := hkeeps.enclosing_eq _ hs
    rw [enclosing?_root] at henclosed
    rw [← henclosed] at hin
    cases hin
  obtain ⟨t, name, v, htext, hown | hroot | hroot⟩ :=
    hstep.of_own?_ne hs (Nat.le_trans hsize hkeeps.size_le) (heq ▸ hne)
  · exact ⟨h₁, t, name, v, hbefore, htext, hown.1, .head hown.2 hafter⟩
  · exact absurd hroot.1 (hnotRoot t)
  · exact absurd hroot.1 (hnotRoot t)

/-- An old scope gets a new name by an assignment to a name that no scope of a chain binds, or by a
definition; it is the outermost scope of that chain. -/
theorem ScopeSteps.exists_define {text : String} (hsteps : ScopeSteps n h h') (hs : s < n)
    (hsize : n ≤ h.scopes.size) (hnone : h.own? s text = none) (hsome : h'.own? s text ≠ none) :
    ∃ (h₁ : Heap) (t : Nat) (name : Str) (v : Value), ScopeSteps n h h₁ ∧ name.text = text ∧
      h₁.root t = s ∧ (h₁.owner? t text = none ∧ ScopeSteps n (h₁.assign t name v) h' ∨
        ScopeSteps n (h₁.define s name v) h') := by
  obtain ⟨h₁, h₂, hbefore, hsame, hstep, hsome, hafter⟩ :=
    ScopeSteps.exists_step (P := fun g => g.own? s text ≠ none) hsteps (fun h => h hnone) hsome
  have heq : h₁.own? s text = none := Decidable.not_not.1 hsame
  have hkeeps := ScopeSteps.keepsNames hbefore hsize
  obtain ⟨t, name, v, htext, hown | hroot | hroot⟩ :=
    hstep.of_own?_ne hs (Nat.le_trans hsize hkeeps.size_le) (heq ▸ hsome)
  · have hbound := isSome_own?_of_owner? hown.1
    rw [heq] at hbound
    cases hbound
  · exact ⟨h₁, t, name, v, hbefore, htext, hroot.1, .inl ⟨hroot.2.1, .head hroot.2.2 hafter⟩⟩
  · exact ⟨h₁, t, name, v, hbefore, htext, hroot.1, .inr (.head hroot.2 hafter)⟩

end Heap

/-! ## Evaluations change scopes in these ways -/

namespace Eval

def left {α : Type} : EStateM.Result Stop Machine α → Machine
  | .ok _ m => m
  | .error _ m => m

/-- From every heap that has the first `n` scopes, the computation changes the scopes step by step. -/
def Evolves (n : Nat) {α : Type} (x : Eval α) : Prop :=
  ∀ m : Machine, n ≤ m.heap.scopes.size → Heap.ScopeSteps n m.heap (left (x m)).heap

variable {α β : Type} {n : Nat} {x : Eval α} {f : α → Eval β}

theorem evolves_of_heap (h : ∀ m, (left (x m)).heap = m.heap) : Evolves n x := by
  intro m _
  rw [h]

theorem evolves_of_step (h : ∀ m, n ≤ m.heap.scopes.size →
    Heap.ScopeStep n m.heap (left (x m)).heap) : Evolves n x :=
  fun m hm => .single (h m hm)

theorem Evolves.bind_of {P : α → Prop} (hx : Evolves n x)
    (hresult : ∀ {m a m'}, n ≤ m.heap.scopes.size → x m = .ok a m' → P a)
    (hf : ∀ a, P a → Evolves n (f a)) : Evolves n (x >>= f) := by
  intro m hm
  have hsteps := hx m hm
  have hkeeps := hsteps.keepsNames hm
  show Heap.ScopeSteps n m.heap (left (EStateM.bind x f m)).heap
  unfold EStateM.bind
  cases hrun : x m with
  | ok a m₁ =>
    rw [hrun] at hsteps hkeeps
    exact hsteps.trans (hf a (hresult hm hrun) m₁ (Nat.le_trans hm hkeeps.size_le))
  | error s m₁ =>
    rw [hrun] at hsteps
    exact hsteps

theorem Evolves.bind (hx : Evolves n x) (hf : ∀ a, Evolves n (f a)) : Evolves n (x >>= f) :=
  hx.bind_of (P := fun _ => True) (fun _ _ => trivial) fun a _ => hf a

theorem Evolves.inFrame (frame : CallFrame) (hx : Evolves n x) : Evolves n (inFrame frame x) :=
  Evolves.bind (evolves_of_heap fun _ => rfl) fun _ => hx.bind fun _ =>
    Evolves.bind (evolves_of_heap fun _ => rfl) fun _ => evolves_of_heap fun _ => rfl

theorem evolves_heap : Evolves n heap := evolves_of_heap fun _ => rfl

theorem evolves_other (h : ∀ m, (left (x m)).heap.scopes = m.heap.scopes) : Evolves n x :=
  evolves_of_step fun m _ => .other (h m)

/-- Every rule of evaluation changes scopes step by step. -/
theorem parametric_evolves (n : Nat) :
    Parametric .same (fun h h' => h' = h) (n ≤ ·) fun _ x _ => Evolves n x where
  toReads := Renaming.reads_same
  pure _ _ := evolves_of_heap fun _ => rfl
  throw _ _ := evolves_of_heap fun _ => rfl
  bind := Evolves.bind
  readHeap hf := evolves_heap.bind fun h => hf h h rfl
  emit _ := evolves_of_heap fun _ => rfl
  note _ := evolves_of_heap fun _ => rfl
  inFrame _ _ := Evolves.inFrame _
  newSequence _ := evolves_other fun _ => rfl
  newStr _ := evolves_other fun _ => rfl
  newMap _ _ := evolves_other fun _ => rfl
  newClosure _ := evolves_other fun _ => rfl
  newPusher _ := evolves_other fun _ => rfl
  newScope parent hf := by
    refine Evolves.bind_of (evolves_of_step fun m _ => .enter parent rfl) (fun hm hrun => ?_) hf
    cases hrun
    exact hm
  setItems _ _ := evolves_other fun _ => rfl
  putKey a k v := evolves_other fun m => by
    rw [Container.putKey_eq]
    cases hput : m.heap.mapPut a k v with
    | none => rfl
    | some h =>
      obtain ⟨form, -, rfl⟩ := Heap.mapPut_eq_some.1 hput
      rfl
  define _ name v hnew := evolves_of_step fun _ _ => .bind name v hnew rfl
  defineRoot s name v := evolves_of_step fun _ _ => .top s name v rfl
  assign s name v := evolves_of_step fun _ _ => .assign s name v rfl

end Eval

open Eval

/-! ## Sealed scopes -/

namespace Interp

/-- The fault of putting into a sealed scope. Without the seal no evaluation raises it. -/
def refusal : EvalFault := .notAssignable "Scope"

/-- The evaluator of a given depth in which `map-put` refuses scopes. -/
def sealed : Nat → Interp
  | 0 => .exhausted
  | n + 1 => ⟨evalForm (sealed n), fun f args name =>
      if (putScope? f args).isSome then raise refusal else callValue (sealed n) f args name⟩

/-- The evaluation never puts into a scope: sealing the scopes does not stop it. -/
def NeverPuts (depth : Nat) (form : Value) (scope : Nat) (m : Machine) : Prop :=
  ∀ m', (sealed depth).eval form scope m ≠ .error (.fault refusal) m'

/-- With sealed scopes an evaluation changes scopes step by step only. -/
theorem evolves_sealed (n : Nat) : ∀ depth, Interp.Related .same
    (fun _ x _ => Evolves n x) (sealed depth) (sealed depth)
  | 0 => ⟨fun _ _ => evolves_of_heap fun _ => rfl, fun _ _ _ => evolves_of_heap fun _ => rfl⟩
  | depth + 1 => by
    refine ⟨(parametric_evolves n).evalForm (evolves_sealed n depth), fun f args name => ?_⟩
    show Evolves n (if (putScope? f args).isSome then raise refusal
      else callValue (sealed depth) f args name)
    split
    · exact evolves_of_heap fun _ => rfl
    · next hnone =>
      refine (parametric_evolves n).callValue (evolves_sealed n depth) f args name ?_
      intro s hs
      rw [hs] at hnone
      exact absurd rfl hnone

end Interp

namespace Eval

def mapResult {α : Type} (φ : α → α) :
    EStateM.Result Stop Machine α → EStateM.Result Stop Machine α
  | .ok a m => .ok (φ a) m
  | .error s m => .error s m

/-- The second computation does what the first one does, or stops in the way that is given. -/
def Mirrors (stop : Stop) {α : Type} (φ : α → α) (x y : Eval α) : Prop :=
  ∀ m, (∃ m', y m = .error stop m') ∨ y m = mapResult φ (x m)

variable {α β : Type} {stop : Stop} {φ : α → α} {ψ : β → β} {x y : Eval α} {f g : α → Eval β}

theorem mirrors_self (h : ∀ m, y m = mapResult φ (x m)) : Mirrors stop φ x y :=
  fun m => .inr (h m)

theorem Mirrors.bind (hx : Mirrors stop φ x y) (hf : ∀ a, Mirrors stop ψ (f a) (g (φ a))) :
    Mirrors stop ψ (x >>= f) (y >>= g) := by
  intro m
  show (∃ m', EStateM.bind y g m = _) ∨ EStateM.bind y g m = mapResult ψ (EStateM.bind x f m)
  unfold EStateM.bind
  rcases hx m with ⟨m', hrefused⟩ | hsame
  · exact .inl ⟨m', by rw [hrefused]⟩
  · rw [hsame]
    cases x m with
    | ok a m₁ => exact hf a m₁
    | error s m₁ => exact .inr rfl

theorem Mirrors.inFrame (frame : CallFrame) (hx : Mirrors stop φ x y) :
    Mirrors stop φ (inFrame frame x) (inFrame frame y) :=
  Mirrors.bind (φ := id) (mirrors_self fun _ => rfl) fun _ => hx.bind fun _ =>
    Mirrors.bind (φ := id) (mirrors_self fun _ => rfl) fun _ => mirrors_self fun _ => rfl

theorem parametric_mirrors (stop : Stop) :
    Parametric .same (fun h h' => h' = h) (fun _ => True) (Mirrors stop) where
  toReads := Renaming.reads_same
  pure _ _ := mirrors_self fun _ => rfl
  throw _ _ := mirrors_self fun _ => rfl
  bind := Mirrors.bind
  readHeap hf := Mirrors.bind (φ := id) (mirrors_self fun _ => rfl) fun h => hf h h rfl
  emit _ := mirrors_self fun _ => rfl
  note _ := mirrors_self fun _ => rfl
  inFrame name args hx := by
    rw [Renaming.value_same, List.map_id] at *
    exact hx.inFrame _
  newSequence vs := by
    rw [Renaming.value_same, List.map_id]
    exact mirrors_self fun _ => rfl
  newStr _ := by
    rw [Renaming.str_same]
    exact mirrors_self fun _ => rfl
  newMap _ _ := mirrors_self fun _ => rfl
  newClosure _ := by
    rw [Renaming.closureObject_same]
    exact mirrors_self fun _ => rfl
  newPusher _ := by
    rw [Renaming.value_same]
    exact mirrors_self fun _ => rfl
  newScope parent hf := Mirrors.bind (φ := id) (mirrors_self fun _ => rfl) fun s => hf s trivial
  setItems _ _ := by
    rw [Renaming.value_same, List.map_id]
    exact mirrors_self fun _ => rfl
  putKey a k v := by
    rw [Renaming.value_same]
    refine mirrors_self fun m => ?_
    show Container.putKey a k v m = mapResult id (Container.putKey a k v m)
    rw [Container.putKey_eq]
    cases m.heap.mapPut a k v <;> rfl
  define _ _ _ _ := by
    rw [Renaming.str_same, Renaming.value_same]
    exact mirrors_self fun _ => rfl
  defineRoot _ _ _ := by
    rw [Renaming.str_same, Renaming.value_same]
    exact mirrors_self fun _ => rfl
  assign _ _ _ := by
    rw [Renaming.str_same, Renaming.value_same]
    exact mirrors_self fun _ => rfl

end Eval

namespace Interp

theorem mirrors_sealed : ∀ depth,
    Interp.Related .same (Mirrors (.fault refusal)) (ofDepth depth) (sealed depth)
  | 0 => ⟨fun _ _ => mirrors_self fun _ => rfl, fun _ _ _ => mirrors_self fun _ => rfl⟩
  | depth + 1 => by
    have u := parametric_mirrors (.fault refusal)
    refine ⟨u.evalForm (mirrors_sealed depth), fun f args name => ?_⟩
    have hcall := u.callValue (mirrors_sealed depth) f args name fun _ _ => trivial
    rw [Renaming.value_same, List.map_id] at *
    show Mirrors _ id (callValue (ofDepth depth) f args name)
      (if (putScope? f args).isSome then raise refusal else callValue (sealed depth) f args name)
    split
    · exact fun m => .inl ⟨m, rfl⟩
    · exact hcall

/-- An evaluation that never puts into a scope does the same with sealed scopes. -/
theorem eval_eq_sealed {depth : Nat} {form : Value} {scope : Nat} {m : Machine}
    (h : NeverPuts depth form scope m) :
    (ofDepth depth).eval form scope m = (sealed depth).eval form scope m := by
  have hmirrors := (mirrors_sealed depth).eval form scope
  rw [Renaming.value_same] at hmirrors
  rcases hmirrors m with ⟨m', hrefused⟩ | hsame
  · exact absurd hrefused (h m')
  · refine (Eq.trans ?_ hsame.symm :)
    cases (ofDepth depth).eval form scope m <;> rfl

end Interp

/-! ## Evaluations that never put into a scope -/

/-- What an evaluation may do to the scopes of a heap. -/
structure Heap.BindsOnly (h h' : Heap) : Prop where
  /-- The scopes change step by step. -/
  steps : ScopeSteps h.scopes.size h h'
  /-- An old scope lies where it lay. -/
  enclosing_eq : ∀ s < h.scopes.size, h'.enclosing? s = h.enclosing? s
  /-- An old scope inside another one keeps its names. -/
  names_eq : ∀ s < h.scopes.size, (h.enclosing? s).isSome → h'.ownNames s = h.ownNames s
  /-- What it binds a name to is changed by an assignment to the name, which it owns. -/
  assigned : ∀ s < h.scopes.size, (h.enclosing? s).isSome → ∀ text, h'.own? s text ≠ h.own? s text →
    ∃ (h₁ : Heap) (t : Nat) (name : Str) (v : Value), ScopeSteps h.scopes.size h h₁ ∧
      name.text = text ∧ h₁.owner? t text = some s ∧
      ScopeSteps h.scopes.size (h₁.assign t name v) h'
  /-- An old scope that gets a new name lies in no other one. The name comes from an assignment to
  it where nothing binds it, or from a definition. -/
  defined : ∀ s < h.scopes.size, ∀ text, h.own? s text = none → h'.own? s text ≠ none →
    h.enclosing? s = none ∧
      ∃ (h₁ : Heap) (t : Nat) (name : Str) (v : Value), ScopeSteps h.scopes.size h h₁ ∧
        name.text = text ∧ h₁.root t = s ∧
        (h₁.owner? t text = none ∧ ScopeSteps h.scopes.size (h₁.assign t name v) h' ∨
          ScopeSteps h.scopes.size (h₁.define s name v) h')

theorem Heap.ScopeSteps.bindsOnly {h h' : Heap} (hsteps : ScopeSteps h.scopes.size h h') :
    BindsOnly h h' where
  steps := hsteps
  enclosing_eq := (ScopeSteps.keepsNames hsteps (Nat.le_refl _)).enclosing_eq
  names_eq := (ScopeSteps.keepsNames hsteps (Nat.le_refl _)).names_eq
  assigned _ hs hin _ hne := ScopeSteps.exists_assign hsteps hs (Nat.le_refl _) hin hne
  defined s hs text hnone hsome := by
    obtain ⟨h₁, t, name, v, hbefore, htext, hroot, hafter⟩ :=
      ScopeSteps.exists_define hsteps hs (Nat.le_refl _) hnone hsome
    refine ⟨?_, h₁, t, name, v, hbefore, htext, hroot, hafter⟩
    have hkeeps := ScopeSteps.keepsNames hbefore (Nat.le_refl _)
    rw [← hkeeps.enclosing_eq s hs, ← hroot]
    exact enclosing?_root h₁ t

namespace Interp

/-- An evaluation that never puts into a scope, whether it gives a result or stops, binds new names
in new scopes and in outermost ones only. Every other old scope keeps its names, and only an
assignment to one of them changes what it is bound to. -/
theorem eval_binds {depth : Nat} {form : Value} {scope : Nat} {m : Machine}
    (h : NeverPuts depth form scope m) :
    m.heap.BindsOnly (left ((ofDepth depth).eval form scope m)).heap := by
  rw [eval_eq_sealed h]
  have hevolves := (evolves_sealed m.heap.scopes.size depth).eval form scope m (Nat.le_refl _)
  exact Heap.ScopeSteps.bindsOnly hevolves

/-- An outermost scope with one inside it, and a form that assigns to a name. -/
def assignment : Value × Machine :=
  let h := ((Heap.empty.newScope none).2.newScope (some 0)).2
  let (form, h) := h.load (.list [.sym "setq" .supplied, .sym "x" .supplied, .int 1])
  (form, ⟨h, [], [], []⟩)

def succeeds {α : Type} : EStateM.Result Stop Machine α → Bool
  | .ok _ _ => true
  | .error _ _ => false

theorem eval_binds_assignment :
    NeverPuts 2 assignment.1 1 assignment.2 ∧
      assignment.2.heap.BindsOnly
        (left ((ofDepth 2).eval assignment.1 1 assignment.2)).heap := by
  have hnever : NeverPuts 2 assignment.1 1 assignment.2 := by
    intro m' hrefused
    have hok : succeeds ((sealed 2).eval assignment.1 1 assignment.2) = true := by
      decide +kernel
    rw [hrefused] at hok
    cases hok
  exact ⟨hnever, eval_binds hnever⟩

end Interp

end Sigil
