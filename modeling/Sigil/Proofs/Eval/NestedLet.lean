import Sigil.Proofs.Eval.LetStar

/-!
# `let*` as nested `let` forms

A `let*` binds its names in one scope, and nested `let` forms bind each name in a scope of its own. A
function that was made on the way sees in the one scope what is bound later, too. Apart from that the
two do the same (`Interp.eval_letStar_iff_nested`): each has a result or a fault if the other one has,
with the same value or fault, the same effects and the same bindings in the scopes that were there
before.

The proof goes through a third run, that of the nested forms in one more scope that is empty. Its scopes
are a chain, for which the scope of the `let*` stands (`Nest.start`), and which is the chain of the
nested forms but for the empty scope (`Nest.within`).
-/

namespace Sigil

open Eval

/-! ## Runs that are not refused anything -/

namespace Eval

/-- The computation was not refused anything. -/
def Permitted {α : Type} (r : EStateM.Result Stop Machine α) : Prop :=
  ∀ m, r ≠ .error (.fault Interp.refusal) m

variable {w : Watch} {ρ : Region} {E : Nat → Nat → Nat → Prop} {L : Heap → Heap → Prop} {n : Nat}
  {α : Type} {P : α → Prop} {x y z : Eval α} {m : Machine} {h' : Heap}

theorem permitted_ok (a : α) (m : Machine) :
    Permitted (.ok a m : EStateM.Result Stop Machine α) := fun _ h => by cases h

theorem permitted_exhausted (m : Machine) :
    Permitted (.error .exhausted m : EStateM.Result Stop Machine α) := fun _ h => by cases h

/-- A computation that is not refused anything under a watch runs in step without it. -/
theorem Agrees.inStep (hx : Mirrors (.fault Interp.refusal) id x y) (hy : Agrees w ρ E L n P y z)
    (hpermitted : Permitted (y m)) (hn : n ≤ m.heap.scopes.size) (hm : Matched w ρ E L m.heap h') :
    Permitted (x m) ∧ InStep w ρ E L P m.heap (x m) (z { m with heap := h' }) := by
  have hsame : y m = x m := by
    rcases hx m with ⟨m', hrefused⟩ | hsame
    · exact absurd hrefused (hpermitted m')
    · rw [hsame, mapResult_id]
  rw [← hsame]
  exact ⟨hpermitted, hy m h' hn hm⟩

end Eval

/-- A watch over other names and the same functions. -/
theorem Matched.rewatch {w w' : Watch} {ρ : Region} {E : Nat → Nat → Nat → Prop}
    {L : Heap → Heap → Prop} {h h' : Heap} (hkeeps : w'.keeps = w.keeps) (hm : Matched w ρ E L h h') :
    Matched w' ρ E L h h' :=
  { hm with
    same := fun ha hk => hm.same ha (hkeeps ▸ hk)
    kept := hm.kept.imp_right fun hkept a ha => hkeeps ▸ hkept a ha }

/-! ## Runs in a chain and elsewhere -/

/-- The results of two runs are the same, with machines that differ in their scopes only, and not in
what is bound in the first `old` ones. -/
inductive SameRun (old : Nat) :
    EStateM.Result Stop Machine Value → EStateM.Result Stop Machine Value → Prop
  | ok {v : Value} {m : Machine} {h' : Heap} (objects : Rescoped m.heap h')
    (shown : h'.view v = m.heap.view v)
    (scopes : ∀ s < old, (h'.scopeAt s).bindings = (m.heap.scopeAt s).bindings) :
    SameRun old (.ok v m) (.ok v { m with heap := h' })
  | error {s : Stop} {m : Machine} {h' : Heap} (objects : Rescoped m.heap h')
    (scopes : ∀ s < old, (h'.scopeAt s).bindings = (m.heap.scopeAt s).bindings) :
    SameRun old (.error s m) (.error s { m with heap := h' })

namespace SameRun

variable {old : Nat} {r r₁ r₂ : EStateM.Result Stop Machine Value}

theorem symm (hr : SameRun old r r₁) : SameRun old r₁ r := by
  cases hr with
  | @ok v m h' ho hshown hs =>
    exact .ok (m := { m with heap := h' }) ho.symm hshown.symm fun s h => (hs s h).symm
  | @error s m h' ho hs =>
    exact .error (m := { m with heap := h' }) ho.symm fun s h => (hs s h).symm

theorem trans (hr : SameRun old r r₁) (hr' : SameRun old r₁ r₂) : SameRun old r r₂ := by
  cases hr with
  | ok ho hshown hs =>
    cases hr' with
    | ok ho' hshown' hs' =>
      exact .ok (ho.trans ho') (hshown'.trans hshown) fun s h => (hs' s h).trans (hs s h)
  | error ho hs =>
    cases hr' with
    | error ho' hs' => exact .error (ho.trans ho') fun s h => (hs' s h).trans (hs s h)

theorem finished_iff (hr : SameRun old r r₁) : Finished r ↔ Finished r₁ := by
  cases hr with
  | ok => exact ⟨fun _ => finished_ok _ _, fun _ => finished_ok _ _⟩
  | error =>
    refine ⟨fun h m' hm' => ?_, fun h m' hm' => ?_⟩
    all_goals
      cases hm'
      exact h _ rfl

end SameRun

namespace Nest

variable {N : Nest} {C : ScopeChain} {start p : Nat} {h h' : Heap}

/-- Two heaps match under the watch over a chain, with the scopes that the nest relates. -/
abbrev Matches (N : Nest) (C : ScopeChain) (start p : Nat) : Heap → Heap → Prop :=
  Matched (C.watch start) (.olderThan N.old) N.Pairs (N.Linked (.olderThan N.old) p)

abbrev Results (N : Nest) (C : ScopeChain) (start p : Nat) (h : Heap) :
    EStateM.Result Stop Machine Value → EStateM.Result Stop Machine Value → Prop :=
  InStep (C.watch start) (.olderThan N.old) N.Pairs (N.Linked (.olderThan N.old) p)
    (Region.olderThan N.old).Covers h

variable (hN : N.Proper) (hw : ∀ {h s name}, C.hides h s name = false → N.hides h s name = false)
include hN hw

theorem results_eval {m : Machine} {form : Value} {s depth : Nat} (hm : N.Matches C start p m.heap h')
    (hform : (Region.olderThan N.old).Covers form) (hs : s < m.heap.scopes.size)
    (hpermitted : Permitted ((Interp.watched (C.watch start) depth).eval form s m)) :
    Permitted ((Interp.ofDepth depth).eval form s m) ∧ N.Results C start p m.heap
      ((Interp.ofDepth depth).eval form s m)
      ((Interp.ofDepth depth).eval form (N.image s) { m with heap := h' }) := by
  have hmirrors := (Interp.mirrors_watched (C.watch start) depth).eval form s
  rw [Renaming.value_same] at hmirrors
  have hlinks := N.links (w := C.watch start) (p := p) hN hw
  have hagrees := (Interp.agrees_watched hlinks depth).eval (n := m.heap.scopes.size) hform ⟨hs, rfl⟩
  exact hagrees.inStep hmirrors hpermitted (Nat.le_refl _) hm

theorem results_body {m : Machine} {forms : List Value} {s depth : Nat}
    (hm : N.Matches C start p m.heap h') (hforms : (Region.olderThan N.old).CoversAll forms)
    (hs : s < m.heap.scopes.size)
    (hpermitted : Permitted ((Interp.watched (C.watch start) depth).body s forms m)) :
    Permitted ((Interp.ofDepth depth).body s forms m) ∧ N.Results C start p m.heap
      ((Interp.ofDepth depth).body s forms m)
      ((Interp.ofDepth depth).body (N.image s) forms { m with heap := h' }) := by
  have hmirrors := (parametric_mirrors (.fault Interp.refusal)).body
    (Interp.mirrors_watched (C.watch start) depth) s forms
  rw [Renaming.value_same, List.map_id] at hmirrors
  have hlinks := N.links (w := C.watch start) (p := p) hN hw
  have hagrees := (confined_agrees hlinks).body (Interp.agrees_watched hlinks depth)
    (n := m.heap.scopes.size) ⟨hs, rfl⟩ hforms
  exact hagrees.inStep hmirrors hpermitted (Nat.le_refl _) hm

theorem Results.sameRun {r r' : EStateM.Result Stop Machine Value} (hr : N.Results C start p h r r')
    (hpermitted : Permitted r) : SameRun N.old r r' := by
  have hscopes : ∀ {h h' : Heap}, N.Matches C start p h h' → ∀ s < N.old,
      (h'.scopeAt s).bindings = (h.scopeAt s).bindings := fun hm s hs => by
    have hbindings := hm.links.bindings s (hN.not_mem_of_lt hs)
    rwa [hN.twin_old s hs] at hbindings
  cases hr with
  | ok hv hm _ =>
    exact .ok hm.toRescoped ((Matched.reads (N.links (w := C.watch start) hN hw)).view hm hv) (hscopes hm)
  | error hm _ => exact .error hm.toRescoped (hscopes hm)
  | refused => exact absurd rfl (hpermitted _)

omit hw in
theorem Matches.bound {m : Machine} {s : Nat} {v : Value} (hm : N.Matches C start p m.heap h')
    (hv : (Region.olderThan N.old).Covers v) (x : Str) :
    N.Matches C start p (Interp.bound m s x v).heap
      (Interp.bound { m with heap := h' } (N.image s) x v).heap := by
  have hnew : m.heap.scopes.size ∉ N.inner :=
    fun hmem => Nat.lt_irrefl _ (hm.links.inner_lt _ hmem)
  have hlinks := (hm.links.newScope hN s).define hN hnew x hv
  rw [show N.twin m.heap.scopes.size = h'.scopes.size from hm.links.grown 0] at hlinks
  refine { hm with
    closed := hm.closed.congr rfl rfl rfl rfl
    scopes := fun {a c c'} ha hc hc' => ?_
    links := hlinks }
  obtain ⟨hlt, himage⟩ := hm.scopes ha hc hc'
  refine ⟨?_, himage⟩
  show c.scope < ((m.heap.newScope (some s)).2.define _ x v).scopes.size
  rw [Heap.size_scopes_define]
  exact Nat.lt_trans hlt (Nat.lt_of_lt_of_eq (Nat.lt_succ_self _) (Array.size_push _).symm)

omit hw in
/-- A name is bound in the next scope of the chain, and in the scope that stands for it. -/
theorem Matches.extend {m : Machine} {v : Value} (hm : N.Matches N.toScopeChain start p m.heap h')
    (hflat : ∀ s ∉ N.inner, N.twin s ≠ N.flat) (hv : (Region.olderThan N.old).Covers v) (x : Str) :
    (N.extend m.heap.scopes.size x.text).Matches (N.extend m.heap.scopes.size x.text).toScopeChain
      start p (Interp.bound m (N.top N.chain) x v).heap (h'.define N.flat x v) := by
  have hsize : (Interp.bound m (N.top N.chain) x v).heap.scopes.size = m.heap.scopes.size + 1 := by
    show ((m.heap.newScope _).2.define _ x v).scopes.size = _
    rw [Heap.size_scopes_define]
    exact Array.size_push _
  refine { hm with
    closed := hm.closed.congr rfl rfl rfl rfl
    scopes := fun {a c c'} ha hc hc' => ?_
    kept := .inr ?_
    links := hm.links.extend x hflat (hN.not_mem_of_lt hm.links.outer) hv }
  · obtain ⟨hlt, himage⟩ := hm.scopes ha hc hc'
    refine ⟨?_, himage.trans (image_extend_of_lt hlt).symm⟩
    rw [hsize]
    exact Nat.lt_succ_of_lt hlt
  · rcases hm.kept with hopen | hkept
    · have hbottom := ScopeChain.bottom_mem (C := N.toScopeChain)
      have hlt := (hopen (N.bottom + 1) N.bottom _ ⟨Nat.lt_succ_self _, rfl⟩).2
      exact absurd hbottom (hN.not_mem_of_lt hlt)
    · exact hkept

end Nest

namespace Interp

/-- What the third run does not do, from the scope of the chain in which the next form is evaluated. It
asks no scope of the chain for a name that is bound inside of it, does not take the scope of a function
as a value that is among those from `start` on, and leaves the code as it is. -/
def Discreet (code : Nat → Prop) (start : Nat) (body : List Value) :
    ScopeChain → List (Str × Value) → Machine → Prop
  | C, [], m => ∀ depth, Permitted ((watched (C.watch start) depth).body (C.top C.chain) body m)
  | C, b :: bs, m => ∀ depth,
      Permitted ((watched (C.watch start) depth).eval b.2 (C.top C.chain) m) ∧
      ∀ v m', (ofDepth depth).eval b.2 (C.top C.chain) m = .ok v m' →
        Heap.KeepsCode code m.heap m'.heap ∧
          Discreet code start body (C.extend m'.heap.scopes.size b.1.text) bs
            (bound m' (C.top C.chain) b.1 v)

variable {code : Nat → Prop} {start p c old : Nat} {body : List Value} {N : Nest} {h' : Heap}

/-- The third run and that of the `let*`. -/
theorem sameRun_star (hown : code c) (depth : Nat) : ∀ {bs : List (Str × Value)} {N : Nest}
    {m : Machine} {h' : Heap}, N.Proper → (∀ s ∉ N.inner, N.twin s ≠ N.flat) →
    N.Matches N.toScopeChain start p m.heap h' → (∀ b ∈ bs, (Region.olderThan N.old).Covers b.2) →
    (Region.olderThan N.old).CoversAll body → Discreet code start body N.toScopeChain bs m →
    (m.heap.items c).drop 2 = body →
    SameRun N.old (nestedRun depth body (N.top N.chain) bs m)
      (starRun depth c N.flat bs { m with heap := h' })
  | [], N, m, h', hN, _, hm, _, hbody, hdiscreet, hitems => by
    have hs := hm.links.inner_lt _ (Nest.top_mem N.toScopeChain)
    obtain ⟨hpermitted, hresults⟩ := Nest.results_body hN id hm hbody hs (hdiscreet depth)
    rw [Nest.image_of_mem (Nest.top_mem N.toScopeChain)] at hresults
    rw [starRun_nil, show h'.items c = m.heap.items c from hm.items c, hitems]
    exact hresults.sameRun hN id hpermitted
  | b :: bs, N, m, h', hN, hflat, hm, hbs, hbody, hdiscreet, hitems => by
    have hs := hm.links.inner_lt _ (Nest.top_mem N.toScopeChain)
    obtain ⟨hb, hbs⟩ := List.forall_mem_cons.1 hbs
    obtain ⟨hallowed, hnext⟩ := hdiscreet depth
    obtain ⟨hpermitted, hresults⟩ := Nest.results_eval hN id hm hb hs hallowed
    rw [Nest.image_of_mem (Nest.top_mem N.toScopeChain)] at hresults
    generalize hrun : (ofDepth depth).eval b.2 (N.top N.chain) m = r,
      hrun' : (ofDepth depth).eval b.2 N.flat { m with heap := h' } = r' at hresults
    rw [hrun] at hpermitted
    cases hresults with
    | refused => exact absurd rfl (hpermitted _)
    | error hm₁ hspares =>
      rw [nestedRun_of_error hrun, starRun_of_error hrun']
      exact Nest.Results.sameRun hN id (.error hm₁ hspares) hpermitted
    | @ok v m₁ h₁ hv hm₁ hspares =>
      obtain ⟨hcode, hlater⟩ := hnext v m₁ hrun
      rw [nestedRun_of_ok hrun, starRun_of_ok hrun']
      have hm₂ := Nest.Matches.extend hN hm₁ hflat hv b.1
      have hflat₂ : ∀ s ∉ (N.extend m₁.heap.scopes.size b.1.text).inner,
          (N.extend m₁.heap.scopes.size b.1.text).twin s ≠ N.flat := by
        rcases hm₂.links.flat with ⟨hnil, -⟩ | ⟨hflat₂, -⟩
        · cases hnil
        · exact hflat₂
      exact sameRun_star hown depth (N := N.extend m₁.heap.scopes.size b.1.text)
        (hm₁.links.proper_extend hN b.1.text) hflat₂ hm₂ hbs hbody hlater
        ((congrArg (List.drop 2) (hcode c hown)).trans hitems)

/-- What is known in each step of the third run and that of the nested forms. -/
structure Inside (old p start : Nat) (C : ScopeChain) (m : Machine) (h' : Heap) : Prop where
  matched : (Nest.within old p).Matches C start p m.heap h'
  top_lt : C.top C.chain < m.heap.scopes.size

/-- The scope in which the nested forms go on while the third run does in a scope of the chain. -/
abbrev besides (old p : Nat) (C : ScopeChain) : Nat := (Nest.within old p).image (C.top C.chain)

namespace Inside

variable {C : ScopeChain} {m m₁ : Machine} {h₁ : Heap} {b : Str × Value} {v : Value} {depth : Nat}

theorem results (hi : Inside old p start C m h')
    (hb : (Region.olderThan old).Covers b.2)
    (hallowed : Permitted ((watched (C.watch start) depth).eval b.2 (C.top C.chain) m)) :
    Permitted ((ofDepth depth).eval b.2 (C.top C.chain) m) ∧
      (Nest.within old p).Results C start p m.heap ((ofDepth depth).eval b.2 (C.top C.chain) m)
        ((ofDepth depth).eval b.2 (besides old p C) { m with heap := h' }) :=
  Nest.results_eval (Nest.proper_within old p) (fun _ => Nest.hides_within old p _ _ _) hi.matched hb
    hi.top_lt hallowed

theorem bound (hm : (Nest.within old p).Matches C start p m₁.heap h₁)
    (hv : (Region.olderThan old).Covers v) (x : Str) :
    Inside old p start (C.extend m₁.heap.scopes.size x.text) (bound m₁ (C.top C.chain) x v)
      (Interp.bound { m₁ with heap := h₁ } (besides old p C) x v).heap where
  matched := Matched.rewatch (w := C.watch start) rfl
    (Nest.Matches.bound (Nest.proper_within old p) (s := C.top C.chain) hm hv x)
  top_lt := by
    show m₁.heap.scopes.size < ((m₁.heap.newScope _).2.define _ x v).scopes.size
    rw [Heap.size_scopes_define]
    exact Nat.lt_of_lt_of_eq (Nat.lt_succ_self _) (Array.size_push _).symm

theorem besides_extend (hm : (Nest.within old p).Matches C start p m₁.heap h₁) (x : String) :
    besides old p (C.extend m₁.heap.scopes.size x) = h₁.scopes.size := by
  have hnew : m₁.heap.scopes.size ∉ (Nest.within old p).inner :=
    fun hmem => Nat.lt_irrefl _ (hm.links.inner_lt _ hmem)
  exact (Nest.image_of_not_mem hnew).trans (hm.links.grown 0)

end Inside

/-- The third run and that of the nested forms. -/
theorem sameRun_nested (depth : Nat) : ∀ {bs : List (Str × Value)} {C : ScopeChain}
    {m : Machine} {h' : Heap}, Inside old p start C m h' →
    (∀ b ∈ bs, (Region.olderThan old).Covers b.2) → (Region.olderThan old).CoversAll body →
    Discreet code start body C bs m →
    SameRun old (nestedRun depth body (C.top C.chain) bs m)
      (nestedRun depth body (besides old p C) bs { m with heap := h' })
  | [], C, m, h', hi, _, hbody, hdiscreet => by
    have hN := Nest.proper_within old p
    have hw : ∀ {h s name}, C.hides h s name = false → (Nest.within old p).hides h s name = false :=
      fun _ => Nest.hides_within old p _ _ _
    obtain ⟨hpermitted, hresults⟩ := Nest.results_body hN hw hi.matched hbody hi.top_lt (hdiscreet depth)
    exact hresults.sameRun hN hw hpermitted
  | b :: bs, C, m, h', hi, hbs, hbody, hdiscreet => by
    obtain ⟨hb, hbs⟩ := List.forall_mem_cons.1 hbs
    obtain ⟨hallowed, hnext⟩ := hdiscreet depth
    obtain ⟨hpermitted, hresults⟩ := hi.results hb hallowed
    generalize hrun : (ofDepth depth).eval b.2 (C.top C.chain) m = r,
      hrun' : (ofDepth depth).eval b.2 (besides old p C) { m with heap := h' } = r' at hresults
    rw [hrun] at hpermitted
    cases hresults with
    | refused => exact absurd rfl (hpermitted _)
    | error hm₁ hspares =>
      rw [nestedRun_of_error hrun, nestedRun_of_error hrun']
      exact Nest.Results.sameRun (Nest.proper_within old p) (fun _ => Nest.hides_within old p _ _ _)
        (.error hm₁ hspares) hpermitted
    | @ok v m₁ h₁ hv hm₁ hspares =>
      have hsame := sameRun_nested depth (Inside.bound hm₁ hv b.1) hbs hbody (hnext v m₁ hrun).2
      rw [Inside.besides_extend hm₁] at hsame
      rw [nestedRun_of_ok hrun, nestedRun_of_ok hrun']
      exact hsame

/-- The run of the nested forms leaves the code as it is, as the third run does. -/
theorem keepsAlong_of_discreet : ∀ {bs : List (Str × Value)} {C : ScopeChain} {m : Machine}
    {h' : Heap}, Inside old p start C m h' → (∀ b ∈ bs, (Region.olderThan old).Covers b.2) →
    Discreet code start body C bs m → KeepsAlong code (besides old p C) bs { m with heap := h' }
  | [], _, _, _, _, _, _ => trivial
  | b :: bs, C, m, h', hi, hbs, hdiscreet => by
    intro depth v m' hrun'
    obtain ⟨hb, hbs⟩ := List.forall_mem_cons.1 hbs
    obtain ⟨hallowed, hnext⟩ := hdiscreet depth
    obtain ⟨hpermitted, hresults⟩ := hi.results hb hallowed
    generalize hrun : (ofDepth depth).eval b.2 (C.top C.chain) m = r at hresults hpermitted
    rw [hrun'] at hresults
    cases hresults with
    | refused => exact absurd rfl (hpermitted _)
    | @ok _ m₁ h₁ hv hm₁ _ =>
      obtain ⟨hcode, hlater⟩ := hnext v m₁ hrun
      have hkept := keepsAlong_of_discreet (Inside.bound hm₁ hv b.1) hbs hlater
      rw [Inside.besides_extend hm₁] at hkept
      refine ⟨fun a ha => ?_, hkept⟩
      exact (hm₁.items a).trans ((hcode a ha).trans (hi.matched.items a).symm)

end Interp

/-! ## The start of the runs -/

theorem Heap.Closed.covers_arguments {h : Heap} (hc : h.Closed) {vs : List Value}
    {bs : List (Str × Value)} (hbs : List.Forall₂ h.Binds vs bs) : ∀ b ∈ bs, h.present.Covers b.2 := by
  induction hbs with
  | nil => exact List.forall_mem_nil _
  | cons hb _ ih =>
    refine List.forall_mem_cons.2 ⟨?_, ih⟩
    cases hb with
    | bare | alone => trivial
    | form _ hitems => exact hc.items _ _ (hitems ▸ List.mem_cons_of_mem _ List.mem_cons_self)

/-- At the start the heaps match. -/
theorem Heap.Closed.matches_newScope {h : Heap} (hc : h.Closed) {N : Nest} {C : ScopeChain} {p : Nat}
    {xs : Array ScopeObject} (hN : N.Proper) (hold : N.old = h.scopes.size)
    (hlinks : N.Linked (.olderThan N.old) p (h.newScope (some p)).2 { h with scopes := xs }) :
    N.Matches C h.closures.size p (h.newScope (some p)).2 { h with scopes := xs } := by
  have hcontains : (Region.olderThan N.old).Contains h.present := hold ▸ Nest.contains_olderThan h
  have hmade : ∀ {a : Nat} {c c' : ClosureObject}, (h.newScope (some p)).2.closures[a]? = some c →
      ({ h with scopes := xs } : Heap).closures[a]? = some c' → c' = c ∧ c.scope < N.old := by
    intro a c c' hac hac'
    cases (hac : h.closures[a]? = some c).symm.trans hac'
    exact ⟨rfl, hold ▸ (hc.closures hac).2.2.2⟩
  exact {
    toRescoped := (Rescoped.mk rfl rfl rfl rfl rfl)
    closed := {
      items := fun _ v hv => hcontains.covers (hc.items _ v hv)
      entries := fun _ e he => (hc.entries _ e he).imp hcontains.covers hcontains.covers
      closures := fun _ _ => ⟨trivial, trivial, trivial⟩
      dicts := fun _ e he => (hc.dicts _ e he).imp hcontains.covers hcontains.covers
      newSequences := fun _ => trivial
      newMaps := fun _ => trivial
      newClosures := fun _ => trivial }
    scopes := fun {a c c'} _ hac hac' => by
      obtain ⟨rfl, hlt⟩ := hmade hac hac'
      refine ⟨Nat.lt_of_lt_of_le hlt hlinks.old_le, ?_⟩
      rw [Nest.image_of_not_mem (hN.not_mem_of_lt hlt), hN.twin_old _ hlt]
    same := fun {a c c'} _ _ hac hac' => by
      obtain ⟨rfl, hlt⟩ := hmade hac hac'
      exact ⟨rfl, hlt⟩
    kept := .inr fun _ ha => decide_eq_true ha
    links := hlinks }

namespace Interp

variable {code : Nat → Prop} {c a scope : Nat} {bs : List (Str × Value)} {body : List Value}
  {m : Machine}

/-- The `let*` and the nested forms, all evaluated with one depth. -/
theorem sameRun_letStar (hc : m.heap.Closed) (hscope : scope < m.heap.scopes.size)
    (hstar : m.heap.LetStar code c bs body)
    (hdiscreet : Discreet code m.heap.closures.size body ⟨[], m.heap.scopes.size⟩ bs
      { m with heap := (m.heap.newScope (some scope)).2 }) :
    KeepsAlong code scope bs m ∧ ∀ depth, SameRun m.heap.scopes.size
      (starRun depth c m.heap.scopes.size bs { m with heap := (m.heap.newScope (some scope)).2 })
      (nestedRun depth body scope bs m) := by
  obtain ⟨s, v, l, hitems, -, -, hbinds⟩ := hstar.form
  have hcontains := Nest.contains_olderThan m.heap
  have hbody : (Region.olderThan m.heap.scopes.size).CoversAll body := fun w hw =>
    hcontains.covers (hc.items c w (hitems ▸ List.mem_cons_of_mem _ (List.mem_cons_of_mem _ hw)))
  have hbs : ∀ b ∈ bs, (Region.olderThan m.heap.scopes.size).Covers b.2 :=
    fun b hb => hcontains.covers (hc.covers_arguments hbinds b hb)
  have hN := Nest.proper_start m.heap.scopes.size
  have hstart := hc.matches_newScope (C := (Nest.start m.heap.scopes.size).toScopeChain) hN rfl
    (Nest.linked_start hc hscope)
  have hinside : Inside m.heap.scopes.size scope m.heap.closures.size ⟨[], m.heap.scopes.size⟩
      { m with heap := (m.heap.newScope (some scope)).2 } m.heap := {
    matched := hc.matches_newScope (Nest.proper_within _ _) rfl (Nest.linked_within hc hscope)
    top_lt := Nat.lt_of_lt_of_eq (Nat.lt_succ_self _) (Array.size_push _).symm }
  have hbesides : besides m.heap.scopes.size scope ⟨[], m.heap.scopes.size⟩ = scope :=
    Nest.image_of_mem (Nest.mem_inner_nil.2 rfl)
  have hkeeps := keepsAlong_of_discreet hinside hbs hdiscreet
  rw [hbesides] at hkeeps
  refine ⟨hkeeps, fun depth => ?_⟩
  have hflat := sameRun_star hstar.own depth hN (fun _ hs heq => hs (Nest.mem_inner_nil.2 heq)) hstart
    hbs hbody hdiscreet (congrArg (List.drop 2) hitems)
  have hnested := sameRun_nested depth hinside hbs hbody hdiscreet
  rw [hbesides] at hnested
  exact hflat.symm.trans hnested

/-- A `let*` does what nested `let` forms with the same bindings and the same body do, unless a function
made on the way asks for a name that is bound after it inside of it, or shows its scope: each has a result
or a fault if the other one has, and these are the same. -/
theorem eval_letStar_iff_nested (hc : m.heap.Closed) (hscope : scope < m.heap.scopes.size)
    (hstar : m.heap.LetStar code c bs body) (hnested : m.heap.NestedLets code a bs body)
    (hdiscreet : Discreet code m.heap.closures.size body ⟨[], m.heap.scopes.size⟩ bs
      { m with heap := (m.heap.newScope (some scope)).2 }) :
    (∀ r, Ends (.list c) scope m r →
      ∃ r', Ends (.list a) scope m r' ∧ SameRun m.heap.scopes.size r r') ∧
    (∀ r', Ends (.list a) scope m r' →
      ∃ r, Ends (.list c) scope m r ∧ SameRun m.heap.scopes.size r r') := by
  obtain ⟨hkeeps, hsame⟩ := sameRun_letStar hc hscope hstar hdiscreet
  constructor
  · rintro r ⟨hfinished, depth, hr⟩
    have hlike := hsame depth
    rw [← eval_letStar hstar, Ends.eval_of_le hfinished hr (Nat.le_succ depth)] at hlike
    have hends := (eval_nested depth hnested hkeeps).1 (hlike.finished_iff.1 hfinished)
    exact ⟨_, ⟨hlike.finished_iff.1 hfinished, _, hends⟩, hlike⟩
  · rintro r' ⟨hfinished, depth, hr'⟩
    have hlike := hsame depth
    rw [(eval_nested depth hnested hkeeps).2 (hr' ▸ hfinished), hr'] at hlike
    exact ⟨_, ⟨hlike.finished_iff.2 hfinished, depth + 1, eval_letStar hstar depth⟩, hlike⟩

/-! ### Two forms of one name bound twice -/

/-- A symbol in a scope that has the name is not refused under a watch over a chain around it. -/
theorem permitted_sym {w : Watch} {s : Nat} {x : Str} {v : Value} (hnil : x.text ≠ "nil")
    (ht : x.text ≠ "t") (hhides : w.hides m.heap s x.text = false)
    (hv : m.heap.lookup? s x.text = some v) (depth : Nat) :
    Permitted ((watched w depth).eval (.sym x) s m) := by
  cases depth with
  | zero => exact permitted_exhausted m
  | succ depth =>
    have hrun : (watched w (depth + 1)).eval (.sym x) s m = .ok v m := by
      show w.lookup x.text s m = _
      rw [Watch.lookup, if_neg hnil, if_neg ht]
      refine (bind_of_ok (show heap m = .ok m.heap m from rfl)).trans ?_
      rw [hhides, hv]
      rfl
    rw [hrun]
    exact permitted_ok v m

/-- The forms `(let* ((x 1) (x x)) x)`, at 3, and `(let ((x 1)) (let ((x x)) x))`, at 7. -/
def shadowing : Heap :=
  [[.sym (.fixed "x"), .int 1], [.sym (.fixed "x"), .sym (.fixed "x")], [.list 0, .list 1],
    [.sym (.fixed "let*"), .list 2, .sym (.fixed "x")],
    [.list 1], [.sym (.fixed "let"), .list 4, .sym (.fixed "x")],
    [.list 0], [.sym (.fixed "let"), .list 6, .list 5]].foldl (fun h vs => (h.newSequence vs).2)
      (libraryScope [])

def shadowedNames : List (Str × Value) :=
  [(.fixed "x", .int 1), (.fixed "x", .sym (.fixed "x"))]

theorem closed_shadowing : shadowing.Closed := by
  refine (((((((closed_libraryScope []).newSequence ?_).newSequence ?_).newSequence ?_).newSequence
    ?_).newSequence ?_).newSequence ?_).newSequence ?_ |>.newSequence ?_
  all_goals
    simp [Region.CoversAll, Region.Covers, Heap.present, Heap.newSequence, libraryScope,
      Heap.newScope, Heap.empty]

theorem eval_letStar_iff_nested_shadowing :
    let m : Machine := ⟨shadowing, [], [], []⟩
    let body : List Value := [.sym (.fixed "x")]
    m.heap.Closed ∧ 0 < m.heap.scopes.size ∧ m.heap.LetStar (fun _ => True) 3 shadowedNames body ∧
      m.heap.NestedLets (fun _ => True) 7 shadowedNames body ∧
      Discreet (fun _ => True) m.heap.closures.size body ⟨[], m.heap.scopes.size⟩ shadowedNames
        { m with heap := (m.heap.newScope (some 0)).2 } ∧
      ∃ m', Ends (.list 7) 0 m (.ok (.int 1) m') := by
  intro m body
  have hscope : 0 < m.heap.scopes.size := by decide
  have hstar : m.heap.LetStar (fun _ => True) 3 shadowedNames body :=
    ⟨trivial, .fixed "let*", .list 2, 2, rfl, rfl, rfl,
      .cons (.form (a := 0) rfl rfl) (.cons (.form (a := 1) rfl rfl) .nil)⟩
  have hnested : m.heap.NestedLets (fun _ => True) 7 shadowedNames body :=
    .more (r := 5) (v := .list 6) (s := .fixed "let") trivial rfl rfl
      ⟨6, .list 0, rfl, trivial, rfl, .form (a := 0) rfl rfl, fun _ _ => trivial⟩
      (.last (v := .list 4) (s := .fixed "let") trivial rfl rfl
        ⟨4, .list 1, rfl, trivial, rfl, .form (a := 1) rfl rfl, fun _ _ => trivial⟩)
  have hdiscreet : Discreet (fun _ => True) m.heap.closures.size body ⟨[], m.heap.scopes.size⟩
      shadowedNames { m with heap := (m.heap.newScope (some 0)).2 } := by
    intro depth
    refine ⟨?_, fun v m₁ hone => ?_⟩
    · cases depth with
      | zero => exact permitted_exhausted _
      | succ depth => exact permitted_ok _ _
    cases depth with
    | zero => cases hone
    | succ depth =>
    cases hone
    refine ⟨fun _ _ => rfl, fun depth => ⟨?_, fun v m₂ hx => ?_⟩⟩
    · exact permitted_sym (v := .int 1) (by decide) (by decide) (by decide +kernel) (by decide +kernel) depth
    cases depth with
    | zero => cases hx
    | succ depth =>
    rw [eval_sym (v := .int 1) (by decide) (by decide) (by decide +kernel)] at hx
    cases hx
    refine ⟨fun _ _ => rfl, fun depth => ?_⟩
    exact permitted_sym (v := .int 1) (by decide) (by decide) (by decide +kernel) (by decide +kernel) depth
  obtain ⟨m₁, hends⟩ : ∃ m', Ends (.list 3) 0 m (.ok (.int 1) m') :=
    Ends.of_isInt (n := 3) (by decide +kernel)
  obtain ⟨r', hr', hlike⟩ :=
    (eval_letStar_iff_nested closed_shadowing hscope hstar hnested hdiscreet).1 _ hends
  cases hlike with
  | ok => exact ⟨closed_shadowing, hscope, hstar, hnested, hdiscreet, _, hr'⟩

/-! ### A function made between two bindings of a name -/

/-- The forms `(let* ((x 1) (f (lambda () x)) (x 2)) (f))`, at 7, and
`(let ((x 1)) (let ((f (lambda () x))) (let ((x 2)) (f))))`, at 13. -/
def capturing : Heap :=
  [[], [.sym (.fixed "lambda"), .list 0, .sym (.fixed "x")],
    [.sym (.fixed "x"), .int 1], [.sym (.fixed "f"), .list 1], [.sym (.fixed "x"), .int 2],
    [.list 2, .list 3, .list 4], [.sym (.fixed "f")],
    [.sym (.fixed "let*"), .list 5, .list 6],
    [.list 4], [.sym (.fixed "let"), .list 8, .list 6],
    [.list 3], [.sym (.fixed "let"), .list 10, .list 9],
    [.list 2], [.sym (.fixed "let"), .list 12, .list 11]].foldl (fun h vs => (h.newSequence vs).2)
      (libraryScope [])

def capturedNames : List (Str × Value) :=
  [(.fixed "x", .int 1), (.fixed "f", .list 1), (.fixed "x", .int 2)]

/-- The function sees the second binding in the one scope, and the first one in nested scopes. -/
theorem letStar_ne_nested_capturing :
    let m : Machine := ⟨capturing, [], [], []⟩
    m.heap.LetStar (fun _ => True) 7 capturedNames [.list 6] ∧
      m.heap.NestedLets (fun _ => True) 13 capturedNames [.list 6] ∧
      (∃ m', Ends (.list 7) 0 m (.ok (.int 2) m')) ∧ ∃ m', Ends (.list 13) 0 m (.ok (.int 1) m') := by
  intro m
  have hstar : m.heap.LetStar (fun _ => True) 7 capturedNames [.list 6] :=
    ⟨trivial, .fixed "let*", .list 5, 5, rfl, rfl, rfl, .cons (.form (a := 2) rfl rfl)
      (.cons (.form (a := 3) rfl rfl) (.cons (.form (a := 4) rfl rfl) .nil))⟩
  have hnested : m.heap.NestedLets (fun _ => True) 13 capturedNames [.list 6] :=
    .more (r := 11) (v := .list 12) (s := .fixed "let") trivial rfl rfl
      ⟨12, .list 2, rfl, trivial, rfl, .form (a := 2) rfl rfl, fun _ _ => trivial⟩
      (.more (r := 9) (v := .list 10) (s := .fixed "let") trivial rfl rfl
        ⟨10, .list 3, rfl, trivial, rfl, .form (a := 3) rfl rfl, fun _ _ => trivial⟩
        (.last (v := .list 8) (s := .fixed "let") trivial rfl rfl
          ⟨8, .list 4, rfl, trivial, rfl, .form (a := 4) rfl rfl, fun _ _ => trivial⟩))
  exact ⟨hstar, hnested, Ends.of_isInt (n := 8) (by decide +kernel),
    Ends.of_isInt (n := 8) (by decide +kernel)⟩

end Interp

end Sigil
