import Sigil.Proofs.Eval.Functions
import Sigil.Proofs.Session.Isolation
import Sigil.Proofs.Session.Rebuilt

/-!
# The definitions of the prelude

The prelude is read as definitions of functions with required parameters (`Prelude.forms_eq`). Where
the builtins and the functions of the prelude are bound under their names, the prelude stands
(`Heap.StandsAt`). It stands at the root of a runner that was prepared (`Runner.exists_prepare`), and
goes on to stand while code is kept and no name is bound anew (`Heap.StandsAt.kept`).
-/

namespace Sigil

open Eval
open Heap (Retains)

/-! ## What the prelude defines -/

namespace Prelude

structure Definition where
  name : String
  params : List String
  body : List Expr

def sym (name : String) : Expr := .sym name .written

def call (name : String) (args : List Expr) : Expr := .list (sym name :: args)

/-- `(map-put target % (map-get source %))` -/
def transfer : Expr :=
  call "map-put" [sym "target", sym "%", call "map-get" [sym "source", sym "%"]]

namespace Definition

/-- `(defun name (param …) form …)` -/
def toExpr (d : Definition) : Expr :=
  .list (sym "defun" :: sym d.name :: .list (d.params.map sym) :: d.body)

def identity : Definition := ⟨"identity", ["x"], [sym "x"]⟩

def constantly : Definition := ⟨"constantly", ["value"], [.positionalLambda (sym "value")]⟩

def compose : Definition :=
  ⟨"compose", ["f", "g"],
    [.positionalLambda (call "funcall" [sym "f", call "funcall" [sym "g", sym "%"]])]⟩

def first : Definition := ⟨"first", ["seq"], [.accessIndex (sym "seq") 0]⟩

def second : Definition := ⟨"second", ["seq"], [.accessIndex (sym "seq") 1]⟩

def vectorFromList : Definition :=
  ⟨"vector-from-list", ["items"], [call "make-vector" [call "length" [sym "items"], sym "items"]]⟩

def mapUpdate : Definition :=
  ⟨"map-update", ["m", "key", "f"],
    [call "map-put" [sym "m", sym "key",
      call "funcall" [sym "f", call "map-get" [sym "m", sym "key"]]]]⟩

def mapMerge : Definition :=
  ⟨"map-merge", ["target", "source"],
    [call "mapcar" [.positionalLambda transfer, call "map-keys" [sym "source"]], sym "target"]⟩

/-- A definition that evaluates to a function with these parameters and this body: no parameter is
a marker, the body does not start with a declaration, and no builtin has the name. -/
structure Plain (d : Definition) : Prop where
  params : ∀ x ∈ d.params, x ≠ "&optional" ∧ x ≠ "&rest"
  body : ∀ e ∈ (Datum.ofExprs d.body).head?, e.isDeclaration = false
  name : ∀ b ∈ Builtin.all, b.name ≠ d.name

end Definition

def definitions : List Definition :=
  [.identity, .constantly, .compose, .first, .second, .vectorFromList, .mapUpdate, .mapMerge]

/-- The forms of the prelude are its definitions. -/
theorem forms_eq :
    (Reader.readForms .extended cursor).forms.map (·.1) = definitions.map Definition.toExpr := by
  decide +kernel

theorem plain_definitions : ∀ d ∈ definitions, d.Plain := by
  have hparams : ∀ d ∈ definitions, ∀ x ∈ d.params, x ≠ "&optional" ∧ x ≠ "&rest" := by decide
  have hbody : ∀ d ∈ definitions,
      ∀ e ∈ (Datum.ofExprs d.body).head?, e.isDeclaration = false := by decide
  have hname : ∀ d ∈ definitions, ∀ b ∈ Builtin.all, b.name ≠ d.name := by decide
  exact fun d hd => ⟨hparams d hd, hbody d hd, hname d hd⟩

theorem nodup_names : (definitions.map (·.name)).Nodup := by decide

end Prelude

/-! ## Where the prelude stands -/

namespace Heap

variable {h h' : Heap} {k s root : Nat} {d : Prelude.Definition}

/-- The function `k` is that of the definition, made in the scope `root`. -/
def Implements (h : Heap) (root k : Nat) (d : Prelude.Definition) : Prop :=
  ∃ names forms own, names.map Str.text = d.params ∧
    List.Forall₂ (h.Has ∅) forms (Datum.ofExprs d.body) ∧
    h.HasFunction k ⟨names, [], none⟩ forms root own

theorem Implements.retains (hi : h.Implements root k d) (hg : Retains h h') : h'.Implements root k d := by
  obtain ⟨names, forms, own, hnames, hforms, hk⟩ := hi
  exact ⟨names, forms, own, hnames, hforms.imp fun _ _ => hg.has, hk.retains hg⟩

/-- The name of the definition is bound to its function. -/
def Defines (h : Heap) (root : Nat) (d : Prelude.Definition) : Prop :=
  ∃ k, h.lookup? root d.name = some (.closure k) ∧ h.Implements root k d

theorem Defines.implements (hd : h.Defines root d) (hk : h.lookup? root d.name = some (.closure k)) :
    h.Implements root k d := by
  obtain ⟨k', hk', hi⟩ := hd
  rw [hk] at hk'
  cases hk'
  exact hi

/-- The builtins and the functions of the prelude are bound under their names. -/
structure StandsAt (h : Heap) (root : Nat) : Prop where
  standard : h.Standard root
  defined : ∀ d ∈ Prelude.definitions, h.Defines root d

/-- The prelude goes on to stand where code is kept and the scope looks up the same. -/
theorem StandsAt.kept (hs : h.StandsAt root) (hretains : Retains h h')
    (hlookup : ∀ name, h'.lookup? root name = h.lookup? root name) : h'.StandsAt root where
  standard b := by rw [hlookup, hs.standard b]
  defined d hd := by
    obtain ⟨k, hv, hk⟩ := hs.defined d hd
    exact ⟨k, by rw [hlookup, hv], hk.retains hretains⟩

/-! ### Outermost scopes -/

structure Outermost (h : Heap) (s : Nat) : Prop where
  lt : s < h.scopes.size
  parent_eq : (h.scopeAt s).parent = none

namespace Outermost

variable (ho : h.Outermost s)
include ho

theorem enclosing?_eq : h.enclosing? s = none := by rw [enclosing?, ho.parent_eq]

theorem root_eq : h.root s = s := by rw [Heap.root, ho.enclosing?_eq]

theorem lookup?_eq (name : String) : h.lookup? s name = h.own? s name := by
  rw [lookup?_eq_findSome?, chain, ho.enclosing?_eq]
  cases hown : h.own? s name <;> simp [hown]

theorem define (name : Str) (v : Value) : (h.define s name v).Outermost s where
  lt := by rw [size_scopes_define]; exact ho.lt
  parent_eq := (parent_define _ _ _ _ _).trans ho.parent_eq

end Outermost

end Heap

/-! ## Evaluating the prelude -/

section

variable {h h₁ h₂ : Heap} {n root : Nat} {form v w : Value} {forms : List Value}
  {d : Prelude.Definition} {ds : List Prelude.Definition}

/-- What evaluating definitions leaves: their names are bound to their functions in the scope, and
what else is bound there is kept. -/
structure Heap.Defined (h : Heap) (root : Nat) (ds : List Prelude.Definition) (h' : Heap) : Prop where
  retains : Retains h h'
  outermost : h'.Outermost root
  own?_eq : ∀ x, x ∉ ds.map (·.name) → h'.own? root x = h.own? root x
  defines : ∀ d ∈ ds, h'.Defines root d
  closed : h.Closed → h'.Closed

theorem exists_yields_definition (hd : d.Plain) (hform : h.Has ∅ form (.ofExpr d.toExpr))
    (ho : h.Outermost root) (n : Nat) :
    ∃ v h', Yields ((Interp.ofDepth (n + 1)).eval form root) h v h' ∧ h.Defined root [d] h' := by
  have hshape : Datum.ofExpr d.toExpr
      = .list (.sym "defun" :: .sym d.name :: .list (d.params.map .sym) :: Datum.ofExprs d.body) := by
    simp [Prelude.Definition.toExpr, Prelude.sym, Datum.ofExpr, Datum.ofExprs, Datum.ofExprs_eq_map]
  rw [hshape] at hform
  obtain ⟨k, g, s, names, forms, heval, hs, hnames, hforms, hextends, hscopes, hk, hclosed⟩ :=
    exists_yields_defun hform hd.params hd.body n root
  have hog : g.Outermost root :=
    ⟨by rw [hscopes]; exact ho.lt, by rw [Heap.scopeAt_congr hscopes]; exact ho.parent_eq⟩
  rw [hog.root_eq] at heval
  have hretains : Retains g (g.define root s (.closure k)) := .of_eq rfl rfl
  refine ⟨_, _, heval, hextends.toRetains.trans hretains, hog.define _ _, ?_, ?_, ?_⟩
  · intro x hx
    rw [List.map_singleton, List.mem_singleton] at hx
    rw [Heap.own?_define_of_text_ne (by rw [hs]; exact Ne.symm hx), Heap.own?_congr hscopes]
  · intro e he
    rw [List.mem_singleton] at he
    subst he
    refine ⟨k, ?_, names, forms, some s, hnames, ?_, hk.retains hretains⟩
    · rw [(hog.define _ _).lookup?_eq, Heap.own?_define hog.lt, if_pos hs]
    · exact hforms.imp fun _ _ hv => (hextends.toRetains.trans hretains).has hv
  · exact fun hc => (hclosed hc ho.lt).define _ _ hk.bound

theorem exists_yields_body_cons {next : Interp} {scope : Nat}
    (hform : Yields (next.eval form scope) h v h₁) (hforms : Yields (next.body scope forms) h₁ w h₂) :
    ∃ u, Yields (next.body scope (form :: forms)) h u h₂ := by
  cases forms with
  | nil =>
    obtain ⟨ns, hrun⟩ := hforms ⟨h₁, [], [], []⟩ rfl
    cases hrun
    exact ⟨v, hform⟩
  | cons f fs => exact ⟨w, hform.bind hforms⟩

/-- Definitions of different names are evaluated one after the other. -/
theorem exists_yields_definitions (hds : ∀ d ∈ ds, d.Plain) (hnames : (ds.map (·.name)).Nodup)
    (hforms : List.Forall₂ (h.Has ∅) forms (Datum.ofExprs (ds.map (·.toExpr))))
    (ho : h.Outermost root) (n : Nat) :
    ∃ v h', Yields ((Interp.ofDepth (n + 1)).body root forms) h v h' ∧ h.Defined root ds h' := by
  induction ds generalizing h forms with
  | nil =>
    cases hforms
    exact ⟨.nil, h, yields_pure _ h, .of_eq rfl rfl, ho, fun _ _ => rfl, List.forall_mem_nil _, id⟩
  | cons d ds ih =>
    obtain ⟨hd, hds⟩ := List.forall_mem_cons.1 hds
    rw [List.map_cons, List.nodup_cons] at hnames
    cases hforms with
    | cons hform hforms =>
      obtain ⟨v, g, hv, hg⟩ := exists_yields_definition hd hform ho n
      obtain ⟨w, h', hw, hh'⟩ :=
        ih hds hnames.2 (hforms.imp fun _ _ => hg.retains.has) hg.outermost
      obtain ⟨u, hu⟩ := exists_yields_body_cons hv hw
      refine ⟨u, h', hu, hg.retains.trans hh'.retains, hh'.outermost, ?_, ?_, hh'.closed ∘ hg.closed⟩
      · intro x hx
        rw [List.map_cons, List.mem_cons, not_or] at hx
        rw [hh'.own?_eq x hx.2, hg.own?_eq x (by simpa using hx.1)]
      · refine List.forall_mem_cons.2 ⟨?_, hh'.defines⟩
        obtain ⟨k, hk, hi⟩ := hg.defines d (List.mem_singleton_self d)
        rw [hg.outermost.lookup?_eq] at hk
        refine ⟨k, ?_, hi.retains hh'.retains⟩
        rw [hh'.outermost.lookup?_eq, hh'.own?_eq _ hnames.1, hk]

/-- Evaluating the prelude in an outermost scope with the builtins makes it stand there. -/
theorem exists_yields_prelude (hstd : h.Standard root) (ho : h.Outermost root)
    (hforms : List.Forall₂ (h.Has ∅) forms (Datum.ofExprs (Prelude.definitions.map (·.toExpr))))
    (n : Nat) :
    ∃ v h', Yields ((Interp.ofDepth (n + 1)).body root forms) h v h' ∧ h'.StandsAt root ∧
      (h.Closed → h'.Closed) := by
  obtain ⟨v, h', hv, hh'⟩ :=
    exists_yields_definitions Prelude.plain_definitions Prelude.nodup_names hforms ho n
  refine ⟨v, h', hv, ⟨fun b => ?_, hh'.defines⟩, hh'.closed⟩
  have hnew : b.name ∉ Prelude.definitions.map (·.name) := by
    intro hmem
    obtain ⟨d, hd, hname⟩ := List.mem_map.1 hmem
    exact (Prelude.plain_definitions d hd).name b (Builtin.mem_all b) hname.symm
  rw [hh'.outermost.lookup?_eq, hh'.own?_eq _ hnew, ← ho.lookup?_eq, hstd b]

end

/-! ## Prepared runners -/

namespace Heap

variable {h : Heap}

theorem outermost_withRoot (h : Heap) : h.withRoot.Outermost h.scopes.size :=
  withRoot_of (P := fun g => g.Outermost h.scopes.size)
    ⟨by simp [newScope], by simp [newScope, scopeAt]⟩ (fun _ ho => ⟨ho.lt, ho.parent_eq⟩)
    fun s name v ho => ⟨by rw [size_scopes_define]; exact ho.lt,
      (parent_define _ _ _ _ _).trans ho.parent_eq⟩

theorem closed_withRoot (hc : h.Closed) : h.withRoot.Closed := by
  have hscope : (h.newScope none).2.Closed := hc.newScope fun _ hp => nomatch hp
  have hbuiltins : ∀ bs : List Builtin,
      (bs.foldl (Runner.bindBuiltin h.scopes.size) (h.newScope none).2).Closed := fun bs =>
    bs.foldlRecOn _ hscope fun _ hg b _ => (hg.newStr b.name).define _ _ trivial
  have hoperators : ∀ (os : List (String × Builtin)) {g : Heap}, g.Closed →
      (os.foldl (Runner.bindOperator h.scopes.size) g).Closed := fun os _ hg =>
    os.foldlRecOn _ hg fun _ hg _ _ => hg.define _ _ trivial
  exact hoperators _ (hbuiltins _)

end Heap

namespace Runner

/-- The forms of the prelude are those that the world keeps, or else they are read. -/
theorem exists_preludeForms {w : World} (hreg : w.registry = some .extended)
    (hforms : ∀ forms, w.prelude = some forms →
      List.Forall₂ (w.heap.Has ∅) forms (Datum.ofExprs (Prelude.definitions.map (·.toExpr)))) :
    ∃ forms w', preludeForms w = (.ok forms, w') ∧ w'.heap.scopes = w.heap.scopes ∧
      List.Forall₂ (w'.heap.Has ∅) forms
        (Datum.ofExprs (Prelude.definitions.map (·.toExpr))) ∧
      (w.heap.Closed → w'.heap.Closed) := by
  cases hprelude : w.prelude with
  | some forms => exact ⟨forms, w, preludeForms_of_prelude hprelude, rfl, hforms forms hprelude, id⟩
  | none =>
    rw [preludeForms_of_registry hprelude hreg rfl Prelude.readable, preludeForms_of_prelude rfl]
    obtain ⟨hkeeps, hloaded⟩ :=
      Heap.loadAll_has ((Reader.readForms .extended Prelude.cursor).forms.map (·.1)) w.heap
    refine ⟨_, _, rfl, ?_⟩
    rw [World.heap_withPrelude, ← Prelude.forms_eq]
    exact ⟨hkeeps.scopes_eq, hloaded, fun hc => (Heap.Closed.loadAll _ hc).1⟩

/-- A runner with the builtins at its root is prepared, and the prelude stands there then. -/
theorem exists_prepare {r : Runner} {w : World} (hready : r.ready = false)
    (huses : r.usesPrelude = true) (hstd : w.heap.Standard r.root) (ho : w.heap.Outermost r.root)
    (hreg : w.registry = some .extended)
    (hforms : ∀ forms, w.prelude = some forms →
      List.Forall₂ (w.heap.Has ∅) forms (Datum.ofExprs (Prelude.definitions.map (·.toExpr)))) :
    ∃ r' w', r.prepare w = (.ok (), r', w') ∧ r'.root = r.root ∧ w'.heap.StandsAt r.root ∧
      (w.heap.Closed → w'.heap.Closed) := by
  obtain ⟨forms, w₁, hread, hscopes, hhas, hclosed⟩ := exists_preludeForms hreg hforms
  have hstd₁ : w₁.heap.Standard r.root := fun b => by
    rw [Heap.lookup?_congr fun t _ => Heap.scopeAt_congr hscopes t, hstd b]
  have ho₁ : w₁.heap.Outermost r.root :=
    ⟨by rw [hscopes]; exact ho.lt, by rw [Heap.scopeAt_congr hscopes]; exact ho.parent_eq⟩
  obtain ⟨v, h', hv, hstands, hclosed'⟩ := exists_yields_prelude hstd₁ ho₁ hhas (depthLimit - 1)
  obtain ⟨ns, hbody⟩ := hv (r.machine w₁) rfl
  have hrun : r.run w₁ ((Interp.ofDepth depthLimit).body r.root forms)
      = (.ok v, r, { w₁ with heap := h', notes := ns }) := by
    rw [Runner.run]
    exact hbody ▸ rfl
  refine ⟨{ r with ready := true }, { w₁ with heap := h', notes := ns }, ?_, rfl, hstands,
    hclosed' ∘ hclosed⟩
  rw [prepare, hready, huses, hread]
  simp only [Bool.or_self, Bool.false_eq_true, Bool.not_true, ↓reduceIte, hrun, huses]

end Runner

end Sigil
