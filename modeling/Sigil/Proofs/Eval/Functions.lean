import Sigil.Proofs.Eval.Applied
import Sigil.Proofs.Eval.Arguments
import Sigil.Proofs.Heap.Extension

/-!
# Functions of code

A function of a heap has its parameters, the forms of its body and the scope in which it was made
(`Heap.HasFunction`). Making one leaves the other objects as they are (`Form.exists_yields_function`).
A call binds the arguments in a new scope, which sees the names of the scope of the function but for
its parameters (`Heap.lookup?_withArguments`), and evaluates the forms there one after the other
(`yields_callClosure`).
-/

namespace Sigil

open Eval

/-! ## Functions of a heap -/

namespace Heap

variable {T : Set Nat} {h h' : Heap} {k s scope : Nat} {ps : Form.Parameters}
  {forms args : List Value} {own : Option Str}

theorem HasFunction.retains (hk : h.HasFunction k ps forms scope own) (he : Retains h h') :
    h'.HasFunction k ps forms scope own := by
  have hclosure := he.closureAt_eq k hk.bound
  constructor
  · constructor
    · rw [hclosure, he.items_eq _ hk.required_lt, hk.required]
    · rw [hclosure, he.items_eq _ hk.optional_lt, hk.optional]
    · rw [hclosure, hk.rest]
  · rw [hclosure, he.items_eq _ hk.body_lt, hk.items_body]
  · rw [hclosure, hk.scope_eq]
  · rw [hclosure, hk.name_eq]
  · exact Nat.lt_of_lt_of_le hk.bound he.closures_le
  · rw [hclosure]
    exact Nat.lt_of_lt_of_le hk.required_lt he.sequences_le
  · rw [hclosure]
    exact Nat.lt_of_lt_of_le hk.optional_lt he.sequences_le
  · rw [hclosure]
    exact Nat.lt_of_lt_of_le hk.body_lt he.sequences_le

/-! ### Scopes of calls -/

theorem Extends.bindAll (he : Extends T h h') (hs : h.scopes.size ≤ s) (xs : List Str)
    (args : List Value) : Extends T h (h'.bindAll s xs args) := by
  induction xs generalizing h' args with
  | nil => exact he
  | cons x xs ih => exact ih (he.define hs x _) _

theorem Extends.withArguments (he : Extends T h h') (k : Nat) (ps : Form.Parameters)
    (args : List Value) : Extends T h (h'.withArguments k ps args) := by
  have hnamed : Extends T h (h'.withNamed k ps args) :=
    (he.newScope _).bindAll he.scopes_le _ _
  rw [Heap.withArguments]
  cases ps.rest with
  | none => exact hnamed
  | some x => exact (hnamed.newSequence _).define he.scopes_le x _

theorem parent_bindAll (s : Nat) (xs : List Str) (args : List Value) (h : Heap) (t : Nat) :
    ((h.bindAll s xs args).scopeAt t).parent = (h.scopeAt t).parent := by
  induction xs generalizing h args with
  | nil => rfl
  | cons x xs ih => rw [bindAll, ih, parent_define]

theorem parent_withArguments (h : Heap) (k : Nat) (ps : Form.Parameters) (args : List Value) :
    ((h.withArguments k ps args).scopeAt h.scopes.size).parent = some (h.closureAt k).scope := by
  have hnamed : ((h.withNamed k ps args).scopeAt h.scopes.size).parent
      = some (h.closureAt k).scope := by
    rw [withNamed, parent_bindAll]
    simp [newScope, scopeAt]
  rw [withArguments]
  cases ps.rest with
  | none => exact hnamed
  | some x => exact (parent_define _ _ _ _ _).trans hnamed

/-- The scope of a call binds the parameters only. -/
theorem own?_withArguments_of_not_mem {x : String} (hx : x ∉ ps.names) :
    (h.withArguments k ps args).own? h.scopes.size x = none := by
  rw [Form.Parameters.names, List.map_append, List.mem_append, not_or] at hx
  have hnamed : (h.withNamed k ps args).own? h.scopes.size x = none := by
    rw [withNamed, own?_bindAll_of_not_mem hx.1]
    simp [newScope, own?, scopeAt, bound?]
  rw [withArguments]
  cases hrest : ps.rest with
  | none => exact hnamed
  | some y =>
    have hne : y.text ≠ x := fun heq => hx.2 (by simp [hrest, heq])
    exact (own?_define_of_text_ne hne).trans hnamed

/-- The scope of a call of a function with required parameters binds them to the arguments. -/
theorem map_own?_withArguments {xs : List Str} (hxs : (xs.map (·.text)).Nodup)
    (hargs : args.length = xs.length) :
    xs.map (fun x => (h.withArguments k ⟨xs, [], none⟩ args).own? h.scopes.size x.text)
      = args.map some := by
  have hnames : (Form.Parameters.names ⟨xs, [], none⟩).Nodup := by
    simpa [Form.Parameters.names] using hxs
  have hbinds := binds_withArguments (h := h) (k := k) hnames
    (by simp [Form.Parameters.Refuses, hargs] : ¬ Form.Parameters.Refuses ⟨xs, [], none⟩ args.length)
  simpa [Form.Parameters.readBack] using hbinds.arguments

/-- Every other name is looked up in the scope in which the function was made. -/
theorem lookup?_withArguments {x : String} (hx : x ∉ ps.names)
    (hscope : (h.closureAt k).scope < h.scopes.size) :
    (h.withArguments k ps args).lookup? h.scopes.size x = h.lookup? (h.closureAt k).scope x := by
  have hin : (h.withArguments k ps args).enclosing? h.scopes.size
      = some ⟨(h.closureAt k).scope, hscope⟩ := by
    rw [enclosing?, parent_withArguments]
    exact dif_pos hscope
  rw [← ((Extends.refl ∅ h).withArguments k ps args).lookup? hscope, lookup?_eq_findSome?, chain, hin,
    List.findSome?_cons, own?_withArguments_of_not_mem hx, lookup?_eq_findSome?]

/-- The builtins are bound in the scope of a call when no parameter has the name of one. -/
theorem Standard.withArguments (hstd : h.Standard (h.closureAt k).scope)
    (hnames : ∀ b : Builtin, b.name ∉ ps.names) :
    (h.withArguments k ps args).Standard h.scopes.size := fun b => by
  rw [lookup?_withArguments (hnames b) (lt_of_lookup? (hstd b)), hstd b]

end Heap

/-! ## Making functions -/

theorem Heap.Closed.newFunction {h : Heap} {forms : List Value} {scope : Nat} (hc : h.Closed)
    (ps : Form.Parameters) (hforms : h.present.CoversAll forms) (own : Option Str)
    (hscope : scope < h.scopes.size) : (h.newFunction ps forms scope own).2.Closed := by
  have hstrings : ∀ (π : Region) (names : List Str), π.CoversAll (names.map .str) := by
    intro π names v hv
    obtain ⟨s, -, rfl⟩ := List.mem_map.1 hv
    trivial
  have hbody := ((hc.newSequence (hstrings _ ps.required)).newSequence
    (hstrings _ ps.optional)).newSequence fun v hv =>
      ((contains_newSequence _ _).trans (contains_newSequence _ _)).covers (hforms v hv)
  exact hbody.newClosure (by simp [Heap.newSequence]; omega) (by simp [Heap.newSequence])
    (by simp [Heap.newSequence]) hscope

/-- A form `(declare …)`. -/
def Datum.isDeclaration : Datum → Bool
  | .list (.sym name :: _) | .vector (.sym name :: _) => name == "declare"
  | _ => false

namespace Form

variable {h : Heap} {form v : Value} {ps : Parameters} {forms : List Value} {scope : Nat}
  {own : Option Str}

theorem exists_parameters_names {xs : List String} (hform : h.Has ∅ form (.list (xs.map .sym)))
    (hxs : ∀ x ∈ xs, x ≠ "&optional" ∧ x ≠ "&rest") :
    ∃ names : List Str, names.map (·.text) = xs ∧
      ∀ m : Machine, m.heap = h → parameters form m = .ok ⟨names, [], none⟩ m := by
  obtain ⟨a, rfl, hparts⟩ := Expr.exists_list_of_has hform
  obtain ⟨names, hitems, htexts⟩ : ∃ names : List Str, h.items a = names.map .sym ∧
      names.map (·.text) = xs := by
    generalize h.items a = items at hparts
    clear hform hxs
    induction xs generalizing items with
    | nil =>
      cases hparts
      exact ⟨[], rfl, rfl⟩
    | cons x xs ih =>
      cases hparts with
      | cons hhead hrest =>
        obtain ⟨s, rfl, hs⟩ := Expr.exists_sym_of_has hhead
        obtain ⟨names, rfl, rfl⟩ := ih _ hrest
        exact ⟨s :: names, rfl, by rw [List.map_cons, hs]⟩
  refine ⟨names, htexts, ?_⟩
  rintro m rfl
  have hnames : ∀ x ∈ names, x.text ≠ "&optional" ∧ x.text ≠ "&rest" :=
    fun x hx => hxs x.text (htexts ▸ List.mem_map_of_mem hx)
  have hsort := Interp.sortParameters_eq (m := m) ⟨[], [], none⟩ hnames
  rw [parameters]
  refine (bind_of_ok (show heap m = .ok m.heap m from rfl)).trans ?_
  rw [hitems]
  exact hsort

/-- The parameters of a positional function are optional. -/
theorem exists_parameters_positional
    (hform : h.Has ∅ form (.list [.sym "&optional", .sym "%", .sym "%%"])) :
    ∃ s t : Str, s.text = "%" ∧ t.text = "%%" ∧
      ∀ m : Machine, m.heap = h → parameters form m = .ok ⟨[], [s, t], none⟩ m := by
  obtain ⟨a, r, rest, rfl, hitems, hr, hrest⟩ := Expr.exists_form_of_has hform
  obtain ⟨v, vs, hv, hvs, rfl⟩ := List.forall₂_cons_right_iff.1 hrest
  obtain ⟨w, ws, hw, hws, rfl⟩ := List.forall₂_cons_right_iff.1 hvs
  obtain rfl := List.forall₂_nil_right_iff.1 hws
  obtain ⟨s, rfl, hs⟩ := Expr.exists_sym_of_has hv
  obtain ⟨t, rfl, ht⟩ := Expr.exists_sym_of_has hw
  refine ⟨s, t, hs, ht, ?_⟩
  rintro m rfl
  have hsymbol : ∀ x : Str, symbol "Parameter" (.sym x) m = .ok x m := fun _ => rfl
  have hplain : ∀ (x : Str) (ps : Parameters) (vs : List Value), x.text = "%" ∨ x.text = "%%" →
      sortParameters .optional ps (.sym x :: vs) m
        = sortParameters .optional { ps with optional := ps.optional ++ [x] } vs m := by
    intro x ps vs hx
    have hmarkers : x.text ≠ "&optional" ∧ x.text ≠ "&rest" := by
      rcases hx with hx | hx <;> rw [hx] <;> decide
    rw [sortParameters, bind_of_ok (hsymbol x), if_neg hmarkers.1, if_neg hmarkers.2]
  rw [parameters]
  refine (bind_of_ok (show heap m = .ok m.heap m from rfl)).trans ?_
  rw [hitems, sortParameters, bind_of_ok (hsymbol r), if_pos hr, hplain s _ _ (.inl hs),
    hplain t _ _ (.inr ht)]
  rfl

theorem isDeclaration_of_has {d : Datum} (hv : h.Has ∅ v d) : isDeclaration h v = d.isDeclaration := by
  have hhead : ∀ (a : Nat) (ds : List Datum), List.Forall₂ (h.Has ∅) (h.items a) ds →
      isDeclaration h (.list a) = (Datum.list ds).isDeclaration ∧
        isDeclaration h (.vector a) = (Datum.vector ds).isDeclaration := by
    intro a ds hparts
    simp only [isDeclaration, Value.sequence?]
    generalize h.items a = items at hparts
    cases hparts with
    | nil => exact ⟨rfl, rfl⟩
    | cons hw _ =>
      cases Heap.level_of_has hw with
      | sym hs => simp [Datum.isDeclaration, hs]
      | _ => exact ⟨rfl, rfl⟩
  cases Heap.level_of_has hv with
  | list _ hparts => exact (hhead _ _ hparts).1
  | vector _ hparts => exact (hhead _ _ hparts).2
  | _ => rfl

theorem exists_yields_function (hps : ∀ m : Machine, m.heap = h → parameters v m = .ok ps m)
    (forms : List Value) (scope : Nat) (own : Option Str) :
    ∃ k h', Yields (function v forms scope own) h (.closure k) h' ∧ Heap.Extends ∅ h h' ∧
      h'.scopes = h.scopes ∧ h'.HasFunction k ps (forms.dropWhile (isDeclaration h)) scope own ∧
      (h.Closed → h.present.CoversAll forms → scope < h.scopes.size → h'.Closed) := by
  have hfunction := Heap.hasFunction_newFunction h ps (forms.dropWhile (isDeclaration h)) scope own
  refine ⟨_, _, ?_, ((((Heap.Extends.refl ∅ h).newSequence _).newSequence _).newSequence _).newClosure _,
    rfl, hfunction, fun hc hforms => ?_⟩
  · rintro m rfl
    exact ⟨m.notes, function_eq (hps m rfl) forms scope own⟩
  · exact hc.newFunction ps (fun w hw => hforms w ((List.dropWhile_sublist _).mem hw)) own

end Form

/-! ## Evaluating code -/

section Rules

variable {h h₁ h₂ : Heap} {n k scope : Nat} {form v w : Value} {x : String} {d : Datum}
  {ds : List Datum} {forms args : List Value} {ps : Form.Parameters} {own : Option Str}
  {name : Option String}

theorem yields_name (hform : h.Has ∅ form (.sym x)) (hnil : x ≠ "nil") (ht : x ≠ "t")
    (hv : h.lookup? scope x = some v) :
    Yields ((Interp.ofDepth (n + 1)).eval form scope) h v h := by
  obtain ⟨s, rfl, rfl⟩ := Expr.exists_sym_of_has hform
  exact yields_eval_sym (yields_lookup hnil ht hv)

/-- Forms with these contents evaluate to the value in the scope, and change nothing. -/
def Interp.Gives (next : Interp) (h : Heap) (scope : Nat) (d : Datum) (v : Value) : Prop :=
  ∀ form, h.Has ∅ form d → Yields (next.eval form scope) h v h

theorem gives_name (hnil : x ≠ "nil") (ht : x ≠ "t") (hv : h.lookup? scope x = some v) :
    (Interp.ofDepth (n + 1)).Gives h scope (.sym x) v :=
  fun _ hform => yields_name hform hnil ht hv

/-- A call of a builtin by its name, with arguments that change nothing. -/
theorem yields_call_of_gives {b : Builtin} (hform : h.Has ∅ form (.list (.sym b.name :: ds)))
    (hstd : h.Standard scope)
    (hargs : List.Forall₂ ((Interp.ofDepth (n + 1)).Gives h scope) ds args)
    (hcount : b.signature.complaint? ("StdLib." ++ b.callName) args.length = none)
    (hrun : Yields (Library.run (Interp.ofDepth n) b args) h v h₁) :
    Yields ((Interp.ofDepth (n + 2)).eval form scope) h v h₁ := by
  obtain ⟨a, s, forms, rfl, hitems, hs, hforms⟩ := Expr.exists_form_of_has hform
  have hvalues : Yields ((Interp.ofDepth (n + 1)).values scope forms) h args h := by
    clear hform hitems hcount hrun
    induction hargs generalizing forms with
    | nil =>
      obtain rfl := List.forall₂_nil_right_iff.1 hforms
      exact yields_values_nil _ _ _
    | cons harg _ ih =>
      obtain ⟨v, vs, hv, hvs, rfl⟩ := List.forall₂_cons_right_iff.1 hforms
      exact yields_values_cons (harg v hv) (ih vs hvs)
  exact yields_call hitems hs hstd hvalues hcount hrun

/-- The code of a positional function with one form. -/
def Datum.positional (d : Datum) : Datum :=
  .list [.sym "lambda", .list [.sym "&optional", .sym "%", .sym "%%"],
    .list [.sym "declare", .list [.sym "ignorable", .sym "%", .sym "%%"]], d]

/-- A positional function takes up to two arguments. -/
theorem exists_yields_positional (hform : h.Has ∅ form d.positional)
    (hd : d.isDeclaration = false) (n scope : Nat) :
    ∃ k h' s t body, Yields ((Interp.ofDepth (n + 1)).eval form scope) h (.closure k) h' ∧
      s.text = "%" ∧ t.text = "%%" ∧ h.Has ∅ body d ∧ Heap.Extends ∅ h h' ∧
      h'.HasFunction k ⟨[], [s, t], none⟩ [body] scope none := by
  obtain ⟨a, f, rest, rfl, hitems, hf, hrest⟩ := Expr.exists_form_of_has hform
  obtain ⟨params, vs, hparams, hvs, rfl⟩ := List.forall₂_cons_right_iff.1 hrest
  obtain ⟨declaration, ws, hdeclaration, hws, rfl⟩ := List.forall₂_cons_right_iff.1 hvs
  obtain ⟨body, us, hbody, hus, rfl⟩ := List.forall₂_cons_right_iff.1 hws
  obtain rfl := List.forall₂_nil_right_iff.1 hus
  obtain ⟨s, t, hs, ht, hps⟩ := Form.exists_parameters_positional hparams
  obtain ⟨k, h', hfunction, hextends, -, hk, -⟩ :=
    Form.exists_yields_function hps [declaration, body] scope none
  rw [List.dropWhile_cons_of_pos (Form.isDeclaration_of_has hdeclaration),
    List.dropWhile_cons_of_neg (by rw [Form.isDeclaration_of_has hbody, hd]; decide)] at hk
  refine ⟨k, h', s, t, body, ?_, hs, ht, hbody, hextends, hk⟩
  have hparts : Yields (Form.parts a) h (.sym f :: [params, declaration, body]) h :=
    hitems ▸ Form.yields_parts a h
  have hname : SpecialForm.ofName? f.text = some .lambda := by
    rw [hf]
    decide
  refine hparts.bind (?_ : Yields (evalList (Interp.ofDepth n) a scope (.sym f)) h _ _)
  rw [Interp.evalList_special _ hname]
  exact (hparts.bind (yields_pure () h)).bind
    ((hparts.bind (yields_pure params h)).bind (hparts.bind hfunction))

theorem exists_yields_defun {xs : List String}
    (hform : h.Has ∅ form (.list (.sym "defun" :: .sym x :: .list (xs.map .sym) :: ds)))
    (hxs : ∀ y ∈ xs, y ≠ "&optional" ∧ y ≠ "&rest")
    (hds : ∀ d ∈ ds.head?, d.isDeclaration = false) (n scope : Nat) :
    ∃ k h' s names forms, Yields ((Interp.ofDepth (n + 1)).eval form scope) h (.sym s)
        (h'.define (h'.root scope) s (.closure k)) ∧
      s.text = x ∧ names.map (·.text) = xs ∧ List.Forall₂ (h.Has ∅) forms ds ∧
      Heap.Extends ∅ h h' ∧ h'.scopes = h.scopes ∧
      h'.HasFunction k ⟨names, [], none⟩ forms scope (some s) ∧
      (h.Closed → scope < h.scopes.size → h'.Closed) := by
  obtain ⟨a, f, rest, rfl, hitems, hf, hrest⟩ := Expr.exists_form_of_has hform
  obtain ⟨head, vs, hhead, hvs, rfl⟩ := List.forall₂_cons_right_iff.1 hrest
  obtain ⟨params, forms, hparams, hforms, rfl⟩ := List.forall₂_cons_right_iff.1 hvs
  obtain ⟨s, rfl, hs⟩ := Expr.exists_sym_of_has hhead
  obtain ⟨names, hnames, hps⟩ := Form.exists_parameters_names hparams hxs
  obtain ⟨k, h', hfunction, hextends, hscopes, hk, hclosed⟩ :=
    Form.exists_yields_function hps forms scope (some s)
  have hkept : forms.dropWhile (Form.isDeclaration h) = forms := by
    cases hforms with
    | nil => rfl
    | cons hfirst _ =>
      exact List.dropWhile_cons_of_neg
        (by rw [Form.isDeclaration_of_has hfirst, hds _ rfl]; decide)
  rw [hkept] at hk
  refine ⟨k, h', s, names, forms, ?_, hs, hnames, hforms, hextends, hscopes, hk, fun hc =>
    hclosed hc fun v hv => hc.items a v ?_⟩
  swap
  · rw [hitems]
    exact List.mem_cons_of_mem _ (List.mem_cons_of_mem _ (List.mem_cons_of_mem _ hv))
  have hparts : Yields (Form.parts a) h (.sym f :: .sym s :: params :: forms) h :=
    hitems ▸ Form.yields_parts a h
  have ha : a < h.sequences.size := by
    by_contra hle
    rw [Heap.items_of_size_le (not_lt.1 hle)] at hitems
    cases hitems
  have hparts' : Yields (Form.parts a) (h'.define (h'.root scope) s (.closure k))
      (.sym f :: .sym s :: params :: forms) (h'.define (h'.root scope) s (.closure k)) := by
    have hkept : (h'.define (h'.root scope) s (.closure k)).items a
        = .sym f :: .sym s :: params :: forms := (hextends.items_eq a ha).trans hitems
    exact hkept ▸ Form.yields_parts a _
  have hname : SpecialForm.ofName? f.text = some .defun := by
    rw [hf]
    decide
  have hcheck : Yields (Form.checkParts a 2 none) h () h := hparts.bind (yields_pure () h)
  have hhead' : Yields (Form.part a 1) h (.sym s) h := hparts.bind (yields_pure _ h)
  have hparams' : Yields (Form.part a 2) h params h := hparts.bind (yields_pure _ h)
  have hsymbol : Yields (Form.symbol "defun name" (.sym s)) h s h := yields_pure s h
  have hdefine := yields_modifyHeap (fun h => h.define (h.root scope) s (.closure k)) h'
  refine hparts.bind (?_ : Yields (evalList (Interp.ofDepth n) a scope (.sym f)) h _ _)
  rw [Interp.evalList_special _ hname]
  exact hcheck.bind (hhead'.bind (hsymbol.bind (hparams'.bind (hparts.bind (hfunction.bind
    (hdefine.bind (hparts'.bind (yields_pure _ _))))))))

/-! ### Calls -/

theorem yields_liveBody_nil (next : Interp) (scope a index : Nat) (v : Value) (h : Heap) :
    Yields (next.liveBody scope a 0 index v) h v h := yields_pure v h

theorem yields_liveBody_cons {next : Interp} {a count index : Nat} {r : Value}
    (hform : (h.items a)[index]? = some form) (hrun : Yields (next.eval form scope) h w h₁)
    (hrest : Yields (next.liveBody scope a count (index + 1) w) h₁ v h₂) :
    Yields (next.liveBody scope a (count + 1) index r) h v h₂ := by
  refine (yields_heap h).bind ?_
  rw [hform]
  exact hrun.bind hrest

/-- A function is called with arguments that it takes. -/
theorem yields_callClosure (hk : h.HasFunction k ps forms scope own)
    (hargs : ¬ ps.Refuses args.length)
    (hbody : Yields ((Interp.ofDepth n).liveBody h.scopes.size (h.closureAt k).body forms.length 0 .nil)
      (h.withArguments k ps args) v h₁) :
    Yields ((Interp.ofDepth (n + 1)).call (.closure k) args name) h v h₁ := by
  rintro m rfl
  obtain ⟨ns, hrun⟩ := hbody
    { m.calling k args name with heap := m.heap.withArguments k ps args } rfl
  refine ⟨ns, ?_⟩
  show callValue _ _ _ _ m = _
  rw [Interp.callValue_of_not_refuses hk.toHasParameters hargs, Interp.finishCall, hk.items_body,
    Interp.leaving, bind_of_ok hrun]
  rfl

/-- A function with one form in its body gives the value of the form. -/
theorem yields_callClosure_singleton (hk : h.HasFunction k ps [form] scope own)
    (hargs : ¬ ps.Refuses args.length)
    (hform : Yields ((Interp.ofDepth n).eval form h.scopes.size) (h.withArguments k ps args) v h₁) :
    Yields ((Interp.ofDepth (n + 1)).call (.closure k) args name) h v h₁ := by
  refine yields_callClosure hk hargs (yields_liveBody_cons ?_ hform (yields_liveBody_nil _ _ _ _ _ _))
  rw [((Heap.Extends.refl ∅ h).withArguments k ps args).items_eq _ hk.body_lt, hk.items_body]
  rfl

end Rules

end Sigil
