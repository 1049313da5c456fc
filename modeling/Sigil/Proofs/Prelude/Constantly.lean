import Sigil.Proofs.Prelude.Definitions

/-!
# Functions that give one value

The function that `constantly` of the prelude makes of a value is a positional one whose only form is
the name of that value (`Heap.Constant`). It takes up to two arguments: it gives the value for
these, and a third one is an error of arity (`constantly_returns_iff`).
-/

namespace Sigil

open Eval
open Heap (Extends)

/-- The function `c` is a positional one whose only form is the name `value`, which is looked up to
be `v` where it was made. -/
def Heap.Constant (h : Heap) (c : Nat) (v : Value) : Prop :=
  ∃ s t form scope, s.text = "%" ∧ t.text = "%%" ∧
    h.HasFunction c ⟨[], [s, t], none⟩ [form] scope none ∧ h.Has ∅ form (.sym "value") ∧
    h.lookup? scope "value" = some v

variable {h h' : Heap} {T : Set Nat} {c k root : Nat} {v : Value} {args : List Value}

theorem Heap.Constant.yields_call (hc : h.Constant c v) (hargs : args.length ≤ 2) (n : Nat)
    (name : Option String) :
    ∃ h', Yields ((Interp.ofDepth (n + 2)).call (.closure c) args name) h v h' ∧ Extends ∅ h h' := by
  obtain ⟨s, t, form, scope, hs, ht, hk, hform, hv⟩ := hc
  have hextends := (Extends.refl ∅ h).withArguments c ⟨[], [s, t], none⟩ args
  refine ⟨_, yields_callClosure_singleton hk (by simpa [Form.Parameters.Refuses] using hargs) ?_,
    hextends⟩
  refine yields_name (hextends.has hform) (by decide) (by decide) ?_
  rw [Heap.lookup?_withArguments (by simp [Form.Parameters.names, hs, ht]), hk.scope_eq, hv]
  rw [hk.scope_eq]
  exact Heap.lt_of_lookup? hv

/-- More than two arguments are refused. -/
theorem Heap.Constant.call_of_two_lt {m : Machine} (hc : m.heap.Constant c v)
    (hargs : 2 < args.length) (n : Nat) (name : Option String) :
    ∃ f : EvalFault, f.category = .arity ∧
      (Interp.ofDepth (n + 1)).call (.closure c) args name m
        = .error (.fault f) (m.calling c args name) := by
  obtain ⟨s, t, form, scope, -, -, hk, -⟩ := hc
  obtain ⟨f, hf, hcall⟩ : ∃ f : EvalFault, f.category = .arity ∧ ∀ next,
      callValue next (.closure c) args name m = .error (.fault f) (m.calling c args name) :=
    Interp.callValue_of_refuses hk.toHasParameters (.inr ⟨by simpa using hargs, rfl⟩)
  exact ⟨f, hf, hcall _⟩

/-- The function `constantly` makes such a function of every value. -/
theorem Heap.Defines.yields_constantly (hd : h.Defines root .constantly)
    (hk : h.lookup? root "constantly" = some (.closure k)) (v : Value) (n : Nat)
    (name : Option String) :
    ∃ c h', Yields ((Interp.ofDepth (n + 2)).call (.closure k) [v] name) h (.closure c) h' ∧
      Extends ∅ h h' ∧ h'.Constant c v := by
  obtain ⟨names, forms, own, hnames, hforms, hfunction⟩ := hd.implements hk
  obtain ⟨x, rfl, hx⟩ : ∃ x, names = [x] ∧ x.text = "value" := List.map_eq_singleton_iff.1 hnames
  obtain ⟨form, rest, hform, hrest, rfl⟩ := List.forall₂_cons_right_iff.1 hforms
  obtain rfl := List.forall₂_nil_right_iff.1 hrest
  have hextends := (Extends.refl ∅ h).withArguments k ⟨[x], [], none⟩ [v]
  obtain ⟨c, h', s, t, body, heval, hs', ht, hbody, hextends', hc⟩ :=
    exists_yields_positional (d := .sym "value") (hextends.has hform) rfl n h.scopes.size
  refine ⟨c, h', yields_callClosure_singleton hfunction (by simp [Form.Parameters.Refuses]) heval,
    hextends.trans hextends', s, t, body, _, hs', ht, hc, hextends'.has hbody, ?_⟩
  have hown : (h.withArguments k ⟨[x], [], none⟩ [v]).own? h.scopes.size "value" = some v := by
    have hbound := Heap.map_own?_withArguments (h := h) (k := k)
      (show ([x].map (·.text)).Nodup from List.nodup_singleton _)
      (show [v].length = [x].length from rfl)
    simpa [hx] using hbound
  have hlookup := Heap.lookup?_of_own? hown
  rw [hextends'.lookup? (Heap.lt_of_lookup? hlookup), hlookup]

/-- Where its name is not bound anew, `constantly` makes of every value a function that gives this value
for a list of arguments, without an effect, exactly when there are at most two of them. It refuses
more. -/
theorem constantly_returns_iff {m : Machine} (hd : m.heap.Defines root .constantly)
    (hk : m.heap.lookup? root "constantly" = some (.closure k)) (v : Value) (n : Nat)
    (name : Option String) :
    ∃ c h' notes, (Interp.ofDepth (n + 2)).call (.closure k) [v] name m
        = .ok (.closure c) { m with heap := h', notes } ∧
      Extends ∅ m.heap h' ∧ h'.Constant c v ∧
      ∀ (m' : Machine), m'.heap.Constant c v → ∀ (args : List Value) (n : Nat) (name : Option String),
        ((∃ h' notes, (Interp.ofDepth (n + 2)).call (.closure c) args name m'
            = .ok v { m' with heap := h', notes } ∧ Extends ∅ m'.heap h') ↔ args.length ≤ 2) ∧
        (2 < args.length → ∃ f : EvalFault, f.category = .arity ∧
          (Interp.ofDepth (n + 2)).call (.closure c) args name m'
            = .error (.fault f) (m'.calling c args name)) := by
  obtain ⟨c, h', hcall, hextends, hc⟩ := hd.yields_constantly hk v n name
  obtain ⟨notes, hrun⟩ := hcall m rfl
  refine ⟨c, h', notes, hrun, hextends, hc, fun m' hm' args n name => ?_⟩
  refine ⟨⟨?_, fun hargs => ?_⟩, fun hargs => hm'.call_of_two_lt hargs (n + 1) name⟩
  · rintro ⟨h', notes, hok, -⟩
    by_contra hargs
    obtain ⟨f, -, hfault⟩ := hm'.call_of_two_lt (not_le.1 hargs) (n + 1) name
    rw [hfault] at hok
    cases hok
  · obtain ⟨h', hcall, hextends⟩ := hm'.yields_call hargs n name
    obtain ⟨notes, hrun⟩ := hcall m' rfl
    exact ⟨h', notes, hrun, hextends⟩

namespace Runner

/-- In the first runner, the function that gives one takes two arguments and no third one. -/
theorem constantly_returns_iff_first :
    ∃ r w k, first.1.prepare first.2 = (.ok (), r, w) ∧ w.heap.Defines r.root .constantly ∧
      w.heap.lookup? r.root "constantly" = some (.closure k) ∧
      ∃ c h' notes, (Interp.ofDepth 2).call (.closure k) [.int 1] none (r.machine w)
          = .ok (.closure c) { r.machine w with heap := h', notes } ∧
        ∀ args : List Value, (∃ h'' notes', (Interp.ofDepth 2).call (.closure c) args none
            { r.machine w with heap := h', notes }
          = .ok (.int 1) { r.machine w with heap := h'', notes := notes' } ∧ Extends ∅ h' h'') ↔
          args.length ≤ 2 := by
  obtain ⟨r, w, hprepare, hroot, hstands, -⟩ :=
    exists_prepare (r := first.1) (w := first.2) rfl rfl (Heap.standard_create _ _ _)
      (Heap.outermost_withRoot _) rfl (fun _ hforms => nomatch hforms)
  rw [← hroot] at hstands
  have hd := hstands.defined .constantly (by simp [Prelude.definitions])
  obtain ⟨k, hk, -⟩ := id hd
  obtain ⟨c, h', notes, hcall, -, hc, hreturns⟩ :=
    constantly_returns_iff (m := r.machine w) hd hk (.int 1) 0 none
  exact ⟨r, w, k, hprepare, hd, hk, c, h', notes, hcall,
    fun args => (hreturns _ hc args 0 none).1⟩

/-- A function that gives one is applied to two arguments, and is not to three. -/
theorem not_constantly_three :
    value? (first.1.handle first.2 "(apply (constantly 1) (list 1 2))").1 = some (.int 1) ∧
      ¬ value? (first.1.handle first.2 "(apply (constantly 1) (list 1 2 3))").1 = some (.int 1) := by
  have hrun := handle_withPrelude (r := first.1) (w := first.2) rfl rfl rfl rfl rfl Prelude.readable
  rw [hrun, hrun]
  decide +kernel

end Runner

end Sigil
