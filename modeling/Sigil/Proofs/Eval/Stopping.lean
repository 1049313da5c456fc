import Sigil.Proofs.Eval.Functions

/-!
# Evaluations that stop

`Stops x h stop` says that the computation `x` stops in the way `stop` on every machine with the heap
`h`. A computation stops where the first of its parts does, and the parts before it give their results
(`Stops.bind`, `Yields.bind_stops`). So a call stops with its arguments or with what is called.
-/

namespace Sigil

namespace Eval

variable {α β : Type} {x : Eval α} {f : α → Eval β} {a : α} {h h₁ : Heap} {stop : Stop}

/-- The computation stops in this way on every machine with the heap `h`. -/
def Stops (x : Eval α) (h : Heap) (stop : Stop) : Prop :=
  ∀ m : Machine, m.heap = h → ∃ m', x m = .error stop m'

theorem stops_raise (e : EvalFault) (h : Heap) : Stops (raise e : Eval α) h (.fault e) :=
  fun m _ => ⟨m, rfl⟩

theorem Stops.bind (hx : Stops x h stop) (f : α → Eval β) : Stops (x >>= f) h stop := by
  intro m hm
  obtain ⟨m', hrun⟩ := hx m hm
  exact ⟨m', bind_of_error hrun⟩

theorem Yields.bind_stops (hx : Yields x h a h₁) (hf : Stops (f a) h₁ stop) :
    Stops (x >>= f) h stop := by
  intro m hm
  obtain ⟨notes, hrun⟩ := hx m hm
  obtain ⟨m', hrest⟩ := hf { m with heap := h₁, notes } rfl
  exact ⟨m', (bind_of_ok hrun).trans hrest⟩

end Eval

open Eval

section Rules

variable {next : Interp} {h h₁ : Heap} {ref scope n k : Nat} {form v : Value}
  {forms args : List Value} {b : Builtin} {s : Str} {ps : Form.Parameters} {own : Option Str}
  {stop : Stop}

/-! ## Arguments -/

theorem stops_values_of_head (hv : Stops (next.eval form scope) h stop) :
    Stops (next.values scope (form :: forms)) h stop := hv.bind _

theorem stops_values_of_rest (hv : Yields (next.eval form scope) h v h₁)
    (hvs : Stops (next.values scope forms) h₁ stop) :
    Stops (next.values scope (form :: forms)) h stop := hv.bind_stops (hvs.bind _)

theorem stops_call_of_values (hitems : h.items ref = .sym s :: forms) (hs : s.text = b.name)
    (hstd : h.Standard scope) (hargs : Stops ((Interp.ofDepth (n + 1)).values scope forms) h stop) :
    Stops ((Interp.ofDepth (n + 2)).eval (.list ref) scope) h stop := by
  rintro m rfl
  obtain ⟨m', hrun⟩ := hargs m rfl
  exact ⟨m', by rw [Interp.eval_named hitems hs (hstd b), bind_of_error hrun]⟩

theorem stops_call (hitems : h.items ref = .sym s :: forms) (hs : s.text = b.name)
    (hstd : h.Standard scope)
    (hargs : Yields ((Interp.ofDepth (n + 1)).values scope forms) h args h₁)
    (hcount : b.signature.complaint? ("StdLib." ++ b.callName) args.length = none)
    (hrun : Stops (Library.run (Interp.ofDepth n) b args) h₁ stop) :
    Stops ((Interp.ofDepth (n + 2)).eval (.list ref) scope) h stop := by
  rintro m rfl
  obtain ⟨notes, hvalues⟩ := hargs m rfl
  obtain ⟨m', hrun⟩ := hrun (Interp.called b args { m with heap := h₁, notes }) rfl
  refine ⟨m', ?_⟩
  rw [Interp.eval_named hitems hs (hstd b), bind_of_ok hvalues,
    Interp.call_builtin_of_error hcount hrun]

/-! ## Functions -/

theorem stops_liveBody {a count index : Nat} {r : Value} (hform : (h.items a)[index]? = some form)
    (hrun : Stops (next.eval form scope) h stop) :
    Stops (next.liveBody scope a (count + 1) index r) h stop := by
  refine (yields_heap h).bind_stops ?_
  rw [hform]
  exact hrun.bind _

theorem stops_callClosure {name : Option String} (hk : h.HasFunction k ps (form :: forms) scope own)
    (hargs : ¬ ps.Refuses args.length)
    (hform : Stops ((Interp.ofDepth n).eval form h.scopes.size) (h.withArguments k ps args) stop) :
    Stops ((Interp.ofDepth (n + 1)).call (.closure k) args name) h stop := by
  have hbody : Stops
      ((Interp.ofDepth n).liveBody h.scopes.size (h.closureAt k).body (form :: forms).length 0 .nil)
      (h.withArguments k ps args) stop := by
    refine stops_liveBody ?_ hform
    rw [((Heap.Extends.refl ∅ h).withArguments k ps args).items_eq _ hk.body_lt, hk.items_body]
    rfl
  rintro m rfl
  obtain ⟨m', hrun⟩ := hbody
    { m.calling k args name with heap := m.heap.withArguments k ps args } rfl
  refine ⟨m', ?_⟩
  show callValue _ _ _ _ m = _
  rw [Interp.callValue_of_not_refuses hk.toHasParameters hargs, Interp.finishCall, hk.items_body,
    Interp.leaving, bind_of_error hrun]

end Rules

/-! ## Builtins -/

namespace Library

variable {h : Heap} {r : Nat} {k : Value}

theorem stops_mapPut (next : Interp) (v : Value) (hput : h.mapPut r k v = none) :
    Stops (run next .mapPut [.map r, k, v]) h (.fault (.endless .key)) := by
  have hstops : Stops (Container.put (.map r) k v) h (.fault (.endless .key)) := by
    rintro m rfl
    refine ⟨m, ?_⟩
    rw [Container.put, Container.putKey_eq, hput]
  exact hstops.bind _

theorem stops_mapGet (next : Interp) (hget : h.mapGet r k = .error .endless) :
    Stops (run next .mapGet [.map r, k]) h (.fault (.endless .key)) := by
  refine (yields_heap h).bind_stops ?_
  rw [show h.mapGet r (arg [.map r, k] 1) = .error .endless from hget]
  exact stops_raise _ h

end Library

end Sigil
