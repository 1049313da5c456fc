import Sigil.Proofs.Eval.Runs

/-!
# Vectors with any elements

What a vector is read as evaluates its elements where the builtins are bound under their names. Nothing
else is known of the elements: they may have any effects, bind the names of the builtins anew and fail.
They are evaluated one after the other, each once, up to the first that fails, and their values are the
elements of a new vector (`Interp.eval_vector`).
-/

namespace Sigil

open Eval

namespace Interp

variable {n : Nat} {s : Str} {forms args : List Value} {m m' : Machine}

/-- What a vector of `n` elements comes to, from the result of its elements: their values are the
elements of a new vector, or the evaluation stops as they do. -/
inductive VectorMade (m : Machine) (n : Nat) :
    EStateM.Result Stop Machine (List Value) → EStateM.Result Stop Machine Value → Prop
  | made {vs : List Value} {a : Nat} {m₁ m' : Machine} (length_eq : vs.length = n)
      (items_eq : m'.heap.items a = vs)
      (heap_eq : (m₁.heap.newSequence vs).2.newSequence vs = (a, m'.heap))
      (calls_eq : m'.calls = m.calls) (effects_eq : m'.effects = m₁.effects) :
      VectorMade m n (.ok vs m₁) (.ok (.vector a) m')
  | stopped (s : Stop) (m' : Machine) : VectorMade m n (.error s m') (.error s m')

theorem call_list (args : List Value) (m : Machine) :
    (ofDepth (n + 1)).call (.builtin .list) args (some Builtin.list.name) m =
      .ok (.list m.heap.sequences.size)
        { m with heap := (m.heap.newSequence args).2, notes := .call "list" args.length :: m.notes } :=
  call_builtin_of_ok (Signature.complaint?_eq_none_iff.2 ⟨Nat.zero_le _, .inl rfl⟩)
    (k := { called .list args m with heap := (m.heap.newSequence args).2 }) rfl

theorem run_makeVector {a : Nat} {items : List Value} (next : Interp)
    (hitems : m.heap.items a = items) :
    Library.run next .makeVector [.int items.length, .list a] m =
      .ok (.vector m.heap.sequences.size) { m with heap := (m.heap.newSequence items).2 } := by
  have helements : Container.elements (.list a) m = .ok items m := by
    rw [← hitems]
    rfl
  show Library.makeVector (.int items.length) (.list a) m = _
  simp only [Library.makeVector]
  rw [if_neg (by omega), bind_of_ok helements, if_pos (by omega)]
  rfl

theorem call_makeVector {a : Nat} {items : List Value} (hitems : m.heap.items a = items) :
    (ofDepth (n + 1)).call (.builtin .makeVector) [.int items.length, .list a]
        (some Builtin.makeVector.name) m =
      .ok (.vector m.heap.sequences.size) { m with
        heap := (m.heap.newSequence items).2, notes := .call "make-vector" 2 :: m.notes } :=
  call_builtin_of_ok rfl
    (run_makeVector (m := called .makeVector [.int items.length, .list a] m) _ hitems)

/-- What a vector is read as evaluates its elements in turn, each once, and gives a new vector of
their values, or stops as the first element does that stops. -/
theorem eval_vector {es : List Expr} {form : Value} {scope : Nat} {m : Machine}
    (hvector : m.heap.lookup? scope "make-vector" = some (.builtin .makeVector))
    (hlist : m.heap.lookup? scope "list" = some (.builtin .list))
    (hform : m.heap.Has ∅ form (.ofExpr (.vector es))) :
    ∃ forms, List.Forall₂ (m.heap.Has ∅) forms (Datum.ofExprs es) ∧
      (∀ depth < 3, (ofDepth depth).eval form scope m = .error .exhausted m) ∧
      ∀ depth, ∃ r, InTurn (ofDepth (depth + 1)) scope forms m r ∧
        VectorMade m es.length r ((ofDepth (depth + 3)).eval form scope m) := by
  obtain ⟨a, s, parts, rfl, hitems, hs, hparts⟩ := Expr.exists_form_of_has hform
  obtain ⟨size, _, hsize, hrest, rfl⟩ := List.forall₂_cons_right_iff.1 hparts
  obtain ⟨elements, _, helements, hnil, rfl⟩ := List.forall₂_cons_right_iff.1 hrest
  obtain rfl := List.forall₂_nil_right_iff.1 hnil
  cases Heap.level_of_has hsize
  obtain ⟨c, t, forms, rfl, hforms, ht, hes⟩ := Expr.exists_form_of_has helements
  replace hs : s.text = Builtin.makeVector.name := hs
  replace ht : t.text = Builtin.list.name := ht
  have hsize : ∀ depth, (ofDepth (depth + 1)).eval (.int es.length) scope m = .ok (.int es.length) m :=
    fun _ => rfl
  refine ⟨forms, hes, fun depth hdepth => ?_, fun depth => ⟨_, inTurn_values _ scope forms m, ?_⟩⟩
  · rcases Nat.lt_succ_iff_lt_or_eq.1 hdepth with hlt | rfl
    · exact eval_named_exhausted hitems hs hlt
    · have hinner : (ofDepth 1).eval (.list c) scope m = .error .exhausted m :=
        eval_named_exhausted hforms ht Nat.one_lt_two
      have hargs : (ofDepth 1).values scope [.int es.length, .list c] m = .error .exhausted m :=
        values_cons_of_rest (hsize 0) (values_cons_of_head hinner)
      rw [eval_named hitems hs hvector, bind_of_error hargs]
  cases hrun : (ofDepth (depth + 1)).values scope forms m with
  | error s m₁ =>
    have hinner : (ofDepth (depth + 2)).eval (.list c) scope m = .error s m₁ := by
      rw [eval_named hforms ht hlist, bind_of_error hrun]
    have hargs : (ofDepth (depth + 2)).values scope [.int es.length, .list c] m = .error s m₁ :=
      values_cons_of_rest (hsize (depth + 1)) (values_cons_of_head hinner)
    rw [eval_named hitems hs hvector, bind_of_error hargs]
    exact .stopped s m₁
  | ok vs m₁ =>
    have hinner := (eval_named hforms ht hlist).trans ((bind_of_ok hrun).trans (call_list vs m₁))
    have hargs := values_cons_of_ok (hsize (depth + 1)) (values_cons_of_ok hinner (values_nil _))
    have hlength : es.length = vs.length := by
      rw [(inTurn_values _ scope forms m).length_eq hrun, hes.length_eq, Datum.ofExprs_eq_map,
        List.length_map]
    have hcalls := ((framed_ofDepth (depth + 1)).values scope forms).calls hrun
    have hmade := call_makeVector (n := depth + 1) (m := { m₁ with
      heap := (m₁.heap.newSequence vs).2, notes := .call "list" vs.length :: m₁.notes })
      (Heap.items_newSequence m₁.heap vs)
    rw [eval_named hitems hs hvector, bind_of_ok hargs, hlength]
    refine hmade ▸ ?_
    exact .made rfl (Heap.items_newSequence _ vs) rfl hcalls rfl

/-- The elements of a vector of which the first one binds `list` anew. -/
def rebinding : List Expr := [.list [.known "setq", .known "list", .int 1], .known "list"]

theorem eval_vector_rebinding :
    let h := libraryScope [.makeVector, .list]
    let m := loaded h (.vector rebinding)
    m.heap.lookup? 0 "make-vector" = some (.builtin .makeVector) ∧
      m.heap.lookup? 0 "list" = some (.builtin .list) ∧
      ∃ r, VectorMade m 2 r ((ofDepth 5).eval (h.load (.vector rebinding)).1 0 m) := by
  intro h m
  have hvector : m.heap.lookup? 0 "make-vector" = some (.builtin .makeVector) := by
    decide +kernel
  have hlist : m.heap.lookup? 0 "list" = some (.builtin .list) := by
    decide +kernel
  obtain ⟨_, -, -, hresult⟩ := eval_vector hvector hlist (has_loaded h (.vector rebinding))
  exact ⟨hvector, hlist, (hresult 2).imp fun _ hr => hr.2⟩

end Interp

end Sigil
