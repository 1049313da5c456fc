import Sigil.Eval.Basic
import Sigil.Proofs.Eval.Framed

/-!
# Evaluations that give a result

`Yields x h a h'` says that the computation `x` gives `a` from every machine with the heap `h` and
leaves the heap `h'`, without an effect. It follows a program rule by rule (`Yields.bind`), so the evaluation of a
form is put together from those of its parts: a call of a builtin by name gives what the builtin
gives for the values of its arguments (`yields_call`).
-/

namespace Sigil

namespace Eval

variable {α β : Type} {x : Eval α} {f : α → Eval β} {a : α} {b : β} {h h₁ h₂ : Heap}

/-- From every machine with the heap `h` the computation gives `a` and leaves the heap `h'`, the calls
under way and the effects so far. -/
def Yields (x : Eval α) (h : Heap) (a : α) (h' : Heap) : Prop :=
  ∀ m : Machine, m.heap = h → ∃ notes, x m = .ok a { m with heap := h', notes }

theorem yields_pure (a : α) (h : Heap) : Yields (pure a) h a h := by
  rintro m rfl
  exact ⟨m.notes, rfl⟩

theorem Yields.bind (hx : Yields x h a h₁) (hf : Yields (f a) h₁ b h₂) :
    Yields (x >>= f) h b h₂ := by
  intro m hm
  obtain ⟨ns, hrun⟩ := hx m hm
  obtain ⟨ns', hrest⟩ := hf { m with heap := h₁, notes := ns } rfl
  refine ⟨ns', ?_⟩
  show EStateM.bind x f m = .ok b _
  rw [EStateM.bind, hrun]
  exact hrest

theorem yields_heap (h : Heap) : Yields heap h h h := by
  rintro m rfl
  exact ⟨m.notes, rfl⟩

theorem yields_onHeap (g : Heap → α × Heap) (h : Heap) : Yields (onHeap g) h (g h).1 (g h).2 := by
  rintro m rfl
  exact ⟨m.notes, rfl⟩

theorem yields_modifyHeap (g : Heap → Heap) (h : Heap) : Yields (modifyHeap g) h () (g h) := by
  rintro m rfl
  exact ⟨m.notes, rfl⟩

theorem yields_note (n : Note) (h : Heap) : Yields (note n) h () h := by
  rintro m rfl
  exact ⟨n :: m.notes, rfl⟩

theorem yields_newList (items : List Value) (h : Heap) :
    Yields (newList items) h (.list (h.newSequence items).1) (h.newSequence items).2 :=
  (yields_onHeap _ h).bind (yields_pure _ _)

theorem yields_newVector (items : List Value) (h : Heap) :
    Yields (newVector items) h (.vector (h.newSequence items).1) (h.newSequence items).2 :=
  (yields_onHeap _ h).bind (yields_pure _ _)

/-- The frame of a call is gone when the call has a result. -/
theorem Yields.inFrame (frame : CallFrame) (hx : Yields x h a h₁) :
    Yields (inFrame frame x) h a h₁ := by
  intro m hm
  obtain ⟨ns, hrun⟩ := hx { m with calls := frame :: m.calls } hm
  refine ⟨ns, ?_⟩
  rw [inFrame_eq, hrun]
  rfl

end Eval

/-! ## Forms -/

open Eval

/-- Every builtin is bound under its name. -/
def Heap.Standard (h : Heap) (scope : Nat) : Prop :=
  ∀ b : Builtin, h.lookup? scope b.name = some (.builtin b)

theorem Form.yields_parts (ref : Nat) (h : Heap) : Yields (Form.parts ref) h (h.items ref) h :=
  (yields_heap h).bind (yields_pure _ _)

section Rules

variable {next : Interp} {h h₁ h₂ : Heap} {ref scope n : Nat} {form v w : Value}
  {forms vs : List Value} {b : Builtin} {s : Str} {name : Option String}

theorem yields_values_nil (next : Interp) (scope : Nat) (h : Heap) :
    Yields (next.values scope []) h [] h := yields_pure [] h

theorem yields_values_cons (hv : Yields (next.eval form scope) h v h₁)
    (hvs : Yields (next.values scope forms) h₁ vs h₂) :
    Yields (next.values scope (form :: forms)) h (v :: vs) h₂ :=
  hv.bind (hvs.bind (yields_pure _ _))

theorem ofName?_builtin (b : Builtin) : SpecialForm.ofName? b.name = none := by
  cases b <;> decide

theorem name_builtin_ne (b : Builtin) : b.name ≠ "nil" ∧ b.name ≠ "t" := by
  cases b <;> decide

theorem yields_lookup {x : String} (hnil : x ≠ "nil") (ht : x ≠ "t")
    (hv : h.lookup? scope x = some v) : Yields (Form.lookup x scope) h v h := by
  rw [Form.lookup, if_neg hnil, if_neg ht]
  refine (yields_heap h).bind ?_
  rw [hv]
  exact yields_pure v h

theorem yields_eval_sym (hv : Yields (Form.lookup s.text scope) h v h) :
    Yields ((Interp.ofDepth (n + 1)).eval (.sym s) scope) h v h := hv

theorem yields_eval_builtin (hs : s.text = b.name) (hstd : h.Standard scope) :
    Yields ((Interp.ofDepth (n + 1)).eval (.sym s) scope) h (.builtin b) h := by
  obtain ⟨hnil, ht⟩ := name_builtin_ne b
  refine yields_eval_sym ?_
  rw [hs]
  exact yields_lookup hnil ht (hstd b)

theorem yields_quote (hitems : h.items ref = [.sym s, v]) (hs : s.text = "quote") :
    Yields ((Interp.ofDepth (n + 1)).eval (.list ref) scope) h v h := by
  have hparts : Yields (Form.parts ref) h [.sym s, v] h := hitems ▸ Form.yields_parts ref h
  have hcheck : Yields (Form.checkParts ref 1 (some 1)) h () h :=
    hparts.bind (yields_pure () h)
  have hpart : Yields (Form.part ref 1) h v h := hparts.bind (yields_pure v h)
  have hform : Yields (evalList (Interp.ofDepth n) ref scope (.sym s)) h v h := by
    have hname : SpecialForm.ofName? s.text = some .quote := by rw [hs]; decide
    unfold evalList
    dsimp only
    rw [hname]
    exact hcheck.bind hpart
  exact hparts.bind hform

/-- A builtin that is called by its name gets the values of the arguments. -/
theorem yields_call {args : List Value} (hitems : h.items ref = .sym s :: forms)
    (hs : s.text = b.name) (hstd : h.Standard scope)
    (hargs : Yields ((Interp.ofDepth (n + 1)).values scope forms) h args h₁)
    (hcount : b.signature.complaint? ("StdLib." ++ b.callName) args.length = none)
    (hrun : Yields (Library.run (Interp.ofDepth n) b args) h₁ v h₂) :
    Yields ((Interp.ofDepth (n + 2)).eval (.list ref) scope) h v h₂ := by
  have hparts : Yields (Form.parts ref) h (.sym s :: forms) h := hitems ▸ Form.yields_parts ref h
  have hcall : Yields ((Interp.ofDepth (n + 1)).call (.builtin b) args (some s.text)) h₁ v h₂ := by
    refine (yields_note _ h₁).bind (Yields.inFrame _ ?_)
    unfold applyBuiltin
    rw [hcount]
    exact hrun
  have hform : Yields (evalList (Interp.ofDepth (n + 1)) ref scope (.sym s)) h v h₂ := by
    have hname : SpecialForm.ofName? s.text = none := by rw [hs, ofName?_builtin]
    unfold evalList
    dsimp only
    rw [hname]
    exact (yields_eval_builtin hs hstd).bind (hparts.bind (hargs.bind hcall))
  exact hparts.bind hform

end Rules

/-! ## Builtins -/

namespace Library

variable {h : Heap} {a : Nat} {items : List Value}

theorem yields_list (next : Interp) (args : List Value) (h : Heap) :
    Yields (run next .list args) h (.list (h.newSequence args).1) (h.newSequence args).2 :=
  yields_newList args h

theorem yields_makeVector (next : Interp) (hitems : h.items a = items) :
    Yields (run next .makeVector [.int items.length, .list a]) h
      (.vector (h.newSequence items).1) (h.newSequence items).2 := by
  have helements : Yields (Container.elements (.list a)) h items h :=
    (yields_heap h).bind (hitems ▸ yields_pure (h.items a) h)
  show Yields (makeVector (.int items.length) (.list a)) h _ _
  unfold makeVector
  dsimp only
  rw [if_neg (by omega)]
  refine helements.bind ?_
  rw [if_pos (by omega)]
  exact yields_newVector items h

theorem yields_makeMap (next : Interp) {test : MapTest} {s : Str} (hs : s.text = test.name)
    (h : Heap) :
    Yields (run next .makeMap [.sym s]) h (.map (h.newMap ⟨test, none, []⟩).1)
      (h.newMap ⟨test, none, []⟩).2 := by
  have htest : Yields (mapTest (.sym s)) h test h := by
    unfold mapTest
    dsimp only
    rw [hs, MapTest.ofName?_name]
    exact yields_pure test h
  exact (yields_pure none h).bind (htest.bind ((yields_onHeap _ h).bind (yields_pure _ _)))

theorem yields_mapPut (next : Interp) {h h' : Heap} {r : Nat} {k v : Value}
    (hput : h.mapPut r k v = some h') :
    Yields (run next .mapPut [.map r, k, v]) h (.map r) h' := by
  have hchanged : Yields (Container.put (.map r) k v) h () h' := by
    rintro m rfl
    refine ⟨m.notes, ?_⟩
    rw [Container.put, Container.putKey_eq, hput]
  exact hchanged.bind (yields_pure _ _)

theorem yields_mapGet (next : Interp) {h : Heap} {r : Nat} {k v : Value}
    (hget : h.mapGet r k = .ok v) : Yields (run next .mapGet [.map r, k]) h v h := by
  refine (yields_heap h).bind ?_
  rw [show h.mapGet r (arg [.map r, k] 1) = .ok v from hget]
  exact yields_pure v h

/-- Without a default, nothing is got for a key that is not found. -/
theorem yields_mapGet_of_missing (next : Interp) {h : Heap} {r : Nat} {k : Value}
    (hget : h.mapGet r k = .error .missing) : Yields (run next .mapGet [.map r, k]) h .nil h := by
  refine (yields_heap h).bind ?_
  rw [show h.mapGet r (arg [.map r, k] 1) = .error .missing from hget]
  exact yields_pure _ h

theorem yields_mapKeys (next : Interp) (h : Heap) (r : Nat) :
    Yields (run next .mapKeys [.map r]) h (.list (h.newSequence (h.mapKeys r)).1)
      (h.newSequence (h.mapKeys r)).2 := by
  have hkeys : Yields (Container.keys (.map r)) h (h.mapKeys r) h :=
    (yields_heap h).bind (yields_pure _ h)
  exact hkeys.bind (yields_newList _ h)

end Library

end Sigil
