import Sigil.Proofs.Heap.Nesting

/-!
# Values that do not contain themselves

A value is `Grounded` when every chain of elements that starts with it comes to an end. These are
the values that have a form under the tests that look into sequences (`isSome_contentKey`): the forms
of the elements are put together from the inside, and where there is a form at some depth no chain
is longer.
-/

namespace Sigil.Heap

/-- No chain of elements that starts with the value goes on for ever. -/
inductive Grounded (h : Heap) : Value → Prop
  | intro {v : Value} (elements : ∀ x, v.sequence? = some x → ∀ w ∈ h.items x, Grounded h w) :
    Grounded h v

variable {h : Heap} {test : MapTest} {fold : Bool} {n x : Nat} {v : Value}
  {part : Value → Option MapKey}

theorem not_grounded_of_mem (hv : v.sequence? = some x) (hmem : v ∈ h.items x) :
    ¬h.Grounded v := by
  intro hg
  induction hg with
  | intro _ ih => exact ih x hv _ hmem hv hmem

/-! ## Grounded values have a form -/

theorem keyBy_of_sequence? (hv : v.sequence? = some x) :
    h.keyBy fold part v = ((h.items x).mapM part).map .sequence := by
  cases v with
  | list | vector =>
    cases hv
    rfl
  | _ => cases hv

theorem isSome_keyBy : (h.keyBy fold part v).isSome ↔
    ∀ x, v.sequence? = some x → ∀ w ∈ h.items x, (part w).isSome := by
  cases hv : v.sequence? with
  | some x => simp [keyBy_of_sequence? hv, isSome_mapM]
  | none =>
    cases v with
    | list | vector => cases hv
    | _ => simp [keyBy]

theorem grounded_of_keyTo (hk : (h.keyTo fold n v).isSome) : h.Grounded v := by
  induction n generalizing v with
  | zero => cases hk
  | succ n ih => exact .intro fun x hx w hw => ih (isSome_keyBy.1 hk x hx w hw)

theorem isSome_contentKey : (h.contentKey fold v).isSome ↔ h.Grounded v := by
  refine ⟨grounded_of_keyTo, fun hg => ?_⟩
  induction hg with
  | intro _ ih =>
    rw [contentKey_eq, isSome_keyBy]
    exact ih

/-- The test can compare the value: it does not look into it, or there is an end to that. -/
def Comparable (h : Heap) (test : MapTest) (v : Value) : Prop :=
  test = .eq ∨ test = .eql ∨ h.Grounded v

theorem isSome_key : (h.key test v).isSome ↔ h.Comparable test v := by
  cases test with
  | eq | eql => simp [key, Comparable]
  | equal | equalp => simp only [key, isSome_contentKey, Comparable, reduceCtorEq, false_or]

theorem isSome_sameKey (h : Heap) (test : MapTest) (v w : Value) :
    (h.sameKey test v w).isSome = ((h.key test v).isSome && (h.key test w).isSome) := by
  rw [sameKey]
  cases h.key test v <;> cases h.key test w <;> rfl

instance : Decidable (h.Grounded v) :=
  decidable_of_iff (h.contentKey false v).isSome isSome_contentKey

/-- The list `(1 …)` that has itself as its second element. -/
def selfContaining : Heap := { empty with sequences := #[[.int 1, .list 0]] }

example : ¬selfContaining.Grounded (.list 0) := not_grounded_of_mem rfl (.tail _ (.head _))

end Sigil.Heap
