import Sigil.Eval.Basic
import Sigil.Proofs.Heap.Alike
import Sigil.Proofs.Heap.Association
import Sigil.Proofs.Heap.Contents

/-!
# The predicates of equality

Each predicate compares values by the forms that the test of its name gives them. Two forms are equal
exactly when the values agree one level deep and their elements are equal again
(`Heap.sameKey_iff_agree`). The form under `equal` is made of the identity of a value without elements
(`contentKey_of_none`), and the one under `equalp` is made of the one under `equal`
(`contentKey_true`), so each predicate is finer than the next one (`Heap.predicates_refine`). A
sequence that contains itself has no form there, and there is no end to comparing it.
-/

namespace Sigil

/-- The test that looks into strings and sequences, without regard to case when it folds. -/
def MapTest.structural (fold : Bool) : MapTest := if fold then .equalp else .equal

/-- Strings and sequences, which a structural test looks into. -/
def Value.isStructured : Value → Bool
  | .str _ | .list _ | .vector _ => true
  | _ => false

/-! ## Forms from forms -/

def KeyAtom.spelled : KeyAtom → KeyAtom
  | .object (.str s) => .text s.text
  | k => k

/-- A text without regard to case, and a number without regard to its sort. -/
def KeyAtom.folded : KeyAtom → KeyAtom
  | .text s => .text (Text.casefold s)
  | .int n => .number (.ofInt n)
  | .float x => .number x
  | k => k

namespace MapKey

mutual

/-- All texts and numbers in a form folded. -/
def folded : MapKey → MapKey
  | .atom k => .atom k.folded
  | .sequence ks => .sequence (foldedAll ks)

def foldedAll : List MapKey → List MapKey
  | [] => []
  | k :: ks => folded k :: foldedAll ks

end

theorem foldedAll_eq_map (ks : List MapKey) : foldedAll ks = ks.map folded := by
  induction ks with
  | nil => rfl
  | cons k ks ih => rw [foldedAll, ih, List.map_cons]

end MapKey

namespace Value

variable {v : Value} {x : Nat}

theorem identityKey_of_sequence? (hv : v.sequence? = some x) : v.identityKey = .object v := by
  cases v with
  | list | vector => rfl
  | _ => cases hv

/-- Only an object is compared by its identity. -/
theorem eq_of_identityKey_object {w : Value} (hv : v.identityKey = .object w) : v = w := by
  cases v with
  | nil | bool | int | float | sym | kw => cases hv
  | _ => exact KeyAtom.object.inj hv

theorem exists_str_of_isStructured (hv : v.sequence? = none) (hs : v.isStructured = true) :
    ∃ s, v = .str s := by
  cases v with
  | str s => exact ⟨s, rfl⟩
  | list | vector => cases hv
  | _ => cases hs

theorem spelled_identityKey (hv : v.isStructured = false) :
    v.identityKey.spelled = v.identityKey := by
  cases v with
  | str | list | vector => cases hv
  | _ => rfl

theorem exists_str_of_spelled {t : String} (hv : v.identityKey.spelled = .text t) :
    ∃ s, v = .str s ∧ s.text = t := by
  cases v with
  | str s => exact ⟨s, rfl, KeyAtom.text.inj hv⟩
  | _ => cases hv

theorem exists_str_of_folded {t : String} (hv : v.identityKey.spelled.folded = .text t) :
    ∃ s, v = .str s ∧ Text.casefold s.text = t := by
  cases v with
  | str s => exact ⟨s, rfl, KeyAtom.text.inj hv⟩
  | _ => cases hv

/-- A number that is no truth value folds to its numeric value. -/
theorem folded_of_number? {x : Extended} (hv : v.number? = some x) (hbool : ∀ c, v ≠ .bool c) :
    v.identityKey.spelled.folded = .number x := by
  cases v with
  | bool c => exact absurd rfl (hbool c)
  | int | float =>
    cases hv
    rfl
  | _ => cases hv

theorem identityKey_of_nan (hv : v.number? = some .nan) : v.identityKey = .float .nan := by
  cases v with
  | float y => exact congrArg KeyAtom.float (Option.some.inj hv)
  | _ => cases hv

/-- Apart from strings and sequences, folding shows in numbers only. -/
theorem folded_cases (hv : v.isStructured = false) :
    (∃ x, v.number? = some x ∧ (∀ c, v ≠ .bool c) ∧ v.identityKey.spelled.folded = .number x) ∨
      v.identityKey.spelled.folded = v.identityKey ∧ ∀ x, v.identityKey ≠ .number x := by
  cases v with
  | str | list | vector => cases hv
  | int | float => exact .inl ⟨_, rfl, nofun, rfl⟩
  | _ => exact .inr ⟨rfl, nofun⟩

end Value

namespace Heap

variable {h : Heap} {test : MapTest} {fold : Bool} {n x y : Nat} {v w a b c : Value}

theorem sameKey_iff : h.sameKey test a b = some true ↔
    ∃ k, h.key test a = some k ∧ h.key test b = some k := by
  rw [sameKey]
  cases h.key test a with
  | none => simp
  | some f =>
    cases h.key test b with
    | none => simp
    | some g => simp [eq_comm (a := f)]

theorem sameKey_structural_iff : h.sameKey (.structural fold) a b = some true ↔
    ∃ k, h.contentKey fold a = some k ∧ h.contentKey fold b = some k := by
  rw [sameKey_iff]
  cases fold <;> rfl

theorem sameKey_eql_iff : h.sameKey .eql a b = some true ↔ a.identityKey = b.identityKey := by
  rw [sameKey_iff]
  simp [key, eq_comm]

theorem sameKey_comm (h : Heap) (test : MapTest) (a b : Value) :
    h.sameKey test a b = h.sameKey test b a := by
  rw [sameKey, sameKey]
  cases h.key test a <;> cases h.key test b <;> simp [Bool.beq_comm]

theorem sameKey_trans (hab : h.sameKey test a b = some true) (hbc : h.sameKey test b c = some true) :
    h.sameKey test a c = some true := by
  rw [sameKey_iff] at hab hbc ⊢
  obtain ⟨k, ha, hb⟩ := hab
  obtain ⟨l, hb', hc⟩ := hbc
  exact ⟨k, ha, by rw [hc, ← hb', hb]⟩

/-- Each predicate is an equality of forms where it comes to an end. -/
theorem equivalence_sameKey (h : Heap) (test : MapTest) :
    Equivalence fun a b : { v // h.Comparable test v } => h.sameKey test a b = some true where
  refl a := by
    obtain ⟨k, hk⟩ := Option.isSome_iff_exists.1 (isSome_key.2 a.2)
    exact sameKey_iff.2 ⟨k, hk, hk⟩
  symm hab := sameKey_comm h test _ _ ▸ hab
  trans := sameKey_trans

/-! ## The form of a value -/

/-- The form of a sequence is that of its elements. -/
theorem contentKey_of_sequence? (hv : v.sequence? = some x) :
    h.contentKey fold v = ((h.items x).mapM (h.contentKey fold)).map .sequence := by
  rw [contentKey_eq, keyBy_of_sequence? hv, ← contentKey_eq]

theorem keyBy_of_none {part : Value → Option MapKey} (hv : v.sequence? = none) :
    h.keyBy fold part v = some
      (.atom (if fold then v.identityKey.spelled.folded else v.identityKey.spelled)) := by
  cases v with
  | list | vector => cases hv
  | _ => cases fold <;> rfl

theorem contentKey_of_none (hv : v.sequence? = none) : h.contentKey fold v = some
    (.atom (if fold then v.identityKey.spelled.folded else v.identityKey.spelled)) := by
  rw [contentKey_eq, keyBy_of_none hv]

theorem contentKey_eq_of_identityKey (hab : a.identityKey = b.identityKey) :
    h.contentKey fold a = h.contentKey fold b := by
  cases hx : a.sequence? with
  | some x =>
    rw [Value.identityKey_of_sequence? hx] at hab
    rw [Value.eq_of_identityKey_object hab.symm]
  | none =>
    cases hy : b.sequence? with
    | some y =>
      rw [Value.identityKey_of_sequence? hy] at hab
      rw [Value.eq_of_identityKey_object hab]
    | none => rw [contentKey_of_none hx, contentKey_of_none hy, hab]

/-- The form without regard to case and to the sort of a number is made of the other one. -/
theorem contentKey_true (h : Heap) (v : Value) :
    h.contentKey true v = (h.contentKey false v).map MapKey.folded := by
  have hkeyTo : ∀ n v, h.keyTo true n v = (h.keyTo false n v).map MapKey.folded := by
    intro n
    induction n with
    | zero => exact fun _ => rfl
    | succ n ih =>
      intro v
      rw [keyTo, keyTo]
      cases hv : v.sequence? with
      | none => rw [keyBy_of_none hv, keyBy_of_none hv]; rfl
      | some x =>
        have hitems := mapM_map (g := id) ih (h.items x)
        rw [List.map_id] at hitems
        rw [keyBy_of_sequence? hv, keyBy_of_sequence? hv, hitems, Option.map_map, Option.map_map]
        congr 1
        funext ks
        simp [MapKey.folded, MapKey.foldedAll_eq_map]
  exact hkeyTo h.depth v

/-! ## Agreement one level deep -/

/-- What a structural test says of two values, when it is known what it says of their elements:
strings agree by their texts, sequences of either sort by their elements, and other values when
`eql` does not tell them apart or, without regard to the sort of a number, by their numeric value. -/
inductive Agree (h : Heap) (fold : Bool) : Value → Value → Prop
  | strings {s t : Str}
      (text_eq : if fold then Text.casefold s.text = Text.casefold t.text else s.text = t.text) :
      Agree h fold (.str s) (.str t)
  | sequences {a b : Value} {x y : Nat} (left : a.sequence? = some x) (right : b.sequence? = some y)
      (items : List.Forall₂ (fun v w => h.sameKey (.structural fold) v w = some true)
        (h.items x) (h.items y)) :
      Agree h fold a b
  | others {a b : Value} (left : a.isStructured = false) (right : b.isStructured = false)
      (same : h.sameKey .eql a b = some true) : Agree h fold a b
  | numbers {a b : Value} {x y : Extended} (folds : fold = true) (left : a.number? = some x)
      (right : b.number? = some y) (no_truth : ∀ c, a ≠ .bool c ∧ b ≠ .bool c)
      (same : x.equal y = true) : Agree h fold a b

theorem sequence?_of_number? {x : Extended} (hv : v.number? = some x) : v.sequence? = none := by
  cases v with
  | list | vector => cases hv
  | _ => rfl

theorem sequence?_of_isStructured (hv : v.isStructured = false) : v.sequence? = none := by
  cases v with
  | list | vector => cases hv
  | _ => rfl

/-- Elements that are pairwise equal have common forms. -/
theorem forall₂_sameKey_iff {vs ws : List Value} :
    List.Forall₂ (fun v w => h.sameKey (.structural fold) v w = some true) vs ws ↔
      ∃ ks, vs.mapM (h.contentKey fold) = some ks ∧ ws.mapM (h.contentKey fold) = some ks := by
  simp only [mapM_eq_some, sameKey_structural_iff]
  constructor
  · intro hall
    induction hall with
    | nil => exact ⟨[], rfl, rfl⟩
    | cons hvw _ ih =>
      obtain ⟨k, hv, hw⟩ := hvw
      obtain ⟨ks, hvs, hws⟩ := ih
      exact ⟨k :: ks, by simp [hv, hvs], by simp [hw, hws]⟩
  · rintro ⟨ks, hvs, hws⟩
    induction ks generalizing vs ws with
    | nil =>
      obtain rfl := List.map_eq_nil_iff.1 hvs
      obtain rfl := List.map_eq_nil_iff.1 hws
      exact .nil
    | cons k ks ih =>
      obtain ⟨v, vs, rfl, hv, hvs⟩ := List.map_eq_cons_iff.1 hvs
      obtain ⟨w, ws, rfl, hw, hws⟩ := List.map_eq_cons_iff.1 hws
      exact .cons ⟨k, hv, hw⟩ (ih hvs hws)

theorem Agree.sameKey (hab : h.Agree fold a b) : h.sameKey (.structural fold) a b = some true := by
  rw [sameKey_structural_iff]
  cases hab with
  | strings ht =>
    rw [contentKey_of_none rfl, contentKey_of_none rfl]
    refine ⟨_, rfl, ?_⟩
    cases fold with
    | false => exact congrArg (some ∘ MapKey.atom ∘ KeyAtom.text) ht.symm
    | true => exact congrArg (some ∘ MapKey.atom ∘ KeyAtom.text) ht.symm
  | others ha _ hsame =>
    rw [← contentKey_eq_of_identityKey (sameKey_eql_iff.1 hsame),
      contentKey_of_none (sequence?_of_isStructured ha)]
    exact ⟨_, rfl, rfl⟩
  | numbers hfold ha hb hbool hsame =>
    subst hfold
    rw [contentKey_of_none (sequence?_of_number? ha), contentKey_of_none (sequence?_of_number? hb),
      if_pos rfl, if_pos rfl, Value.folded_of_number? ha fun c => (hbool c).1,
      Value.folded_of_number? hb fun c => (hbool c).2, (Extended.equal_iff.1 hsame).1]
    exact ⟨_, rfl, rfl⟩
  | sequences hx hy hitems =>
    obtain ⟨ks, hks, hls⟩ := forall₂_sameKey_iff.1 hitems
    exact ⟨.sequence ks, by rw [contentKey_of_sequence? hx, hks]; rfl,
      by rw [contentKey_of_sequence? hy, hls]; rfl⟩

section

variable {s : Str} (hab : (if fold then a.identityKey.spelled.folded else a.identityKey.spelled) =
  if fold then b.identityKey.spelled.folded else b.identityKey.spelled)
include hab

theorem exists_str_of_form_eq (ha : a = .str s) : ∃ t, b = .str t ∧ h.Agree fold a b := by
  subst ha
  cases fold with
  | false =>
    obtain ⟨t, rfl, ht⟩ := Value.exists_str_of_spelled hab.symm
    exact ⟨t, rfl, .strings ht.symm⟩
  | true =>
    obtain ⟨t, rfl, ht⟩ := Value.exists_str_of_folded hab.symm
    exact ⟨t, rfl, .strings ht.symm⟩

theorem agree_of_not_isStructured (ha : a.isStructured = false) (hb : b.isStructured = false) :
    h.Agree fold a b := by
  cases fold with
  | false =>
    rw [if_neg Bool.false_ne_true, if_neg Bool.false_ne_true, Value.spelled_identityKey ha,
      Value.spelled_identityKey hb] at hab
    exact .others ha hb (sameKey_eql_iff.2 hab)
  | true =>
    rw [if_pos rfl, if_pos rfl] at hab
    obtain ⟨x, hx, hboolx, hformx⟩ | ⟨hforma, hnea⟩ := Value.folded_cases ha <;>
      obtain ⟨y, hy, hbooly, hformy⟩ | ⟨hformb, hneb⟩ := Value.folded_cases hb
    · obtain rfl : x = y := KeyAtom.number.inj (hformx.symm.trans (hab.trans hformy))
      by_cases hnan : x = .nan
      · subst hnan
        refine .others ha hb (sameKey_eql_iff.2 ?_)
        rw [Value.identityKey_of_nan hx, Value.identityKey_of_nan hy]
      · exact .numbers rfl hx hy (fun c => ⟨hboolx c, hbooly c⟩) (Extended.equal_iff.2 ⟨rfl, hnan⟩)
    · exact absurd (hformb.symm.trans (hab.symm.trans hformx)) (hneb x)
    · exact absurd (hforma.symm.trans (hab.trans hformy)) (hnea y)
    · exact .others ha hb (sameKey_eql_iff.2 (hforma.symm.trans (hab.trans hformb)))

end

/-- Equal values without elements agree. -/
theorem agree_of_none (ha : a.sequence? = none) (hb : b.sequence? = none)
    (hab : h.sameKey (.structural fold) a b = some true) : h.Agree fold a b := by
  rw [sameKey_structural_iff, contentKey_of_none ha, contentKey_of_none hb] at hab
  obtain ⟨k, hk, hl⟩ := hab
  replace hab := MapKey.atom.inj (Option.some.inj (hk.trans hl.symm))
  cases hsa : a.isStructured with
  | true =>
    obtain ⟨s, hs⟩ := Value.exists_str_of_isStructured ha hsa
    obtain ⟨-, -, hagree⟩ := exists_str_of_form_eq hab hs
    exact hagree
  | false =>
    cases hsb : b.isStructured with
    | true =>
      obtain ⟨t, ht⟩ := Value.exists_str_of_isStructured hb hsb
      obtain ⟨s, rfl, -⟩ := exists_str_of_form_eq (h := h) hab.symm ht
      cases hsa
    | false => exact agree_of_not_isStructured hab hsa hsb

/-- A structural test says of two values what it says of their elements. -/
theorem sameKey_iff_agree : h.sameKey (.structural fold) a b = some true ↔ h.Agree fold a b := by
  refine ⟨fun hab => ?_, Agree.sameKey⟩
  have hforms := sameKey_structural_iff.1 hab
  cases hx : a.sequence? with
  | none =>
    cases hy : b.sequence? with
    | none => exact agree_of_none hx hy hab
    | some y =>
      rw [contentKey_of_none hx, contentKey_of_sequence? hy] at hforms
      obtain ⟨k, hk, hl⟩ := hforms
      obtain ⟨ls, -, rfl⟩ := Option.map_eq_some_iff.1 hl
      cases hk
  | some x =>
    rw [contentKey_of_sequence? hx] at hforms
    obtain ⟨k, hk, hl⟩ := hforms
    obtain ⟨ks, hks, rfl⟩ := Option.map_eq_some_iff.1 hk
    cases hy : b.sequence? with
    | none =>
      rw [contentKey_of_none hy] at hl
      cases hl
    | some y =>
      rw [contentKey_of_sequence? hy] at hl
      obtain ⟨ls, hls, heq⟩ := Option.map_eq_some_iff.1 hl
      cases heq
      exact .sequences hx hy (forall₂_sameKey_iff.2 ⟨ks, hks, hls⟩)

/-! ## The chain of predicates -/

/-- The builtin predicates of equality form a chain of equivalences on the values that they can
compare: `eq` and `eql` are the same and compare all values, `eql` implies `equal`, and `equal` implies
`equalp`. The last two are what they are said to be, recursively in the elements of sequences. They
do not come to an end on a value that contains itself. -/
theorem predicates_refine (h : Heap) :
    (∀ next (t : MapTest) a b (m : Machine), t.builtin.name = t.name ∧
      applyBuiltin next t.builtin [a, b] { m with heap := h } = match h.sameKey t a b with
        | some same => .ok (.bool same) { m with heap := h }
        | none => .error (.fault (.endless .key)) { m with heap := h }) ∧
    (∀ t a b, (h.sameKey t a b).isSome ↔ h.Comparable t a ∧ h.Comparable t b) ∧
    (∀ a b, h.sameKey .eq a b = h.sameKey .eql a b) ∧
    (∀ t, Equivalence fun a b : { v // h.Comparable t v } => h.sameKey t a b = some true) ∧
    (∀ a b, h.Comparable .equal a → h.sameKey .eql a b = some true →
      h.sameKey .equal a b = some true) ∧
    (∀ a b, h.sameKey .equal a b = some true → h.sameKey .equalp a b = some true) ∧
    (∀ a b, h.sameKey .equal a b = some true ↔ h.Agree false a b) ∧
    (∀ a b, h.sameKey .equalp a b = some true ↔ h.Agree true a b) := by
  refine ⟨fun next t a b m => ⟨t.name_builtin, ?_⟩, fun t a b => ?_, fun _ _ => rfl,
    h.equivalence_sameKey, fun a b ha hab => ?_, fun a b hab => ?_, fun a b => ?_, fun a b => ?_⟩
  · have hcount : t.builtin.signature.complaint? ("StdLib." ++ t.builtin.callName) [a, b].length
        = none := by
      cases t <;> rfl
    rw [applyBuiltin, hcount]
    exact Library.run_builtin next t a b { m with heap := h }
  · rw [isSome_sameKey, Bool.and_eq_true, isSome_key, isSome_key]
  · obtain ⟨k, hk⟩ := Option.isSome_iff_exists.1 (isSome_key.2 ha)
    have hsame : h.contentKey false a = h.contentKey false b :=
      contentKey_eq_of_identityKey (sameKey_eql_iff.1 hab)
    exact sameKey_iff.2 ⟨k, hk, hsame.symm.trans hk⟩
  · obtain ⟨k, ha, hb⟩ := sameKey_iff.1 hab
    have hfolded : ∀ {v}, h.key .equal v = some k → h.key .equalp v = some k.folded := by
      intro v hv
      rw [key, contentKey_true, show h.contentKey false v = some k from hv, Option.map_some]
    exact sameKey_iff.2 ⟨k.folded, hfolded ha, hfolded hb⟩
  · exact (sameKey_iff_agree : h.sameKey (.structural false) a b = some true ↔ h.Agree false a b)
  · exact (sameKey_iff_agree : h.sameKey (.structural true) a b = some true ↔ h.Agree true a b)

/-- A list that contains itself is the same as itself, but it cannot be compared by its contents. -/
theorem sameKey_selfContaining :
    selfContaining.sameKey .eql (.list 0) (.list 0) = some true ∧
      selfContaining.sameKey .equal (.list 0) (.list 0) = none ∧
      selfContaining.sameKey .equalp (.list 0) (.list 0) = none := by
  decide +kernel

/-- The vector `#v((1) "A")` and the list `(#v(1) "a")`. -/
def alikeButForCase : Heap :=
  { empty with sequences := #[[.int 1], [.list 0, .str (.made 0 "A")],
      [.int 1], [.vector 2, .str (.made 1 "a")]] }

theorem predicates_refine_case :
    alikeButForCase.Comparable .equal (.vector 1) ∧
      alikeButForCase.sameKey .equal (.vector 1) (.vector 1) = some true ∧
      ¬ alikeButForCase.Agree false (.vector 1) (.list 3) ∧
      alikeButForCase.Agree true (.vector 1) (.list 3) := by
  have hg : alikeButForCase.Comparable .equal (.vector 1) := .inr (.inr (by decide +kernel))
  obtain ⟨-, -, -, -, hequal, -, hagree, hagree'⟩ := predicates_refine alikeButForCase
  refine ⟨hg, hequal _ _ hg (by decide +kernel), fun hfalse => ?_, (hagree' _ _).1 (by decide +kernel)⟩
  exact absurd ((hagree _ _).2 hfalse) (by decide +kernel)

end Heap

end Sigil
