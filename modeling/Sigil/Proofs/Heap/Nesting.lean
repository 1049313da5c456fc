import Mathlib.Data.Fintype.Card
import Mathlib.Data.Fintype.Prod
import Mathlib.Data.Fintype.Sum
import Mathlib.Data.List.Nodup
import Mathlib.Order.Monotone.Basic
import Sigil.Heap.Compare

/-!
# How deep the objects of a heap are looked into

Keys, equality and order are recursions that stop at a depth (`Deepening`). What is answered without
stopping is answered at every greater depth, and at each depth at which there is a new answer there
is one for an object without an answer before. So the depth to which a heap is looked into is one
beyond which no answer changes (`keyTo_of_le` and its neighbours), and keys, equality and order are
what they are made of one level further down (`contentKey_eq`, `equal_eq`, `ordered_eq`). A view
looks into no object again that it is inside of, and never gets to its depth (`viewTo_of_le`).
-/

namespace Sigil

/-! ## Recursion that stops at a depth -/

section

variable {α β ι : Type} {stop : β} {f : Nat → α → β} {n k : Nat}

/-- What `f` answers without stopping, `g` answers too. -/
def Below (stop : β) (f g : α → β) : Prop := ∀ a, f a ≠ stop → g a = f a

/-- A recursion that stops at the depth `n`: more depth changes no answer, and a depth that changes
nothing is not followed by one that does. -/
structure Deepening (stop : β) (f : Nat → α → β) : Prop where
  below : ∀ n, Below stop (f n) (f (n + 1))
  settled : ∀ n, f (n + 1) = f n → f (n + 2) = f (n + 1)

namespace Deepening

/-- A recursion put together from levels, when a level answers no less with more answers for the
parts. -/
theorem of_level (level : (α → β) → α → β) (hzero : ∀ a, f 0 a = stop)
    (hlevel : ∀ n, f (n + 1) = level (f n))
    (hmono : ∀ {g g'}, Below stop g g' → Below stop (level g) (level g')) : Deepening stop f where
  below n := by
    induction n with
    | zero => exact fun a ha => absurd (hzero a) ha
    | succ n ih => rw [hlevel n, hlevel (n + 1)]; exact hmono ih
  settled n hn := by rw [hlevel (n + 1), hn, ← hlevel n, hn]

theorem below_of_le (hf : Deepening stop f) (hn : n ≤ k) : Below stop (f n) (f k) := by
  induction hn with
  | refl => exact fun _ _ => rfl
  | @step k _ ih =>
    intro a ha
    have hk : f k a = f n a := ih a ha
    rw [hf.below k a (hk ▸ ha), hk]

variable [Fintype ι] {object? : α → Option ι} {base m : Nat}

open Classical in
/-- The objects for which there is an answer at the depth `m + base`. -/
noncomputable def answered (stop : β) (f : Nat → α → β) (object? : α → Option ι) (base m : Nat) :
    Finset ι := {o | ∃ a, object? a = some o ∧ f (m + base) a ≠ stop}

theorem mem_answered {o : ι} : o ∈ answered stop f object? base m ↔
    ∃ a, object? a = some o ∧ f (m + base) a ≠ stop := by
  simp [answered]

variable (hf : Deepening stop f) (hinj : ∀ {a b o}, object? a = some o → object? b = some o → a = b)
  (hnone : ∀ {a}, object? a = none → f base a ≠ stop)
include hf

theorem answered_mono (hm : m ≤ k) :
    answered stop f object? base m ⊆ answered stop f object? base k := by
  intro o ho
  rw [mem_answered] at ho ⊢
  obtain ⟨a, hao, ha⟩ := ho
  refine ⟨a, hao, ?_⟩
  rwa [hf.below_of_le (Nat.add_le_add_right hm base) a ha]

include hinj hnone

/-- Without an answer for a new object there is no new answer. -/
theorem eq_of_answered_subset (hm : m ≤ k)
    (hsubset : answered stop f object? base k ⊆ answered stop f object? base m) :
    f (k + base) = f (m + base) := by
  funext a
  have hbelow := hf.below_of_le (Nat.add_le_add_right hm base) a
  by_cases hm' : f (m + base) a = stop
  · by_contra hne
    rw [hm'] at hne
    cases ho : object? a with
    | none =>
      have hbase := hnone ho
      exact hbase ((hf.below_of_le (Nat.le_add_left base m) a hbase).symm.trans hm')
    | some o =>
      obtain ⟨b, hbo, hb⟩ := mem_answered.1 (hsubset (mem_answered.2 ⟨a, ho, hne⟩))
      exact hb (hinj ho hbo ▸ hm')
  · exact hbelow hm'

/-- Without an answer for a new object at a depth there is none at the next one. -/
theorem card_answered_stable
    (hcard : (answered stop f object? base m).card = (answered stop f object? base (m + 1)).card) :
    (answered stop f object? base (m + 1)).card = (answered stop f object? base (m + 2)).card := by
  have hset := Finset.eq_of_subset_of_card_le (hf.answered_mono (Nat.le_succ m))
    (Nat.le_of_eq hcard.symm)
  have heq := hf.eq_of_answered_subset hinj hnone (Nat.le_succ m) hset.symm.subset
  have hnext : f (m + 2 + base) = f (m + 1 + base) := by
    rw [show m + 2 + base = m + base + 2 by omega, show m + 1 + base = m + base + 1 by omega]
    exact hf.settled (m + base) (by rw [← heq]; congr 1; omega)
  rw [answered, answered, hnext]

/-- When what has no object is answered at the depth `base`, no answer changes beyond one level for
each object more. -/
theorem eq_of_card_le (hn : Fintype.card ι + base ≤ n) : f n = f (Fintype.card ι + base) := by
  obtain ⟨k, rfl⟩ : ∃ k, n = k + base := ⟨n - base, by omega⟩
  have hk : Fintype.card ι ≤ k := by omega
  have hmono : Monotone fun m => (answered stop f object? base m).card :=
    fun _ _ hm => Finset.card_le_card (hf.answered_mono hm)
  have hcard := Nat.stabilises_of_monotone (n := k) hmono
    (fun m => Finset.card_le_univ (answered stop f object? base m))
    (fun m => hf.card_answered_stable hinj hnone) hk
  have hset := Finset.eq_of_subset_of_card_le (hf.answered_mono hk) (Nat.le_of_eq hcard)
  exact hf.eq_of_answered_subset hinj hnone hk hset.symm.subset

end Deepening

end

namespace Heap

variable {h : Heap} {n k : Nat} {v w : Value}

/-! ## The objects of a heap -/

/-- A value with parts, by its sort and its reference. -/
abbrev Whole (h : Heap) : Type :=
  Fin h.sequences.size ⊕ Fin h.sequences.size ⊕ Fin h.maps.size ⊕ Fin h.closures.size ⊕
    Fin h.dicts.size

theorem card_whole_lt (h : Heap) : Fintype.card h.Whole < h.depth := by
  simp only [Fintype.card_sum, Fintype.card_fin, depth, size]
  omega

def whole? (h : Heap) : Value → Option h.Whole
  | .list a => if ha : a < h.sequences.size then some (.inl ⟨a, ha⟩) else none
  | .vector a => if ha : a < h.sequences.size then some (.inr (.inl ⟨a, ha⟩)) else none
  | .map a => if ha : a < h.maps.size then some (.inr (.inr (.inl ⟨a, ha⟩))) else none
  | .closure a =>
    if ha : a < h.closures.size then some (.inr (.inr (.inr (.inl ⟨a, ha⟩)))) else none
  | .dict a => if ha : a < h.dicts.size then some (.inr (.inr (.inr (.inr ⟨a, ha⟩)))) else none
  | _ => none

def Whole.value : h.Whole → Value
  | .inl a => .list a
  | .inr (.inl a) => .vector a
  | .inr (.inr (.inl a)) => .map a
  | .inr (.inr (.inr (.inl a))) => .closure a
  | .inr (.inr (.inr (.inr a))) => .dict a

theorem eq_value_of_whole? {o : h.Whole} (hv : h.whole? v = some o) : v = Whole.value o := by
  cases v with
  | list a | vector a | map a | closure a | dict a =>
    rw [whole?, Option.dite_none_right_eq_some] at hv
    obtain ⟨ha, heq⟩ := hv
    cases heq
    rfl
  | _ => cases hv

theorem eq_of_whole? {o : h.Whole} (hv : h.whole? v = some o) (hw : h.whole? w = some o) : v = w :=
  (eq_value_of_whole? hv).trans (eq_value_of_whole? hw).symm

/-- Two values with parts, if both are. -/
def bothWhole? (h : Heap) (p : Value × Value) : Option (h.Whole × h.Whole) := do
  return (← h.whole? p.1, ← h.whole? p.2)

theorem bothWhole?_eq_some {p : Value × Value} {o : h.Whole × h.Whole} :
    h.bothWhole? p = some o ↔ h.whole? p.1 = some o.1 ∧ h.whole? p.2 = some o.2 := by
  cases hv : h.whole? p.1 <;> cases hw : h.whole? p.2 <;>
    simp [bothWhole?, hv, hw, Prod.ext_iff]

theorem bothWhole?_eq_none {p : Value × Value} :
    h.bothWhole? p = none ↔ h.whole? p.1 = none ∨ h.whole? p.2 = none := by
  cases hv : h.whole? p.1 <;> cases hw : h.whole? p.2 <;> simp [bothWhole?, hv, hw]

theorem eq_of_bothWhole? {p q : Value × Value} {o : h.Whole × h.Whole}
    (hp : h.bothWhole? p = some o) (hq : h.bothWhole? q = some o) : p = q := by
  rw [bothWhole?_eq_some] at hp hq
  exact Prod.ext (eq_of_whole? hp.1 hq.1) (eq_of_whole? hp.2 hq.2)

theorem items_of_size_le {a : Nat} (ha : h.sequences.size ≤ a) : h.items a = [] := by
  simp [items, ha]

theorem mapEntries_of_size_le {a : Nat} (ha : h.maps.size ≤ a) : h.mapEntries a = ([], none) := by
  simp [mapEntries, mapAt, ha, currentEntries]

theorem closureAt_of_size_le {a : Nat} (ha : h.closures.size ≤ a) :
    h.closureAt a =
      ⟨h.sequences.size, h.sequences.size, none, h.sequences.size, h.scopes.size, none⟩ := by
  simp [closureAt, ha]

theorem items_of_whole?_list {a : Nat} (ha : h.whole? (.list a) = none) : h.items a = [] :=
  items_of_size_le (by simpa [whole?] using ha)

theorem items_of_whole?_vector {a : Nat} (ha : h.whole? (.vector a) = none) : h.items a = [] :=
  items_of_size_le (by simpa [whole?] using ha)

/-! ## Keys -/

theorem deepening_keyTo (h : Heap) (fold : Bool) : Deepening none (h.keyTo fold) := by
  refine .of_level (h.keyBy fold) (fun _ => rfl) (fun _ => rfl) ?_
  intro part part' hpart v hv
  cases v with
  | list a | vector a =>
    have hitems : (h.items a).mapM part ≠ none := fun hnone => hv (by simp [keyBy, hnone])
    obtain ⟨ks, hks⟩ := Option.ne_none_iff_exists'.1 hitems
    have hparts : ∀ w ∈ h.items a, part' w = part w := by
      intro w hw
      obtain ⟨k, -, hk⟩ := List.mem_map.1 (mapM_eq_some.1 hks ▸ List.mem_map_of_mem (f := part) hw)
      exact hpart w (hk ▸ Option.some_ne_none k)
    simp only [keyBy, mapM_congr hparts]
  | _ => rfl

/-- The form of a key does not change beyond the depth of the heap. -/
theorem keyTo_of_le (fold : Bool) (hn : h.depth ≤ n) : h.keyTo fold n = h.contentKey fold := by
  have hnone : ∀ {v}, h.whole? v = none → h.keyTo fold 1 v ≠ none := by
    intro v hv
    cases v with
    | list a => simp [keyTo, keyBy, items_of_whole?_list hv]
    | vector a => simp [keyTo, keyBy, items_of_whole?_vector hv]
    | _ => exact Option.some_ne_none _
  have hcard := card_whole_lt h
  have hlast := fun {n} => (h.deepening_keyTo fold).eq_of_card_le (n := n) eq_of_whole? hnone
  exact (hlast (by omega)).trans (hlast (by omega)).symm

/-- The form of a key at any depth is its form. -/
theorem contentKey_of_keyTo {fold : Bool} {k : MapKey} (hv : h.keyTo fold n v = some k) :
    h.contentKey fold v = some k := by
  have hbelow := (h.deepening_keyTo fold).below_of_le (Nat.le_max_left n h.depth) v
  rw [← keyTo_of_le fold (Nat.le_max_right n h.depth), hbelow (by rw [hv]; exact nofun), hv]

theorem contentKey_eq (h : Heap) (fold : Bool) :
    h.contentKey fold = h.keyBy fold (h.contentKey fold) := by
  calc h.contentKey fold = h.keyTo fold (h.depth + 1) :=
        (keyTo_of_le fold (Nat.le_succ h.depth)).symm
    _ = h.keyBy fold (h.contentKey fold) := rfl

/-! ## Equality and order -/

section

/-- What is answered where there is no end to a comparison. -/
abbrev noEnd : Except EvalFault Bool := .error (.endless .comparison)

variable {test test' : Value → Value → Except EvalFault Bool} {xs ys : List Value} {c d : Contents}
  (htest : ∀ x y, test x y ≠ noEnd → test' x y = test x y)
include htest

theorem orSame_below (x y : Value) (hxy : orSame test x y ≠ noEnd) :
    orSame test' x y = orSame test x y := by
  unfold orSame at hxy ⊢
  split
  · rfl
  · next hne => exact htest x y (by simpa [hne] using hxy)

theorem allPairs_below (hall : allPairs test xs ys ≠ noEnd) :
    allPairs test' xs ys = allPairs test xs ys := by
  induction xs generalizing ys with
  | nil => cases ys <;> rfl
  | cons x xs ih =>
    cases ys with
    | nil => rfl
    | cons y ys =>
      rw [allPairs] at hall
      have hxy : test x y ≠ noEnd := fun hstop => hall (by rw [hstop]; rfl)
      rw [allPairs, allPairs, htest x y hxy]
      rcases htxy : test x y with e | _ | _
      · rfl
      · rfl
      · rw [htxy] at hall
        exact ih hall

theorem sameSequence_below (hall : sameSequence test xs ys ≠ noEnd) :
    sameSequence test' xs ys = sameSequence test xs ys := by
  unfold sameSequence at hall ⊢
  split
  · next hlength => exact allPairs_below (orSame_below htest) (by simpa [hlength] using hall)
  · rfl

theorem within_below (hall : within test d c ≠ noEnd) : within test' d c = within test d c := by
  induction c with
  | nil => rfl
  | cons e c ih =>
    rw [within] at hall
    rw [within, within]
    cases hw : d.lookup e.1 with
    | none => rfl
    | some w =>
      rw [hw] at hall
      have hvw : test e.2 w ≠ noEnd := fun hstop => hall (by simp only [hstop]; rfl)
      simp only [htest _ _ hvw]
      rcases hte : test e.2 w with e | _ | _
      · rfl
      · rfl
      · simp only [hte] at hall
        exact ih hall

theorem sameContents_below (hall : sameContents test c d ≠ noEnd) :
    sameContents test' c d = sameContents test c d := by
  unfold sameContents at hall ⊢
  split
  · next hlength => exact within_below htest (by simpa [hlength] using hall)
  · rfl

theorem collections_below {x y : Except EvalFault Contents}
    (hall : (do sameContents (orSame test) (← x) (← y)) ≠ noEnd) :
    (do sameContents (orSame test') (← x) (← y)) = (do sameContents (orSame test) (← x) (← y)) := by
  cases x with
  | error e => rfl
  | ok c =>
    cases y with
    | error e => rfl
    | ok d => exact sameContents_below (orSame_below htest) hall

/-- One level of equality answers no less with more answers for the parts. -/
theorem equalBy_below (hall : h.equalBy test v w ≠ noEnd) :
    h.equalBy test' v w = h.equalBy test v w := by
  cases v with
  | list a =>
    cases w with
    | list b | vector b => exact sameSequence_below htest hall
    | _ => rfl
  | vector a =>
    cases w with
    | list b | vector b => exact sameSequence_below htest hall
    | _ => rfl
  | map a =>
    cases w with
    | map b =>
      simp only [equalBy] at hall ⊢
      split
      · next heq => exact collections_below htest (by simpa only [heq, if_true] using hall)
      · rfl
    | dict b => exact collections_below htest hall
    | _ => rfl
  | dict a =>
    cases w with
    | map b | dict b => exact collections_below htest hall
    | _ => rfl
  | closure a =>
    cases w with
    | closure b => exact allPairs_below (orSame_below htest) hall
    | _ => rfl
  | _ => cases w <;> rfl

end

theorem insertAll_cases (es : List (Value × Value)) (c : Contents) :
    (∃ t, Contents.insertAll c es = .error (.unhashable t)) ∨
      ∃ d, Contents.insertAll c es = .ok d := by
  induction es generalizing c with
  | nil => exact .inr ⟨c, rfl⟩
  | cons e es ih =>
    rw [Contents.insertAll]
    cases e.1.hashKey? with
    | none => exact .inl ⟨_, rfl⟩
    | some k => exact ih _

theorem contents_ne_endless (h : Heap) (a : Nat) :
    h.contents a ≠ .error (.endless .comparison) := by
  rw [contents]
  rcases insertAll_cases (h.mapEntries a).1 [] with ⟨t, hall⟩ | ⟨c, hall⟩
  · simp [hall]
  · rcases hlost : (h.mapEntries a).2 with _ | ⟨key, _ | _⟩ <;> simp [hall, hlost]

theorem dictContents_ne_endless (h : Heap) (a : Nat) :
    h.dictContents a ≠ .error (.endless .comparison) := by
  rw [dictContents]
  rcases insertAll_cases (h.dictAt a) [] with ⟨t, hall⟩ | ⟨c, hall⟩ <;> simp [hall]

section

variable {test : Value → Value → Except EvalFault Bool}

theorem allPairs_ne_noEnd {xs ys : List Value}
    (hall : (∀ x ∈ xs, ∀ y, test x y ≠ noEnd) ∨ ∀ y ∈ ys, ∀ x, test x y ≠ noEnd) :
    allPairs test xs ys ≠ noEnd := by
  induction xs generalizing ys with
  | nil => cases ys <;> simp [allPairs]
  | cons x xs ih =>
    cases ys with
    | nil => simp [allPairs]
    | cons y ys =>
      have hxy : test x y ≠ noEnd :=
        hall.elim (fun hxs => hxs x (by simp) y) fun hys => hys y (by simp) x
      have htail := @ih ys (hall.imp (fun hxs z hz => hxs z (by simp [hz]))
        fun hys z hz => hys z (by simp [hz]))
      rw [allPairs]
      rcases htest : test x y with e | _ | _
      · exact fun heq => hxy (htest.trans heq)
      · exact nofun
      · exact htail

theorem sameSequence_nil {xs ys : List Value} (hnil : xs = [] ∨ ys = []) :
    sameSequence test xs ys ≠ noEnd := by
  cases xs <;> cases ys <;> simp [sameSequence, allPairs] at hnil ⊢

theorem collections_nil {x y : Except EvalFault Contents}
    (hx : x ≠ .error (.endless .comparison)) (hy : y ≠ .error (.endless .comparison))
    (hnil : x = .ok [] ∨ y = .ok []) : (do sameContents test (← x) (← y)) ≠ noEnd := by
  cases x with
  | error e => exact fun heq => hx (congrArg Except.error (Except.error.inj heq))
  | ok c =>
    cases y with
    | error e => exact fun heq => hy (congrArg Except.error (Except.error.inj heq))
    | ok d =>
      change sameContents test c d ≠ noEnd
      cases c <;> cases d <;> simp [sameContents, within] at hnil ⊢

end

theorem contents_of_size_le {a : Nat} (ha : h.maps.size ≤ a) : h.contents a = .ok [] := by
  simp [contents, mapEntries_of_size_le ha, Contents.insertAll]

theorem dictContents_of_size_le {a : Nat} (ha : h.dicts.size ≤ a) : h.dictContents a = .ok [] := by
  simp [dictContents, dictAt, ha, Contents.insertAll]

/-- One level is enough to compare what has no parts and is no function with anything. -/
theorem equalBy_ne_noEnd {test : Value → Value → Except EvalFault Bool} (hv : h.whole? v = none)
    (hclosure : ∀ a, v ≠ .closure a) (w : Value) :
    h.equalBy test v w ≠ noEnd ∧ h.equalBy test w v ≠ noEnd := by
  cases v with
  | list a | vector a =>
    have hitems : h.items a = [] := items_of_size_le (by simpa [whole?] using hv)
    cases w with
    | list b | vector b =>
      exact ⟨sameSequence_nil (by simp [hitems]), sameSequence_nil (by simp [hitems])⟩
    | _ => exact ⟨nofun, nofun⟩
  | map a =>
    have hnil := contents_of_size_le (by simpa [whole?] using hv)
    cases w with
    | map b =>
      constructor
      all_goals
        simp only [equalBy]
        split
        · exact collections_nil (h.contents_ne_endless _) (h.contents_ne_endless _) (by simp [hnil])
        · exact nofun
    | dict b =>
      exact ⟨collections_nil (h.contents_ne_endless _) (h.dictContents_ne_endless _) (.inl hnil),
        collections_nil (h.contents_ne_endless _) (h.dictContents_ne_endless _) (.inl hnil)⟩
    | _ => exact ⟨nofun, nofun⟩
  | dict a =>
    have hnil := dictContents_of_size_le (by simpa [whole?] using hv)
    cases w with
    | map b =>
      exact ⟨collections_nil (h.contents_ne_endless _) (h.dictContents_ne_endless _) (.inr hnil),
        collections_nil (h.contents_ne_endless _) (h.dictContents_ne_endless _) (.inr hnil)⟩
    | dict b =>
      constructor
      all_goals
        exact collections_nil (h.dictContents_ne_endless _) (h.dictContents_ne_endless _)
          (by simp [hnil])
    | _ => exact ⟨nofun, nofun⟩
  | closure a => exact absurd rfl (hclosure a)
  | _ =>
    constructor
    all_goals
      cases w <;> exact nofun

/-- Two levels are enough to compare what has no parts with anything. -/
theorem equalTo_two_ne_noEnd (hnone : h.whole? v = none ∨ h.whole? w = none) :
    h.equalTo 2 v w ≠ noEnd := by
  by_cases hclosures : ∃ a b, v = .closure a ∧ w = .closure b
  · obtain ⟨a, b, rfl, rfl⟩ := hclosures
    -- The parts of a reference to no function are references to no list.
    have hempty : ∀ {c}, h.whole? (.closure c) = none → ∀ x ∈
        [.list (h.closureAt c).required, .list (h.closureAt c).optional,
          (h.closureAt c).rest.elim .nil .str, .list (h.closureAt c).body],
        h.whole? x = none ∧ ∀ d, x ≠ Value.closure d := by
      intro c hc x hx
      rw [closureAt_of_size_le (by simpa [whole?] using hc)] at hx
      simp only [List.mem_cons, List.not_mem_nil, or_false, Option.elim_none] at hx
      rcases hx with rfl | rfl | rfl | rfl <;> simp [whole?]
    have hsame : ∀ x y, h.equalTo 1 x y ≠ noEnd → orSame (h.equalTo 1) x y ≠ noEnd := by
      intro x y hxy
      unfold orSame
      split
      · exact nofun
      · exact hxy
    refine allPairs_ne_noEnd (hnone.imp (fun hv x hx y => ?_) fun hw y hy x => ?_)
    · obtain ⟨hx, hclosure⟩ := hempty hv x hx
      exact hsame x y (equalBy_ne_noEnd hx hclosure y).1
    · obtain ⟨hy, hclosure⟩ := hempty hw y hy
      exact hsame x y (equalBy_ne_noEnd hy hclosure x).2
  · rcases hnone with hv | hw
    · by_cases hclosure : ∃ a, v = .closure a
      · obtain ⟨a, rfl⟩ := hclosure
        cases w with
        | closure b => exact absurd ⟨a, b, rfl, rfl⟩ hclosures
        | _ => exact nofun
      · exact (equalBy_ne_noEnd hv (fun a ha => hclosure ⟨a, ha⟩) w).1
    · by_cases hclosure : ∃ a, w = .closure a
      · obtain ⟨a, rfl⟩ := hclosure
        cases v with
        | closure b => exact absurd ⟨b, a, rfl, rfl⟩ hclosures
        | _ => exact nofun
      · exact (equalBy_ne_noEnd hw (fun a ha => hclosure ⟨a, ha⟩) v).2

/-- Equality as a recursion on pairs of values. -/
def equalPair (h : Heap) (n : Nat) (p : Value × Value) : Except EvalFault Bool :=
  h.equalTo n p.1 p.2

theorem deepening_equalPair (h : Heap) : Deepening noEnd h.equalPair := by
  refine .of_level (fun test p => h.equalBy (fun x y => test (x, y)) p.1 p.2) (fun _ => rfl)
    (fun _ => rfl) ?_
  exact fun htest p hp => equalBy_below (fun x y => htest (x, y)) hp

theorem card_pairs_le (h : Heap) : Fintype.card (h.Whole × h.Whole) ≤ h.depth * h.depth := by
  rw [Fintype.card_prod]
  exact Nat.mul_le_mul (card_whole_lt h).le (card_whole_lt h).le

/-- Equality does not change beyond the rounds of the heap. -/
theorem equalTo_of_le (hn : h.rounds ≤ n) : h.equalTo n = h.equal := by
  have hnone : ∀ {p}, h.bothWhole? p = none → h.equalPair 2 p ≠ noEnd :=
    fun hp => equalTo_two_ne_noEnd (bothWhole?_eq_none.1 hp)
  have hcard := card_pairs_le h
  have hrounds : h.rounds = 4 * (h.depth * h.depth) + 2 := rfl
  have hlast := fun {n} => h.deepening_equalPair.eq_of_card_le (n := n) eq_of_bothWhole? hnone
  have hpairs : h.equalPair n = h.equalPair h.rounds :=
    (hlast (by omega)).trans (hlast (by omega)).symm
  funext v w
  exact congrFun hpairs (v, w)

theorem equal_eq (h : Heap) : h.equal = h.equalBy h.equal := by
  calc h.equal = h.equalTo (h.rounds + 1) := (equalTo_of_le (Nat.le_succ h.rounds)).symm
    _ = h.equalBy h.equal := rfl

section

variable {test test' : Comparison → Value → Value → Except EvalFault Bool} {c : Comparison}
  {xs ys : List Value}

theorem orderedSequence_below (htest : ∀ x y, test c x y ≠ noEnd → test' c x y = test c x y)
    (hall : h.orderedSequence (test c) c xs ys ≠ noEnd) :
    h.orderedSequence (test' c) c xs ys = h.orderedSequence (test c) c xs ys := by
  rw [orderedSequence] at hall
  rw [orderedSequence, orderedSequence]
  rcases hfirst : h.firstDifference xs ys with e | _ | ⟨x, y⟩
  · rfl
  · rfl
  · rw [hfirst] at hall
    exact htest x y hall

/-- One level of order answers no less with more answers for the parts. -/
theorem orderedBy_below (htest : ∀ c x y, test c x y ≠ noEnd → test' c x y = test c x y)
    (hall : h.orderedBy test c v w ≠ noEnd) : h.orderedBy test' c v w = h.orderedBy test c v w := by
  cases v with
  | list a | vector a =>
    cases w with
    | list b | vector b => exact orderedSequence_below (htest _) hall
    | _ => rfl
  | _ => cases w <;> rfl

theorem orderedSequence_nil (hnil : xs = [] ∨ ys = []) :
    h.orderedSequence (test c) c xs ys ≠ noEnd := by
  have hfirst : h.firstDifference xs ys = .ok none := by
    rcases hnil with rfl | rfl
    · rfl
    · cases xs <;> rfl
  rw [orderedSequence, hfirst]
  exact nofun

/-- One level is enough to order what has no parts against anything. -/
theorem orderedBy_ne_noEnd (hnone : h.whole? v = none ∨ h.whole? w = none) :
    h.orderedBy test c v w ≠ noEnd := by
  cases v with
  | list a | vector a =>
    cases w with
    | list b | vector b =>
      refine orderedSequence_nil ?_
      rcases hnone with hv | hw
      · simp [items_of_size_le (by simpa [whole?] using hv)]
      · simp [items_of_size_le (by simpa [whole?] using hw)]
    | _ => exact nofun
  | _ => cases w <;> exact nofun

end

/-- Order as a recursion on a relation with two values. -/
def orderedTriple (h : Heap) (n : Nat) (p : Comparison × Value × Value) : Except EvalFault Bool :=
  h.orderedTo n p.1 p.2.1 p.2.2

theorem deepening_orderedTriple (h : Heap) : Deepening noEnd h.orderedTriple := by
  refine .of_level (fun test p => h.orderedBy (fun c x y => test (c, x, y)) p.1 p.2.1 p.2.2)
    (fun _ => rfl) (fun _ => rfl) ?_
  exact fun htest p hp => orderedBy_below (fun c x y => htest (c, x, y)) hp

instance : Fintype Comparison := ⟨{.lt, .gt, .le, .ge}, fun c => by cases c <;> decide⟩

/-- A relation with two values with parts, if both are. -/
def relation? (h : Heap) (p : Comparison × Value × Value) :
    Option (Comparison × h.Whole × h.Whole) :=
  (h.bothWhole? p.2).map (p.1, ·)

/-- Order does not change beyond the rounds of the heap. -/
theorem orderedTo_of_le (hn : h.rounds ≤ n) : h.orderedTo n = h.ordered := by
  have hnone : ∀ {p}, h.relation? p = none → h.orderedTriple 1 p ≠ noEnd := fun hp =>
    orderedBy_ne_noEnd (bothWhole?_eq_none.1 (Option.map_eq_none_iff.1 hp))
  have hinj : ∀ {p q o}, h.relation? p = some o → h.relation? q = some o → p = q := by
    intro p q o hp hq
    obtain ⟨o', hp', rfl⟩ := Option.map_eq_some_iff.1 hp
    obtain ⟨o'', hq', heq⟩ := Option.map_eq_some_iff.1 hq
    rw [Prod.mk.injEq] at heq
    exact Prod.ext heq.1.symm (eq_of_bothWhole? hp' (heq.2 ▸ hq'))
  have hcard := card_pairs_le h
  have htriples : Fintype.card (Comparison × h.Whole × h.Whole) =
      4 * Fintype.card (h.Whole × h.Whole) := Fintype.card_prod ..
  have hrounds : h.rounds = 4 * (h.depth * h.depth) + 2 := rfl
  have hlast := fun {n} => h.deepening_orderedTriple.eq_of_card_le (n := n) hinj hnone
  have htriple : h.orderedTriple n = h.orderedTriple h.rounds :=
    (hlast (by omega)).trans (hlast (by omega)).symm
  funext c v w
  exact congrFun htriple (c, v, w)

theorem ordered_eq (h : Heap) : h.ordered = h.orderedBy h.ordered := by
  calc h.ordered = h.orderedTo (h.rounds + 1) := (orderedTo_of_le (Nat.le_succ h.rounds)).symm
    _ = h.orderedBy h.ordered := rfl

/-! ## Views -/

theorem viewBy_of_whole?_none (hv : h.whole? v = none) (part part' : Value → Datum) :
    h.viewBy part v = h.viewBy part' v := by
  cases v with
  | list a | vector a =>
    have hitems : h.items a = [] := items_of_size_le (by simpa [whole?] using hv)
    simp [viewBy, hitems]
  | map a => simp [viewBy, mapEntries_of_size_le (by simpa [whole?] using hv)]
  | closure a =>
    simp [viewBy, closureAt_of_size_le (by simpa [whole?] using hv), items]
  | dict a =>
    have ha : h.dicts.size ≤ a := by simpa [whole?] using hv
    simp [viewBy, dictAt, ha]
  | _ => rfl

/-- Different objects are no more than there are in the heap. -/
theorem length_le_card_whole {outer : List Value} (hnodup : outer.Nodup)
    (hwhole : ∀ v ∈ outer, (h.whole? v).isSome) : outer.length ≤ Fintype.card h.Whole := by
  have hsubset : outer.toFinset ⊆ Finset.univ.image (Whole.value (h := h)) := by
    intro v hv
    obtain ⟨o, ho⟩ := Option.isSome_iff_exists.1 (hwhole v (List.mem_toFinset.1 hv))
    exact Finset.mem_image.2 ⟨o, Finset.mem_univ o, (eq_value_of_whole? ho).symm⟩
  rw [← List.toFinset_card_of_nodup hnodup]
  exact (Finset.card_le_card hsubset).trans Finset.card_image_le

/-- A view inside different objects does not change beyond the depth that these leave. -/
theorem viewTo_of_le_of_outer {outer : List Value} (hnodup : outer.Nodup)
    (hwhole : ∀ v ∈ outer, (h.whole? v).isSome) (hdepth : h.depth ≤ n + outer.length)
    (hn : n ≤ k) : h.viewTo k outer = h.viewTo n outer := by
  induction n generalizing k outer with
  | zero =>
    have hlength := length_le_card_whole hnodup hwhole
    have hcard := card_whole_lt h
    omega
  | succ n ih =>
    obtain ⟨k, rfl⟩ : ∃ k', k = k' + 1 := ⟨k - 1, by omega⟩
    funext v
    rw [viewTo, viewTo]
    split
    · rfl
    · next hv =>
      cases hvw : h.whole? v with
      | none => exact viewBy_of_whole?_none hvw _ _
      | some o =>
        have hparts : h.viewTo k (v :: outer) = h.viewTo n (v :: outer) :=
          ih (List.nodup_cons.2 ⟨hv, hnodup⟩)
            (by simpa [hvw] using hwhole) (by rw [List.length_cons]; omega) (by omega)
        rw [hparts]

/-- A view does not change beyond the depth of the heap. -/
theorem viewTo_of_le (hn : h.depth ≤ n) : h.viewTo n [] = h.view :=
  viewTo_of_le_of_outer .nil (by simp) (by simp) hn

end Heap

end Sigil
