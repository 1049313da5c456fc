import Sigil.Proofs.Heap.Alike

/-!
# Views and comparisons in images of heaps

A value has the same view in a heap and in its image (`Image.view`), and comparisons have the same
answers and the same faults (`Image.equal`, `Image.ordered`). So a heap and its image show the same of
their objects (`Image.reads`).
-/

namespace Sigil

namespace Image

variable {σ : Renaming} {h h' : Heap}

/-! ### Views -/

section

variable {part part' : Value → Datum} (hpart : ∀ v, part' (σ.value v) = part v)
include hpart

theorem map_value (vs : List Value) : (vs.map σ.value).map part' = vs.map part := by
  rw [List.map_map]
  exact List.map_congr_left fun v _ => hpart v

theorem map_pair (es : List (Value × Value)) :
    (es.map σ.pair).map (fun e => (part' e.1, part' e.2)) = es.map fun e => (part e.1, part e.2) := by
  rw [List.map_map]
  exact List.map_congr_left fun e _ => Prod.ext (hpart e.1) (hpart e.2)

theorem viewBy (hI : Image σ h h') (v : Value) : h'.viewBy part' (σ.value v) = h.viewBy part v := by
  cases v with
  | list a | vector a => simp only [Renaming.value, Heap.viewBy, hI.items, map_value hpart]
  | map a =>
    have hlost : ((h.mapEntries a).2.map (Prod.map σ.value id)).map (fun l => (part' l.1, l.2))
        = (h.mapEntries a).2.map fun l => (part l.1, l.2) := by
      rw [Option.map_map]
      exact Option.map_congr fun l _ => Prod.ext (hpart l.1) rfl
    simp only [Renaming.value, Heap.viewBy, hI.mapAt, hI.mapEntries, Renaming.test_mapObject,
      map_pair hpart, hlost]
    rfl
  | closure a =>
    have htext : ∀ s : Option Str, (s.map σ.str).map (·.text) = s.map (·.text) := fun s => by
      cases s <;> simp
    simp only [Renaming.value, Heap.viewBy, hI.closureAt, Renaming.closureObject, hI.items,
      map_value hpart, htext]
  | dict a => simp only [Renaming.value, Heap.viewBy, hI.dictAt, map_pair hpart]
  | scope a => simp [Heap.viewBy, Renaming.value, hI.ownNames, Function.comp_def]
  | _ => simp [Heap.viewBy, Renaming.value]

end

theorem viewTo (hI : Image σ h h') (n : Nat) (outer : List Value) (v : Value) :
    h'.viewTo n (outer.map σ.value) (σ.value v) = h.viewTo n outer v := by
  induction n generalizing outer v with
  | zero => simp [Heap.viewTo]
  | succ n ih =>
    have hlevel := viewBy (fun w => ih (v :: outer) w) hI v
    rw [List.map_cons] at hlevel
    simp only [Heap.viewTo, List.mem_map_of_injective hI.faithful.value_injective,
      Renaming.typeName_value, hlevel]

theorem view (hI : Image σ h h') (v : Value) : h'.view (σ.value v) = h.view v := by
  rw [← Heap.viewTo_of_le (Nat.le_max_left h.depth h'.depth),
    ← Heap.viewTo_of_le (Nat.le_max_right h.depth h'.depth)]
  exact hI.viewTo _ [] v

end Image

/-! ### Hashed contents -/

namespace Renaming

/-- The keys of hashed collections. An access to a vector has no identity there. -/
def hashed (σ : Renaming) : KeyAtom → KeyAtom := { σ with identity := id }.atom

def hashedPair (σ : Renaming) (e : KeyAtom × Value) : KeyAtom × Value := (σ.hashed e.1, σ.value e.2)

variable {σ : Renaming}

theorem Faithful.hashed_injective (hσ : σ.Faithful) : Function.Injective σ.hashed :=
  Faithful.atom_injective { hσ with identity := Function.injective_id }

theorem Faithful.beq_value (hσ : σ.Faithful) (v w : Value) : (σ.value v == σ.value w) = (v == w) := by
  rw [Bool.eq_iff_iff, beq_iff_eq, beq_iff_eq, hσ.value_injective.eq_iff]

theorem Faithful.isSame_value (hσ : σ.Faithful) (v w : Value) :
    (σ.value v).isSame (σ.value w) = v.isSame w := by
  have hbeq := hσ.beq_value v w
  cases v with
  | float x =>
    cases w with
    | float y => rfl
    | _ => exact hbeq
  | _ => exact hbeq

theorem hashKey?_value (v : Value) : (σ.value v).hashKey? = v.hashKey?.map σ.hashed := by
  cases v with
  | bool | int | float => rfl
  | _ =>
    simp [Value.hashKey?, value, Value.number?, Value.integer?, Value.identityKey, hashed, atom]

theorem insert_contents (hσ : σ.Faithful) (k : KeyAtom) (v : Value) (c : Contents) :
    Contents.insert (σ.hashed k) (σ.value v) (c.map σ.hashedPair)
      = (Contents.insert k v c).map σ.hashedPair := by
  induction c with
  | nil => rfl
  | cons e c ih =>
    obtain ⟨l, w⟩ := e
    simp only [List.map_cons, hashedPair, Contents.insert, hσ.hashed_injective.eq_iff]
    split
    · rfl
    · exact congrArg _ ih

theorem insertAll_contents (hσ : σ.Faithful) (es : List (Value × Value)) (c : Contents) :
    Contents.insertAll (c.map σ.hashedPair) (es.map σ.pair)
      = (Contents.insertAll c es).map (List.map σ.hashedPair) := by
  induction es generalizing c with
  | nil => rfl
  | cons e es ih =>
    rw [List.map_cons, pair, Contents.insertAll, Contents.insertAll, hashKey?_value]
    cases e.1.hashKey? with
    | none => simp only [Option.map_none, typeName_value]; rfl
    | some k => simp only [Option.map_some, insert_contents hσ, ih]

theorem lookup_contents (hσ : σ.Faithful) (k : KeyAtom) (c : Contents) :
    List.lookup (σ.hashed k) (c.map σ.hashedPair) = (List.lookup k c).map σ.value := by
  induction c with
  | nil => rfl
  | cons e c ih =>
    have hkey : (σ.hashed k == σ.hashed e.1) = (k == e.1) := by
      rw [Bool.eq_iff_iff, beq_iff_eq, beq_iff_eq, hσ.hashed_injective.eq_iff]
    rw [List.map_cons, List.lookup_cons, List.lookup_cons, hashedPair, hkey]
    split
    · rfl
    · exact ih

/-! ### Tests on parts -/

section

variable {test test' : Value → Value → Except EvalFault Bool}
  (htest : ∀ x y, test' (σ.value x) (σ.value y) = test x y)
include htest

theorem orSame_value (hσ : σ.Faithful) (x y : Value) :
    Heap.orSame test' (σ.value x) (σ.value y) = Heap.orSame test x y := by
  rw [Heap.orSame, Heap.orSame, hσ.isSame_value, htest x y]

theorem allPairs_value (xs ys : List Value) :
    Heap.allPairs test' (xs.map σ.value) (ys.map σ.value) = Heap.allPairs test xs ys := by
  induction xs generalizing ys with
  | nil => cases ys <;> rfl
  | cons x xs ih =>
    cases ys with
    | nil => rfl
    | cons y ys => simp only [List.map_cons, Heap.allPairs, htest x y, ih ys]

theorem sameSequence_value (hσ : σ.Faithful) (xs ys : List Value) :
    Heap.sameSequence test' (xs.map σ.value) (ys.map σ.value) = Heap.sameSequence test xs ys := by
  rw [Heap.sameSequence, Heap.sameSequence, List.length_map, List.length_map,
    allPairs_value (orSame_value htest hσ)]

theorem sameContents_value (hσ : σ.Faithful) (c d : Contents) :
    Heap.sameContents test' (c.map σ.hashedPair) (d.map σ.hashedPair)
      = Heap.sameContents test c d := by
  have hwithin : Heap.within test' (d.map σ.hashedPair) (c.map σ.hashedPair)
      = Heap.within test d c := by
    induction c with
    | nil => rfl
    | cons e c ih =>
      simp only [List.map_cons, hashedPair, Heap.within, lookup_contents hσ]
      cases List.lookup e.1 d with
      | none => rfl
      | some w => simp only [Option.map_some, htest e.2 w, ih]
  rw [Heap.sameContents, Heap.sameContents, List.length_map, List.length_map, hwithin]

end

end Renaming

/-! ### Equality -/

namespace Image

variable {σ : Renaming} {h h' : Heap} {test test' : Value → Value → Except EvalFault Bool}

/-- Collections of contents compare the same, also when there is a fault. -/
theorem sameContents {x y x' y' : Except EvalFault Contents} (hσ : σ.Faithful)
    (htest : ∀ x y, test' (σ.value x) (σ.value y) = test x y)
    (hx : x' = x.map (List.map σ.hashedPair)) (hy : y' = y.map (List.map σ.hashedPair)) :
    (do Heap.sameContents (Heap.orSame test') (← x') (← y'))
      = (do Heap.sameContents (Heap.orSame test) (← x) (← y)) := by
  rw [hx, hy]
  cases x with
  | error f => rfl
  | ok c =>
    cases y with
    | error f => rfl
    | ok d => exact Renaming.sameContents_value (Renaming.orSame_value htest hσ) hσ c d

section

variable (hI : Image σ h h')
include hI

theorem contents (a : Nat) :
    h'.contents (σ.map a) = (h.contents a).map (List.map σ.hashedPair) := by
  have hall := Renaming.insertAll_contents hI.faithful (h.mapEntries a).1 []
  rw [List.map_nil] at hall
  simp only [Heap.contents, hI.mapEntries, hall]
  cases Contents.insertAll [] (h.mapEntries a).1 with
  | error f => rfl
  | ok c =>
    rcases (h.mapEntries a).2 with _ | ⟨key, _ | _⟩ <;>
      simp only [Except.map, Option.map_some, Option.map_none, Prod.map, id, hI.view]

theorem dictContents (a : Nat) :
    h'.dictContents (σ.dict a) = (h.dictContents a).map (List.map σ.hashedPair) := by
  rw [Heap.dictContents, Heap.dictContents, hI.dictAt]
  exact Renaming.insertAll_contents hI.faithful _ []

theorem equalBy (htest : ∀ x y, test' (σ.value x) (σ.value y) = test x y) (v w : Value) :
    h'.equalBy test' (σ.value v) (σ.value w) = h.equalBy test v w := by
  have hσ := hI.faithful
  have hsequence : ∀ a b,
      Heap.sameSequence test' (h'.items (σ.sequence a)) (h'.items (σ.sequence b))
        = Heap.sameSequence test (h.items a) (h.items b) := fun a b => by
    rw [hI.items, hI.items, Renaming.sameSequence_value htest hσ]
  have hbeq : (.ok (σ.value v == σ.value w) : Except EvalFault Bool) = .ok (v == w) := by
    rw [hσ.beq_value]
  cases v with
  | str s | sym s | kw s =>
    cases w with
    | str t | sym t | kw t => first | exact hbeq | simp [Heap.equalBy, Renaming.value]
    | _ => exact hbeq
  | list a =>
    cases w with
    | list b => exact hsequence a b
    | vector b => exact hsequence b a
    | _ => exact hbeq
  | vector a =>
    cases w with
    | list b | vector b => exact hsequence a b
    | _ => exact hbeq
  | map a =>
    cases w with
    | map b =>
      simp only [Heap.equalBy, Renaming.value, hI.mapAt, Renaming.test_mapObject]
      split
      · exact sameContents hσ htest (hI.contents a) (hI.contents b)
      · rfl
    | dict b => exact sameContents hσ htest (hI.contents a) (hI.dictContents b)
    | _ => exact hbeq
  | dict a =>
    cases w with
    | map b => exact sameContents hσ htest (hI.contents b) (hI.dictContents a)
    | dict b => exact sameContents hσ htest (hI.dictContents a) (hI.dictContents b)
    | _ => exact hbeq
  | closure a =>
    cases w with
    | closure b =>
      have hrest : ∀ s : Option Str, (s.map σ.str).elim Value.nil .str = σ.value (s.elim .nil .str) :=
        fun s => by cases s <;> rfl
      have hlists := fun xs ys => Renaming.allPairs_value (Renaming.orSame_value htest hσ) xs ys
      simp only [Heap.equalBy, Renaming.value, hI.closureAt, Renaming.closureObject, hrest]
      exact hlists
        [.list (h.closureAt a).required, .list (h.closureAt a).optional,
          (h.closureAt a).rest.elim .nil .str, .list (h.closureAt a).body]
        [.list (h.closureAt b).required, .list (h.closureAt b).optional,
          (h.closureAt b).rest.elim .nil .str, .list (h.closureAt b).body]
    | _ => exact hbeq
  | pusher a i =>
    cases w with
    | pusher b j =>
      have hbeq : (σ.sequence a == σ.sequence b) = (a == b) := by
        rw [Bool.eq_iff_iff, beq_iff_eq, beq_iff_eq, hσ.sequence.eq_iff]
      exact congrArg Except.ok hbeq
    | _ => exact hbeq
  | _ => cases w <;> first | exact hbeq | rfl

theorem equalTo (n : Nat) (v w : Value) :
    h'.equalTo n (σ.value v) (σ.value w) = h.equalTo n v w := by
  induction n generalizing v w with
  | zero => rfl
  | succ n ih => exact hI.equalBy ih v w

theorem equal (v w : Value) : h'.equal (σ.value v) (σ.value w) = h.equal v w := by
  rw [← Heap.equalTo_of_le (Nat.le_max_left h.rounds h'.rounds),
    ← Heap.equalTo_of_le (Nat.le_max_right h.rounds h'.rounds)]
  exact hI.equalTo _ v w

/-! ### Order -/

theorem firstDifference (xs ys : List Value) :
    h'.firstDifference (xs.map σ.value) (ys.map σ.value)
      = (h.firstDifference xs ys).map (Option.map σ.pair) := by
  induction xs generalizing ys with
  | nil => cases ys <;> rfl
  | cons x xs ih =>
    cases ys with
    | nil => rfl
    | cons y ys =>
      have hitem : h'.sameItem (σ.value x) (σ.value y) = h.sameItem x y :=
        Renaming.orSame_value hI.equal hI.faithful x y
      simp only [List.map_cons, Heap.firstDifference, hitem, ih]
      rcases h.sameItem x y with f | (_ | _) <;> rfl

theorem orderedBy {test test' : Comparison → Value → Value → Except EvalFault Bool}
    (htest : ∀ c x y, test' c (σ.value x) (σ.value y) = test c x y) (c : Comparison) (v w : Value) :
    h'.orderedBy test' c (σ.value v) (σ.value w) = h.orderedBy test c v w := by
  have hsequence : ∀ c a b,
      h'.orderedSequence (test' c) c (h'.items (σ.sequence a)) (h'.items (σ.sequence b))
        = h.orderedSequence (test c) c (h.items a) (h.items b) := by
    intro c a b
    rw [hI.items, hI.items, Heap.orderedSequence, hI.firstDifference, List.length_map,
      List.length_map, Heap.orderedSequence]
    rcases h.firstDifference (h.items a) (h.items b) with f | _ | ⟨x, y⟩
    · rfl
    · rfl
    · exact htest c x y
  have hfault : (.error (.notOrdered c.symbol (σ.value v).typeName (σ.value w).typeName) :
      Except EvalFault Bool) = .error (.notOrdered c.symbol v.typeName w.typeName) := by
    rw [Renaming.typeName_value, Renaming.typeName_value]
  cases v with
  | str s =>
    cases w with
    | str t => simp [Heap.orderedBy, Renaming.value]
    | _ => exact hfault
  | list a =>
    cases w with
    | list b => exact hsequence c a b
    | vector b => exact hsequence c.swap b a
    | _ => exact hfault
  | vector a =>
    cases w with
    | list b | vector b => exact hsequence c a b
    | _ => exact hfault
  | _ => cases w <;> first | exact hfault | rfl

theorem orderedTo (n : Nat) (c : Comparison) (v w : Value) :
    h'.orderedTo n c (σ.value v) (σ.value w) = h.orderedTo n c v w := by
  induction n generalizing c v w with
  | zero => rfl
  | succ n ih => exact hI.orderedBy ih c v w

theorem ordered (c : Comparison) (v w : Value) :
    h'.ordered c (σ.value v) (σ.value w) = h.ordered c v w := by
  rw [← Heap.orderedTo_of_le (Nat.le_max_left h.rounds h'.rounds),
    ← Heap.orderedTo_of_le (Nat.le_max_right h.rounds h'.rounds)]
  exact hI.orderedTo _ c v w

end

end Image

/-! ### All of it -/

theorem Renaming.reads_image (σ : Renaming) : σ.Reads (Image σ) where
  items a hI := hI.items a
  closureAt a hI := hI.closureAt a
  dictAt a hI := hI.dictAt a
  lookup? s name hI := hI.lookup? s name
  ownNames s hI := hI.ownNames s
  getKey a k hI := hI.mapGet a k
  mapKeys a hI := hI.mapKeys a
  view v hI := hI.view v
  sameKey test v w hI := hI.sameKey test v w
  equal v w hI := hI.equal v w
  ordered c v w hI := hI.ordered c v w

end Sigil
