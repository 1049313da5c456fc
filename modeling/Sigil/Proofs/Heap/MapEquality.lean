import Sigil.Proofs.Heap.Compared
import Sigil.Proofs.Heap.Construction

/-!
# Equality of maps

Two maps are compared as plain collections of their contents, in which keys are hashed, whatever
test the maps search their keys with (`equal_of_represents`). So two maps of one test may be equal
without having their keys in common, or not be comparable at all. `ComparesByTest` says that two
maps are compared as their test compares keys, and `comparesByTest_iff` that this is so for all maps
over a set of keys exactly when the keys can be hashed and are hashed alike when the test takes them
for the same.
-/

namespace Sigil

/-- The keys that an operation may put in are in `K`. -/
def MapStep.Over (K : Set Value) : MapStep → Prop
  | .put k _ | .getOrPut k _ => k ∈ K
  | .get _ | .getOr _ _ | .delete _ | .pop _ | .contains _ | .clear => True

namespace Association

variable {same : Value → Value → Bool} {l : Association} {K : Set Value} {k v : Value}

theorem forall_put (hl : ∀ p ∈ l, p.1 ∈ K) (hk : k ∈ K) : ∀ p ∈ l.put same k v, p.1 ∈ K := by
  induction l with
  | nil => simpa [put] using hk
  | cons p l ih =>
    obtain ⟨hp, hl⟩ := List.forall_mem_cons.1 hl
    rw [put]
    split
    · exact List.forall_mem_cons.2 ⟨hp, hl⟩
    · exact List.forall_mem_cons.2 ⟨hp, ih hl⟩

theorem forall_erase (hl : ∀ p ∈ l, p.1 ∈ K) : ∀ p ∈ l.erase same k, p.1 ∈ K :=
  fun p hp => hl p (List.mem_of_mem_filter hp)

/-- Operations over `K` leave keys in `K` alone. -/
theorem forall_step (hl : ∀ p ∈ l, p.1 ∈ K) {s : MapStep} (hs : s.Over K) :
    ∀ p ∈ (l.step same s).2, p.1 ∈ K := by
  cases s with
  | put k v => exact forall_put hl hs
  | getOr k v | contains k => exact hl
  | get k =>
    simp only [step]
    split <;> exact hl
  | delete k | pop k =>
    simp only [step]
    split
    · exact forall_erase hl
    · exact hl
  | getOrPut k v =>
    simp only [step]
    split
    · exact hl
    · exact forall_put hl hs
  | clear => simp [step]

/-- Where no two keys are the same, each is found with its own value. -/
theorem lookup?_of_mem (hl : l.Apart same) (hsymm : ∀ j k, same j k = same k j)
    {p : Value × Value} (hp : p ∈ l) (hrefl : same p.1 p.1 = true) :
    l.lookup? same p.1 = some p.2 := by
  induction l with
  | nil => cases hp
  | cons q l ih =>
    obtain ⟨hq, hl⟩ := List.pairwise_cons.1 hl
    rw [lookup?, List.find?_cons]
    rcases List.mem_cons.1 hp with rfl | hp
    · rw [hrefl]
      rfl
    · rw [hsymm, hq p hp]
      exact ih hl hp

theorem forall_run {keyed : Value → Bool} (hl : ∀ p ∈ l, p.1 ∈ K ∧ keyed p.1 = true)
    {ss : List MapStep} (hss : ∀ s ∈ ss, s.Over K) :
    ∀ p ∈ (l.run same keyed ss).2, p.1 ∈ K ∧ keyed p.1 = true := by
  induction ss generalizing l with
  | nil => exact hl
  | cons s ss ih =>
    obtain ⟨hs, hss⟩ := List.forall_mem_cons.1 hss
    simp only [run]
    split
    · next hkeyed =>
      have hover : s.Over {k | k ∈ K ∧ keyed k = true} := by
        cases s with
        | put k v | getOrPut k v => exact ⟨hs, hkeyed⟩
        | get | getOr | delete | pop | contains | clear => trivial
      exact ih (forall_step hl hover) hss
    · exact ih hl hss

end Association

/-! ## Collections of contents -/

namespace Contents

/-- Entries and what is hashed of them. -/
def Hashes (l : Association) (c : Contents) : Prop :=
  List.Forall₂ (fun p e => p.1.hashKey? = some e.1 ∧ p.2 = e.2) l c

variable {l : Association} {c d : Contents} {key : KeyAtom} {v : Value}

theorem insert_of_ne (hc : ∀ e ∈ c, e.1 ≠ key) : c.insert key v = c ++ [(key, v)] := by
  induction c with
  | nil => rfl
  | cons e c ih =>
    obtain ⟨he, hc⟩ := List.forall_mem_cons.1 hc
    rw [insert, if_neg he, ih hc]
    rfl

/-- Entries that are hashed apart are all kept. -/
theorem insertAll_apart (hhash : ∀ p ∈ l, p.1.hashKey?.isSome = true)
    (hapart : l.Pairwise fun p q => p.1.hashKey? ≠ q.1.hashKey?)
    (hc : ∀ p ∈ l, ∀ e ∈ c, p.1.hashKey? ≠ some e.1) :
    ∃ d, insertAll c l = .ok (c ++ d) ∧ Hashes l d := by
  induction l generalizing c with
  | nil => exact ⟨[], by rw [List.append_nil]; rfl, .nil⟩
  | cons p l ih =>
    obtain ⟨k, v⟩ := p
    obtain ⟨hp, hhash⟩ := List.forall_mem_cons.1 hhash
    obtain ⟨hne, hapart⟩ := List.pairwise_cons.1 hapart
    obtain ⟨hpc, hc⟩ := List.forall_mem_cons.1 hc
    obtain ⟨key, hkey⟩ := Option.isSome_iff_exists.1 hp
    have hinsert : c.insert key v = c ++ [(key, v)] :=
      insert_of_ne fun e he heq => hpc e he (heq ▸ hkey)
    obtain ⟨d, hd, hhashes⟩ := ih (c := c ++ [(key, v)]) hhash hapart fun q hq e he => by
      rcases List.mem_append.1 he with he | he
      · exact hc q hq e he
      · rw [List.mem_singleton.1 he, ← hkey]
        exact (hne q hq).symm
    refine ⟨(key, v) :: d, ?_, .cons ⟨hkey, rfl⟩ hhashes⟩
    simp only [insertAll, hkey, hinsert, hd, List.append_assoc, List.singleton_append]

/-- Looking up what a key is hashed as is looking up the key, where the keys that are the same are
those that are hashed alike. -/
theorem Hashes.lookup (hl : Hashes l d) {same : Value → Value → Bool} {k : Value}
    (hk : k.hashKey? = some key)
    (hsame : ∀ p ∈ l, same k p.1 = true ↔ k.hashKey? = p.1.hashKey?) :
    d.lookup key = l.lookup? same k := by
  induction hl with
  | nil => rfl
  | @cons p e l d hpe _ ih =>
    obtain ⟨hp, hsame⟩ := List.forall_mem_cons.1 hsame
    obtain ⟨hhash, hvalue⟩ := hpe
    rw [Association.lookup?, List.find?_cons, List.lookup_cons]
    by_cases heq : key = e.1
    · have hsame : same k p.1 = true := by rw [hp, hk, hhash, heq]
      simp [heq, hsame, hvalue]
    · have hne : same k p.1 = false := by
        rw [← Bool.not_eq_true, hp, hk, hhash]
        simpa using heq
      rw [beq_eq_false_iff_ne.2 heq, hne]
      exact ih hsame

end Contents

namespace Heap

variable {test : Value → Value → Except EvalFault Bool} {c d : Contents}

/-- When no test fails, all is within when every key is there with a value that passes. -/
theorem exists_within (htest : ∀ e ∈ c, ∀ w, d.lookup e.1 = some w → ∃ t, test e.2 w = .ok t) :
    ∃ t, within test d c = .ok t ∧
      (t = true ↔ ∀ e ∈ c, ∃ w, d.lookup e.1 = some w ∧ test e.2 w = .ok true) := by
  induction c with
  | nil => exact ⟨true, rfl, by simp⟩
  | cons e c ih =>
    obtain ⟨he, hc⟩ := List.forall_mem_cons.1 htest
    obtain ⟨t, ht, hiff⟩ := ih hc
    rw [within, List.forall_mem_cons, ← hiff]
    cases hlookup : d.lookup e.1 with
    | none => exact ⟨false, rfl, by simp⟩
    | some w =>
      obtain ⟨u, hu⟩ := he w hlookup
      cases u with
      | true => exact ⟨t, by simp only [hu]; exact ht, by simp [hu]⟩
      | false => exact ⟨false, by simp only [hu]; rfl, by simp [hu]⟩

/-! ## Maps that operations have made -/

variable {h : Heap} {a b r : Nat} {la lb l : Association} {norm : Value → Option MapKey}
  {mapTest : MapTest}

/-- An operation changes its map and nothing else. -/
theorem mapStep_cases (h : Heap) (r : Nat) (s : MapStep) :
    (h.mapStep r s).2 = h ∨ ∃ m, (h.mapStep r s).2 = h.setMap r m := by
  have hput : ∀ answer k v, (h.changed answer (h.mapPut r k v)).2 = h ∨
      ∃ m, (h.changed answer (h.mapPut r k v)).2 = h.setMap r m := by
    intro answer k v
    cases hput : h.mapPut r k v with
    | none => exact .inl rfl
    | some h' =>
      obtain ⟨form, -, rfl⟩ := mapPut_eq_some.1 hput
      exact .inr ⟨_, rfl⟩
  cases s with
  | put k v => exact hput _ k v
  | clear =>
    simp only [mapStep, mapClear]
    split <;> next hclear =>
      obtain ⟨rfl, -⟩ := Prod.mk.inj hclear
      exact .inr ⟨_, rfl⟩
  | get k | getOr k v | contains k =>
    simp only [mapStep]
    split <;> exact .inl rfl
  | delete k | pop k =>
    simp only [mapStep]
    split
    · exact .inr ⟨_, rfl⟩
    · exact .inl rfl
  | getOrPut k v =>
    simp only [mapStep]
    split
    · exact .inl rfl
    · exact hput _ k v
    · exact .inl rfl

theorem Represents.setMap_of_ne (ha : Represents mapTest norm h a l) (hne : r ≠ a)
    (m : MapObject) : Represents mapTest norm (h.setMap r m) a l := by
  have hmap : (h.setMap r m).mapAt a = h.mapAt a := by
    simp [Heap.setMap, mapAt, hne]
  exact ⟨by simpa [Heap.setMap] using ha.bound, hmap ▸ ha.test_eq,
    (key_setMap h r m).symm ▸ ha.norm_eq, hmap ▸ ha.settled, hmap ▸ ha.pairs_eq⟩

theorem Represents.mapSteps_of_ne (ha : Represents mapTest norm h a l) (hne : r ≠ a)
    (ss : List MapStep) : Represents mapTest norm (h.mapSteps r ss).2 a l := by
  induction ss generalizing h with
  | nil => exact ha
  | cons s ss ih =>
    have hstep : Represents mapTest norm (h.mapStep r s).2 a l := by
      rcases mapStep_cases h r s with heq | ⟨m, heq⟩
      · rw [heq]
        exact ha
      · rw [heq]
        exact ha.setMap_of_ne hne m
    exact ih hstep

theorem Represents.mapEntries (ha : Represents mapTest norm h a l) :
    h.mapEntries a = (l, none) := by
  have hsettled : (h.mapAt a).Settled (h.key (h.mapAt a).test) := by
    rw [ha.test_eq, ha.norm_eq]
    exact ha.settled
  rw [Heap.mapEntries, hsettled.currentEntries, ha.pairs_eq]

theorem Represents.mapKeys (ha : Represents mapTest norm h a l) :
    h.mapKeys a = l.map (·.1) := by
  rw [Heap.mapKeys, ← ha.pairs_eq, MapObject.pairs, List.map_map]
  rfl

theorem Represents.mapSize (ha : Represents mapTest norm h a l) : h.mapSize a = l.length := by
  rw [Heap.mapSize, ← ha.pairs_eq, MapObject.pairs, List.length_map]

theorem Represents.apart (ha : Represents mapTest norm h a l) :
    l.Apart (MapObject.sameForm norm) := by
  rw [← ha.pairs_eq]
  exact ha.settled.apart

theorem Represents.mapGet_eq_ok (ha : Represents mapTest norm h a l) {k v : Value}
    (hk : (norm k).isSome) :
    h.mapGet a k = .ok v ↔ l.lookup? (MapObject.sameForm norm) k = some v := by
  obtain ⟨form, hk⟩ := Option.isSome_iff_exists.1 hk
  rw [Heap.mapGet, ha.entryOf hk, ha.lookup?_eq hk]
  cases (h.mapAt a).find? form <;> simp [Except.map]

theorem Represents.isSome_of_mem (ha : Represents mapTest norm h a l) {p : Value × Value}
    (hp : p ∈ l) : (norm p.1).isSome := by
  rw [← ha.pairs_eq] at hp
  obtain ⟨e, he, rfl⟩ := List.mem_map.1 hp
  exact Option.isSome_of_eq_some (ha.settled.form e he)

theorem Represents.mapGet_of_mem (ha : Represents mapTest norm h a l) {p : Value × Value}
    (hp : p ∈ l) : h.mapGet a p.1 = .ok p.2 := by
  have hkeyed := ha.isSome_of_mem hp
  obtain ⟨form, hform⟩ := Option.isSome_iff_exists.1 hkeyed
  rw [ha.mapGet_eq_ok hkeyed]
  refine Association.lookup?_of_mem ha.apart (fun j k => ?_) hp ?_
  · unfold MapObject.sameForm
    cases norm j <;> cases norm k <;> simp [BEq.comm]
  · rw [MapObject.sameForm_eq hform hform, beq_self_eq_true]

theorem Represents.contents (ha : Represents mapTest norm h a l) :
    h.contents a = Contents.insertAll [] l := by
  simp only [Heap.contents, ha.mapEntries]
  cases Contents.insertAll [] l <;> rfl

theorem equal_of_represents (ha : Represents mapTest norm h a la)
    (hb : Represents mapTest norm h b lb) :
    h.equal (.map a) (.map b) = (do
      let c ← Contents.insertAll [] la
      let d ← Contents.insertAll [] lb
      sameContents h.sameItem c d) := by
  rw [equal_eq, equalBy]
  simp only [ha.test_eq, hb.test_eq, if_true, ← ha.contents, ← hb.contents]
  rfl

/-! ## Maps that are compared by their test -/

/-- Two different maps of a test without entries. -/
structure EmptyMaps (h : Heap) (mapTest : MapTest) (a b : Nat) : Prop where
  ne : a ≠ b
  left_bound : a < h.maps.size
  right_bound : b < h.maps.size
  left_test : (h.mapAt a).test = mapTest
  right_test : (h.mapAt b).test = mapTest
  left_nil : (h.mapAt a).entries = []
  right_nil : (h.mapAt b).entries = []

/-- The heap after operations on one map and on another. -/
def made (h : Heap) (a b : Nat) (as bs : List MapStep) : Heap :=
  ((h.mapSteps a as).2.mapSteps b bs).2

theorem represents_of_nil (hbound : r < h.maps.size) (htest : (h.mapAt r).test = mapTest)
    (hnil : (h.mapAt r).entries = []) : Represents mapTest (h.key mapTest) h r [] where
  bound := hbound
  test_eq := htest
  norm_eq := rfl
  settled := ⟨by rw [MapObject.Distinct, hnil]; exact List.nodup_nil, by simp [hnil]⟩
  pairs_eq := by rw [MapObject.pairs, hnil]; rfl

/-- Each of two maps that were empty holds what its operations have put in. -/
theorem EmptyMaps.represents (he : h.EmptyMaps mapTest a b) (as bs : List MapStep) :
    Represents mapTest (h.key mapTest) (h.made a b as bs) a
        (Association.run (MapObject.sameForm (h.key mapTest)) (fun k => (h.key mapTest k).isSome)
          [] as).2 ∧
      Represents mapTest (h.key mapTest) (h.made a b as bs) b
        (Association.run (MapObject.sameForm (h.key mapTest)) (fun k => (h.key mapTest k).isSome)
          [] bs).2 := by
  have ha := ((represents_of_nil he.left_bound he.left_test he.left_nil).mapSteps as).2
  have hb := (represents_of_nil he.right_bound he.right_test he.right_nil).mapSteps_of_ne he.ne as
  exact ⟨ha.mapSteps_of_ne he.ne.symm bs, (hb.mapSteps bs).2⟩

/-- If the values that two maps have under the same keys can be compared, then the maps can be
compared, and are equal when they have as many keys and every key of the one is in the other with
the same or an equal value. -/
def ComparesByTest (h : Heap) (a b : Nat) : Prop :=
  (∀ k ∈ h.mapKeys a, ∀ v w, h.mapGet a k = .ok v → h.mapGet b k = .ok w →
    ∃ t, h.sameItem v w = .ok t) →
  ∃ t, h.equal (.map a) (.map b) = .ok t ∧
    (t = true ↔ h.mapSize a = h.mapSize b ∧
      ∀ k ∈ h.mapKeys a, ∃ v w, h.mapGet a k = .ok v ∧ h.mapGet b k = .ok w ∧
        h.sameItem v w = .ok true)

section

open MapObject (sameForm)

variable {K : Set Value}

/-- The keys that have a form can be hashed, and those are hashed alike that have the same form. -/
def HashedByForm (norm : Value → Option MapKey) (K : Set Value) : Prop :=
  ∀ k ∈ K, ∀ k' ∈ K, (norm k).isSome → (norm k').isSome → k.hashKey?.isSome = true ∧
    (sameForm norm k k' = true ↔ k.hashKey? = k'.hashKey?)

/-- The contents of a map whose keys are hashed by their form have an element for each entry. -/
theorem Represents.exists_contents (ha : Represents mapTest norm h a l)
    (hK : HashedByForm norm K) (hl : ∀ p ∈ l, p.1 ∈ K) :
    ∃ c, Contents.insertAll [] l = .ok c ∧ Contents.Hashes l c := by
  have hform := fun {p} (hp : p ∈ l) => ha.isSome_of_mem hp
  refine Contents.insertAll_apart
    (fun p hp => (hK p.1 (hl p hp) p.1 (hl p hp) (hform hp) (hform hp)).1)
    (ha.apart.imp_of_mem fun {p q} hp hq hne heq => ?_) (by simp)
  rw [(hK p.1 (hl p hp) q.1 (hl q hq) (hform hp) (hform hq)).2.2 heq] at hne
  cases hne

/-- What the keys of one map are hashed as is looked up in the contents of the other as the keys
are in that map. -/
theorem Represents.lookup_contents {c d : Contents} (ha : Represents mapTest norm h a la)
    (hb : Represents mapTest norm h b lb) (hK : HashedByForm norm K) (hla : ∀ p ∈ la, p.1 ∈ K)
    (hlb : ∀ p ∈ lb, p.1 ∈ K) (hc : Contents.Hashes la c) (hd : Contents.Hashes lb d) :
    List.Forall₂ (fun p e => p.2 = e.2 ∧ ∀ w, d.lookup e.1 = some w ↔ h.mapGet b p.1 = .ok w)
      la c := by
  have hboth := (List.forall₂_and_left _ _).2
    ⟨fun p hp => And.intro (hla p hp) (ha.isSome_of_mem hp), hc⟩
  refine hboth.imp fun p e ⟨⟨hmem, hform⟩, hhash, hvalue⟩ => ⟨hvalue, fun w => ?_⟩
  rw [hb.mapGet_eq_ok hform, hd.lookup hhash fun q hq =>
    (hK p.1 hmem q.1 (hlb q hq) hform (hb.isSome_of_mem hq)).2]

theorem comparesByTest_of_hashedByForm (ha : Represents mapTest norm h a la)
    (hb : Represents mapTest norm h b lb) (hK : HashedByForm norm K) (hla : ∀ p ∈ la, p.1 ∈ K)
    (hlb : ∀ p ∈ lb, p.1 ∈ K) : h.ComparesByTest a b := by
  intro hvalues
  obtain ⟨c, hc, hhc⟩ := ha.exists_contents hK hla
  obtain ⟨d, hd, hhd⟩ := hb.exists_contents hK hlb
  have hlookup := ha.lookup_contents hb hK hla hlb hhc hhd
  have htests : ∀ e ∈ c, ∀ w, d.lookup e.1 = some w → ∃ t, h.sameItem e.2 w = .ok t := by
    intro e he w hw
    obtain ⟨p, hp, hvalue, hget⟩ := exists_of_mem_forall₂ hlookup.flip he
    rw [← hvalue]
    exact hvalues p.1 (ha.mapKeys ▸ List.mem_map_of_mem hp) p.2 w (ha.mapGet_of_mem hp)
      ((hget w).1 hw)
  obtain ⟨t, ht, hiff⟩ := exists_within htests
  have hall : t = true ↔ ∀ k ∈ h.mapKeys a, ∃ v w, h.mapGet a k = .ok v ∧
      h.mapGet b k = .ok w ∧ h.sameItem v w = .ok true := by
    rw [hiff, ha.mapKeys, List.forall_mem_map]
    constructor
    · intro hwithin p hp
      obtain ⟨e, he, hvalue, hget⟩ := exists_of_mem_forall₂ hlookup hp
      obtain ⟨w, hw, hsame⟩ := hwithin e he
      exact ⟨p.2, w, ha.mapGet_of_mem hp, (hget w).1 hw, hvalue ▸ hsame⟩
    · intro hwithin e he
      obtain ⟨p, hp, hvalue, hget⟩ := exists_of_mem_forall₂ hlookup.flip he
      obtain ⟨v, w, hv, hw, hsame⟩ := hwithin p hp
      cases (ha.mapGet_of_mem hp).symm.trans hv
      exact ⟨w, (hget w).2 hw, hvalue ▸ hsame⟩
  rw [equal_of_represents ha hb, hc, hd, ha.mapSize, hb.mapSize, hhc.length_eq, hhd.length_eq,
    ← hall]
  by_cases hlength : c.length = d.length
  · exact ⟨t, (if_pos hlength).trans ht, by simp [hlength]⟩
  · exact ⟨false, if_neg hlength, by simp [hlength]⟩

/-! ## Maps with one key each -/

/-- Where maps with one key and one value can be compared, their keys can be hashed, and the answer
is whether they are hashed alike. -/
theorem hashed_of_equal {k k' : Value} {t : Bool}
    (ha : Represents mapTest norm h a [(k, .nil)]) (hb : Represents mapTest norm h b [(k', .nil)])
    (ht : h.equal (.map a) (.map b) = .ok t) :
    k.hashKey?.isSome = true ∧ (t = true ↔ k.hashKey? = k'.hashKey?) := by
  rw [equal_of_represents ha hb, Contents.insertAll, Contents.insertAll] at ht
  cases hk : k.hashKey? with
  | none =>
    rw [hk] at ht
    cases ht
  | some key =>
    cases hk' : k'.hashKey? with
    | none =>
      rw [hk, hk'] at ht
      cases ht
    | some key' =>
      rw [hk, hk'] at ht
      have hwithin : within h.sameItem [(key', .nil)] [(key, .nil)] = .ok t := ht
      refine ⟨rfl, ?_⟩
      rw [within, List.lookup_cons] at hwithin
      by_cases heq : key = key'
      · rw [beq_iff_eq.2 heq] at hwithin
        cases hwithin
        simp [heq]
      · rw [beq_eq_false_iff_ne.2 heq] at hwithin
        cases hwithin
        simp [heq]

theorem hashed_of_comparesByTest {k k' : Value}
    (ha : Represents mapTest norm h a [(k, .nil)]) (hb : Represents mapTest norm h b [(k', .nil)])
    (hcompares : h.ComparesByTest a b) :
    k.hashKey?.isSome = true ∧ (sameForm norm k k' = true ↔ k.hashKey? = k'.hashKey?) := by
  have hgetA : h.mapGet a k = .ok .nil := ha.mapGet_of_mem (List.mem_singleton_self _)
  have hgetB : ∀ w, h.mapGet b k = .ok w ↔ sameForm norm k k' = true ∧ w = .nil := by
    intro w
    rw [hb.mapGet_eq_ok (ha.isSome_of_mem (List.mem_singleton_self _)), Association.lookup?,
      List.find?_cons]
    cases sameForm norm k k' <;> simp [eq_comm]
  have hnil : h.sameItem .nil .nil = .ok true := rfl
  obtain ⟨t, ht, hiff⟩ := hcompares fun j hj v w hv hw => by
    rw [ha.mapKeys, List.map_singleton, List.mem_singleton] at hj
    subst hj
    cases hgetA.symm.trans hv
    obtain ⟨-, rfl⟩ := (hgetB w).1 hw
    exact ⟨true, hnil⟩
  have htest : t = true ↔ sameForm norm k k' = true := by
    rw [hiff, ha.mapKeys, ha.mapSize, hb.mapSize]
    simp [hgetA, hgetB, hnil]
  rw [← htest]
  exact hashed_of_equal ha hb ht

/-! ## Where maps are compared by their test -/

theorem run_put {norm : Value → Option MapKey} {k : Value} (hk : (norm k).isSome) :
    (Association.run (sameForm norm) (fun k => (norm k).isSome) [] [.put k .nil]).2
      = [(k, .nil)] := by
  simp [Association.run, Association.step, Association.put, MapStep.key?, hk]

/-- Two maps of a test that were empty are compared by the test, whatever operations with keys in
`K` have made of them, exactly when all keys in `K` that the test can compare can be hashed and those
that are the same key under the test are those that are hashed alike. -/
theorem comparesByTest_iff (he : h.EmptyMaps mapTest a b) :
    (∀ as bs, (∀ s ∈ as, s.Over K) → (∀ s ∈ bs, s.Over K) →
        (h.made a b as bs).ComparesByTest a b) ↔
      ∀ k ∈ K, ∀ k' ∈ K, h.Comparable mapTest k → h.Comparable mapTest k' →
        k.hashKey?.isSome = true ∧
          (h.sameKey mapTest k k' = some true ↔ k.hashKey? = k'.hashKey?) := by
  have hsame : ∀ k k', h.sameKey mapTest k k' = some true ↔
      sameForm (h.key mapTest) k k' = true := fun k k' => by simp [sameForm, sameKey]
  simp only [hsame, ← isSome_key]
  constructor
  · intro hall k hk k' hk' hform hform'
    obtain ⟨ha, hb⟩ := he.represents [.put k .nil] [.put k' .nil]
    rw [run_put hform] at ha
    rw [run_put hform'] at hb
    exact hashed_of_comparesByTest ha hb
      (hall _ _ (by simpa [MapStep.Over] using hk) (by simpa [MapStep.Over] using hk'))
  · intro hK as bs has hbs
    obtain ⟨ha, hb⟩ := he.represents as bs
    exact comparesByTest_of_hashedByForm ha hb hK
      (fun p hp => (Association.forall_run (by simp) has p hp).1)
      (fun p hp => (Association.forall_run (by simp) hbs p hp).1)

def twoMaps (mapTest : MapTest) : Heap :=
  let h := ((Heap.empty.newSequence [.int 1]).2.newSequence [.int 1]).2
  ((h.newMap ⟨mapTest, none, []⟩).2.newMap ⟨mapTest, none, []⟩).2

theorem emptyMaps_twoMaps (mapTest : MapTest) : (twoMaps mapTest).EmptyMaps mapTest 0 1 := by
  constructor <;> simp [twoMaps, newMap, newSequence, Heap.empty, mapAt]

/-- A number and a keyword are keys by which maps are compared well. -/
theorem comparesByTest_iff_keyword :
    let K : Set Value := {.int 1, .kw (.fixed "x")}
    (twoMaps .equal).EmptyMaps .equal 0 1 ∧
      ∀ as bs, (∀ s ∈ as, s.Over K) → (∀ s ∈ bs, s.Over K) →
        ((twoMaps .equal).made 0 1 as bs).ComparesByTest 0 1 := by
  intro K
  refine ⟨emptyMaps_twoMaps .equal, (comparesByTest_iff (emptyMaps_twoMaps .equal)).2 ?_⟩
  rintro k (rfl | rfl) k' (rfl | rfl) - - <;> decide +kernel

/-- Maps with a list as a key cannot be compared, and maps are equal that have a truth value and a
number as keys, which their test tells apart. -/
theorem not_comparesByTest :
    (∃ f, ((twoMaps .equal).made 0 1 [.put (.list 0) .nil] [.put (.list 1) .nil]).equal
        (.map 0) (.map 1) = .error f) ∧
      ¬ ((twoMaps .equal).made 0 1 [.put (.list 0) .nil] [.put (.list 1) .nil]).ComparesByTest
        0 1 ∧
      ¬ ((twoMaps .eql).made 0 1 [.put (.bool true) .nil] [.put (.int 1) .nil]).ComparesByTest
        0 1 := by
  refine ⟨⟨_, rfl⟩, fun hcompares => ?_, fun hcompares => ?_⟩
  · obtain ⟨ha, hb⟩ :=
      (emptyMaps_twoMaps .equal).represents [.put (.list 0) .nil] [.put (.list 1) .nil]
    rw [run_put (by decide +kernel)] at ha hb
    cases (hashed_of_comparesByTest ha hb hcompares).1
  · obtain ⟨ha, hb⟩ :=
      (emptyMaps_twoMaps .eql).represents [.put (.bool true) .nil] [.put (.int 1) .nil]
    rw [run_put (by decide +kernel)] at ha hb
    have hform := (hashed_of_comparesByTest ha hb hcompares).2.2 (by decide +kernel)
    have hapart : sameForm ((twoMaps .eql).key .eql) (.bool true) (.int 1) = false := by
      decide +kernel
    rw [hapart] at hform
    cases hform

end

end Heap

end Sigil
