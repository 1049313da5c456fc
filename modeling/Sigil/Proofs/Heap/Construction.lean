import Mathlib.Order.Interval.Set.LinearOrder
import Sigil.Proofs.Heap.Association
import Sigil.Proofs.Heap.Keys

/-!
# Building values

An expression that is loaded has itself as its contents (`load_has`). A map into which keys are put
one after the other, and whose keys and values have none but later maps in them, has at each moment
the contents that were put in so far (`Filled.put`, `Filled.has`). These are all the keys and values
when no two of the keys are the same (`putsAll_of_apart`).
-/

namespace Sigil

open Heap (Keeps Has Apart Alike)

/-! ## The entries of a settled map -/

namespace MapObject

variable {m : MapObject} {e : Entry}

theorem find?_of_mem (hm : m.Distinct) (he : e ∈ m.entries) : m.find? e.key = some e := by
  unfold Distinct at hm
  unfold find?
  generalize m.entries = es at hm he
  induction es with
  | nil => cases he
  | cons e' es ih =>
    rw [List.map_cons, List.nodup_cons] at hm
    rcases List.mem_cons.1 he with rfl | he
    · exact List.find?_cons_of_pos (by simp)
    · have hne : e'.key ≠ e.key := fun h => hm.1 (h ▸ List.mem_map_of_mem he)
      rw [List.find?_cons_of_neg (by simpa using hne)]
      exact ih hm.2 he

theorem Settled.currentEntries {h : Heap} (hm : m.Settled (h.key m.test)) :
    h.currentEntries m m.entries = (m.pairs, none) := by
  have hall : ∀ es, (∀ e ∈ es, e ∈ m.entries) →
      h.currentEntries m es = (es.map fun e => (e.stored, e.value), none) := by
    intro es
    induction es with
    | nil => exact fun _ => rfl
    | cons e es ih =>
      intro hmem
      have he : e ∈ m.entries := hmem e List.mem_cons_self
      have hfound : h.entryOf m e.stored = .ok e :=
        Heap.entryOf_eq_ok.2 ⟨e.key, hm.form e he, find?_of_mem hm.distinct he⟩
      rw [Heap.currentEntries, hfound, ih fun e' he' => hmem e' (List.mem_cons_of_mem e he')]
      rfl
  exact hall m.entries fun _ he => he

theorem Settled.nodup_keys {norm : Value → Option MapKey} (hm : m.Settled norm) :
    (m.pairs.map fun p => norm p.1).Nodup := by
  have hkeys : (m.pairs.map fun p => norm p.1) = (m.entries.map (·.key)).map some := by
    rw [pairs, List.map_map, List.map_map]
    exact List.map_congr_left hm.form
  rw [hkeys]
  exact hm.distinct.map (Option.some_injective _)

end MapObject

namespace Heap

variable {h h' : Heap} {test : MapTest} {r u : Nat} {k v : Value} {dk dv : Datum}
  {ds : List (Datum × Datum)}

/-! ## Entries that are put in -/

/-- The entries `ds` become `ds'` when the key `k` is put in with the value `v`: a key that is the
same keeps its place, and a new one comes last. -/
inductive Puts (test : MapTest) (k v : Datum) :
    List (Datum × Datum) → List (Datum × Datum) → Prop
  | new : Puts test k v [] [(k, v)]
  | later {d : Datum × Datum} {ds ds' : List (Datum × Datum)} (apart : Apart test d.1 k)
      (rest : Puts test k v ds ds') : Puts test k v (d :: ds) (d :: ds')
  | again {d : Datum × Datum} {ds : List (Datum × Datum)} (alike : Alike test d.1 k) :
      Puts test k v (d :: ds) ((d.1, v) :: ds)

/-- The entries `ds` become `ds'` when `entries` are put in one after the other. -/
inductive PutsAll (test : MapTest) :
    List (Datum × Datum) → List (Datum × Datum) → List (Datum × Datum) → Prop
  | nil (ds : List (Datum × Datum)) : PutsAll test ds [] ds
  | cons {d : Datum × Datum} {entries ds ds₁ ds' : List (Datum × Datum)}
      (head : Puts test d.1 d.2 ds ds₁) (rest : PutsAll test ds₁ entries ds') :
      PutsAll test ds (d :: entries) ds'

theorem puts_of_apart (hapart : ∀ d ∈ ds, Apart test d.1 dk) :
    Puts test dk dv ds (ds ++ [(dk, dv)]) := by
  induction ds with
  | nil => exact .new
  | cons d ds ih =>
    exact .later (hapart d List.mem_cons_self) (ih fun e he => hapart e (List.mem_cons_of_mem _ he))

/-- Entries whose keys are all different are kept, in their order. -/
theorem putsAll_of_apart {entries : List (Datum × Datum)}
    (hapart : (ds ++ entries).Pairwise fun a b => Apart test a.1 b.1) :
    PutsAll test ds entries (ds ++ entries) := by
  induction entries generalizing ds with
  | nil => rw [List.append_nil]; exact .nil ds
  | cons d entries ih =>
    rw [List.append_cons] at hapart ⊢
    refine .cons (puts_of_apart ?_) (ih hapart)
    exact fun a ha => (List.pairwise_append.1 (List.pairwise_append.1 hapart).1).2.2 a ha d
      (List.mem_singleton.2 rfl)

/-- What is put in comes last, or there are no more entries than before. -/
theorem Puts.eq_or_length_le {ds' : List (Datum × Datum)} (hputs : Puts test dk dv ds ds') :
    ds' = ds ++ [(dk, dv)] ∨ ds'.length ≤ ds.length := by
  induction hputs with
  | new => exact .inl rfl
  | again => exact .inr (Nat.le_refl _)
  | later _ _ ih =>
    rcases ih with rfl | hle
    · exact .inl rfl
    · exact .inr (Nat.succ_le_succ hle)

/-- Entries are all kept, or there are fewer of them than were put in. -/
theorem PutsAll.eq_or_length_lt {entries ds' : List (Datum × Datum)}
    (hputs : PutsAll test ds entries ds') :
    ds' = ds ++ entries ∨ ds'.length < ds.length + entries.length := by
  induction hputs with
  | nil => exact .inl (List.append_nil _).symm
  | @cons d entries ds ds₁ ds' hhead _ ih =>
    rw [List.append_cons, List.length_cons]
    rcases hhead.eq_or_length_le with rfl | hle
    · rw [List.length_append, List.length_singleton] at ih
      exact ih.imp_right fun hlt => by omega
    · right
      rcases ih with rfl | hlt
      · rw [List.length_append]
        omega
      · omega

theorem exists_puts (hid : test = .eq ∨ test = .eql → Identifiable dk ∧ ∀ d ∈ ds, Identifiable d.1)
    (dv : Datum) : ∃ ds', Puts test dk dv ds ds' := by
  induction ds with
  | nil => exact ⟨_, .new⟩
  | cons d ds ih =>
    obtain ⟨ds', hputs⟩ := ih fun ht =>
      ⟨(hid ht).1, fun e he => (hid ht).2 e (List.mem_cons_of_mem _ he)⟩
    rcases apart_or_alike fun ht => ⟨(hid ht).2 d List.mem_cons_self, (hid ht).1⟩ with
      hapart | halike
    · exact ⟨_, .later hapart hputs⟩
    · exact ⟨_, .again halike⟩

/-- The keys are those that there were and the one that is put in. -/
theorem Puts.mem_keys {ds' : List (Datum × Datum)} (hputs : Puts test dk dv ds ds')
    {d : Datum × Datum} (hd : d ∈ ds') : d.1 = dk ∨ ∃ e ∈ ds, e.1 = d.1 := by
  induction hputs with
  | new =>
    rw [List.mem_singleton] at hd
    exact .inl (by rw [hd])
  | again =>
    rcases List.mem_cons.1 hd with rfl | hd
    · exact .inr ⟨_, List.mem_cons_self, rfl⟩
    · exact .inr ⟨_, List.mem_cons_of_mem _ hd, rfl⟩
  | later _ _ ih =>
    rcases List.mem_cons.1 hd with rfl | hd
    · exact .inr ⟨_, List.mem_cons_self, rfl⟩
    · rcases ih hd with hk | ⟨e, he, heq⟩
      · exact .inl hk
      · exact .inr ⟨e, List.mem_cons_of_mem _ he, heq⟩

/-- Entries can be put in: each key is the same as one that there is or different from all. -/
theorem exists_putsAll {entries : List (Datum × Datum)}
    (hid : test = .eq ∨ test = .eql →
      (∀ d ∈ ds, Identifiable d.1) ∧ ∀ d ∈ entries, Identifiable d.1) :
    ∃ ds', PutsAll test ds entries ds' := by
  induction entries generalizing ds with
  | nil => exact ⟨_, .nil ds⟩
  | cons d entries ih =>
    obtain ⟨ds₁, hputs⟩ : ∃ ds₁, Puts test d.1 d.2 ds ds₁ :=
      exists_puts (fun ht => ⟨(hid ht).2 d List.mem_cons_self, (hid ht).1⟩) d.2
    have hkeys : test = .eq ∨ test = .eql → ∀ e ∈ ds₁, Identifiable e.1 := by
      intro ht e he
      rcases hputs.mem_keys he with hk | ⟨a, ha, heq⟩
      · rw [hk]
        exact (hid ht).2 d List.mem_cons_self
      · rw [← heq]
        exact (hid ht).1 a ha
    obtain ⟨ds', hall⟩ := ih fun ht =>
      ⟨hkeys ht, fun e he => (hid ht).2 e (List.mem_cons_of_mem _ he)⟩
    exact ⟨ds', .cons hputs hall⟩

/-! ## Maps that are being filled -/

/-- The map at `r` has the test `test` and no size hint, and the keys and values `ds` were put in
one after the other. The maps in them came later, but before the one at `u`. -/
structure Filled (h : Heap) (r u : Nat) (test : MapTest) (ds : List (Datum × Datum)) : Prop where
  bound : r < h.maps.size
  test_eq : (h.mapAt r).test = test
  settled : (h.mapAt r).Settled (h.key test)
  parts : List.Forall₂ (fun p d => h.Has (Set.Ioo r u) p.1 d.1 ∧ h.Has (Set.Ioo r u) p.2 d.2)
    (h.mapAt r).pairs ds

theorem filled_newMap (h : Heap) (test : MapTest) (u : Nat) :
    Filled (h.newMap ⟨test, none, []⟩).2 h.maps.size u test [] := by
  have hmap : (h.newMap ⟨test, none, []⟩).2.mapAt h.maps.size = ⟨test, none, []⟩ := by
    simp [newMap, mapAt]
  refine ⟨by simp [newMap], by rw [hmap], ?_, ?_⟩
  · rw [hmap]
    exact MapObject.settled_nil _ test none
  · rw [hmap]
    exact .nil

theorem Filled.keeps (hk : Keeps Set.univ h h') (hf : Filled h r u test ds) :
    Filled h' r u test ds := by
  have hmap : h'.mapAt r = h.mapAt r := hk.mapAt_eq r trivial hf.bound
  have hkept : ∀ {v d}, h.Has (Set.Ioo r u) v d → h'.Has (Set.Ioo r u) v d :=
    fun hv => hv.keeps (hk.subset (Set.subset_univ _))
  refine ⟨hf.bound.trans_le hk.maps_le, by rw [hmap, hf.test_eq], ?_, ?_⟩
  · rw [hmap]
    refine ⟨hf.settled.distinct, fun e he => ?_⟩
    have hpair : (e.stored, e.value) ∈ (h.mapAt r).pairs := List.mem_map_of_mem he
    obtain ⟨d, -, ⟨n, hd⟩, -⟩ := exists_of_mem_forall₂ hf.parts hpair
    rw [← hf.settled.form e he]
    exact key_of_keeps (hk.subset (Set.subset_univ _)) hd
  · rw [hmap]
    exact hf.parts.imp fun _ _ hp => ⟨hkept hp.1, hkept hp.2⟩

/-- What a list of keys and values has when a key is put in that has no map in common with them. -/
theorem parts_put {S T : Set Nat} {l : Association} {ds' : List (Datum × Datum)}
    (hST : ∀ a ∈ S, a ∉ T) (hk : h.Has T k dk) (hv : h.Has T v dv)
    (hl : List.Forall₂ (fun p d => h.Has S p.1 d.1 ∧ h.Has S p.2 d.2) l ds)
    (hputs : Puts test dk dv ds ds') :
    List.Forall₂ (fun p d => h.Has (S ∪ T) p.1 d.1 ∧ h.Has (S ∪ T) p.2 d.2)
      (l.put (MapObject.sameForm (h.key test)) k v) ds' := by
  have hold : ∀ {x d}, h.Has S x d → h.Has (S ∪ T) x d :=
    fun hx => hx.subset Set.subset_union_left
  have hnew : ∀ {x d}, h.Has T x d → h.Has (S ∪ T) x d :=
    fun hx => hx.subset Set.subset_union_right
  obtain ⟨f, hf⟩ := exists_key hk test
  induction hl generalizing ds' with
  | nil =>
    cases hputs
    exact .cons ⟨hnew hk, hnew hv⟩ .nil
  | @cons p d l ds hp hrest ih =>
    obtain ⟨g, hg⟩ := exists_key hp.1 test
    have hsame := MapObject.sameForm_eq hf hg
    cases hputs with
    | later hd hputs =>
      have hne : f ≠ g := fun heq => hd hST hp.1 hk (by rw [hf, hg, heq])
      rw [Association.put, hsame, beq_false_of_ne hne]
      exact .cons ⟨hold hp.1, hold hp.2⟩ (ih hputs)
    | again hd =>
      have heq : f = g := Option.some.inj (by rw [← hf, ← hg, hd hp.1 hk])
      rw [Association.put, hsame, beq_iff_eq.2 heq]
      exact .cons ⟨hold hp.1, hnew hv⟩ (hrest.imp fun _ _ hp => ⟨hold hp.1, hold hp.2⟩)

theorem Filled.put {w : Nat} {ds' : List (Datum × Datum)} (hf : Filled h r u test ds) (hu : r < u)
    (huw : u ≤ w) (hk : h.Has (Set.Ico u w) k dk) (hv : h.Has (Set.Ico u w) v dv)
    (hputs : Puts test dk dv ds ds') :
    ∃ h', h.mapPut r k v = some h' ∧ Filled h' r w test ds' := by
  obtain ⟨form, hform⟩ := exists_key hk test
  let m := (h.mapAt r).put form k v
  have hput : h.mapPut r k v = some (h.setMap r m) :=
    mapPut_eq_some.2 ⟨form, by rw [hf.test_eq, hform], rfl⟩
  have hmap : (h.setMap r m).mapAt r = m := mapAt_setMap hf.bound m
  have hkept : ∀ {x d}, h.Has (Set.Ioo r u ∪ Set.Ico u w) x d →
      (h.setMap r m).Has (Set.Ioo r w) x d := by
    intro x d hx
    rw [Set.Ioo_union_Ico_eq_Ioo hu huw] at hx
    exact hx.keeps ((Keeps.refl _ h).setMap (.inr fun hr => hr.1.false) _)
  have hST : ∀ a ∈ Set.Ioo r u, a ∉ Set.Ico u w :=
    fun a ha hb => (ha.2.trans_le hb.1).false
  refine ⟨_, hput, by simpa [setMap] using hf.bound, by rw [hmap]; exact hf.test_eq, ?_, ?_⟩
  · rw [hmap, key_setMap]
    exact hf.settled.put hform v
  · rw [hmap, hf.settled.pairs_put hform]
    exact (parts_put hST hk hv hf.parts hputs).imp fun _ _ hp => ⟨hkept hp.1, hkept hp.2⟩

theorem Filled.has (hf : Filled h r u test ds) (hu : u ≤ h.maps.size) :
    h.Has (Set.Ico r h.maps.size) (.map r) (.map test none ds none) := by
  have hST : Set.Ioo r u ⊆ Set.Ico r h.maps.size :=
    fun a ha => ⟨ha.1.le, ha.2.trans_le hu⟩
  have hentries : h.mapEntries r = ((h.mapAt r).pairs, none) :=
    MapObject.Settled.currentEntries (by rw [hf.test_eq]; exact hf.settled)
  exact has_of_level (.map ⟨Nat.le_refl r, hf.bound⟩ hf.bound hf.test_eq hentries
    hf.settled.nodup_keys (hf.parts.imp fun _ _ hp => ⟨hp.1.subset hST, hp.2.subset hST⟩))

/-! ## New sequences -/

section Sequences

variable {S : Set Nat} {vs : List Value} {elems : List Datum}

theorem parts_newSequence (hvs : List.Forall₂ (h.Has S) vs elems) :
    (h.newSequence vs).1 < (h.newSequence vs).2.sequences.size ∧
      List.Forall₂ ((h.newSequence vs).2.Has S)
        ((h.newSequence vs).2.items (h.newSequence vs).1) elems := by
  refine ⟨by simp [newSequence], ?_⟩
  rw [items_newSequence]
  exact hvs.imp fun _ _ hv => hv.keeps (Keeps.newSequence S h vs)

theorem has_newList (hvs : List.Forall₂ (h.Has S) vs elems) :
    (h.newSequence vs).2.Has S (.list (h.newSequence vs).1) (.list elems) :=
  has_of_level (.list (parts_newSequence hvs).1 (parts_newSequence hvs).2)

theorem has_newVector (hvs : List.Forall₂ (h.Has S) vs elems) :
    (h.newSequence vs).2.Has S (.vector (h.newSequence vs).1) (.vector elems) :=
  has_of_level (.vector (parts_newSequence hvs).1 (parts_newSequence hvs).2)

end Sequences

/-! ## Loading -/

mutual

/-- An expression that is loaded keeps the objects that there are, and its value has the
expression as its contents. -/
theorem load_has : ∀ (e : Expr) (h : Heap), Keeps Set.univ h (h.load e).2 ∧
    (h.load e).2.Has ∅ (h.load e).1 (.ofExpr e)
  | .int n, h => ⟨Keeps.refl _ h, has_of_level (.int n)⟩
  | .float x, h => ⟨Keeps.refl _ h, has_of_level (.float x)⟩
  | .str s, h => ⟨Keeps.newStr _ h s, has_of_level (.str rfl)⟩
  | .sym _ .supplied, h => ⟨Keeps.refl _ h, has_of_level (.sym rfl)⟩
  | .sym s .written, h => ⟨Keeps.newStr _ h s, has_of_level (.sym rfl)⟩
  | .kw s, h => ⟨Keeps.newStr _ h s, has_of_level (.kw rfl)⟩
  | .list items, h => by
    obtain ⟨hk, hvs⟩ := loadAll_has items h
    exact ⟨hk.trans (Keeps.newSequence Set.univ _ _), has_newList hvs⟩

theorem loadAll_has : ∀ (es : List Expr) (h : Heap), Keeps Set.univ h (h.loadAll es).2 ∧
    List.Forall₂ ((h.loadAll es).2.Has ∅) (h.loadAll es).1 (Datum.ofExprs es)
  | [], h => ⟨Keeps.refl _ h, .nil⟩
  | e :: es, h => by
    obtain ⟨hk, hv⟩ := load_has e h
    obtain ⟨hk', hvs⟩ := loadAll_has es (h.load e).2
    exact ⟨hk.trans hk', .cons (hv.keeps (hk'.subset (Set.subset_univ _))) hvs⟩

end

end Heap

end Sigil
