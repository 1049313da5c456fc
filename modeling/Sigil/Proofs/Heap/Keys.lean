import Sigil.Proofs.Heap.Contents

/-!
# Keys by their contents

A change of a heap that `Keeps` the objects of a value keeps its contents, and the form in which a
test compares it (`Holds.keeps`, `key_of_keeps`). The form of a key is given by its contents but
for the maps in it, which count by identity. So contents that are different keys in one heap are
different keys in every heap, in values that have no map in common (`apart_of_key_ne`).
-/

namespace Sigil

namespace Heap

/-- A change of a heap that removes nothing and keeps the sequences, the scopes and the maps at
`S`. -/
structure Keeps (S : Set Nat) (h h' : Heap) : Prop where
  sequences_le : h.sequences.size ≤ h'.sequences.size
  items_eq : ∀ a < h.sequences.size, h'.items a = h.items a
  maps_le : h.maps.size ≤ h'.maps.size
  mapAt_eq : ∀ a ∈ S, a < h.maps.size → h'.mapAt a = h.mapAt a
  scopes_eq : h'.scopes = h.scopes

variable {h h' h'' : Heap} {S T U : Set Nat} {n k : Nat} {v w v' w' : Value} {d e : Datum}
  {fold : Bool} {test : MapTest}

namespace Keeps

theorem refl (S : Set Nat) (h : Heap) : Keeps S h h :=
  ⟨Nat.le_refl _, fun _ _ => rfl, Nat.le_refl _, fun _ _ _ => rfl, rfl⟩

theorem trans (hk : Keeps S h h') (hk' : Keeps S h' h'') : Keeps S h h'' where
  sequences_le := hk.sequences_le.trans hk'.sequences_le
  items_eq a ha := by rw [hk'.items_eq a (by have := hk.sequences_le; omega), hk.items_eq a ha]
  maps_le := hk.maps_le.trans hk'.maps_le
  mapAt_eq a hS ha := by
    rw [hk'.mapAt_eq a hS (by have := hk.maps_le; omega), hk.mapAt_eq a hS ha]
  scopes_eq := by rw [hk'.scopes_eq, hk.scopes_eq]

theorem subset (hk : Keeps T h h') (hST : S ⊆ T) : Keeps S h h' :=
  { hk with mapAt_eq := fun a hS => hk.mapAt_eq a (hST hS) }

theorem newSequence (S : Set Nat) (h : Heap) (items : List Value) :
    Keeps S h (h.newSequence items).2 where
  sequences_le := by simp [Heap.newSequence]
  items_eq _ ha := items_newSequence_of_lt ha
  maps_le := Nat.le_refl _
  mapAt_eq _ _ _ := rfl
  scopes_eq := rfl

theorem newStr (S : Set Nat) (h : Heap) (text : String) : Keeps S h (h.newStr text).2 :=
  ⟨Nat.le_refl _, fun _ _ => rfl, Nat.le_refl _, fun _ _ _ => rfl, rfl⟩

theorem newMap (S : Set Nat) (h : Heap) (m : MapObject) : Keeps S h (h.newMap m).2 where
  sequences_le := Nat.le_refl _
  items_eq _ _ := rfl
  maps_le := by simp [Heap.newMap]
  mapAt_eq a _ ha := by simp [Heap.newMap, mapAt, Array.getElem?_push, Nat.ne_of_lt ha]
  scopes_eq := rfl

theorem setMap {r : Nat} (hk : Keeps S h h') (hr : h.maps.size ≤ r ∨ r ∉ S) (m : MapObject) :
    Keeps S h (h'.setMap r m) where
  sequences_le := hk.sequences_le
  items_eq := hk.items_eq
  maps_le := by have := hk.maps_le; simpa [Heap.setMap] using this
  mapAt_eq a hS ha := by
    have hne : r ≠ a := by
      rintro rfl
      rcases hr with hr | hr
      · omega
      · exact hr hS
    rw [← hk.mapAt_eq a hS ha]
    simp [Heap.setMap, mapAt, hne]
  scopes_eq := hk.scopes_eq

end Keeps

/-! ## Contents are kept -/

/-- A value with contents has a form, and one that is kept has the same. -/
theorem exists_keyTo (hk : Keeps S h h') (hv : h.Holds S n v d) (fold : Bool) :
    ∃ key, h.keyTo fold n v = some key ∧ h'.keyTo fold n v = some key := by
  induction n generalizing v d with
  | zero => exact hv.elim
  | succ n ih =>
    have hparts : ∀ {vs ds}, List.Forall₂ (h.Holds S n) vs ds → ∃ ks : List MapKey,
        vs.map (h.keyTo fold n) = ks.map some ∧ vs.map (h'.keyTo fold n) = ks.map some := by
      intro vs ds hvs
      induction hvs with
      | nil => exact ⟨[], rfl, rfl⟩
      | cons hw _ ihs =>
        obtain ⟨k, hkey, hkey'⟩ := ih hw
        obtain ⟨ks, hkeys, hkeys'⟩ := ihs
        exact ⟨k :: ks, by simp only [List.map_cons, hkey, hkeys],
          by simp only [List.map_cons, hkey', hkeys']⟩
    cases hv with
    | nil | bool | int | float | str | sym | kw | map => exact ⟨_, rfl, rfl⟩
    | list hb hp | vector hb hp =>
      obtain ⟨ks, hkeys, hkeys'⟩ := hparts hp
      refine ⟨.sequence ks, ?_, ?_⟩
      · simp only [keyTo, keyBy, mapM_eq_some.2 hkeys, Option.map_some]
      · simp only [keyTo, keyBy, hk.items_eq _ hb, mapM_eq_some.2 hkeys', Option.map_some]

theorem key_of_keeps (hk : Keeps S h h') (hv : h.Holds S n v d) :
    h'.key test v = h.key test v := by
  cases test with
  | eq | eql => rfl
  | equal | equalp =>
    obtain ⟨k, hkey, hkey'⟩ := exists_keyTo hk hv _
    exact (contentKey_of_keyTo hkey').trans (contentKey_of_keyTo hkey).symm

theorem contentKey_of_holds (hv : h.Holds S n v d) : h.contentKey fold v = h.keyTo fold n v := by
  obtain ⟨k, hkey, -⟩ := exists_keyTo (.refl S h) hv fold
  rw [hkey, contentKey_of_keyTo hkey]

/-- What has contents has a form. -/
theorem exists_key (hv : h.Has S v d) (test : MapTest) : ∃ k, h.key test v = some k := by
  obtain ⟨n, hv⟩ := hv
  cases test with
  | eq | eql => exact ⟨_, rfl⟩
  | equal | equalp =>
    obtain ⟨k, hkey, -⟩ := exists_keyTo (.refl S h) hv _
    exact ⟨k, contentKey_of_keyTo hkey⟩

theorem currentEntries_congr {m : MapObject} {es : List Entry} {entries : List (Value × Value)}
    (hkey : ∀ e ∈ entries, h'.key m.test e.1 = h.key m.test e.1)
    (hes : h.currentEntries m es = (entries, none)) :
    h'.currentEntries m es = (entries, none) := by
  induction es generalizing entries with
  | nil => exact hes
  | cons e es ih =>
    rw [currentEntries] at hes
    cases hfound : h.entryOf m e.stored with
    | error lapse =>
      rw [hfound] at hes
      cases hes
    | ok found =>
      rw [hfound] at hes
      obtain ⟨hentries, hlost⟩ := Prod.mk.inj hes
      subst hentries
      have hrest : h.currentEntries m es = ((h.currentEntries m es).1, none) :=
        Prod.ext rfl hlost
      have hstored : h'.key m.test e.stored = h.key m.test e.stored :=
        hkey (e.stored, found.value) List.mem_cons_self
      have hfound' : h'.entryOf m e.stored = .ok found := by
        rw [entryOf, hstored]
        exact hfound
      rw [currentEntries, hfound',
        ih (fun e' he' => hkey e' (List.mem_cons_of_mem _ he')) hrest]

theorem Holds.keeps (hv : h.Holds S n v d) (hk : Keeps S h h') : h'.Holds S n v d := by
  induction n generalizing v d with
  | zero => exact hv.elim
  | succ n ih =>
    have hparts : ∀ {vs ds}, List.Forall₂ (h.Holds S n) vs ds → List.Forall₂ (h'.Holds S n) vs ds :=
      fun hp => hp.imp fun _ _ => ih
    cases hv with
    | nil => exact .nil
    | bool b => exact .bool b
    | int n => exact .int n
    | float x => exact .float x
    | str ht => exact .str ht
    | sym ht => exact .sym ht
    | kw ht => exact .kw ht
    | list hb hp =>
      refine .list (hb.trans_le hk.sequences_le) ?_
      rw [hk.items_eq _ hb]
      exact hparts hp
    | vector hb hp =>
      refine .vector (hb.trans_le hk.sequences_le) ?_
      rw [hk.items_eq _ hb]
      exact hparts hp
    | @map a test entries ds hm hb ht he ha hp =>
      have hmap : h'.mapAt a = h.mapAt a := hk.mapAt_eq a hm hb
      have hkey : ∀ e ∈ entries, h'.key test e.1 = h.key test e.1 := by
        intro e he
        obtain ⟨d, -, hd⟩ := exists_of_mem_forall₂ hp he
        exact key_of_keeps hk hd.1
      refine .map hm (hb.trans_le hk.maps_le) (by rw [hmap, ht]) ?_ ?_
        (hp.imp fun _ _ h => ⟨ih h.1, ih h.2⟩)
      · rw [mapEntries, hmap]
        refine currentEntries_congr ?_ he
        rw [ht]
        exact hkey
      · rw [List.map_congr_left hkey]
        exact ha

theorem Has.keeps (hv : h.Has S v d) (hk : Keeps S h h') : h'.Has S v d :=
  hv.imp fun _ hv => hv.keeps hk

/-! ## Forms of contents -/

theorem exists_keys {vs : List Value} {ds : List Datum} (hvs : List.Forall₂ (h.Holds S n) vs ds)
    (fold : Bool) : ∃ ks : List MapKey, vs.map (h.keyTo fold n) = ks.map some ∧
      (vs.mapM (h.keyTo fold n)).map MapKey.sequence = some (.sequence ks) := by
  induction hvs with
  | nil => exact ⟨[], rfl, rfl⟩
  | cons hv _ ih =>
    obtain ⟨k, hkey, -⟩ := exists_keyTo (.refl S h) hv fold
    obtain ⟨ks, hkeys, -⟩ := ih
    refine ⟨k :: ks, ?_, ?_⟩
    · rw [List.map_cons, hkey, hkeys, List.map_cons]
    · rw [List.mapM_cons, hkey, mapM_eq_some.2 hkeys]
      rfl

/-- The forms of two values with the same contents: one atom, the forms of the elements, or a map
by its identity. -/
theorem keyTo_cases (fold : Bool) (hv : h.Holds S (n + 1) v d) (hw : h'.Holds T (k + 1) w d) :
    (∃ x, h.keyTo fold (n + 1) v = some (.atom x) ∧ h'.keyTo fold (k + 1) w = some (.atom x) ∧
      ∀ u, x ≠ .object u) ∨
    (∃ vs ws ds, ∃ ks ls : List MapKey, h.keyTo fold (n + 1) v = some (.sequence ks) ∧
      h'.keyTo fold (k + 1) w = some (.sequence ls) ∧
      vs.map (h.keyTo fold n) = ks.map some ∧ ws.map (h'.keyTo fold k) = ls.map some ∧
      List.Forall₂ (h.Holds S n) vs ds ∧ List.Forall₂ (h'.Holds T k) ws ds) ∨
    ∃ a ∈ S, h.keyTo fold (n + 1) v = some (.atom (.object (.map a))) := by
  cases hv with
  | nil | bool =>
    cases hw
    exact .inl ⟨_, rfl, rfl, by simp [Value.identityKey]⟩
  | int | float =>
    cases hw
    cases fold <;> exact .inl ⟨_, rfl, rfl, by simp [Value.identityKey]⟩
  | str hs =>
    cases hw with
    | str ht => exact .inl ⟨_, rfl, by simp only [keyTo, keyBy, hs, ht], by simp⟩
  | sym hs =>
    cases hw with
    | sym ht =>
      exact .inl ⟨_, rfl, by simp only [keyTo, keyBy, Value.identityKey, hs, ht],
        by simp [Value.identityKey]⟩
  | kw hs =>
    cases hw with
    | kw ht =>
      exact .inl ⟨_, rfl, by simp only [keyTo, keyBy, Value.identityKey, hs, ht],
        by simp [Value.identityKey]⟩
  | list _ hp =>
    cases hw with
    | list _ hq =>
      obtain ⟨ks, hks, hkey⟩ := exists_keys hp fold
      obtain ⟨ls, hls, hkey'⟩ := exists_keys hq fold
      exact .inr (.inl ⟨_, _, _, ks, ls, hkey, hkey', hks, hls, hp, hq⟩)
  | vector _ hp =>
    cases hw with
    | vector _ hq =>
      obtain ⟨ks, hks, hkey⟩ := exists_keys hp fold
      obtain ⟨ls, hls, hkey'⟩ := exists_keys hq fold
      exact .inr (.inl ⟨_, _, _, ks, ls, hkey, hkey', hks, hls, hp, hq⟩)
  | map hm => exact .inr (.inr ⟨_, hm, rfl⟩)

/-- A function that agrees on elements where another one does agrees on lists where that one does,
when the elements of the lists are related to common ones. -/
theorem map_eq_of_map_eq {α β γ δ : Type} {r q : α → γ → Prop} {r' q' : β → γ → Prop} {f : α → δ}
    {f' : β → δ} {as bs : List α} {as' bs' : List β} {cs cs' : List γ}
    (has : List.Forall₂ r as cs) (hbs : List.Forall₂ q bs cs') (has' : List.Forall₂ r' as' cs)
    (hbs' : List.Forall₂ q' bs' cs')
    (helem : ∀ {a b a' b' c c'}, r a c → q b c' → r' a' c → q' b' c' → f a = f b → f' a' = f' b')
    (heq : as.map f = bs.map f) : as'.map f' = bs'.map f' := by
  induction has generalizing bs as' bs' cs' with
  | nil =>
    cases hbs with
    | nil => cases has'; cases hbs'; rfl
    | cons => cases heq
  | cons ha _ ih =>
    cases hbs with
    | nil => cases heq
    | cons hb hbs =>
      cases has' with
      | cons ha' has' =>
        cases hbs' with
        | cons hb' hbs' =>
          obtain ⟨hhead, htail⟩ := List.cons.inj heq
          rw [List.map_cons, List.map_cons, helem ha hb ha' hb' hhead, ih hbs has' hbs' htail]

/-- Contents that have the same form in one heap, without a map in common, have the same form in
every heap. -/
theorem keyTo_eq (hST : ∀ a ∈ S, a ∉ T) (hv : h.Holds S n v d) (hw : h.Holds T n w e)
    (hv' : h'.Holds U k v' d) (hw' : h'.Holds U k w' e)
    (heq : h.keyTo fold n v = h.keyTo fold n w) : h'.keyTo fold k v' = h'.keyTo fold k w' := by
  induction n generalizing k v w v' w' d e with
  | zero => exact hv.elim
  | succ n ih =>
    obtain _ | k := k
    · exact hv'.elim
    rcases keyTo_cases fold hv hv' with
      ⟨x, hx, hx', hobject⟩ | ⟨vs, vs', ds, ks, ks', hx, hx', hks, hks', hvs, hvs'⟩ | ⟨a, ha, hx⟩
    all_goals rcases keyTo_cases fold hw hw' with
      ⟨y, hy, hy', hobject'⟩ | ⟨ws, ws', es, ls, ls', hy, hy', hls, hls', hws, hws'⟩ | ⟨b, hb, hy⟩
    all_goals rw [hx, hy] at heq
    · rw [hx', hy', heq]
    · cases heq
    · exact absurd (MapKey.atom.inj (Option.some.inj heq)) (hobject _)
    · cases heq
    · have hforms : vs.map (h.keyTo fold n) = ws.map (h.keyTo fold n) := by
        rw [hks, hls, MapKey.sequence.inj (Option.some.inj heq)]
      have hforms' := map_eq_of_map_eq hvs hws hvs' hws' ih hforms
      rw [hks', hls', (Option.some_injective _).list_map.eq_iff] at hforms'
      rw [hx', hy', hforms']
    · cases heq
    · exact absurd (MapKey.atom.inj (Option.some.inj heq)).symm (hobject' _)
    · cases heq
    · cases heq
      exact absurd hb (hST _ ha)

theorem contentKey_congr (hST : ∀ a ∈ S, a ∉ T) (hv : h.Has S v d) (hw : h.Has T w e)
    (hv' : h'.Has U v' d) (hw' : h'.Has U w' e)
    (heq : h.contentKey fold v = h.contentKey fold w) :
    h'.contentKey fold v' = h'.contentKey fold w' := by
  obtain ⟨n, hv, hw⟩ := hv.both hw
  obtain ⟨k, hv', hw'⟩ := hv'.both hw'
  rw [contentKey_of_holds hv, contentKey_of_holds hw] at heq
  rw [contentKey_of_holds hv', contentKey_of_holds hw']
  exact keyTo_eq hST hv hw hv' hw' heq

/-- Whole numbers, symbols and keywords are the same key wherever they have the same contents. -/
def Identifiable : Datum → Prop
  | .int _ | .sym _ | .kw _ => True
  | _ => False

theorem identityKey_eq (hd : Identifiable d) (hv : h.Has S v d) (hw : h'.Has T w d) :
    v.identityKey = w.identityKey := by
  cases level_of_has hv with
  | int =>
    cases level_of_has hw
    rfl
  | sym hs =>
    cases level_of_has hw with
    | sym ht => simp only [Value.identityKey, hs, ht]
  | kw hs =>
    cases level_of_has hw with
    | kw ht => simp only [Value.identityKey, hs, ht]
  | nil | bool | float | str | list | vector | map => exact hd.elim

/-- Contents that are different keys in every heap, in values that have no map in common. -/
def Apart (test : MapTest) (d e : Datum) : Prop :=
  ∀ {h : Heap} {S T : Set Nat} {v w : Value}, (∀ a ∈ S, a ∉ T) → h.Has S v d → h.Has T w e →
    h.key test v ≠ h.key test w

/-- Contents that are the same key in every heap. -/
def Alike (test : MapTest) (d e : Datum) : Prop :=
  ∀ {h : Heap} {S T : Set Nat} {v w : Value}, h.Has S v d → h.Has T w e →
    h.key test v = h.key test w

/-- Contents are different keys in every heap or the same key in every heap; those in a map that
compares objects by identity have to be atoms. -/
theorem apart_or_alike (hid : test = .eq ∨ test = .eql → Identifiable d ∧ Identifiable e) :
    Apart test d e ∨ Alike test d e := by
  refine or_iff_not_imp_left.2 fun hapart => ?_
  unfold Apart at hapart
  push Not at hapart
  obtain ⟨h, S, T, v, w, hST, hv, hw, heq⟩ := hapart
  intro h' S' T' v' w' hv' hw'
  cases test with
  | eq =>
    obtain ⟨hd, he⟩ := hid (.inl rfl)
    simp only [key, identityKey_eq hd hv' hv, identityKey_eq he hw' hw]
    exact heq
  | eql =>
    obtain ⟨hd, he⟩ := hid (.inr rfl)
    simp only [key, identityKey_eq hd hv' hv, identityKey_eq he hw' hw]
    exact heq
  | equal | equalp =>
    exact contentKey_congr hST hv hw (hv'.subset (Set.subset_univ _))
      (hw'.subset (Set.subset_univ _)) heq

/-- Contents that are different keys in one heap are different keys in every heap. -/
theorem apart_of_key_ne (hid : test = .eq ∨ test = .eql → Identifiable d ∧ Identifiable e)
    (hv : h.Has U v d) (hw : h.Has U w e) (hne : h.key test v ≠ h.key test w) :
    Apart test d e :=
  (apart_or_alike hid).resolve_right fun halike => hne (halike hv hw)

end Heap

end Sigil
