import Sigil.Proofs.Heap.Compared
import Sigil.Proofs.Heap.Region

/-!
# Heaps that differ in their scopes

`Rescoped h h'` says that two heaps have the same sequences, maps and dictionaries, and the same
functions but for the scopes in which these were made. A region is closed in a heap
(`Region.ClosedIn`) when its objects refer to objects of the region only. A value of a closed region
then shows the same in both heaps (`Rescoped.view` and its neighbours), provided that the scopes
among the values of the region have the same names.
-/

namespace Sigil

/-! ## Closed regions -/

/-- What the objects of the region refer to belongs to it, and so do all objects to come. -/
structure Region.ClosedIn (ρ : Region) (h : Heap) : Prop where
  items : ∀ {a}, ρ.sequence a → ρ.CoversAll (h.items a)
  entries : ∀ {a}, ρ.map a → ∀ e ∈ (h.mapAt a).entries, ρ.Covers e.stored ∧ ρ.Covers e.value
  closures : ∀ {a c}, ρ.closure a → h.closures[a]? = some c →
    ρ.sequence c.required ∧ ρ.sequence c.optional ∧ ρ.sequence c.body
  dicts : ∀ {a}, ρ.dict a → ∀ e ∈ h.dictAt a, ρ.Covers e.1 ∧ ρ.Covers e.2
  newSequences : ∀ {a}, h.sequences.size ≤ a → ρ.sequence a
  newMaps : ∀ {a}, h.maps.size ≤ a → ρ.map a
  newClosures : ∀ {a}, h.closures.size ≤ a → ρ.closure a

namespace Region

theorem covers_insert {ρ : Region} {k : KeyAtom} {v : Value} {c : Contents} (hv : ρ.Covers v)
    (hc : ∀ e ∈ c, ρ.Covers e.2) :
    ∀ e ∈ Contents.insert k v c, ρ.Covers e.2 := by
  induction c with
  | nil => simpa [Contents.insert] using hv
  | cons e c ih =>
    obtain ⟨l, w⟩ := e
    rw [List.forall_mem_cons] at hc
    rw [Contents.insert]
    split
    · exact List.forall_mem_cons.2 ⟨hv, hc.2⟩
    · exact List.forall_mem_cons.2 ⟨hc.1, ih hc.2⟩

theorem covers_insertAll {ρ : Region} {es : List (Value × Value)} {c d : Contents}
    (hc : ∀ e ∈ c, ρ.Covers e.2)
    (hes : ∀ e ∈ es, ρ.Covers e.2) (hd : Contents.insertAll c es = .ok d) :
    ∀ e ∈ d, ρ.Covers e.2 := by
  induction es generalizing c with
  | nil =>
    cases hd
    exact hc
  | cons e es ih =>
    rw [List.forall_mem_cons] at hes
    rw [Contents.insertAll] at hd
    cases hk : e.1.hashKey? with
    | none => rw [hk] at hd; cases hd
    | some k =>
      rw [hk] at hd
      exact ih (covers_insert hes.1 hc) hes.2 hd

end Region

namespace Region.ClosedIn

variable {ρ : Region} {h : Heap} {a : Nat} {v : Value}

theorem closureAt (hc : ρ.ClosedIn h) (ha : ρ.closure a) :
    ρ.sequence (h.closureAt a).required ∧ ρ.sequence (h.closureAt a).optional ∧
      ρ.sequence (h.closureAt a).body := by
  rw [Heap.closureAt]
  cases hget : h.closures[a]? with
  | some c => exact hc.closures ha hget
  | none => exact ⟨hc.newSequences (Nat.le_refl _), hc.newSequences (Nat.le_refl _),
      hc.newSequences (Nat.le_refl _)⟩

theorem found (hc : ρ.ClosedIn h) (ha : ρ.map a) {k : Value} {e : Entry}
    (he : h.entryOf (h.mapAt a) k = .ok e) : ρ.Covers e.value := by
  rw [Heap.entryOf_eq_ok] at he
  obtain ⟨form, -, he⟩ := he
  exact (hc.entries ha e (List.mem_of_find?_eq_some he)).2

theorem mapEntries (hc : ρ.ClosedIn h) (ha : ρ.map a) :
    (∀ e ∈ (h.mapEntries a).1, ρ.Covers e.1 ∧ ρ.Covers e.2) ∧
      ∀ l, (h.mapEntries a).2 = some l → ρ.Covers l.1 := by
  have hentries : ∀ es : List Entry, (∀ e ∈ es, ρ.Covers e.stored) →
      (∀ e ∈ (h.currentEntries (h.mapAt a) es).1, ρ.Covers e.1 ∧ ρ.Covers e.2) ∧
        ∀ l, (h.currentEntries (h.mapAt a) es).2 = some l → ρ.Covers l.1 := by
    intro es hes
    induction es with
    | nil => exact ⟨List.forall_mem_nil _, fun _ hl => by cases hl⟩
    | cons e es ih =>
      obtain ⟨hstored, hes⟩ := List.forall_mem_cons.1 hes
      rw [Heap.currentEntries]
      cases hfound : h.entryOf (h.mapAt a) e.stored with
      | error lapse =>
        refine ⟨List.forall_mem_nil _, ?_⟩
        rintro _ ⟨⟩
        exact hstored
      | ok found =>
        obtain ⟨hrest, hlost⟩ := ih hes
        exact ⟨List.forall_mem_cons.2 ⟨⟨hstored, hc.found ha hfound⟩, hrest⟩, hlost⟩
  exact hentries _ fun e he => (hc.entries ha e he).1

theorem viewBy (hc : ρ.ClosedIn h) (hv : ρ.Covers v) {part part' : Value → Datum}
    (hpart : ∀ w, ρ.Covers w → part' w = part w) : h.viewBy part' v = h.viewBy part v := by
  have hlist : ∀ vs, ρ.CoversAll vs → vs.map part' = vs.map part :=
    fun vs hvs => List.map_congr_left fun w hw => hpart w (hvs w hw)
  have hpairs : ∀ es : List (Value × Value), (∀ e ∈ es, ρ.Covers e.1 ∧ ρ.Covers e.2) →
      (es.map fun e => (part' e.1, part' e.2)) = es.map fun e => (part e.1, part e.2) :=
    fun es hes => List.map_congr_left fun e he =>
      Prod.ext (hpart e.1 (hes e he).1) (hpart e.2 (hes e he).2)
  cases v with
  | list a | vector a => simp only [Heap.viewBy, hlist _ (hc.items hv)]
  | map a =>
    obtain ⟨hentries, hlost⟩ := hc.mapEntries hv
    have hkey : (h.mapEntries a).2.map (fun l => (part' l.1, l.2))
        = (h.mapEntries a).2.map fun l => (part l.1, l.2) :=
      Option.map_congr fun l hl => Prod.ext (hpart l.1 (hlost l hl)) rfl
    simp only [Heap.viewBy, hpairs _ hentries, hkey]
  | closure a =>
    obtain ⟨hrequired, hoptional, hbody⟩ := hc.closureAt hv
    simp only [Heap.viewBy, hlist _ (hc.items hrequired), hlist _ (hc.items hoptional),
      hlist _ (hc.items hbody)]
  | dict a => simp only [Heap.viewBy, hpairs _ (hc.dicts hv)]
  | _ => rfl

/-! ### What comparisons look into -/

theorem closureParts (hc : ρ.ClosedIn h) (ha : ρ.closure a) :
    ρ.CoversAll [.list (h.closureAt a).required, .list (h.closureAt a).optional,
      (h.closureAt a).rest.elim .nil .str, .list (h.closureAt a).body] := by
  obtain ⟨hrequired, hoptional, hbody⟩ := hc.closureAt ha
  have hrest : ρ.Covers ((h.closureAt a).rest.elim .nil .str) := by
    cases (h.closureAt a).rest <;> trivial
  simp only [coversAll_cons]
  exact ⟨hrequired, hoptional, hrest, hbody, coversAll_nil⟩

theorem contents (hc : ρ.ClosedIn h) (ha : ρ.map a) {c : Contents} (hcontents : h.contents a = .ok c) :
    ∀ e ∈ c, ρ.Covers e.2 := by
  have hentries := fun e he => ((hc.mapEntries ha).1 e he).2
  rw [Heap.contents] at hcontents
  cases hall : Contents.insertAll [] (h.mapEntries a).1 with
  | error f => simp [hall] at hcontents
  | ok d =>
    rcases hlost : (h.mapEntries a).2 with _ | ⟨key, _ | _⟩
    · simp only [hall, hlost, Except.ok.injEq] at hcontents
      exact hcontents ▸ covers_insertAll (by simp) hentries hall
    · simp [hall, hlost] at hcontents
    · simp [hall, hlost] at hcontents

theorem dictContents (hc : ρ.ClosedIn h) (ha : ρ.dict a) {c : Contents}
    (hcontents : h.dictContents a = .ok c) : ∀ e ∈ c, ρ.Covers e.2 :=
  covers_insertAll (by simp) (fun e he => (hc.dicts ha e he).2) hcontents

end Region.ClosedIn

/-! ## Heaps with other scopes -/

/-- A function without the scope in which it was made. -/
def ClosureObject.unscoped (c : ClosureObject) : ClosureObject := { c with scope := 0 }

/-- The second heap has the objects of the first one, but for the scopes. -/
structure Rescoped (h h' : Heap) : Prop where
  sequences_eq : h'.sequences = h.sequences
  maps_eq : h'.maps = h.maps
  closures_eq : h'.closures.map (·.unscoped) = h.closures.map (·.unscoped)
  dicts_eq : h'.dicts = h.dicts
  fresh_eq : h'.fresh = h.fresh

/-! ### Tests that agree on some values -/

section

variable {P : Value → Prop} {test test' : Value → Value → Except EvalFault Bool}
  (htest : ∀ x y, P x → P y → test' x y = test x y)
include htest

theorem orSame_congr (x y : Value) (hx : P x) (hy : P y) :
    Heap.orSame test' x y = Heap.orSame test x y := by
  rw [Heap.orSame, Heap.orSame, htest x y hx hy]

theorem allPairs_congr {xs ys : List Value} (hxs : ∀ x ∈ xs, P x) (hys : ∀ y ∈ ys, P y) :
    Heap.allPairs test' xs ys = Heap.allPairs test xs ys := by
  induction xs generalizing ys with
  | nil => cases ys <;> rfl
  | cons x xs ih =>
    cases ys with
    | nil => rfl
    | cons y ys =>
      rw [List.forall_mem_cons] at hxs hys
      simp only [Heap.allPairs, htest x y hxs.1 hys.1, ih hxs.2 hys.2]

theorem sameSequence_congr {xs ys : List Value} (hxs : ∀ x ∈ xs, P x) (hys : ∀ y ∈ ys, P y) :
    Heap.sameSequence test' xs ys = Heap.sameSequence test xs ys := by
  rw [Heap.sameSequence, Heap.sameSequence, allPairs_congr (orSame_congr htest) hxs hys]

theorem within_congr {c d : Contents} (hc : ∀ e ∈ c, P e.2) (hd : ∀ e ∈ d, P e.2) :
    Heap.within test' d c = Heap.within test d c := by
  induction c with
  | nil => rfl
  | cons e c ih =>
    obtain ⟨k, v⟩ := e
    rw [List.forall_mem_cons] at hc
    rw [Heap.within, Heap.within]
    cases hw : d.lookup k with
    | none => rfl
    | some w =>
      obtain ⟨before, after, heq, -⟩ := List.lookup_eq_some_iff.1 hw
      have hmem : (k, w) ∈ d := by simp [heq]
      simp only [htest v w hc.1 (hd _ hmem), ih hc.2]

theorem sameContents_congr {x y : Except EvalFault Contents}
    (hx : ∀ {c}, x = .ok c → ∀ e ∈ c, P e.2) (hy : ∀ {d}, y = .ok d → ∀ e ∈ d, P e.2) :
    (do Heap.sameContents (Heap.orSame test') (← x) (← y))
      = (do Heap.sameContents (Heap.orSame test) (← x) (← y)) := by
  cases x with
  | error f => rfl
  | ok c =>
    cases y with
    | error f => rfl
    | ok d =>
      show Heap.sameContents (Heap.orSame test') c d = Heap.sameContents (Heap.orSame test) c d
      rw [Heap.sameContents, Heap.sameContents,
        within_congr (orSame_congr htest) (hx rfl) (hy rfl)]

end

/-- The place at which two sequences differ is in both. -/
theorem Heap.mem_of_firstDifference {h : Heap} {xs ys : List Value} {x y : Value}
    (hd : h.firstDifference xs ys = .ok (some (x, y))) : x ∈ xs ∧ y ∈ ys := by
  induction xs generalizing ys with
  | nil => cases ys <;> cases hd
  | cons a xs ih =>
    cases ys with
    | nil => cases hd
    | cons b ys =>
      simp only [Heap.firstDifference] at hd
      rcases hitem : h.sameItem a b with f | (_ | _)
      · rw [hitem] at hd; cases hd
      · rw [hitem] at hd
        cases hd
        exact ⟨List.mem_cons_self, List.mem_cons_self⟩
      · rw [hitem] at hd
        obtain ⟨hx, hy⟩ := ih hd
        exact ⟨List.mem_cons_of_mem _ hx, List.mem_cons_of_mem _ hy⟩

namespace Rescoped

variable {ρ : Region} {h h' : Heap} {v w : Value}

theorem refl (h : Heap) : Rescoped h h := ⟨rfl, rfl, rfl, rfl, rfl⟩

theorem symm (hs : Rescoped h h') : Rescoped h' h where
  sequences_eq := hs.sequences_eq.symm
  maps_eq := hs.maps_eq.symm
  closures_eq := hs.closures_eq.symm
  dicts_eq := hs.dicts_eq.symm
  fresh_eq := hs.fresh_eq.symm

theorem trans {h₁ : Heap} (hs : Rescoped h h₁) (hs' : Rescoped h₁ h') : Rescoped h h' where
  sequences_eq := hs'.sequences_eq.trans hs.sequences_eq
  maps_eq := hs'.maps_eq.trans hs.maps_eq
  closures_eq := hs'.closures_eq.trans hs.closures_eq
  dicts_eq := hs'.dicts_eq.trans hs.dicts_eq
  fresh_eq := hs'.fresh_eq.trans hs.fresh_eq

section

variable (hs : Rescoped h h')
include hs

theorem items (a : Nat) : h'.items a = h.items a := by rw [Heap.items, Heap.items, hs.sequences_eq]

theorem mapAt (a : Nat) : h'.mapAt a = h.mapAt a := by rw [Heap.mapAt, Heap.mapAt, hs.maps_eq]

theorem dictAt (a : Nat) : h'.dictAt a = h.dictAt a := by
  rw [Heap.dictAt, Heap.dictAt, hs.dicts_eq]

theorem closures_size_eq : h'.closures.size = h.closures.size := by
  simpa using congrArg Array.size hs.closures_eq

theorem closureAt_unscoped (a : Nat) :
    (h'.closureAt a).unscoped = (h.closureAt a).unscoped := by
  have hget : (h'.closures[a]?).map (·.unscoped) = (h.closures[a]?).map (·.unscoped) := by
    rw [← Array.getElem?_map, hs.closures_eq, Array.getElem?_map]
  rw [Heap.closureAt, Heap.closureAt, hs.sequences_eq]
  cases hc : h.closures[a]? <;> cases hc' : h'.closures[a]? <;> simp [hc, hc'] at hget
  · rfl
  · exact hget

theorem exists_closureAt (a : Nat) : ∃ s, h'.closureAt a = { h.closureAt a with scope := s } := by
  refine ⟨(h'.closureAt a).scope, ?_⟩
  have hsame := hs.closureAt_unscoped a
  generalize h'.closureAt a = c', h.closureAt a = c at hsame
  cases c
  cases c'
  simp only [ClosureObject.unscoped, ClosureObject.mk.injEq] at hsame ⊢
  simp only [hsame, and_self]

/-! ### Keys and entries -/

theorem keyTo (fold : Bool) (n : Nat) : h'.keyTo fold n = h.keyTo fold n := by
  induction n with
  | zero => rfl
  | succ n ih =>
    funext v
    rw [Heap.keyTo, Heap.keyTo, ih]
    cases v <;> simp [Heap.keyBy, hs.items]

theorem contentKey (fold : Bool) (v : Value) : h'.contentKey fold v = h.contentKey fold v := by
  rw [← Heap.keyTo_of_le fold (Nat.le_max_left h.depth h'.depth), ← hs.keyTo,
    Heap.keyTo_of_le fold (Nat.le_max_right h.depth h'.depth)]

theorem key (test : MapTest) (v : Value) : h'.key test v = h.key test v := by
  cases test with
  | eq | eql => rfl
  | equal | equalp => exact hs.contentKey _ v

theorem sameKey (test : MapTest) (v w : Value) : h'.sameKey test v w = h.sameKey test v w := by
  rw [Heap.sameKey, Heap.sameKey, hs.key, hs.key]

theorem entryOf (m : MapObject) (k : Value) : h'.entryOf m k = h.entryOf m k := by
  rw [Heap.entryOf, Heap.entryOf, hs.key]

theorem mapGet (a : Nat) (k : Value) : h'.mapGet a k = h.mapGet a k := by
  rw [Heap.mapGet, Heap.mapGet, hs.mapAt, hs.entryOf]

theorem mapKeys (a : Nat) : h'.mapKeys a = h.mapKeys a := by
  rw [Heap.mapKeys, Heap.mapKeys, hs.mapAt]

theorem mapEntries (a : Nat) : h'.mapEntries a = h.mapEntries a := by
  have hentries : ∀ (m : MapObject) (es : List Entry),
      h'.currentEntries m es = h.currentEntries m es := by
    intro m es
    induction es with
    | nil => rfl
    | cons e es ih => rw [Heap.currentEntries, Heap.currentEntries, hs.entryOf, ih]
  rw [Heap.mapEntries, hs.mapAt]
  exact hentries _ _

end

section

variable (hs : Rescoped h h') (hc : ρ.ClosedIn h)
  (hnames : ∀ a, ρ.scope a → h'.ownNames a = h.ownNames a)
include hs hc hnames

/-! ### Views -/

omit hc in
theorem viewBy (hv : ρ.Covers v) (part : Value → Datum) : h'.viewBy part v = h.viewBy part v := by
  cases v with
  | scope a => simp only [Heap.viewBy, hnames a hv]
  | closure a =>
    obtain ⟨s, hclosure⟩ := hs.exists_closureAt a
    simp only [Heap.viewBy, hclosure, hs.items]
  | _ => simp only [Heap.viewBy, hs.items, hs.mapAt, hs.mapEntries, hs.dictAt]

theorem viewTo (n : Nat) (outer : List Value) (hv : ρ.Covers v) :
    h'.viewTo n outer v = h.viewTo n outer v := by
  induction n generalizing outer v with
  | zero => rfl
  | succ n ih =>
    rw [Heap.viewTo, Heap.viewTo, hs.viewBy hnames hv,
      hc.viewBy hv fun w hw => ih (v :: outer) hw]

theorem view (hv : ρ.Covers v) : h'.view v = h.view v := by
  rw [← Heap.viewTo_of_le (Nat.le_max_left h.depth h'.depth), ← hs.viewTo hc hnames _ [] hv,
    Heap.viewTo_of_le (Nat.le_max_right h.depth h'.depth)]

/-! ### Equality and order -/

theorem contents {a : Nat} (ha : ρ.map a) : h'.contents a = h.contents a := by
  simp only [Heap.contents, hs.mapEntries]
  cases hall : Contents.insertAll [] (h.mapEntries a).1 with
  | error f => rfl
  | ok c =>
    rcases hlost : (h.mapEntries a).2 with _ | ⟨key, _ | _⟩
    · rfl
    · simp only [hs.view hc hnames ((hc.mapEntries ha).2 _ hlost)]
    · rfl

omit hc hnames in
theorem dictContents (a : Nat) : h'.dictContents a = h.dictContents a := by
  rw [Heap.dictContents, Heap.dictContents, hs.dictAt]

theorem equalBy {test test' : Value → Value → Except EvalFault Bool}
    (htest : ∀ x y, ρ.Covers x → ρ.Covers y → test' x y = test x y) (hv : ρ.Covers v)
    (hw : ρ.Covers w) : h'.equalBy test' v w = h.equalBy test v w := by
  have hsequence : ∀ a b, ρ.sequence a → ρ.sequence b →
      Heap.sameSequence test' (h'.items a) (h'.items b)
        = Heap.sameSequence test (h.items a) (h.items b) := by
    intro a b ha hb
    rw [hs.items, hs.items]
    exact sameSequence_congr htest (hc.items ha) (hc.items hb)
  have hmap : ∀ {a}, ρ.map a → ∀ {c}, h.contents a = .ok c → ∀ e ∈ c, ρ.Covers e.2 := hc.contents
  have hdict : ∀ {a}, ρ.dict a → ∀ {c}, h.dictContents a = .ok c → ∀ e ∈ c, ρ.Covers e.2 :=
    hc.dictContents
  cases v with
  | list a =>
    cases w with
    | list b => exact hsequence a b hv hw
    | vector b => exact hsequence b a hw hv
    | _ => rfl
  | vector a =>
    cases w with
    | list b | vector b => exact hsequence a b hv hw
    | _ => rfl
  | map a =>
    cases w with
    | map b =>
      simp only [Heap.equalBy, hs.mapAt, hs.contents hc hnames hv, hs.contents hc hnames hw]
      split
      · exact sameContents_congr htest (hmap hv) (hmap hw)
      · rfl
    | dict b =>
      simp only [Heap.equalBy, hs.contents hc hnames hv, hs.dictContents]
      exact sameContents_congr htest (hmap hv) (hdict hw)
    | _ => rfl
  | dict a =>
    cases w with
    | map b =>
      simp only [Heap.equalBy, hs.contents hc hnames hw, hs.dictContents]
      exact sameContents_congr htest (hmap hw) (hdict hv)
    | dict b =>
      simp only [Heap.equalBy, hs.dictContents]
      exact sameContents_congr htest (hdict hv) (hdict hw)
    | _ => rfl
  | closure a =>
    cases w with
    | closure b =>
      obtain ⟨s, hclosure⟩ := hs.exists_closureAt a
      obtain ⟨t, hclosure'⟩ := hs.exists_closureAt b
      simp only [Heap.equalBy, hclosure, hclosure']
      exact allPairs_congr (orSame_congr htest) (hc.closureParts hv) (hc.closureParts hw)
    | _ => rfl
  | _ => cases w <;> rfl

theorem equalTo (k : Nat) (hv : ρ.Covers v) (hw : ρ.Covers w) :
    h'.equalTo k v w = h.equalTo k v w := by
  induction k generalizing v w with
  | zero => rfl
  | succ k ih => exact hs.equalBy hc hnames (fun _ _ hx hy => ih hx hy) hv hw

theorem equal (hv : ρ.Covers v) (hw : ρ.Covers w) : h'.equal v w = h.equal v w := by
  rw [← Heap.equalTo_of_le (Nat.le_max_left h.rounds h'.rounds), ← hs.equalTo hc hnames _ hv hw,
    Heap.equalTo_of_le (Nat.le_max_right h.rounds h'.rounds)]

theorem firstDifference {xs ys : List Value} (hxs : ρ.CoversAll xs) (hys : ρ.CoversAll ys) :
    h'.firstDifference xs ys = h.firstDifference xs ys := by
  induction xs generalizing ys with
  | nil => rfl
  | cons x xs ih =>
    cases ys with
    | nil => rfl
    | cons y ys =>
      obtain ⟨hx, hxs⟩ := Region.coversAll_cons.1 hxs
      obtain ⟨hy, hys⟩ := Region.coversAll_cons.1 hys
      have hitem : h'.sameItem x y = h.sameItem x y :=
        orSame_congr (P := ρ.Covers) (fun _ _ hx hy => hs.equal hc hnames hx hy) x y hx hy
      simp only [Heap.firstDifference, hitem, ih hxs hys]

theorem orderedBy {test test' : Comparison → Value → Value → Except EvalFault Bool}
    (htest : ∀ c x y, ρ.Covers x → ρ.Covers y → test' c x y = test c x y) (c : Comparison)
    (hv : ρ.Covers v) (hw : ρ.Covers w) : h'.orderedBy test' c v w = h.orderedBy test c v w := by
  have hsequence : ∀ c a b, ρ.sequence a → ρ.sequence b →
      h'.orderedSequence (test' c) c (h'.items a) (h'.items b)
        = h.orderedSequence (test c) c (h.items a) (h.items b) := by
    intro c a b ha hb
    rw [hs.items, hs.items, Heap.orderedSequence, Heap.orderedSequence,
      hs.firstDifference hc hnames (hc.items ha) (hc.items hb)]
    rcases hd : h.firstDifference (h.items a) (h.items b) with f | _ | ⟨x, y⟩
    · rfl
    · rfl
    · obtain ⟨hx, hy⟩ := Heap.mem_of_firstDifference hd
      exact htest c x y (hc.items ha x hx) (hc.items hb y hy)
  cases v with
  | list a =>
    cases w with
    | list b => exact hsequence c a b hv hw
    | vector b => exact hsequence c.swap b a hw hv
    | _ => rfl
  | vector a =>
    cases w with
    | list b | vector b => exact hsequence c a b hv hw
    | _ => rfl
  | _ => cases w <;> rfl

theorem orderedTo (k : Nat) (c : Comparison) (hv : ρ.Covers v) (hw : ρ.Covers w) :
    h'.orderedTo k c v w = h.orderedTo k c v w := by
  induction k generalizing c v w with
  | zero => rfl
  | succ k ih => exact hs.orderedBy hc hnames (fun c _ _ hx hy => ih c hx hy) c hv hw

theorem ordered (c : Comparison) (hv : ρ.Covers v) (hw : ρ.Covers w) :
    h'.ordered c v w = h.ordered c v w := by
  rw [← Heap.orderedTo_of_le (Nat.le_max_left h.rounds h'.rounds),
    ← hs.orderedTo hc hnames _ c hv hw, Heap.orderedTo_of_le (Nat.le_max_right h.rounds h'.rounds)]

end

end Rescoped

end Sigil
