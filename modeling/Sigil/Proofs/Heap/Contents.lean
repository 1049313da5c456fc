import Mathlib.Data.List.Forall2
import Mathlib.Data.Set.Basic
import Sigil.Proofs.Heap.Nesting

/-!
# The contents of a value

`Heap.Holds h S n v d` says that the value `v` has the contents `d`, nested less than `n` deep,
with all of its maps among those at `S`. It is `Level` on top of itself: what one object shows when
its parts are known. The size hints of maps are left out (`Datum.withoutHints`). Contents may be
unfolded without counting (`Has`), and the view of a value that has contents is just these
(`Has.view`), as it does not contain itself.
-/

namespace Sigil

/-! ## Size hints -/

namespace Datum

mutual

/-- A datum with the size hints of its maps left out. -/
def withoutHints : Datum → Datum
  | list items => list (withoutHintsAll items)
  | vector items => vector (withoutHintsAll items)
  | map test _ entries lost => map test none (withoutHintsEntries entries) lost
  | d => d

def withoutHintsAll : List Datum → List Datum
  | [] => []
  | d :: ds => withoutHints d :: withoutHintsAll ds

def withoutHintsEntries : List (Datum × Datum) → List (Datum × Datum)
  | [] => []
  | (k, v) :: rest => (withoutHints k, withoutHints v) :: withoutHintsEntries rest

end

theorem withoutHintsAll_eq_map (ds : List Datum) : withoutHintsAll ds = ds.map withoutHints := by
  induction ds with
  | nil => rfl
  | cons d ds ih => rw [withoutHintsAll, ih, List.map_cons]

theorem withoutHintsEntries_eq_map (es : List (Datum × Datum)) :
    withoutHintsEntries es = es.map fun e => (e.1.withoutHints, e.2.withoutHints) := by
  induction es with
  | nil => rfl
  | cons e es ih => rw [withoutHintsEntries, ih, List.map_cons]

theorem inside_withoutHints (d : Datum) (text : String) :
    d.withoutHints.inside text = d.inside text := by
  cases d <;> rfl

theorem abbreviation?_withoutHintsAll (ds : List Datum) :
    abbreviation? (withoutHintsAll ds) = abbreviation? ds := by
  match ds with
  | [] => rfl
  | [d] => simp [withoutHintsAll, abbreviation?]
  | d :: e :: f :: ds => simp [withoutHintsAll, abbreviation?]
  | [d, e] =>
    cases d with
    | sym name =>
      simp only [withoutHintsAll, withoutHints, abbreviation?]
      split <;> split <;> simp_all
    | _ => simp [withoutHintsAll, withoutHints, abbreviation?]

mutual

/-- Size hints are not printed. -/
theorem print_withoutHints : ∀ d : Datum, d.withoutHints.print = d.print
  | nil | bool _ | int _ | float _ | str _ | sym _ | kw _ | closure .. | builtin _ | scope _
  | dict _ | eof | again _ => by rw [withoutHints] <;> nofun
  | list items => by
    simp only [withoutHints, print, printAll_withoutHints items, printedList,
      abbreviation?_withoutHintsAll]
  | vector items => by
    rw [withoutHints, print, print, printInside_withoutHints items]
  | map test hint entries lost => by
    rw [withoutHints, print, print, printEntries_withoutHints entries]

theorem printAll_withoutHints : ∀ ds : List Datum, printAll (withoutHintsAll ds) = printAll ds
  | [] => rfl
  | d :: ds => by
    rw [withoutHintsAll, printAll, printAll, print_withoutHints d, printAll_withoutHints ds]

theorem printInside_withoutHints : ∀ ds : List Datum,
    printInside (withoutHintsAll ds) = printInside ds
  | [] => rfl
  | d :: ds => by
    simp only [withoutHintsAll, printInside, print_withoutHints d, printInside_withoutHints ds,
      inside_withoutHints]

theorem printEntries_withoutHints : ∀ es : List (Datum × Datum),
    printEntries (withoutHintsEntries es) = printEntries es
  | [] => rfl
  | (k, v) :: es => by
    simp only [withoutHintsEntries, printEntries, print_withoutHints k, print_withoutHints v,
      printEntries_withoutHints es, inside_withoutHints]

end

end Datum

/-! ## Contents -/

namespace Heap

/-- One level of the contents of a value: an atom, or an object whose parts have their contents by
`part`. The maps are among those at `S`; each shows all of its keys, and no two of them are the
same. -/
inductive Level (h : Heap) (S : Set Nat) (part : Value → Datum → Prop) : Value → Datum → Prop
  | nil : Level h S part .nil .nil
  | bool (b : Bool) : Level h S part (.bool b) (.bool b)
  | int (n : Int) : Level h S part (.int n) (.int n)
  | float (x : Float) : Level h S part (.float x) (.float x)
  | str {s : Str} {text : String} (text_eq : s.text = text) : Level h S part (.str s) (.str text)
  | sym {s : Str} {name : String} (text_eq : s.text = name) : Level h S part (.sym s) (.sym name)
  | kw {s : Str} {name : String} (text_eq : s.text = name) : Level h S part (.kw s) (.kw name)
  | list {a : Nat} {ds : List Datum} (bound : a < h.sequences.size)
      (parts : List.Forall₂ part (h.items a) ds) : Level h S part (.list a) (.list ds)
  | vector {a : Nat} {ds : List Datum} (bound : a < h.sequences.size)
      (parts : List.Forall₂ part (h.items a) ds) : Level h S part (.vector a) (.vector ds)
  | map {a : Nat} {test : MapTest} {entries : List (Value × Value)} {ds : List (Datum × Datum)}
      (mem : a ∈ S) (bound : a < h.maps.size) (test_eq : (h.mapAt a).test = test)
      (entries_eq : h.mapEntries a = (entries, none))
      (apart : (entries.map fun e => h.key test e.1).Nodup)
      (parts : List.Forall₂ (fun e d => part e.1 d.1 ∧ part e.2 d.2) entries ds) :
      Level h S part (.map a) (.map test none ds none)

/-- The value has the contents `d`, nested less than `n` deep. -/
def Holds (h : Heap) (S : Set Nat) : Nat → Value → Datum → Prop
  | 0 => fun _ _ => False
  | n + 1 => Level h S (h.Holds S n)

variable {h : Heap} {S T : Set Nat} {part part' : Value → Datum → Prop} {n k : Nat} {v : Value}
  {d e : Datum}

theorem Level.imp (hST : S ⊆ T) (hpart : ∀ v d, part v d → part' v d)
    (hv : Level h S part v d) : Level h T part' v d := by
  cases hv with
  | nil => exact .nil
  | bool b => exact .bool b
  | int n => exact .int n
  | float x => exact .float x
  | str ht => exact .str ht
  | sym ht => exact .sym ht
  | kw ht => exact .kw ht
  | list hb hp => exact .list hb (hp.imp hpart)
  | vector hb hp => exact .vector hb (hp.imp hpart)
  | map hm hb ht he ha hp =>
    exact .map (hST hm) hb ht he ha (hp.imp fun _ _ h => ⟨hpart _ _ h.1, hpart _ _ h.2⟩)

theorem Holds.mono (hv : h.Holds S n v d) (hST : S ⊆ T) (hn : n ≤ k) : h.Holds T k v d := by
  induction n generalizing k v d with
  | zero => exact hv.elim
  | succ n ih =>
    obtain ⟨k, rfl⟩ : ∃ j, k = j + 1 := ⟨k - 1, by omega⟩
    exact Level.imp hST (fun _ _ h => ih h (by omega)) hv

theorem map_eq_of_forall₂ {α β : Type} {f : α → β} {as : List α} {bs : List β}
    (hab : List.Forall₂ (fun a b => f a = b) as bs) : as.map f = bs := by
  rw [← List.forall₂_map_left_iff (R := Eq), List.forall₂_eq_eq_eq] at hab
  exact hab

theorem exists_of_mem_forall₂ {α β : Type} {r : α → β → Prop} {as : List α} {bs : List β}
    (hab : List.Forall₂ r as bs) {a : α} (ha : a ∈ as) : ∃ b ∈ bs, r a b := by
  induction hab with
  | nil => cases ha
  | cons hr _ ih =>
    rcases List.mem_cons.1 ha with rfl | ha
    · exact ⟨_, List.mem_cons_self, hr⟩
    · obtain ⟨b, hb, hrb⟩ := ih ha
      exact ⟨b, List.mem_cons_of_mem _ hb, hrb⟩

/-- A value has one contents only. -/
theorem Holds.unique (hd : h.Holds S n v d) (he : h.Holds S k v e) : d = e := by
  have hsame : ∀ n, Relator.RightUnique (h.Holds S n) := by
    intro n
    induction n with
    | zero => exact fun _ _ _ hv => hv.elim
    | succ n ih =>
      intro v d e hd he
      cases hd with
      | nil | bool | int | float => cases he; rfl
      | str ht | sym ht | kw ht =>
        subst ht
        cases he
        simp_all
      | list _ hp =>
        cases he with
        | list _ hq => rw [ih.forall₂ hp hq]
      | vector _ hp =>
        cases he with
        | vector _ hq => rw [ih.forall₂ hp hq]
      | map _ _ ht hentries _ hp =>
        cases he with
        | map _ _ ht' hentries' _ hq =>
          have hpair : Relator.RightUnique fun (e : Value × Value) (d : Datum × Datum) =>
              h.Holds S n e.1 d.1 ∧ h.Holds S n e.2 d.2 :=
            fun _ _ _ hd he => Prod.ext (ih hd.1 he.1) (ih hd.2 he.2)
          cases hentries.symm.trans hentries'
          rw [← ht, ← ht', hpair.forall₂ hp hq]
  exact hsame (max n k) (hd.mono (Set.Subset.refl S) (Nat.le_max_left n k))
    (he.mono (Set.Subset.refl S) (Nat.le_max_right n k))

/-- What is seen of a value inside objects of which none is nested as little. -/
theorem Holds.withoutHints_viewTo {outer : List Value} (hv : h.Holds S n v d)
    (houter : ∀ x ∈ outer, ∀ e, ¬h.Holds S n x e) (hn : n ≤ k) :
    (h.viewTo k outer v).withoutHints = d := by
  induction n generalizing outer k v d with
  | zero => exact hv.elim
  | succ n ih =>
    have hless : ∀ x ∈ outer, ∀ e, ¬h.Holds S n x e := fun x hx e he =>
      houter x hx e (he.mono (Set.Subset.refl S) n.le_succ)
    by_cases hflat : ∃ e, h.Holds S n v e
    · obtain ⟨e, he⟩ := hflat
      rw [hv.unique he]
      exact ih he hless (by omega)
    obtain ⟨k, rfl⟩ : ∃ j, k = j + 1 := ⟨k - 1, by omega⟩
    have hparts : ∀ {w e}, h.Holds S n w e → (h.viewTo k (v :: outer) w).withoutHints = e := by
      intro w e he
      refine ih he (List.forall_mem_cons.2 ⟨?_, hless⟩) (by omega)
      exact fun e he => hflat ⟨e, he⟩
    rw [viewTo, if_neg fun hmem => houter v hmem d hv]
    cases hv with
    | nil | bool | int | float => rfl
    | str ht | sym ht | kw ht => simp only [viewBy, Datum.withoutHints, ht]
    | list _ hp | vector _ hp =>
      simp only [viewBy, Datum.withoutHints, Datum.withoutHintsAll_eq_map, List.map_map]
      exact congrArg _ (map_eq_of_forall₂ (hp.imp fun _ _ => hparts))
    | map _ _ ht he _ hp =>
      simp only [viewBy, he, ht, Datum.withoutHints, Datum.withoutHintsEntries_eq_map,
        List.map_map, Option.map_none]
      refine congrArg (Datum.map _ none · none) (map_eq_of_forall₂ (hp.imp fun _ _ h => ?_))
      exact Prod.ext (hparts h.1) (hparts h.2)

/-! ## Contents without depth -/

/-- The value has the contents `d`, with all of its maps among those at `S`. -/
def Has (h : Heap) (S : Set Nat) (v : Value) (d : Datum) : Prop := ∃ n, h.Holds S n v d

theorem Holds.has (hv : h.Holds S n v d) : h.Has S v d := ⟨n, hv⟩

/-- What the members of two lists are at some depth each, they all are at one. -/
theorem exists_forall₂ {α β : Type} {r : Nat → α → β → Prop}
    (hr : ∀ {n k a b}, n ≤ k → r n a b → r k a b) {as : List α} {bs : List β}
    (hab : List.Forall₂ (fun a b => ∃ n, r n a b) as bs) : ∃ n, List.Forall₂ (r n) as bs := by
  induction hab with
  | nil => exact ⟨0, .nil⟩
  | cons ha _ ih =>
    obtain ⟨n, ha⟩ := ha
    obtain ⟨k, has⟩ := ih
    exact ⟨max n k, .cons (hr (Nat.le_max_left n k) ha)
      (has.imp fun _ _ => hr (Nat.le_max_right n k))⟩

theorem has_of_level (hv : Level h S (h.Has S) v d) : h.Has S v d := by
  have hmono : ∀ {n k w e}, n ≤ k → h.Holds S n w e → h.Holds S k w e :=
    fun hn hw => hw.mono (Set.Subset.refl S) hn
  cases hv with
  | nil => exact ⟨1, .nil⟩
  | bool b => exact ⟨1, .bool b⟩
  | int n => exact ⟨1, .int n⟩
  | float x => exact ⟨1, .float x⟩
  | str ht => exact ⟨1, .str ht⟩
  | sym ht => exact ⟨1, .sym ht⟩
  | kw ht => exact ⟨1, .kw ht⟩
  | list hb hp =>
    obtain ⟨n, hp⟩ := exists_forall₂ (r := h.Holds S) hmono hp
    exact ⟨n + 1, .list hb hp⟩
  | vector hb hp =>
    obtain ⟨n, hp⟩ := exists_forall₂ (r := h.Holds S) hmono hp
    exact ⟨n + 1, .vector hb hp⟩
  | @map a test entries ds hm hb ht he ha hp =>
    have hboth : List.Forall₂ (fun e d => ∃ n, h.Holds S n e.1 d.1 ∧ h.Holds S n e.2 d.2)
        entries ds := by
      refine hp.imp ?_
      rintro e d ⟨⟨n, hkey⟩, ⟨k, hvalue⟩⟩
      exact ⟨max n k, hmono (Nat.le_max_left n k) hkey, hmono (Nat.le_max_right n k) hvalue⟩
    obtain ⟨n, hp⟩ := exists_forall₂
      (r := fun n (e : Value × Value) (d : Datum × Datum) =>
        h.Holds S n e.1 d.1 ∧ h.Holds S n e.2 d.2)
      (fun hn hed => ⟨hmono hn hed.1, hmono hn hed.2⟩) hboth
    exact ⟨n + 1, .map hm hb ht he ha hp⟩

theorem level_of_has (hv : h.Has S v d) : Level h S (h.Has S) v d := by
  obtain ⟨_ | n, hv⟩ := hv
  · exact hv.elim
  · exact Level.imp (Set.Subset.refl S) (fun _ _ hp => hp.has) hv

theorem Has.subset (hv : h.Has S v d) (hST : S ⊆ T) : h.Has T v d :=
  hv.imp fun n hv => hv.mono hST (Nat.le_refl n)

/-- The contents of two values are nested less than a common depth. -/
theorem Has.both {w : Value} (hv : h.Has S v d) (hw : h.Has T w e) :
    ∃ n, h.Holds S n v d ∧ h.Holds T n w e := by
  obtain ⟨n, hv⟩ := hv
  obtain ⟨k, hw⟩ := hw
  exact ⟨max n k, hv.mono (Set.Subset.refl S) (Nat.le_max_left n k),
    hw.mono (Set.Subset.refl T) (Nat.le_max_right n k)⟩

/-- The elements of the contents of a vector are the contents of its elements. -/
theorem exists_element_of_has {ds : List Datum} (hv : h.Has S v (.vector ds)) (hd : d ∈ ds) :
    ∃ w, h.Has S w d := by
  cases level_of_has hv with
  | vector _ hparts =>
    obtain ⟨w, -, hw⟩ := exists_of_mem_forall₂ hparts.flip hd
    exact ⟨w, hw⟩

theorem exists_entry_of_has {test : MapTest} {ds : List (Datum × Datum)} {d : Datum × Datum}
    (hv : h.Has S v (.map test none ds none)) (hd : d ∈ ds) :
    ∃ e : Value × Value, h.Has S e.1 d.1 ∧ h.Has S e.2 d.2 := by
  cases level_of_has hv with
  | map _ _ _ _ _ hparts =>
    obtain ⟨e, -, he⟩ := exists_of_mem_forall₂ hparts.flip hd
    exact ⟨e, he⟩

theorem Has.view (hv : h.Has S v d) : (h.view v).withoutHints = d := by
  obtain ⟨n, hv⟩ := hv
  rw [← viewTo_of_le (Nat.le_max_right n h.depth)]
  exact hv.withoutHints_viewTo (by simp) (Nat.le_max_left n h.depth)

theorem Has.print (hv : h.Has S v d) : h.print v = d.print := by
  rw [Heap.print, ← Datum.print_withoutHints, hv.view]

end Heap

end Sigil
