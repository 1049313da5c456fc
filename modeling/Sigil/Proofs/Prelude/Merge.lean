import Sigil.Proofs.Eval.Mapcar
import Sigil.Proofs.Heap.Association
import Sigil.Proofs.Heap.Merged
import Sigil.Proofs.Prelude.Definitions

/-!
# Merging maps

`map-merge` of the prelude goes through the key objects that one map had at first, and puts what it gets
for each of them into another map. The values that it gets are those of the start, also where the two
maps are one (`Heap.Merging.exists_put`). So the result is that of putting the entries of the one map into
the other, except where a key object, after it was put in, was changed and is not found, or is found as
another key (`mapMerge_puts_iff`). It has no end with a key object that one of the maps cannot compare.
-/

namespace Sigil

open Eval
open Heap (Extends)
open MapObject (putOnto)

/-! ## Entries put into a map of a heap -/

namespace MapObject

/-- The value under a key, or nil. -/
def valueAt (m : MapObject) (k : MapKey) : Value := ((m.find? k).map (·.value)).getD .nil

theorem valueAt_put_valueAt (m : MapObject) (k : MapKey) (stored : Value) (l : MapKey) :
    (m.put k stored (m.valueAt k)).valueAt l = m.valueAt l := by
  rw [valueAt, find?_put]
  split
  · next hkl => rw [hkl]; rfl
  · rfl

end MapObject

namespace Heap

variable {T : Set Nat} {h g g' : Heap} {t s : Nat} {k v : Value} {done : List Value}
  {es : List (Value × Value)} {form : Value → MapKey}

/-- The heap after entries are put into a map in turn. -/
def puts (h : Heap) (t : Nat) (es : List (Value × Value)) : Option Heap :=
  es.foldlM (fun g e => g.mapPut t e.1 e.2) h

/-- The entries of a map as they were put in, in the order of insertion. -/
def storedEntries (h : Heap) (s : Nat) : List (Value × Value) :=
  (h.mapAt s).entries.map fun e => (e.stored, e.value)

/-- What is got for a key, which is nil when the key is not found. -/
def got (h : Heap) (s : Nat) (k : Value) : Value := (h.mapGet s k).toOption.getD .nil

/-- Both maps can compare the key. -/
def ComparableInBoth (h : Heap) (t s : Nat) (k : Value) : Prop :=
  h.Comparable (h.mapAt s).test k ∧ h.Comparable (h.mapAt t).test k

theorem setMap_mapAt (h : Heap) (t : Nat) : h.setMap t (h.mapAt t) = h := by
  have hmaps : h.maps.setIfInBounds t (h.mapAt t) = h.maps := by
    refine Array.ext (by simp) fun i hi hi' => ?_
    rw [Array.getElem_setIfInBounds]
    split
    · next hti => simp [mapAt, hti, hi']
    · rfl
  rw [setMap, hmaps]

theorem setMap_setMap (h : Heap) (t : Nat) (m m' : MapObject) :
    (h.setMap t m).setMap t m' = h.setMap t m' := by
  simp [setMap]

theorem puts_append_singleton (hg : h.puts t es = some g) (k v : Value) :
    h.puts t (es ++ [(k, v)]) = g.mapPut t k v := by
  rw [puts, List.foldlM_append, ← puts, hg]
  exact bind_pure (g.mapPut t k v)

theorem puts_eq (ht : t < h.maps.size)
    (hform : ∀ e ∈ es, h.key (h.mapAt t).test e.1 = some (form e.1)) :
    h.puts t es = some (h.setMap t { h.mapAt t with
      entries := putOnto (h.mapAt t).entries (es.map fun e => ⟨form e.1, e.1, e.2⟩) }) := by
  induction es generalizing h with
  | nil => exact congrArg some (setMap_mapAt h t).symm
  | cons e es ih =>
    obtain ⟨he, hform⟩ := List.forall_mem_cons.1 hform
    let m := (h.mapAt t).put (form e.1) e.1 e.2
    have hat : (h.setMap t m).mapAt t = m := mapAt_setMap ht m
    have hrest := ih (h := h.setMap t m) (by simpa [setMap] using ht) fun e' he' => by
      rw [key_setMap, hat]
      exact hform e' he'
    rw [puts, List.foldlM_cons, mapPut_eq_some.2 ⟨_, he, rfl⟩]
    refine hrest.trans ?_
    rw [hat, setMap_setMap]
    rfl

theorem got_eq (h : Heap) (s : Nat) (k : Value) :
    h.got s k = ((h.key (h.mapAt s).test k).map (h.mapAt s).valueAt).getD .nil := by
  rw [got, mapGet, entryOf]
  cases h.key (h.mapAt s).test k with
  | none => rfl
  | some f =>
    rw [Option.map_some, Option.getD_some, MapObject.valueAt]
    cases hfound : (h.mapAt s).find? f <;> simp [hfound, Except.map, Except.toOption]

/-- The value of an entry is got for its key object if that was not changed after it was put in. -/
theorem got_of_key_eq (hd : (h.mapAt s).Distinct) {e : Entry} (he : e ∈ (h.mapAt s).entries)
    (hkey : h.key (h.mapAt s).test e.stored = some e.key) : h.got s e.stored = e.value := by
  rw [got_eq, hkey, Option.map_some, Option.getD_some, MapObject.valueAt,
    MapObject.find?_of_mem hd he]
  rfl

/-- Putting in what is got for the key objects of a map is putting in its entries exactly when each
entry that is the last one of its key there is got for its key object. -/
theorem puts_got_iff (ht : t < h.maps.size) (hform : ∀ k ∈ h.mapKeys s,
    h.key (h.mapAt t).test k = some (form k)) (m : MapObject)
    (hm : h.puts t ((h.mapKeys s).map fun k => (k, h.got s k)) = some (h.setMap t m)) :
    ∃ g, h.puts t (h.storedEntries s) = some g ∧ (m = g.mapAt t ↔
      ∀ pre e post, (h.mapAt s).entries = pre ++ e :: post →
        (∀ e' ∈ post, h.key (h.mapAt t).test e'.stored ≠ h.key (h.mapAt t).test e.stored) →
          h.got s e.stored = e.value) := by
  have hstored : ∀ e ∈ (h.mapAt s).entries, h.key (h.mapAt t).test e.stored = some (form e.stored) :=
    fun e he => hform e.stored (List.mem_map_of_mem he)
  have hentries : ∀ e ∈ h.storedEntries s, h.key (h.mapAt t).test e.1 = some (form e.1) :=
    List.forall_mem_map.2 hstored
  have hgot : ∀ e ∈ (h.mapKeys s).map fun k => (k, h.got s k),
      h.key (h.mapAt t).test e.1 = some (form e.1) := List.forall_mem_map.2 hform
  rw [puts_eq ht hgot, Option.some.injEq] at hm
  have hm := congrArg (·.mapAt t) hm
  simp only [mapAt_setMap ht] at hm
  refine ⟨_, puts_eq ht hentries, ?_⟩
  rw [mapAt_setMap ht, ← hm, MapObject.mk.injEq, mapKeys, storedEntries, List.map_map,
    List.map_map, List.map_map]
  simp only [true_and]
  refine MapObject.putOnto_map_eq_iff.trans ?_
  refine forall₃_congr fun pre e post => forall_congr' fun hsplit => ?_
  have hlast : ∀ e' ∈ post, (form e'.stored ≠ form e.stored ↔
      h.key (h.mapAt t).test e'.stored ≠ h.key (h.mapAt t).test e.stored) := by
    intro e' he'
    rw [hstored e (by simp [hsplit]), hstored e' (by simp [hsplit, he']), ne_eq, ne_eq,
      Option.some.injEq]
  rw [forall₂_congr hlast]

/-! ### What a round leaves -/

/-- What the rounds for the key objects `done` leave of the heap `h`: the map at `t` is changed as if
what was got at first had been put in, and what is got from the map at `s` is what it was. -/
structure Merging (h : Heap) (t s : Nat) (done : List Value) (g : Heap) : Prop where
  kept : Extends {t} h g
  target_test : (g.mapAt t).test = (h.mapAt t).test
  source_test : (g.mapAt s).test = (h.mapAt s).test
  valueAt_eq : ∀ k, (g.mapAt s).valueAt k = (h.mapAt s).valueAt k
  puts_eq : h.puts t (done.map fun k => (k, h.got s k)) = some (h.setMap t (g.mapAt t))

namespace Merging

theorem refl (h : Heap) (t s : Nat) : h.Merging t s [] h :=
  ⟨.refl _ h, rfl, rfl, fun _ => rfl, congrArg some (setMap_mapAt h t).symm⟩

theorem trans (hm : h.Merging t s done g) (he : Extends ∅ g g') : h.Merging t s done g' where
  kept := hm.kept.trans (he.subset (Set.empty_subset _))
  target_test := by rw [he.mapAt_eq t (Set.notMem_empty t), hm.target_test]
  source_test := by rw [he.mapAt_eq s (Set.notMem_empty s), hm.source_test]
  valueAt_eq := by rw [he.mapAt_eq s (Set.notMem_empty s)]; exact hm.valueAt_eq
  puts_eq := by rw [he.mapAt_eq t (Set.notMem_empty t), hm.puts_eq]

section

variable (hm : h.Merging t s done g) (hc : h.Closed) (hk : h.present.Covers k)
include hm hc hk

theorem comparableInBoth_iff : g.ComparableInBoth t s k ↔ h.ComparableInBoth t s k := by
  simp only [ComparableInBoth, ← isSome_key, hm.kept.key hc _ hk, hm.target_test, hm.source_test]

theorem got_eq : g.got s k = h.got s k := by
  have hvalue : (g.mapAt s).valueAt = (h.mapAt s).valueAt := funext hm.valueAt_eq
  rw [Heap.got_eq, Heap.got_eq, hm.source_test, hm.kept.key hc _ hk, hvalue]

/-- A round puts in what is got. It may be got from the same map. -/
theorem exists_put (ht : t < h.maps.size) (hboth : h.ComparableInBoth t s k) :
    ∃ g', g.mapPut t k (g.got s k) = some g' ∧ h.Merging t s (done ++ [k]) g' ∧
      Extends {t} g g' := by
  obtain ⟨form, hform⟩ := Option.isSome_iff_exists.1 (isSome_key.2 hboth.2)
  obtain ⟨source, hsource⟩ := Option.isSome_iff_exists.1 (isSome_key.2 hboth.1)
  have hlt : t < g.maps.size := by rw [hm.kept.maps_size_eq]; exact ht
  have hkey : g.key (g.mapAt t).test k = some form := by
    rw [hm.kept.key hc _ hk, hm.target_test, hform]
  let m := (g.mapAt t).put form k (g.got s k)
  have hput : (g.setMap t m).mapAt t = m := mapAt_setMap hlt m
  have hother : s ≠ t → (g.setMap t m).mapAt s = g.mapAt s := fun hne => by
    simp [setMap, mapAt, Ne.symm hne]
  refine ⟨_, mapPut_eq_some.2 ⟨form, hkey, rfl⟩, ⟨hm.kept.setMap rfl _, ?_, ?_, ?_, ?_⟩,
    (Extends.refl {t} g).setMap rfl _⟩
  · rw [hput]
    exact hm.target_test
  · by_cases hst : s = t
    · subst hst
      rw [hput]
      exact hm.source_test
    · rw [hother hst, hm.source_test]
  · intro l
    by_cases hst : s = t
    · -- the same form is found in the map and put into it
      subst hst
      have hgot : g.got s k = (g.mapAt s).valueAt form := by
        rw [Heap.got_eq, hkey]
        rfl
      rw [hput, ← hm.valueAt_eq l]
      simp only [m, hgot]
      exact MapObject.valueAt_put_valueAt _ _ _ _
    · rw [hother hst, hm.valueAt_eq l]
  · have hstep : (h.setMap t (g.mapAt t)).mapPut t k (h.got s k)
        = some ((h.setMap t (g.mapAt t)).setMap t m) := by
      rw [← hm.got_eq hc hk]
      refine mapPut_eq_some.2 ⟨form, ?_, by rw [mapAt_setMap ht]⟩
      rw [key_setMap, mapAt_setMap ht, hm.target_test, hform]
    rw [List.map_append, List.map_singleton, puts_append_singleton hm.puts_eq, hput, hstep,
      setMap_setMap]

end

end Merging

end Heap

/-! ## The function of a round -/

namespace Prelude

/-- Neither a name of `map-merge` nor a placeholder is the name of a builtin. -/
theorem name_not_mem_of_merge (b : Builtin) :
    b.name ∉ ["target", "source"] ∧ b.name ∉ ["%", "%%"] := by
  cases b <;> decide

end Prelude

namespace Heap

variable {T : Set Nat} {h g g' : Heap} {q t s root scope : Nat} {form k v : Value}

/-- In the scope of a round the builtins, the two maps and the key object are bound. -/
structure InRound (g : Heap) (scope t s : Nat) (k : Value) : Prop where
  standard : g.Standard scope
  target : g.lookup? scope "target" = some (.map t)
  source : g.lookup? scope "source" = some (.map s)
  argument : g.lookup? scope "%" = some k

namespace InRound

variable (hg : g.InRound scope t s k)
include hg

theorem gives_argument (n : Nat) : (Interp.ofDepth (n + 1)).Gives g scope (.sym "%") k :=
  gives_name (by decide) (by decide) hg.argument

theorem gives_source (n : Nat) : (Interp.ofDepth (n + 1)).Gives g scope (.sym "source") (.map s) :=
  gives_name (by decide) (by decide) hg.source

theorem gives_target (n : Nat) : (Interp.ofDepth (n + 1)).Gives g scope (.sym "target") (.map t) :=
  gives_name (by decide) (by decide) hg.target

/-- The value is got that the map has under the key object, or nil. -/
theorem gives_got (hs : g.Comparable (g.mapAt s).test k) (n : Nat) :
    (Interp.ofDepth (n + 2)).Gives g scope
      (.list [.sym "map-get", .sym "source", .sym "%"]) (g.got s k) := by
  obtain ⟨f, hf⟩ := Option.isSome_iff_exists.1 (isSome_key.2 hs)
  have hget : Yields (Library.run (Interp.ofDepth n) .mapGet [.map s, k]) g (g.got s k) g := by
    rw [got]
    cases hlookup : g.mapGet s k with
    | ok v => exact Library.yields_mapGet _ hlookup
    | error lapse =>
      cases lapse with
      | missing => exact Library.yields_mapGet_of_missing _ hlookup
      | endless =>
        rw [mapGet, entryOf, hf] at hlookup
        cases hfound : (g.mapAt s).find? f <;> simp [hfound, Except.map] at hlookup
  exact fun _ hform => yields_call_of_gives (b := .mapGet) hform hg.standard
    (.cons (hg.gives_source n) (.cons (hg.gives_argument n) .nil)) rfl hget

variable (hform : g.Has ∅ form (.ofExpr Prelude.transfer))
include hform

theorem yields_transfer (hs : g.Comparable (g.mapAt s).test k)
    (hput : g.mapPut t k (g.got s k) = some g') (n : Nat) :
    Yields ((Interp.ofDepth (n + 3)).eval form scope) g (.map t) g' :=
  yields_call_of_gives (b := .mapPut) hform hg.standard
    (.cons (hg.gives_target (n + 1)) (.cons (hg.gives_argument (n + 1))
      (.cons (hg.gives_got hs n) .nil)))
    rfl (Library.yields_mapPut _ hput)

/-- With a key object that one of the maps cannot compare, nothing is got or put in. -/
theorem stops_transfer (hboth : ¬g.ComparableInBoth t s k) (n : Nat) :
    Stops ((Interp.ofDepth (n + 3)).eval form scope) g (.fault (.endless .key)) := by
  obtain ⟨ref, f, forms, rfl, hitems, hf, hforms⟩ := Expr.exists_form_of_has hform
  obtain ⟨target, vs, htarget, hvs, rfl⟩ := List.forall₂_cons_right_iff.1 hforms
  obtain ⟨argument, ws, hargument, hws, rfl⟩ := List.forall₂_cons_right_iff.1 hvs
  obtain ⟨get, us, hget, hus, rfl⟩ := List.forall₂_cons_right_iff.1 hws
  obtain rfl := List.forall₂_nil_right_iff.1 hus
  have hname : f.text = Builtin.mapPut.name := hf
  by_cases hs : g.Comparable (g.mapAt s).test k
  · have hput : g.mapPut t k (g.got s k) = none := by
      rw [mapPut, Option.not_isSome_iff_eq_none.1 fun ht => hboth ⟨hs, isSome_key.1 ht⟩]
      rfl
    exact stops_call hitems hname hg.standard
      (yields_values_cons (hg.gives_target (n + 1) _ htarget)
        (yields_values_cons (hg.gives_argument (n + 1) _ hargument)
          (yields_values_cons (hg.gives_got hs n _ hget) (yields_values_nil _ _ _))))
      rfl (Library.stops_mapPut _ _ hput)
  · have hlookup : g.mapGet s k = .error .endless := by
      rw [mapGet, entryOf, Option.not_isSome_iff_eq_none.1 fun ht => hs (isSome_key.1 ht)]
      rfl
    have hgets : Stops ((Interp.ofDepth (n + 2)).eval get scope) g (.fault (.endless .key)) := by
      obtain ⟨ref', f', forms', rfl, hitems', hf', hforms'⟩ := Expr.exists_form_of_has hget
      obtain ⟨source, vs', hsource, hvs', rfl⟩ := List.forall₂_cons_right_iff.1 hforms'
      obtain ⟨argument', ws', hargument', hws', rfl⟩ := List.forall₂_cons_right_iff.1 hvs'
      obtain rfl := List.forall₂_nil_right_iff.1 hws'
      have hname' : f'.text = Builtin.mapGet.name := hf'
      exact stops_call hitems' hname' hg.standard
        (yields_values_cons (hg.gives_source n _ hsource)
          (yields_values_cons (hg.gives_argument n _ hargument') (yields_values_nil _ _ _)))
        rfl (Library.stops_mapGet _ hlookup)
    exact stops_call_of_values hitems hname hg.standard
      (stops_values_of_rest (hg.gives_target (n + 1) _ htarget)
        (stops_values_of_rest (hg.gives_argument (n + 1) _ hargument)
          (stops_values_of_head hgets)))

end InRound

/-- The function `q` is a positional one that puts what is got from the map `s` for its first argument
into the map `t`. -/
def Transfers (h : Heap) (q t s : Nat) : Prop :=
  ∃ x y form scope, x.text = "%" ∧ y.text = "%%" ∧
    h.HasFunction q ⟨[], [x, y], none⟩ [form] scope none ∧ h.Has ∅ form (.ofExpr Prelude.transfer) ∧
    h.Standard scope ∧ h.lookup? scope "target" = some (.map t) ∧
    h.lookup? scope "source" = some (.map s)

namespace Transfers

theorem kept (hq : h.Transfers q t s) (he : Extends T h g) : g.Transfers q t s := by
  obtain ⟨x, y, form, scope, hx, hy, hfunction, hform, hstd, ht, hs⟩ := hq
  have hlookup : ∀ name, g.lookup? scope name = h.lookup? scope name :=
    he.lookup? (lt_of_lookup? ht)
  exact ⟨x, y, form, scope, hx, hy, hfunction.retains he.toRetains, he.has hform,
    fun b => by rw [hlookup, hstd b], by rw [hlookup, ht], by rw [hlookup, hs]⟩

/-- A call of it binds its argument in a new scope and evaluates its form there. -/
theorem exists_inRound (hq : h.Transfers q t s) (k : Value) (n : Nat) :
    ∃ g form, Extends ∅ h g ∧ g.InRound h.scopes.size t s k ∧ g.Has ∅ form (.ofExpr Prelude.transfer) ∧
      (∀ {v g'}, Yields ((Interp.ofDepth n).eval form h.scopes.size) g v g' →
        Yields ((Interp.ofDepth (n + 1)).call (.closure q) [k] none) h v g') ∧
      ∀ {stop}, Stops ((Interp.ofDepth n).eval form h.scopes.size) g stop →
        Stops ((Interp.ofDepth (n + 1)).call (.closure q) [k] none) h stop := by
  obtain ⟨x, y, form, scope, hx, hy, hfunction, hform, hstd, ht, hs⟩ := hq
  let ps : Form.Parameters := ⟨[], [x, y], none⟩
  let g := h.withArguments q ps [k]
  have hextends : Extends ∅ h g := (Extends.refl ∅ h).withArguments q ps [k]
  have hnames : ps.names = ["%", "%%"] := by simp [ps, Form.Parameters.names, hx, hy]
  have hscope := hfunction.scope_eq
  -- the call sees the maps and the builtins through the scope of the function, and its argument
  have hlookup : ∀ name ∉ ps.names, g.lookup? h.scopes.size name = h.lookup? scope name := by
    intro name hname
    rw [lookup?_withArguments hname (by rw [hscope]; exact lt_of_lookup? ht), hscope]
  have hargs : ¬ ps.Refuses [k].length := by simp [ps, Form.Parameters.Refuses]
  have hround : g.InRound h.scopes.size t s k := {
    standard := Standard.withArguments (by rw [hscope]; exact hstd)
      fun b => by rw [hnames]; exact (Prelude.name_not_mem_of_merge b).2
    target := by rw [hlookup _ (by rw [hnames]; decide), ht]
    source := by rw [hlookup _ (by rw [hnames]; decide), hs]
    argument := by
      refine lookup?_of_own? ?_
      have hbinds := binds_withArguments (h := h) (k := q)
        (show ps.names.Nodup by rw [hnames]; decide) hargs
      simpa [ps, Form.Parameters.readBack, hx] using hbinds.arguments }
  exact ⟨g, form, hextends, hround, hextends.has hform, yields_callClosure_singleton hfunction hargs,
    stops_callClosure hfunction hargs⟩

/-- Calls of it for the key objects that the map `s` has at first keep track of what is merged. -/
theorem loops (hq : g.Transfers q t s) (hc : h.Closed) (ht : t < h.maps.size) {a : Nat}
    (ha : a < g.sequences.size) (hitems : g.items a = h.mapKeys s) (n : Nat) :
    Library.Loops (Interp.ofDepth (n + 4)) (.closure q) a (h.mapKeys s) (h.ComparableInBoth t s)
      (.fault (.endless .key)) fun done g' => h.Merging t s done g' ∧ Extends {t} g g' := by
  have hcovers : ∀ {done k rest}, h.mapKeys s = done ++ k :: rest → h.present.Covers k := by
    intro done k rest hsplit
    obtain ⟨e, hmem, rfl⟩ := List.mem_map.1
      (show k ∈ h.mapKeys s by rw [hsplit]; exact List.mem_append_right _ List.mem_cons_self)
    exact (hc.entries s e hmem).1
  exact {
    items_eq := fun hP => by rw [hP.2.items_eq a ha, hitems]
    call := by
      rintro done k rest g' hsplit ⟨hm, he⟩ hboth
      have hk := hcovers hsplit
      obtain ⟨g₁, form, he₁, hround, hform, hcall, -⟩ := (hq.kept he).exists_inRound k (n + 3)
      have hm₁ := hm.trans he₁
      obtain ⟨g₂, hput, hm₂, he₂⟩ := hm₁.exists_put hc hk ht hboth
      exact ⟨_, g₂,
        hcall (hround.yields_transfer hform ((hm₁.comparableInBoth_iff hc hk).2 hboth).1 hput n), hm₂,
        (he.trans (he₁.subset (Set.empty_subset _))).trans he₂⟩
    stops := by
      rintro done k rest g' hsplit ⟨hm, he⟩ hboth
      obtain ⟨g₁, form, he₁, hround, hform, -, hcall⟩ := (hq.kept he).exists_inRound k (n + 3)
      have hiff := (hm.trans he₁).comparableInBoth_iff hc (hcovers hsplit)
      exact hcall (hround.stops_transfer hform (mt hiff.1 hboth) n) }

end Transfers

/-! ## The loop -/

section

variable (hc : h.Closed) (ht : t < h.maps.size)
include hc ht

/-- The first form of `map-merge` goes through the key objects of the map `source`. -/
theorem yields_or_stops_loop (he : Extends ∅ h g)
    (hform : g.Has ∅ form (.list [.sym "mapcar", (Datum.ofExpr Prelude.transfer).positional,
      .list [.sym "map-keys", .sym "source"]]))
    (hstd : g.Standard scope) (htarget : g.lookup? scope "target" = some (.map t))
    (hsource : g.lookup? scope "source" = some (.map s)) (n : Nat) :
    ((∀ k ∈ h.mapKeys s, h.ComparableInBoth t s k) →
      ∃ v g', Yields ((Interp.ofDepth (n + 6)).eval form scope) g v g' ∧
        h.Merging t s (h.mapKeys s) g' ∧ Extends {t} g g') ∧
      ((¬∀ k ∈ h.mapKeys s, h.ComparableInBoth t s k) →
        Stops ((Interp.ofDepth (n + 6)).eval form scope) g (.fault (.endless .key))) := by
  obtain ⟨ref, f, forms, rfl, hitems, hf, hforms⟩ := Expr.exists_form_of_has hform
  obtain ⟨lambda, vs, hlambda, hvs, rfl⟩ := List.forall₂_cons_right_iff.1 hforms
  obtain ⟨keys, ws, hkeys, hws, rfl⟩ := List.forall₂_cons_right_iff.1 hvs
  obtain rfl := List.forall₂_nil_right_iff.1 hws
  -- the function of a round sees the two maps
  obtain ⟨q, g₁, x, y, body, hmake, hx, hy, hbody, he₁, hq⟩ :=
    exists_yields_positional hlambda rfl (n + 4) scope
  have hlookup : ∀ name, g₁.lookup? scope name = g.lookup? scope name :=
    he₁.lookup? (lt_of_lookup? htarget)
  have hstd₁ : g₁.Standard scope := fun b => by rw [hlookup, hstd b]
  have hsource₁ : g₁.lookup? scope "source" = some (.map s) := by rw [hlookup, hsource]
  have htransfers : g₁.Transfers q t s :=
    ⟨x, y, body, scope, hx, hy, hq, he₁.has hbody, hstd₁, by rw [hlookup, htarget], hsource₁⟩
  -- the key objects are listed once, before the first round
  have hkept : g₁.mapKeys s = h.mapKeys s := by
    rw [mapKeys, mapKeys, (he.trans he₁).mapAt_eq s (Set.notMem_empty s)]
  let g₂ := (g₁.newSequence (g₁.mapKeys s)).2
  have he₂ : Extends ∅ g₁ g₂ := (Extends.refl ∅ g₁).newSequence _
  have hlist : Yields ((Interp.ofDepth (n + 5)).eval keys scope) g₁
      (.list g₁.sequences.size) g₂ :=
    yields_call_of_gives (b := .mapKeys) (he₁.has hkeys) hstd₁
      (.cons (gives_name (by decide) (by decide) hsource₁) .nil) rfl
      (Library.yields_mapKeys _ g₁ s)
  have hargs := yields_values_cons hmake (yields_values_cons hlist (yields_values_nil _ _ _))
  have hloops := (htransfers.kept he₂).loops hc ht (a := g₁.sequences.size)
    (by simp [g₂, newSequence]) ((items_newSequence _ _).trans hkept) n
  have hstart : h.Merging t s [] g₂ ∧ Extends {t} g₂ g₂ :=
    ⟨(Merging.refl h t s).trans ((he.trans he₁).trans he₂), .refl _ g₂⟩
  constructor
  · intro hall
    obtain ⟨rs, g', hrun, hm, he'⟩ := hloops.exists_yields_mapcar hall hstart
    exact ⟨_, _, yields_call (b := .mapcar) hitems hf hstd hargs rfl hrun,
      hm.trans ((Extends.refl ∅ g').newSequence rs),
      (((he₁.trans he₂).subset (Set.empty_subset _)).trans he').newSequence rs⟩
  · intro hbad
    exact stops_call (b := .mapcar) hitems hf hstd hargs rfl (hloops.stops_mapcar hbad hstart)

/-- Where the prelude stands, `map-merge` goes through the key objects of its second map and gives the
first one, unless one of the maps cannot compare a key object. -/
theorem StandsAt.yields_or_stops_mapMerge (hs : h.StandsAt root)
    (hk : h.lookup? root "map-merge" = some (.closure q)) (s n : Nat) (name : Option String) :
    ((∀ k ∈ h.mapKeys s, h.ComparableInBoth t s k) →
      ∃ h', Yields ((Interp.ofDepth (n + 7)).call (.closure q) [.map t, .map s] name) h (.map t) h' ∧
        h.Merging t s (h.mapKeys s) h') ∧
      ((¬∀ k ∈ h.mapKeys s, h.ComparableInBoth t s k) →
        Stops ((Interp.ofDepth (n + 7)).call (.closure q) [.map t, .map s] name) h
          (.fault (.endless .key))) := by
  obtain ⟨names, forms, own, hnames, hforms, hfunction⟩ :=
    (hs.defined .mapMerge (by simp [Prelude.definitions])).implements hk
  obtain ⟨loop, rest, hloop, hrest, rfl⟩ := List.forall₂_cons_right_iff.1 hforms
  obtain ⟨result, rest', hresult, hrest', rfl⟩ := List.forall₂_cons_right_iff.1 hrest
  obtain rfl := List.forall₂_nil_right_iff.1 hrest'
  obtain ⟨x, xs, rfl, hx, hxs⟩ := List.map_eq_cons_iff.1 hnames
  obtain ⟨y, rfl, hy⟩ := List.map_eq_singleton_iff.1 hxs
  let ps : Form.Parameters := ⟨[x, y], [], none⟩
  let args : List Value := [.map t, .map s]
  let g := h.withArguments q ps args
  have he : Extends ∅ h g := (Extends.refl ∅ h).withArguments q ps args
  have hnames : ps.names = ["target", "source"] := by simp [ps, Form.Parameters.names, hx, hy]
  have hstd : g.Standard h.scopes.size := Standard.withArguments
    (by rw [hfunction.scope_eq]; exact hs.standard)
    fun b => by rw [hnames]; exact (Prelude.name_not_mem_of_merge b).1
  obtain ⟨htarget, hsource⟩ : g.lookup? h.scopes.size "target" = some (.map t) ∧
      g.lookup? h.scopes.size "source" = some (.map s) := by
    have hbound := map_own?_withArguments (h := h) (k := q)
      (show ([x, y].map (·.text)).Nodup by simp [hx, hy])
      (show args.length = [x, y].length from rfl)
    obtain ⟨ht, hs⟩ : g.own? h.scopes.size "target" = some (.map t) ∧
        g.own? h.scopes.size "source" = some (.map s) := by simpa [args, hx, hy] using hbound
    exact ⟨lookup?_of_own? ht, lookup?_of_own? hs⟩
  have hrefuses : ¬ ps.Refuses args.length := by simp [ps, args, Form.Parameters.Refuses]
  obtain ⟨hyields, hstops⟩ :=
    yields_or_stops_loop hc ht he (he.has hloop) hstd htarget hsource n
  refine ⟨fun hall => ?_, fun hbad => stops_callClosure hfunction hrefuses (hstops hbad)⟩
  obtain ⟨v, h', hrun, hm, he'⟩ := hyields hall
  refine ⟨h', ?_, hm⟩
  have hbody : ∀ {g'}, Extends {t} h g' → g'.items (h.closureAt q).body = [loop, result] :=
    fun hg => by rw [hg.items_eq _ hfunction.body_lt, hfunction.items_body]
  have hlast : Yields ((Interp.ofDepth (n + 6)).eval result h.scopes.size) h' (.map t) h' :=
    yields_name (x := "target") (he'.has (he.has hresult)) (by decide) (by decide)
      (by rw [he'.lookup? (lt_of_lookup? htarget), htarget])
  refine yields_callClosure hfunction hrefuses ?_
  refine yields_liveBody_cons (by rw [hbody (he.subset (Set.empty_subset _))]; rfl) hrun ?_
  exact yields_liveBody_cons (by rw [hbody hm.kept]; rfl) hlast (yields_liveBody_nil _ _ _ _ _ _)

end

end Heap

/-! ## The result -/

/-- Where the prelude stands and both maps can compare the key objects of the second one, `map-merge`
gives its first map, without an effect, and changes no other map and no other object that there was. It
leaves there what putting in the entries of the second map would leave exactly when each of these that
is the last one of its key there is got for its key object. With a key object that one of the maps
cannot compare it has no end. -/
theorem mapMerge_puts_iff {m : Machine} {root q t : Nat} (hs : m.heap.StandsAt root)
    (hc : m.heap.Closed) (hq : m.heap.lookup? root "map-merge" = some (.closure q))
    (ht : t < m.heap.maps.size) (s n : Nat) (name : Option String) :
    ((∀ k ∈ m.heap.mapKeys s, m.heap.ComparableInBoth t s k) →
      ∃ h' notes g, (Interp.ofDepth (n + 7)).call (.closure q) [.map t, .map s] name m
          = .ok (.map t) { m with heap := h', notes } ∧
        Extends {t} m.heap h' ∧ m.heap.puts t (m.heap.storedEntries s) = some g ∧
        (h'.mapAt t = g.mapAt t ↔
          ∀ pre e post, (m.heap.mapAt s).entries = pre ++ e :: post →
            (∀ e' ∈ post, m.heap.key (m.heap.mapAt t).test e'.stored
              ≠ m.heap.key (m.heap.mapAt t).test e.stored) →
            m.heap.got s e.stored = e.value)) ∧
      ((¬∀ k ∈ m.heap.mapKeys s, m.heap.ComparableInBoth t s k) →
        ∃ m', (Interp.ofDepth (n + 7)).call (.closure q) [.map t, .map s] name m
          = .error (.fault (.endless .key)) m') := by
  obtain ⟨hyields, hstops⟩ := hs.yields_or_stops_mapMerge hc ht hq s n name
  refine ⟨fun hall => ?_, fun hbad => hstops hbad m rfl⟩
  obtain ⟨h', hcall, hm⟩ := hyields hall
  obtain ⟨notes, hrun⟩ := hcall m rfl
  have hforms : ∀ k ∈ m.heap.mapKeys s, ∃ f, m.heap.key (m.heap.mapAt t).test k = some f :=
    fun k hk => Option.isSome_iff_exists.1 (Heap.isSome_key.2 (hall k hk).2)
  choose! form hform using hforms
  obtain ⟨g, hputs, hiff⟩ := Heap.puts_got_iff ht hform _ hm.puts_eq
  exact ⟨h', notes, g, hrun, hm.kept, hputs, hiff⟩

/-- A map with a value for one, and a map with values for one and two. -/
def twoMaps (h : Heap) : Heap :=
  let target : MapObject := ⟨.eql, none, [⟨.atom (.int 1), .int 1, .int 10⟩]⟩
  let source : MapObject :=
    ⟨.eq, none, [⟨.atom (.int 1), .int 1, .int 20⟩, ⟨.atom (.int 2), .int 2, .int 30⟩]⟩
  ((h.newMap target).2.newMap source).2

theorem size_maps_twoMaps (h : Heap) : (twoMaps h).maps.size = h.maps.size + 2 := by
  simp [twoMaps, Heap.newMap]

theorem mapAt_twoMaps_target (h : Heap) : (twoMaps h).mapAt h.maps.size
    = ⟨.eql, none, [⟨.atom (.int 1), .int 1, .int 10⟩]⟩ := by
  simp [twoMaps, Heap.newMap, Heap.mapAt, Array.getElem_push]

theorem mapAt_twoMaps_source (h : Heap) : (twoMaps h).mapAt (h.maps.size + 1)
    = ⟨.eq, none, [⟨.atom (.int 1), .int 1, .int 20⟩, ⟨.atom (.int 2), .int 2, .int 30⟩]⟩ := by
  simp [twoMaps, Heap.newMap, Heap.mapAt, Array.getElem_push]

theorem storedEntries_twoMaps_source (h : Heap) : (twoMaps h).storedEntries (h.maps.size + 1)
    = [(.int 1, .int 20), (.int 2, .int 30)] := by
  rw [Heap.storedEntries, mapAt_twoMaps_source]
  rfl

theorem closed_twoMaps {h : Heap} (hc : h.Closed) : (twoMaps h).Closed := by
  refine Heap.closed_newMap (Heap.closed_newMap hc ?_ ?_) ?_ ?_ <;>
    simp [Region.Covers, Region.CoversKey]

namespace Runner

/-- In the first runner, the second of these maps is merged into the first one. -/
theorem mapMerge_puts_iff_first :
    ∃ r w q, first.1.prepare first.2 = (.ok (), r, w) ∧ (twoMaps w.heap).StandsAt r.root ∧
      (twoMaps w.heap).Closed ∧
      (twoMaps w.heap).lookup? r.root "map-merge" = some (.closure q) ∧
      (∀ k ∈ (twoMaps w.heap).mapKeys (w.heap.maps.size + 1),
        (twoMaps w.heap).ComparableInBoth w.heap.maps.size (w.heap.maps.size + 1) k) ∧
      ∃ h' notes, (Interp.ofDepth 7).call (.closure q)
          [.map w.heap.maps.size, .map (w.heap.maps.size + 1)] none ⟨twoMaps w.heap, [], [], []⟩
        = .ok (.map w.heap.maps.size) ⟨h', [], [], notes⟩ ∧
        h'.storedEntries w.heap.maps.size = [(.int 1, .int 20), (.int 2, .int 30)] := by
  obtain ⟨r, w, hprepare, hroot, hstands, hclosed⟩ :=
    exists_prepare (r := first.1) (w := first.2) rfl rfl (Heap.standard_create _ _ _)
      (Heap.outermost_withRoot _) rfl (fun _ hforms => nomatch hforms)
  rw [← hroot] at hstands
  have hscopes : (twoMaps w.heap).scopes = w.heap.scopes := rfl
  have hs : (twoMaps w.heap).StandsAt r.root :=
    hstands.kept (.of_eq rfl rfl) (Heap.lookup?_congr fun t _ => Heap.scopeAt_congr hscopes t)
  have hc : (twoMaps w.heap).Closed :=
    closed_twoMaps (hclosed (Heap.closed_withRoot Heap.closed_empty))
  obtain ⟨q, hq, -⟩ := hs.defined .mapMerge (by simp [Prelude.definitions])
  have ht : w.heap.maps.size < (twoMaps w.heap).maps.size := by
    rw [size_maps_twoMaps]
    omega
  have htarget := mapAt_twoMaps_target w.heap
  have hsource := mapAt_twoMaps_source w.heap
  have hboth : ∀ k ∈ (twoMaps w.heap).mapKeys (w.heap.maps.size + 1),
      (twoMaps w.heap).ComparableInBoth w.heap.maps.size (w.heap.maps.size + 1) k :=
    fun _ _ => ⟨.inl (by rw [hsource]), .inr (.inl (by rw [htarget]))⟩
  obtain ⟨h', notes, g, hcall, -, hputs, hiff⟩ :=
    (mapMerge_puts_iff (m := ⟨twoMaps w.heap, [], [], []⟩) hs hc hq ht
      (w.heap.maps.size + 1) 0 none).1 hboth
  refine ⟨r, w, q, hprepare, hs, hc, hq, hboth, h', notes, hcall, ?_⟩
  have hmerged := hiff.2 fun pre e post hsplit _ => by
    have he : e ∈ ((twoMaps w.heap).mapAt (w.heap.maps.size + 1)).entries := by
      rw [hsplit]
      exact List.mem_append_right _ List.mem_cons_self
    refine Heap.got_of_key_eq ?_ he ?_
    · rw [hsource, MapObject.Distinct]
      decide
    · rw [hsource] at he ⊢
      rcases List.mem_pair.1 he with rfl | rfl <;> rfl
  let form : Value → MapKey := fun k => .atom k.identityKey
  have hform : ∀ e ∈ (twoMaps w.heap).storedEntries (w.heap.maps.size + 1),
      (twoMaps w.heap).key ((twoMaps w.heap).mapAt w.heap.maps.size).test e.1 = some (form e.1) := by
    rw [htarget]
    exact fun _ _ => rfl
  rw [Heap.puts_eq ht hform, Option.some.injEq] at hputs
  rw [Heap.storedEntries, hmerged, ← hputs, Heap.mapAt_setMap ht, htarget,
    storedEntries_twoMaps_source]
  rfl

/-- A key object that was changed after it was put in is merged without its value. -/
theorem not_mapMerge_changedKey :
    ¬ value? (first.1.handle first.2 "(let ((k (list 1)) (s (make-map 'equal)) (u (make-map)))
      (map-put s k 7) (map-put k 0 2) (map-merge u s) (map-get u k))").1 = some (.int 7) := by
  rw [handle_withPrelude rfl rfl rfl rfl rfl Prelude.readable]
  decide +kernel

end Runner

end Sigil
