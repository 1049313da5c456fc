import Sigil.Proofs.Heap.Closed
import Sigil.Proofs.Heap.Environment
import Sigil.Proofs.Heap.Keys
import Sigil.Proofs.Heap.Rescoped

/-!
# Heaps that go on

`Retains h h'` says that the second heap has the sequences and functions of the first one, and perhaps
more: code keeps its contents (`Retains.has`). `Extends T h h'` says that it also has the scopes and
dictionaries and, but for those at `T`, the maps of the first one. That is what making and calling
functions leaves behind: a value of the first heap is the same key in the second one (`Extends.key`),
and a scope looks up the same (`Extends.lookup?`).
-/

namespace Sigil.Heap

/-- The second heap has the sequences and the functions of the first one. -/
structure Retains (h h' : Heap) : Prop where
  sequences_le : h.sequences.size ≤ h'.sequences.size
  items_eq : ∀ a < h.sequences.size, h'.items a = h.items a
  closures_le : h.closures.size ≤ h'.closures.size
  closureAt_eq : ∀ a < h.closures.size, h'.closureAt a = h.closureAt a

/-- The second heap has the objects of the first one, except for the maps at `T`. -/
structure Extends (T : Set Nat) (h h' : Heap) : Prop extends Retains h h' where
  scopes_le : h.scopes.size ≤ h'.scopes.size
  scopeAt_eq : ∀ s < h.scopes.size, h'.scopeAt s = h.scopeAt s
  maps_size_eq : h'.maps.size = h.maps.size
  mapAt_eq : ∀ a ∉ T, h'.mapAt a = h.mapAt a
  dicts_eq : h'.dicts = h.dicts

variable {T U : Set Nat} {h h' h'' : Heap} {v : Value} {d : Datum} {s n : Nat}

namespace Retains

theorem of_eq (hs : h'.sequences = h.sequences) (hc : h'.closures = h.closures) : Retains h h' where
  sequences_le := by rw [hs]
  items_eq a _ := by rw [items, items, hs]
  closures_le := by rw [hc]
  closureAt_eq a ha := by simp [closureAt, hc, Array.getElem?_eq_getElem ha]

theorem trans (hg : Retains h h') (hg' : Retains h' h'') : Retains h h'' where
  sequences_le := Nat.le_trans hg.sequences_le hg'.sequences_le
  items_eq a ha := by
    rw [hg'.items_eq a (Nat.lt_of_lt_of_le ha hg.sequences_le), hg.items_eq a ha]
  closures_le := Nat.le_trans hg.closures_le hg'.closures_le
  closureAt_eq a ha := by
    rw [hg'.closureAt_eq a (Nat.lt_of_lt_of_le ha hg.closures_le), hg.closureAt_eq a ha]

theorem newSequence (hg : Retains h h') (vs : List Value) : Retains h (h'.newSequence vs).2 :=
  hg.trans {
    sequences_le := by simp [Heap.newSequence]
    items_eq := fun a ha => items_newSequence_of_lt ha
    closures_le := Nat.le_refl _
    closureAt_eq := fun a ha => by simp [Heap.newSequence, closureAt, ha] }

theorem newClosure (hg : Retains h h') (c : ClosureObject) : Retains h (h'.newClosure c).2 :=
  hg.trans {
    sequences_le := Nat.le_refl _
    items_eq := fun _ _ => rfl
    closures_le := by simp [Heap.newClosure]
    closureAt_eq := fun a ha => by
      simp [Heap.newClosure, closureAt, Array.getElem?_push, Nat.ne_of_lt ha] }

theorem holds (hg : Retains h h') (hv : h.Holds ∅ n v d) : h'.Holds ∅ n v d := by
  induction n generalizing v d with
  | zero => exact hv
  | succ n ih =>
    cases hv with
    | nil => exact .nil
    | bool b => exact .bool b
    | int n => exact .int n
    | float x => exact .float x
    | str ht => exact .str ht
    | sym ht => exact .sym ht
    | kw ht => exact .kw ht
    | list hb hp =>
      refine .list (Nat.lt_of_lt_of_le hb hg.sequences_le) ?_
      rw [hg.items_eq _ hb]
      exact hp.imp fun _ _ => ih
    | vector hb hp =>
      refine .vector (Nat.lt_of_lt_of_le hb hg.sequences_le) ?_
      rw [hg.items_eq _ hb]
      exact hp.imp fun _ _ => ih
    | map hm => exact absurd hm (Set.notMem_empty _)

theorem has (hg : Retains h h') (hv : h.Has ∅ v d) : h'.Has ∅ v d :=
  hv.imp fun _ hv => hg.holds hv

end Retains

namespace Extends

theorem refl (T : Set Nat) (h : Heap) : Extends T h h where
  sequences_le := Nat.le_refl _
  items_eq _ _ := rfl
  closures_le := Nat.le_refl _
  closureAt_eq _ _ := rfl
  scopes_le := Nat.le_refl _
  scopeAt_eq _ _ := rfl
  maps_size_eq := rfl
  mapAt_eq _ _ := rfl
  dicts_eq := rfl

theorem trans (he : Extends T h h') (he' : Extends T h' h'') : Extends T h h'' where
  toRetains := he.toRetains.trans he'.toRetains
  scopes_le := Nat.le_trans he.scopes_le he'.scopes_le
  scopeAt_eq s hs := by
    rw [he'.scopeAt_eq s (Nat.lt_of_lt_of_le hs he.scopes_le), he.scopeAt_eq s hs]
  maps_size_eq := he'.maps_size_eq.trans he.maps_size_eq
  mapAt_eq a ha := by rw [he'.mapAt_eq a ha, he.mapAt_eq a ha]
  dicts_eq := he'.dicts_eq.trans he.dicts_eq

theorem subset (he : Extends T h h') (hTU : T ⊆ U) : Extends U h h' :=
  { he with mapAt_eq := fun a ha => he.mapAt_eq a fun hT => ha (hTU hT) }

/-! ### Changes -/

theorem newSequence (he : Extends T h h') (vs : List Value) :
    Extends T h (h'.newSequence vs).2 :=
  { he with toRetains := he.toRetains.newSequence vs }

theorem newClosure (he : Extends T h h') (c : ClosureObject) :
    Extends T h (h'.newClosure c).2 :=
  { he with toRetains := he.toRetains.newClosure c }

theorem newScope (he : Extends T h h') (parent : Option Nat) :
    Extends T h (h'.newScope parent).2 :=
  { he with
    toRetains := he.toRetains.trans (.of_eq rfl rfl)
    scopes_le := Nat.le_trans he.scopes_le (by simp [Heap.newScope])
    scopeAt_eq := fun s hs => by
      rw [← he.scopeAt_eq s hs, scopeAt_newScope _ (Nat.lt_of_lt_of_le hs he.scopes_le)] }

theorem define (he : Extends T h h') (hs : h.scopes.size ≤ s) (name : Str) (v : Value) :
    Extends T h (h'.define s name v) :=
  { he with
    toRetains := he.toRetains.trans (.of_eq rfl rfl)
    scopes_le := by rw [size_scopes_define]; exact he.scopes_le
    scopeAt_eq := fun t ht => by
      have hne : s ≠ t := by omega
      rw [← he.scopeAt_eq t ht]
      simp [Heap.define, setScope, scopeAt, hne] }

theorem setMap (he : Extends T h h') {a : Nat} (ha : a ∈ T) (m : MapObject) :
    Extends T h (h'.setMap a m) :=
  { he with
    maps_size_eq := by rw [← he.maps_size_eq]; simp [Heap.setMap]
    mapAt_eq := fun b hb => by
      have hne : a ≠ b := fun heq => hb (heq ▸ ha)
      rw [← he.mapAt_eq b hb]
      simp [Heap.setMap, mapAt, hne] }

/-! ### Scopes -/

section

variable (he : Extends T h h')
include he

theorem lookup? (hs : s < h.scopes.size) (name : String) :
    h'.lookup? s name = h.lookup? s name :=
  lookup?_congr (fun t ht => he.scopeAt_eq t (Nat.lt_of_le_of_lt ht hs)) name

/-! ### Keys -/

variable (hc : h.Closed)
include hc

theorem keyTo (fold : Bool) (n : Nat) (hv : h.present.Covers v) :
    h'.keyTo fold n v = h.keyTo fold n v := by
  induction n generalizing v with
  | zero => rfl
  | succ n ih =>
    cases v with
    | list a | vector a =>
      simp only [Heap.keyTo, keyBy, he.items_eq a hv, mapM_congr fun w hw => ih (hc.items a w hw)]
    | _ => rfl

theorem contentKey (fold : Bool) (hv : h.present.Covers v) :
    h'.contentKey fold v = h.contentKey fold v := by
  rw [← keyTo_of_le fold (Nat.le_max_left h.depth h'.depth), ← he.keyTo hc fold _ hv,
    keyTo_of_le fold (Nat.le_max_right h.depth h'.depth)]

/-- A value of the first heap is the same key in the second one. -/
theorem key (test : MapTest) (hv : h.present.Covers v) : h'.key test v = h.key test v := by
  cases test with
  | eq | eql => rfl
  | equal | equalp => exact he.contentKey hc _ hv

end

end Extends

end Sigil.Heap
