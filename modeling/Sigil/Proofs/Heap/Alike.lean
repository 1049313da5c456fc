import Sigil.Proofs.Eval.Parametric
import Sigil.Proofs.Heap.Image
import Sigil.Proofs.Heap.Nesting

/-!
# Keys and maps in images of heaps

In a heap and its image the same values are the same keys (`Image.sameKey`), and maps have the same
entries (`Image.mapEntries`). The depths to which the two heaps are looked into are different. That
does not show: beyond both of them no answer changes.
-/

namespace Sigil

namespace Image

variable {σ : Renaming} {h h' : Heap}

theorem identityKey (v : Value) : (σ.value v).identityKey = σ.atom v.identityKey := by
  cases v <;> simp [Value.identityKey, Renaming.value, Renaming.atom]

section

variable (hI : Image σ h h')
include hI

/-! ### Keys -/

/-- One level of a key, when the forms of the parts are those of the image. -/
theorem keyBy {part part' : Value → Option MapKey} (fold : Bool)
    (hpart : ∀ v, part' (σ.value v) = (part v).map σ.key) (v : Value) :
    h'.keyBy fold part' (σ.value v) = (h.keyBy fold part v).map σ.key := by
  cases v with
  | list a | vector a =>
    simp only [Heap.keyBy, Renaming.value, hI.items, Heap.mapM_map hpart, Option.map_map]
    congr 1
    funext ks
    simp [Renaming.key, Renaming.keyAll_eq_map]
  | _ =>
    cases fold <;>
      simp [Heap.keyBy, Renaming.value, Renaming.key, Renaming.atom, Value.identityKey]

theorem keyTo (fold : Bool) (n : Nat) (v : Value) :
    h'.keyTo fold n (σ.value v) = (h.keyTo fold n v).map σ.key := by
  induction n generalizing v with
  | zero => rfl
  | succ n ih => exact hI.keyBy fold ih v

theorem contentKey (fold : Bool) (v : Value) :
    h'.contentKey fold (σ.value v) = (h.contentKey fold v).map σ.key := by
  rw [← Heap.keyTo_of_le fold (Nat.le_max_left h.depth h'.depth),
    ← Heap.keyTo_of_le fold (Nat.le_max_right h.depth h'.depth)]
  exact hI.keyTo fold _ v

theorem key (test : MapTest) (v : Value) :
    h'.key test (σ.value v) = (h.key test v).map σ.key := by
  cases test with
  | eq | eql => simp only [Heap.key, identityKey, Option.map_some, Renaming.key]
  | equal | equalp => exact hI.contentKey _ v

theorem sameKey (test : MapTest) (v w : Value) :
    h'.sameKey test (σ.value v) (σ.value w) = h.sameKey test v w := by
  rw [Heap.sameKey, Heap.sameKey, hI.key, hI.key]
  cases h.key test v with
  | none => rfl
  | some k =>
    cases h.key test w with
    | none => rfl
    | some l =>
      have hbeq : (σ.key k == σ.key l) = (k == l) := by
        rw [Bool.eq_iff_iff, beq_iff_eq, beq_iff_eq]
        exact ⟨hI.faithful.key_inj, fun heq => by rw [heq]⟩
      exact congrArg some hbeq

/-! ### Maps -/

theorem find? (m : MapObject) (k : MapKey) :
    (σ.mapObject m).find? (σ.key k) = (m.find? k).map σ.entry := by
  have hkey : ∀ e : Entry, ((σ.entry e).key == σ.key k) = (e.key == k) := fun e => by
    rw [Bool.eq_iff_iff, beq_iff_eq, beq_iff_eq]
    exact ⟨hI.faithful.key_inj, fun heq => by rw [← heq]; rfl⟩
  simp only [MapObject.find?, Renaming.mapObject, List.find?_map, Function.comp_def, hkey]

theorem put (m : MapObject) (k : MapKey) (stored value : Value) :
    (σ.mapObject m).put (σ.key k) (σ.value stored) (σ.value value)
      = σ.mapObject (m.put k stored value) := by
  have hput : ∀ es : List Entry,
      MapObject.putEntry (σ.key k) (σ.value stored) (σ.value value) (es.map σ.entry)
        = (MapObject.putEntry k stored value es).map σ.entry := by
    intro es
    induction es with
    | nil => rfl
    | cons e es ih =>
      have hkey : (σ.entry e).key = σ.key k ↔ e.key = k :=
        ⟨hI.faithful.key_inj, fun heq => by rw [← heq]; rfl⟩
      simp only [List.map_cons, MapObject.putEntry, hkey]
      split
      · rfl
      · rw [ih, List.map_cons]
  simp only [MapObject.put, Renaming.mapObject, hput]

theorem entryOf (m : MapObject) (k : Value) :
    h'.entryOf (σ.mapObject m) (σ.value k) = (h.entryOf m k).map σ.entry := by
  rw [Heap.entryOf, Heap.entryOf, Renaming.test_mapObject, hI.key]
  cases h.key m.test k with
  | none => rfl
  | some form =>
    rw [Option.map_some]
    dsimp only
    rw [hI.find?]
    cases m.find? form <;> rfl

theorem mapGet (a : Nat) (k : Value) :
    h'.mapGet (σ.map a) (σ.value k) = (h.mapGet a k).map σ.value := by
  rw [Heap.mapGet, Heap.mapGet, hI.mapAt, hI.entryOf]
  cases h.entryOf (h.mapAt a) k <;> rfl

theorem mapKeys (a : Nat) : h'.mapKeys (σ.map a) = (h.mapKeys a).map σ.value := by
  rw [Heap.mapKeys, Heap.mapKeys, hI.mapAt, Renaming.mapObject, List.map_map, List.map_map]
  rfl

theorem mapPut (a : Nat) (k v : Value) :
    Option.Rel (Image σ) (h.mapPut a k v) (h'.mapPut (σ.map a) (σ.value k) (σ.value v)) := by
  rw [Heap.mapPut, Heap.mapPut, hI.mapAt, Renaming.test_mapObject, hI.key]
  cases h.key (h.mapAt a).test k with
  | none => exact .none
  | some form =>
    refine .some ?_
    rw [hI.put]
    exact hI.setMap a _

theorem mapEntries (a : Nat) :
    h'.mapEntries (σ.map a) =
      ((h.mapEntries a).1.map σ.pair, (h.mapEntries a).2.map (Prod.map σ.value id)) := by
  have hentries : ∀ (m : MapObject) (es : List Entry),
      h'.currentEntries (σ.mapObject m) (es.map σ.entry) =
        ((h.currentEntries m es).1.map σ.pair,
          (h.currentEntries m es).2.map (Prod.map σ.value id)) := by
    intro m es
    induction es with
    | nil => rfl
    | cons e es ih =>
      have hfound : h'.entryOf (σ.mapObject m) (σ.entry e).stored
          = (h.entryOf m e.stored).map σ.entry := hI.entryOf m e.stored
      rw [List.map_cons, Heap.currentEntries, Heap.currentEntries, hfound]
      cases h.entryOf m e.stored with
      | error lapse => rfl
      | ok found =>
        dsimp only [Except.map]
        rw [ih]
        rfl
  rw [Heap.mapEntries, hI.mapAt]
  exact hentries _ _

end

end Image

end Sigil
