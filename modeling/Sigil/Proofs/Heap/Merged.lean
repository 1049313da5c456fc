import Mathlib.Data.List.Induction
import Sigil.Heap.Map

/-!
# Entries put in one after the other

Of the entries that are put into an empty map in turn, the map has one for each key
(`MapObject.merges_putAll`): at the place of the first entry of the key and with its key object, and
with the value of the last one. What is put into a map with entries depends on the values of these
last entries only (`MapObject.putOnto_map_eq_iff`).
-/

namespace Sigil.MapObject

/-- The entries of a map into which entries are put in turn. -/
def putAll (es : List Entry) : List Entry :=
  es.foldl (fun acc e => putEntry e.key e.stored e.value acc) []

/-- A map into which the entries `es` are put in turn has the entries `entries`. -/
structure Merges (es entries : List Entry) : Prop where
  /-- Each key has one entry, at the place of its first one. -/
  keys_eq : entries.map (·.key) = (es.map (·.key)).eraseDups
  /-- The entry of a key has the first key object and the last value. -/
  find?_eq : ∀ k, entries.find? (·.key == k) =
    (es.find? (·.key == k)).bind fun first =>
      (es.reverse.find? (·.key == k)).map fun last => ⟨k, first.stored, last.value⟩

theorem putAll_append_singleton (es : List Entry) (e : Entry) :
    putAll (es ++ [e]) = putEntry e.key e.stored e.value (putAll es) := by
  rw [putAll, List.foldl_append]
  rfl

theorem keys_putAll (es : List Entry) :
    (putAll es).map (·.key) = (es.map (·.key)).eraseDups := by
  induction es using List.reverseRecOn with
  | nil => rfl
  | append_singleton es e ih =>
    rw [putAll_append_singleton, keys_putEntry, ih, List.map_append, List.eraseDups_append]
    by_cases he : e.key ∈ es.map (·.key)
    · rw [if_pos (List.mem_eraseDups.2 he)]
      simp [List.removeAll, List.mem_map.1 he]
    · rw [if_neg (mt List.mem_eraseDups.1 he)]
      have hnew : [e.key].removeAll (es.map (·.key)) = [e.key] := by
        simpa [List.removeAll] using he
      rw [List.map_singleton, hnew]
      rfl

theorem find?_putEntry (k : MapKey) (stored value : Value) (es : List Entry) (other : MapKey) :
    (putEntry k stored value es).find? (·.key == other) =
      if k = other then
        some ⟨k, ((es.find? (·.key == k)).map (·.stored)).getD stored, value⟩
      else es.find? (·.key == other) :=
  find?_put ⟨.default, none, es⟩ k stored value other

theorem merges_putAll (es : List Entry) : Merges es (putAll es) where
  keys_eq := keys_putAll es
  find?_eq k := by
    induction es using List.reverseRecOn with
    | nil => rfl
    | append_singleton es e ih =>
      rw [putAll_append_singleton, find?_putEntry, List.find?_append, List.reverse_append]
      by_cases hk : e.key = k
      · subst hk
        cases hfirst : es.find? (·.key == e.key) with
        | none => simp [ih, hfirst]
        | some first =>
          have hkey := List.find?_some hfirst
          have hlast : (es.reverse.find? (·.key == e.key)).isSome :=
            List.find?_isSome.2 ⟨first, List.mem_reverse.2 (List.mem_of_find?_eq_some hfirst), hkey⟩
          obtain ⟨last, hlast⟩ := Option.isSome_iff_exists.1 hlast
          simp [ih, hfirst, hlast]
      · simp [ih, hk]

/-! ## Entries put into a map with entries -/

/-- The entries of a map with the entries `acc` into which entries are put in turn. -/
def putOnto (acc es : List Entry) : List Entry :=
  es.foldl (fun acc e => putEntry e.key e.stored e.value acc) acc

variable {k l : MapKey} {s s' v v' : Value} {acc acc' es : List Entry}

/-- The key object and the place stay, and the last value counts. -/
theorem putEntry_putEntry (k : MapKey) (s s' v v' : Value) (es : List Entry) :
    putEntry k s' v' (putEntry k s v es) = putEntry k s v' es := by
  induction es with
  | nil => simp [putEntry]
  | cons e es ih => by_cases he : e.key = k <;> simp [putEntry, he, ih]

/-- A value is put under a key that is there before or after another entry. -/
theorem putEntry_comm (hne : k ≠ l) (hk : k ∈ es.map (·.key)) :
    putEntry k s v (putEntry l s' v' es) = putEntry l s' v' (putEntry k s v es) := by
  induction es with
  | nil => cases hk
  | cons e es ih =>
    by_cases hek : e.key = k
    · have hel : ¬ e.key = l := fun h => hne (hek.symm.trans h)
      simp [putEntry, hek, hne]
    · have hmem : k ∈ es.map (·.key) :=
        (List.mem_cons.1 (List.map_cons ▸ hk)).resolve_left (Ne.symm hek)
      by_cases hel : e.key = l
      · simp [putEntry, hel, Ne.symm hne]
      · simp [putEntry, hek, hel, ih hmem]

theorem mem_keys_putEntry (hk : k ∈ es.map (·.key)) (l : MapKey) (s v : Value) :
    k ∈ (putEntry l s v es).map (·.key) := by
  rw [keys_putEntry]
  split
  · exact hk
  · exact List.mem_append_left _ hk

/-- A value that is put in again is not seen. -/
theorem putOnto_congr (hk : k ∈ es.map (·.key)) (hacc : k ∈ acc.map (·.key))
    (hacc' : k ∈ acc'.map (·.key))
    (hput : ∀ s v, putEntry k s v acc = putEntry k s v acc') : putOnto acc es = putOnto acc' es := by
  induction es generalizing acc acc' with
  | nil => cases hk
  | cons e es ih =>
    rw [putOnto, putOnto, List.foldl_cons, List.foldl_cons]
    by_cases he : e.key = k
    · rw [he, hput]
    · have hmem : k ∈ es.map (·.key) :=
        (List.mem_cons.1 (List.map_cons ▸ hk)).resolve_left (Ne.symm he)
      refine ih hmem (mem_keys_putEntry hacc _ _ _) (mem_keys_putEntry hacc' _ _ _) fun s v => ?_
      rw [putEntry_comm (Ne.symm he) hacc, putEntry_comm (Ne.symm he) hacc', hput]

theorem find?_putOnto_of_not_mem (hk : k ∉ es.map (·.key)) :
    (putOnto acc es).find? (·.key == k) = acc.find? (·.key == k) := by
  induction es generalizing acc with
  | nil => rfl
  | cons e es ih =>
    rw [List.map_cons, List.mem_cons, not_or] at hk
    have hne : e.key ≠ k := Ne.symm hk.1
    rw [putOnto, List.foldl_cons]
    exact (ih hk.2).trans (by rw [find?_putEntry, if_neg hne])

section

variable {α : Type} {key : α → MapKey} {stored f g : α → Value} {as : List α} {a : α}

/-- What holds of each element with those behind it holds of the first one and in the rest. -/
theorem forall_split_cons {P : α → List α → Prop} :
    (∀ pre b post, a :: as = pre ++ b :: post → P b post) ↔
      P a as ∧ ∀ pre b post, as = pre ++ b :: post → P b post := by
  constructor
  · refine fun hall => ⟨hall [] a as rfl, fun pre b post hsplit => hall (a :: pre) b post ?_⟩
    rw [hsplit, List.cons_append]
  · rintro ⟨hfirst, hrest⟩ pre b post hsplit
    cases pre with
    | nil =>
      cases hsplit
      exact hfirst
    | cons c pre =>
      cases hsplit
      exact hrest pre b post rfl

/-- Entries with the same keys and key objects give the same when they have the same value wherever no
entry of the key follows, and only then. -/
theorem putOnto_map_eq_iff :
    putOnto acc (as.map fun a => ⟨key a, stored a, f a⟩)
        = putOnto acc (as.map fun a => ⟨key a, stored a, g a⟩) ↔
      ∀ pre a post, as = pre ++ a :: post → (∀ b ∈ post, key b ≠ key a) → f a = g a := by
  induction as generalizing acc with
  | nil => simp
  | cons a as ih =>
    have hkeys : ∀ h : α → Value,
        (as.map fun a => (⟨key a, stored a, h a⟩ : Entry)).map (·.key) = as.map key := fun h => by
      rw [List.map_map]
      rfl
    have hcons : ∀ h : α → Value, putOnto acc ((a :: as).map fun a => ⟨key a, stored a, h a⟩)
        = putOnto (putEntry (key a) (stored a) (h a) acc)
            (as.map fun a => ⟨key a, stored a, h a⟩) := fun _ => rfl
    have hfound : ∀ h : α → Value, key a ∈ (putEntry (key a) (stored a) (h a) acc).map (·.key) := by
      intro h
      rw [keys_putEntry]
      split
      · assumption
      · exact List.mem_append_right _ (List.mem_singleton_self _)
    rw [forall_split_cons, hcons, hcons]
    by_cases hlater : key a ∈ as.map key
    · -- the value of the entry is overwritten
      have hsame : putOnto (putEntry (key a) (stored a) (f a) acc)
            (as.map fun a => ⟨key a, stored a, f a⟩)
          = putOnto (putEntry (key a) (stored a) (g a) acc)
            (as.map fun a => ⟨key a, stored a, f a⟩) :=
        putOnto_congr (by rwa [hkeys]) (hfound f) (hfound g) fun s v => by
          rw [putEntry_putEntry, putEntry_putEntry]
      obtain ⟨b, hb, hkey⟩ := List.mem_map.1 hlater
      rw [hsame, ih]
      exact ⟨fun h => ⟨fun hnone => absurd hkey (hnone b hb), h⟩, And.right⟩
    · -- the entry is the last one of its key
      have hnone : ∀ b ∈ as, key b ≠ key a := fun b hb hkey => hlater (hkey ▸ List.mem_map_of_mem hb)
      have hvalue : ∀ h : α → Value, ((putOnto (putEntry (key a) (stored a) (h a) acc)
          (as.map fun a => ⟨key a, stored a, h a⟩)).find? (·.key == key a)).map (·.value)
            = some (h a) := by
        intro h
        rw [find?_putOnto_of_not_mem (by rwa [hkeys]), find?_putEntry, if_pos rfl]
        rfl
      constructor
      · intro heq
        have hfg : f a = g a := by
          have hvalues := hvalue f
          rw [heq, hvalue g, Option.some.injEq] at hvalues
          exact hvalues.symm
        rw [hfg] at heq
        exact ⟨fun _ => hfg, ih.1 heq⟩
      · rintro ⟨hfg, hrest⟩
        rw [hfg hnone]
        exact ih.2 hrest

end

end Sigil.MapObject
