import Sigil.Proofs.Heap.Closed
import Sigil.Proofs.Heap.Image

/-!
# Objects that are passed over

A heap in which some new sequences and functions stand after those of a closed heap is an image of it:
what is there keeps its references, and what is added later comes after the new objects
(`Heap.Closed.image_past`).
-/

namespace Sigil

/-- References from `start` on are moved past `count` new ones. -/
def moved (start count a : Nat) : Nat := if a < start then a else a + count

theorem moved_of_lt {start count a : Nat} (ha : a < start) : moved start count a = a := if_pos ha

/-- What is added to the heap comes after some new sequences and functions. -/
def Heap.past (h : Heap) (sequences closures : Nat) : Renaming where
  sequence := moved h.sequences.size sequences
  map := id
  closure := moved h.closures.size closures
  scope := id
  dict := id
  identity := id

namespace Heap

variable {h : Heap} {m n : Nat} {v : Value}

theorem past_str (s : Str) : (h.past m n).str s = s := by cases s <;> rfl

theorem past_value (hv : h.present.Covers v) : (h.past m n).value v = v := by
  cases v with
  | str s | sym s | kw s => simp only [Renaming.value, past_str]
  | list a | vector a | pusher a i => simp only [Renaming.value, past, moved_of_lt hv, id]
  | closure a => simp only [Renaming.value, past, moved_of_lt hv]
  | _ => rfl

mutual

theorem past_key : ∀ {k : MapKey}, h.present.CoversKey k → (h.past m n).key k = k
  | .atom (.object _), hk => by rw [Renaming.key, Renaming.atom, past_value hk]
  | .atom .nil, _ | .atom (.bool _), _ | .atom (.int _), _ | .atom (.float _), _
  | .atom (.sym _), _ | .atom (.kw _), _ | .atom (.text _), _ | .atom (.number _), _ => rfl
  | .sequence _, hk => by rw [Renaming.key, past_keys hk]

theorem past_keys : ∀ {ks : List MapKey}, h.present.CoversKeys ks → (h.past m n).keyAll ks = ks
  | [], _ => rfl
  | _ :: _, hks => by rw [Renaming.keyAll, past_key hks.1, past_keys hks.2]

end

end Heap

end Sigil
