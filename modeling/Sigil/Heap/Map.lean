import Sigil.Heap.Basic
import Sigil.Text.CaseFolding

/-!
# Maps

Each test compares keys in a form of its own: `eq` and `eql` take atoms by type and value and
objects by identity, `equal` looks into strings and sequences, and `equalp` also folds case and
takes numbers by value alone. A map is an association list of such forms: overwriting keeps
the place and the first key object (`find?_put`).

A key that is changed after it was put in keeps its old form. It is then no longer found under
its new one, which `currentEntries` reports. A sequence that contains itself has no form under
`equal` and `equalp`, and no operation on a map comes to an end with it.
-/

namespace Sigil

/-! ## The forms of keys -/

/-- Atoms by type and value, objects by identity. -/
def Value.identityKey : Value → KeyAtom
  | .nil => .nil
  | .bool b => .bool b
  | .int n => .int n
  | .float x => .float (Binary64.exact x)
  | .sym s => .sym s.text
  | .kw s => .kw s.text
  | v => .object v

namespace Heap

/-- Strings by their text and sequences by the forms of their elements, which `part` gives; with
`fold`, without regard to case and to the sort of a number. -/
def keyBy (h : Heap) (fold : Bool) (part : Value → Option MapKey) (v : Value) : Option MapKey :=
  match v with
  | .str s => some (.atom (.text (if fold then Text.casefold s.text else s.text)))
  | .int n => some (.atom (if fold then .number (.ofInt n) else v.identityKey))
  | .float x => some (.atom (if fold then .number (Binary64.exact x) else v.identityKey))
  | .list a | .vector a => ((h.items a).mapM part).map .sequence
  | v => some (.atom v.identityKey)

/-- The elements of a sequence have forms when each has one. -/
theorem mapM_eq_some {part : Value → Option MapKey} {vs : List Value} {ks : List MapKey} :
    vs.mapM part = some ks ↔ vs.map part = ks.map some := by
  induction vs generalizing ks with
  | nil => cases ks <;> simp
  | cons v vs ih =>
    rw [List.mapM_cons]
    cases ks with
    | nil => cases part v <;> cases vs.mapM part <;> simp
    | cons l ls =>
      rw [List.map_cons, List.map_cons, List.cons.injEq, ← ih]
      cases part v <;> cases vs.mapM part <;> simp

theorem isSome_mapM {part : Value → Option MapKey} {vs : List Value} :
    (vs.mapM part).isSome ↔ ∀ v ∈ vs, (part v).isSome := by
  induction vs with
  | nil => simp
  | cons v vs ih =>
    rw [List.mapM_cons, List.forall_mem_cons, ← ih]
    cases part v <;> cases vs.mapM part <;> simp

theorem mapM_map {part part' : Value → Option MapKey} {g : Value → Value} {f : MapKey → MapKey}
    (hpart : ∀ v, part' (g v) = (part v).map f) (vs : List Value) :
    (vs.map g).mapM part' = (vs.mapM part).map (List.map f) := by
  induction vs with
  | nil => rfl
  | cons v vs ih =>
    rw [List.map_cons, List.mapM_cons, List.mapM_cons, hpart, ih]
    cases part v <;> cases vs.mapM part <;> rfl

theorem mapM_congr {part part' : Value → Option MapKey} {vs : List Value}
    (hvs : ∀ v ∈ vs, part' v = part v) : vs.mapM part' = vs.mapM part :=
  Option.ext fun ks => by rw [mapM_eq_some, mapM_eq_some, List.map_congr_left hvs]

/-- The structure of a key that is nested less than `depth` deep. -/
def keyTo (h : Heap) (fold : Bool) : Nat → Value → Option MapKey
  | 0 => fun _ => none
  | depth + 1 => h.keyBy fold (h.keyTo fold depth)

/-- The structure of a key; a sequence that contains itself has none. -/
def contentKey (h : Heap) (fold : Bool) (v : Value) : Option MapKey := h.keyTo fold h.depth v

/-- The form in which a test compares a key, if there is an end to it. -/
def key (h : Heap) (test : MapTest) (v : Value) : Option MapKey :=
  match test with
  | .eq | .eql => some (.atom v.identityKey)
  | .equal => h.contentKey false v
  | .equalp => h.contentKey true v

def sameKey (h : Heap) (test : MapTest) (a b : Value) : Option Bool := do
  return (← h.key test a) == (← h.key test b)

end Heap

/-! ## Entries -/

namespace MapObject

def find? (m : MapObject) (k : MapKey) : Option Entry := m.entries.find? (·.key == k)

/-- Entries with the value of the key replaced, or with a new entry at the end. -/
def putEntry (k : MapKey) (stored value : Value) : List Entry → List Entry
  | [] => [⟨k, stored, value⟩]
  | e :: es =>
    if e.key = k then ⟨e.key, e.stored, value⟩ :: es else e :: putEntry k stored value es

def put (m : MapObject) (k : MapKey) (stored value : Value) : MapObject :=
  { m with entries := putEntry k stored value m.entries }

def erase (m : MapObject) (k : MapKey) : MapObject :=
  { m with entries := m.entries.filter (·.key != k) }

/-- What is found after a key was put in: the first key object stays. -/
theorem find?_put (m : MapObject) (k : MapKey) (stored value : Value) (other : MapKey) :
    (m.put k stored value).find? other =
      if k = other then some ⟨k, ((m.find? k).map (·.stored)).getD stored, value⟩
      else m.find? other := by
  unfold find? put
  simp only
  induction m.entries with
  | nil => by_cases ho : k = other <;> simp [putEntry, ho]
  | cons e es ih =>
    simp only [putEntry]
    by_cases he : e.key = k
    · by_cases ho : k = other <;> simp [he, ho]
    · by_cases ho : k = other
      · subst ho
        simpa [he] using ih
      · by_cases hk : e.key = other
        · have hko : ¬ other = k := fun h => ho h.symm
          simp [hk, ho, hko]
        · simpa [he, hk, ho] using ih

/-- Every key has at most one entry. -/
def Distinct (m : MapObject) : Prop := (m.entries.map (·.key)).Nodup

theorem keys_putEntry (k : MapKey) (stored value : Value) (es : List Entry) :
    (putEntry k stored value es).map (·.key) =
      if k ∈ es.map (·.key) then es.map (·.key) else es.map (·.key) ++ [k] := by
  induction es with
  | nil => simp [putEntry]
  | cons e es ih =>
    simp only [putEntry]
    by_cases he : e.key = k
    · simp [he]
    · have hk : ¬ k = e.key := fun h => he h.symm
      simp only [he, if_false, List.map_cons, ih, List.mem_cons, hk, false_or]
      split <;> rfl

theorem Distinct.put {m : MapObject} (hm : m.Distinct) (k : MapKey) (stored value : Value) :
    (m.put k stored value).Distinct := by
  unfold Distinct MapObject.put
  simp only [keys_putEntry]
  split
  · exact hm
  · next hk =>
    refine List.nodup_append.2 ⟨hm, by simp, ?_⟩
    intro a ha b hb
    rw [List.mem_singleton] at hb
    subst hb
    exact fun h => hk (h ▸ ha)

theorem Distinct.erase {m : MapObject} (hm : m.Distinct) (k : MapKey) : (m.erase k).Distinct :=
  List.Nodup.sublist (List.Sublist.map _ List.filter_sublist) hm

end MapObject

/-! ## Maps of a heap -/

namespace Heap

/-- The entry of a key, or why there is none. -/
def entryOf (h : Heap) (m : MapObject) (k : Value) : Except Lapse Entry :=
  match h.key m.test k with
  | none => .error .endless
  | some form => match m.find? form with
    | none => .error .missing
    | some e => .ok e

theorem entryOf_eq_ok {h : Heap} {m : MapObject} {k : Value} {e : Entry} :
    h.entryOf m k = .ok e ↔ ∃ form, h.key m.test k = some form ∧ m.find? form = some e := by
  rw [entryOf]
  cases h.key m.test k with
  | none => simp
  | some form => cases hfound : m.find? form <;> simp [hfound]

def mapGet (h : Heap) (ref : Nat) (k : Value) : Except Lapse Value :=
  (h.entryOf (h.mapAt ref) k).map (·.value)

/-- Put a value under a key, if the key has a form. -/
def mapPut (h : Heap) (ref : Nat) (k v : Value) : Option Heap := do
  let m := h.mapAt ref
  let form ← h.key m.test k
  return h.setMap ref (m.put form k v)

theorem mapPut_eq_some {h h' : Heap} {ref : Nat} {k v : Value} : h.mapPut ref k v = some h' ↔
    ∃ form, h.key (h.mapAt ref).test k = some form ∧
      h' = h.setMap ref ((h.mapAt ref).put form k v) := by
  simp [mapPut, Option.bind_eq_some_iff, eq_comm (a := h')]

def mapErase (h : Heap) (ref : Nat) (form : MapKey) : Heap :=
  h.setMap ref ((h.mapAt ref).erase form)

def mapSize (h : Heap) (ref : Nat) : Nat := (h.mapAt ref).entries.length

def mapKeys (h : Heap) (ref : Nat) : List Value := (h.mapAt ref).entries.map (·.stored)

/-- The key objects with the values under them, up to the first key that is not found any
more, and that key. -/
def currentEntries (h : Heap) (m : MapObject) :
    List Entry → List (Value × Value) × Option (Value × Lapse)
  | [] => ([], none)
  | e :: es => match h.entryOf m e.stored with
    | .error lapse => ([], some (e.stored, lapse))
    | .ok found =>
      let (rest, lost) := currentEntries h m es
      ((e.stored, found.value) :: rest, lost)

def mapEntries (h : Heap) (ref : Nat) : List (Value × Value) × Option (Value × Lapse) :=
  let m := h.mapAt ref
  h.currentEntries m m.entries

/-- Remove entry after entry, the first one each time, until none is left or the first key is
not found any more, and say why it is not. -/
def drain (h : Heap) : Nat → MapObject → MapObject × Option Lapse
  | 0, m => (m, none)
  | n + 1, m => match m.entries with
    | [] => (m, none)
    | e :: _ => match h.entryOf m e.stored with
      | .error lapse => (m, some lapse)
      | .ok found => h.drain n (m.erase found.key)

def mapClear (h : Heap) (ref : Nat) : Heap × Option Lapse :=
  let m := h.mapAt ref
  let (m, lapse) := h.drain m.entries.length m
  (h.setMap ref m, lapse)

end Heap

end Sigil
