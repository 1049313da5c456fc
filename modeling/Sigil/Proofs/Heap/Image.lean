import Mathlib.Order.Monotone.Basic
import Sigil.Heap.Scope
import Sigil.Heap.Map
import Sigil.Proofs.Heap.Renaming

/-!
# Images of heaps

`Image σ h h'` says that `h'` has all objects of `h` under other references, those of `σ`, and may
have more. What is added to both heaps gets references that `σ` relates, so adding and changing
objects on both sides keeps the image (`Image.newSequence` and its neighbours).
-/

namespace Sigil

/-! ## Renamed objects -/

namespace Renaming

def atom (σ : Renaming) : KeyAtom → KeyAtom
  | .object v => .object (σ.value v)
  | a => a

mutual

def key (σ : Renaming) : MapKey → MapKey
  | .atom a => .atom (σ.atom a)
  | .sequence items => .sequence (σ.keyAll items)

def keyAll (σ : Renaming) : List MapKey → List MapKey
  | [] => []
  | k :: ks => σ.key k :: σ.keyAll ks

end

def entry (σ : Renaming) (e : Entry) : Entry where
  key := σ.key e.key
  stored := σ.value e.stored
  value := σ.value e.value

def mapObject (σ : Renaming) (m : MapObject) : MapObject where
  test := m.test
  hint := m.hint
  entries := m.entries.map σ.entry

def scopeObject (σ : Renaming) (s : ScopeObject) : ScopeObject where
  bindings := s.bindings.map σ.binding
  parent := s.parent.map σ.scope

def pair (σ : Renaming) (e : Value × Value) : Value × Value := (σ.value e.1, σ.value e.2)

variable {σ : Renaming}

@[simp] theorem test_mapObject (m : MapObject) : (σ.mapObject m).test = m.test := rfl

theorem keyAll_eq_map (ks : List MapKey) : σ.keyAll ks = ks.map σ.key := by
  induction ks with
  | nil => rfl
  | cons k ks ih => rw [keyAll, ih, List.map_cons]

/-- The renaming keeps different objects apart and the order of scopes, in which an enclosing scope
is older. -/
structure Faithful (σ : Renaming) : Prop where
  sequence : Function.Injective σ.sequence
  map : Function.Injective σ.map
  closure : Function.Injective σ.closure
  scope : StrictMono σ.scope
  dict : Function.Injective σ.dict
  identity : Function.Injective σ.identity

section

variable (hσ : σ.Faithful)
include hσ

theorem Faithful.str_injective : Function.Injective σ.str := by
  intro s t hst
  cases s <;> cases t <;> simp [str] at hst ⊢
  · exact hst
  · exact ⟨hσ.identity hst.1, hst.2⟩

theorem Faithful.value_injective : Function.Injective σ.value := by
  intro v w hvw
  cases v <;> cases w <;>
    simp [value, hσ.str_injective.eq_iff, hσ.sequence.eq_iff, hσ.map.eq_iff, hσ.closure.eq_iff,
      hσ.scope.injective.eq_iff, hσ.dict.eq_iff, hσ.identity.eq_iff] at hvw ⊢ <;> exact hvw

theorem Faithful.atom_injective : Function.Injective σ.atom := by
  intro a b hab
  cases a <;> cases b <;> simp [atom, hσ.value_injective.eq_iff] at hab ⊢ <;> exact hab

end

mutual

theorem Faithful.key_inj (hσ : σ.Faithful) : ∀ {a b : MapKey}, σ.key a = σ.key b → a = b
  | .atom _, .atom _, h => by
    rw [key, key, MapKey.atom.injEq] at h
    rw [hσ.atom_injective h]
  | .sequence _, .sequence _, h => by
    rw [key, key, MapKey.sequence.injEq] at h
    rw [hσ.keyAll_inj h]
  | .atom _, .sequence _, h => by simp [key] at h
  | .sequence _, .atom _, h => by simp [key] at h

theorem Faithful.keyAll_inj (hσ : σ.Faithful) :
    ∀ {as bs : List MapKey}, σ.keyAll as = σ.keyAll bs → as = bs
  | [], [], _ => rfl
  | _ :: _, _ :: _, h => by
    rw [keyAll, keyAll, List.cons.injEq] at h
    rw [hσ.key_inj h.1, hσ.keyAll_inj h.2]
  | [], _ :: _, h => by simp [keyAll] at h
  | _ :: _, [], h => by simp [keyAll] at h

end

end Renaming

/-! ## Images of arrays -/

/-- `ys` has the elements of `xs`, each renamed by `φ`, at the indices `f`. The two arrays grow in
step. -/
structure Moved {α : Type} (f : Nat → Nat) (φ : α → α) (xs ys : Array α) : Prop where
  get : ∀ k, ys[f k]? = xs[k]?.map φ
  add : ∀ k, f (xs.size + k) = ys.size + k

namespace Moved

variable {α : Type} {f : Nat → Nat} {φ : α → α} {xs ys : Array α} (hm : Moved f φ xs ys)
include hm

theorem size_eq : f xs.size = ys.size := hm.add 0

theorem lt_size_iff {k : Nat} : f k < ys.size ↔ k < xs.size := by
  have hget := congrArg Option.isNone (hm.get k)
  simpa using not_congr (Bool.eq_iff_iff.1 hget)

theorem getD {d d' : α} (hd : d' = φ d) (k : Nat) :
    ys[f k]?.getD d' = φ (xs[k]?.getD d) := by
  rw [hm.get, hd]
  cases xs[k]? <;> rfl

theorem push (hf : Function.Injective f) (x : α) : Moved f φ (xs.push x) (ys.push (φ x)) where
  get k := by
    simp only [Array.getElem?_push, ← hm.size_eq, hf.eq_iff, hm.get]
    split <;> rfl
  add k := by
    rw [Array.size_push, Array.size_push, Nat.add_assoc, Nat.add_comm 1 k, hm.add]
    omega

theorem set (hf : Function.Injective f) (k : Nat) (x : α) :
    Moved f φ (xs.setIfInBounds k x) (ys.setIfInBounds (f k) (φ x)) where
  get j := by
    simp only [Array.getElem?_setIfInBounds, hf.eq_iff, hm.lt_size_iff, hm.get]
    split
    · split <;> rfl
    · rfl
  add j := by rw [Array.size_setIfInBounds, Array.size_setIfInBounds, hm.add]

theorem congr {ψ : α → α} (hψ : ∀ x ∈ xs, ψ x = φ x) : Moved f ψ xs ys where
  get k := by
    rw [hm.get]
    exact Option.map_congr fun x hx => (hψ x (Array.mem_of_getElem? hx)).symm
  add := hm.add

end Moved

/-! ## Images of heaps -/

/-- `h'` has the objects of `h` under the references of `σ`, and the two heaps grow in step. -/
structure Image (σ : Renaming) (h h' : Heap) : Prop where
  faithful : σ.Faithful
  sequences : Moved σ.sequence (List.map σ.value) h.sequences h'.sequences
  maps : Moved σ.map σ.mapObject h.maps h'.maps
  closures : Moved σ.closure σ.closureObject h.closures h'.closures
  scopes : Moved σ.scope σ.scopeObject h.scopes h'.scopes
  dicts : Moved σ.dict (List.map σ.pair) h.dicts h'.dicts
  fresh : ∀ k, σ.identity (h.fresh + k) = h'.fresh + k

namespace Image

variable {σ : Renaming} {h h' : Heap} (hI : Image σ h h')
include hI

/-! ### Objects -/

theorem items (a : Nat) : h'.items (σ.sequence a) = (h.items a).map σ.value :=
  hI.sequences.getD (d := []) rfl a

theorem mapAt (a : Nat) : h'.mapAt (σ.map a) = σ.mapObject (h.mapAt a) :=
  hI.maps.getD (d := ⟨.default, none, []⟩) rfl a

theorem closureAt (a : Nat) : h'.closureAt (σ.closure a) = σ.closureObject (h.closureAt a) := by
  refine hI.closures.getD ?_ a
  simp [Renaming.closureObject, hI.sequences.size_eq, hI.scopes.size_eq]

theorem scopeAt (a : Nat) : h'.scopeAt (σ.scope a) = σ.scopeObject (h.scopeAt a) :=
  hI.scopes.getD (d := ⟨[], none⟩) rfl a

theorem dictAt (a : Nat) : h'.dictAt (σ.dict a) = (h.dictAt a).map σ.pair :=
  hI.dicts.getD (d := []) rfl a

/-! ### Scopes -/

theorem own? (s : Nat) (name : String) :
    h'.own? (σ.scope s) name = (h.own? s name).map σ.value := by
  rw [Heap.own?, Heap.own?, hI.scopeAt, Renaming.scopeObject]
  induction (h.scopeAt s).bindings with
  | nil => rfl
  | cons b bs ih =>
    simp only [List.map_cons, Heap.bound?, Renaming.binding, Renaming.text_str]
    split
    · rfl
    · exact ih

theorem ownNames (s : Nat) : h'.ownNames (σ.scope s) = (h.ownNames s).map σ.str := by
  rw [Heap.ownNames, Heap.ownNames, hI.scopeAt, Renaming.scopeObject, List.map_map, List.map_map]
  rfl

theorem enclosing?_val (s : Nat) :
    (h'.enclosing? (σ.scope s)).map Subtype.val
      = ((h.enclosing? s).map Subtype.val).map σ.scope := by
  rw [Heap.enclosing?, Heap.enclosing?, hI.scopeAt, Renaming.scopeObject]
  rcases (h.scopeAt s).parent with _ | p
  · rfl
  · simp only [Option.map_some, hI.faithful.scope.lt_iff_lt]
    split <;> rfl

theorem enclosing?_of_none {s : Nat} (hs : h.enclosing? s = none) :
    h'.enclosing? (σ.scope s) = none := by
  have hval := hI.enclosing?_val s
  rw [hs] at hval
  exact Option.map_eq_none_iff.1 hval

theorem exists_enclosing? {s p : Nat} {hp : p < s} (hs : h.enclosing? s = some ⟨p, hp⟩) :
    ∃ hp', h'.enclosing? (σ.scope s) = some ⟨σ.scope p, hp'⟩ := by
  have hval := hI.enclosing?_val s
  rw [hs] at hval
  obtain ⟨⟨_, hp'⟩, henclosing, rfl⟩ := Option.map_eq_some_iff.1 hval
  exact ⟨hp', henclosing⟩

theorem owner? (s : Nat) (name : String) :
    h'.owner? (σ.scope s) name = (h.owner? s name).map σ.scope := by
  have hown : ∀ s, (h'.own? (σ.scope s) name).isSome = (h.own? s name).isSome := fun s => by
    rw [hI.own?, Option.isSome_map]
  fun_induction Heap.owner? h s name with
  | case1 s hs => rw [Heap.owner?, hown, if_pos hs, Option.map_some]
  | case2 s hs p hp he ih =>
    obtain ⟨hp', he'⟩ := hI.exists_enclosing? he
    rw [Heap.owner?, hown, if_neg hs, he']
    exact ih
  | case3 s hs he => rw [Heap.owner?, hown, if_neg hs, hI.enclosing?_of_none he, Option.map_none]

theorem root (s : Nat) : h'.root (σ.scope s) = σ.scope (h.root s) := by
  fun_induction Heap.root h s with
  | case1 s p hp he ih =>
    obtain ⟨hp', he'⟩ := hI.exists_enclosing? he
    rw [Heap.root, he']
    exact ih
  | case2 s he => rw [Heap.root, hI.enclosing?_of_none he]

theorem lookup? (s : Nat) (name : String) :
    h'.lookup? (σ.scope s) name = (h.lookup? s name).map σ.value := by
  rw [Heap.lookup?, Heap.lookup?, hI.owner?]
  cases h.owner? s name with
  | none => rfl
  | some o => exact hI.own? o name

/-! ### Adding objects -/

theorem newSequence (vs : List Value) :
    Image σ (h.newSequence vs).2 (h'.newSequence (vs.map σ.value)).2 :=
  { hI with sequences := hI.sequences.push hI.faithful.sequence vs }

theorem newMap (m : MapObject) : Image σ (h.newMap m).2 (h'.newMap (σ.mapObject m)).2 :=
  { hI with maps := hI.maps.push hI.faithful.map m }

theorem newClosure (c : ClosureObject) :
    Image σ (h.newClosure c).2 (h'.newClosure (σ.closureObject c)).2 :=
  { hI with closures := hI.closures.push hI.faithful.closure c }

theorem newScope (parent : Option Nat) :
    Image σ (h.newScope parent).2 (h'.newScope (parent.map σ.scope)).2 :=
  { hI with scopes := hI.scopes.push hI.faithful.scope.injective ⟨[], parent⟩ }

theorem nextFresh : Image σ { h with fresh := h.fresh + 1 } { h' with fresh := h'.fresh + 1 } := by
  refine { hI with fresh := fun k => ?_ }
  show σ.identity (h.fresh + 1 + k) = h'.fresh + 1 + k
  rw [Nat.add_assoc, hI.fresh, Nat.add_assoc]

theorem newStr_fst (text : String) : (h'.newStr text).1 = σ.str (h.newStr text).1 := by
  have hfresh : σ.identity h.fresh = h'.fresh := hI.fresh 0
  simp [Heap.newStr, Renaming.str, hfresh]

/-! ### Changing objects -/

theorem setItems (a : Nat) (vs : List Value) :
    Image σ (h.setItems a vs) (h'.setItems (σ.sequence a) (vs.map σ.value)) :=
  { hI with sequences := hI.sequences.set hI.faithful.sequence a vs }

theorem setMap (a : Nat) (m : MapObject) :
    Image σ (h.setMap a m) (h'.setMap (σ.map a) (σ.mapObject m)) :=
  { hI with maps := hI.maps.set hI.faithful.map a m }

theorem define (s : Nat) (name : Str) (v : Value) :
    Image σ (h.define s name v) (h'.define (σ.scope s) (σ.str name) (σ.value v)) := by
  have hbind : ∀ bs : List (Str × Value),
      Heap.bind (σ.str name) (σ.value v) (bs.map σ.binding)
        = (Heap.bind name v bs).map σ.binding := by
    intro bs
    induction bs with
    | nil => rfl
    | cons b bs ih =>
      simp only [List.map_cons, Heap.bind, Renaming.binding, Renaming.text_str]
      split
      · rfl
      · rw [List.map_cons, ← ih]
        rfl
  have hset := hI.scopes.set hI.faithful.scope.injective s
    { h.scopeAt s with bindings := Heap.bind name v (h.scopeAt s).bindings }
  refine { hI with scopes := ?_ }
  rw [Heap.define, Heap.define, hI.scopeAt]
  simpa only [Heap.setScope, Renaming.scopeObject, hbind] using hset

theorem defineRoot (s : Nat) (name : Str) (v : Value) :
    Image σ (h.define (h.root s) name v)
      (h'.define (h'.root (σ.scope s)) (σ.str name) (σ.value v)) := by
  rw [hI.root]
  exact hI.define _ name v

theorem assign (s : Nat) (name : Str) (v : Value) :
    Image σ (h.assign s name v) (h'.assign (σ.scope s) (σ.str name) (σ.value v)) := by
  rw [Heap.assign, Heap.assign, Renaming.text_str, hI.owner?, hI.root]
  cases h.owner? s name.text <;> exact hI.define _ name v

end Image

end Sigil
