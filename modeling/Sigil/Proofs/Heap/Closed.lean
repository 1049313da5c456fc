import Sigil.Heap.View
import Sigil.Proofs.Heap.Region

/-!
# Heaps without dangling references

In a `Closed` heap every value refers to an object that is there. So nothing refers to an object that is
added next: what the objects of the heap refer to is covered by every region that contains them
(`Region.Contains.covers`). The empty heap is closed, and loading an expression keeps a heap closed
(`Closed.load`).
-/

namespace Sigil

namespace Region

variable (ρ : Region)

mutual

/-- What a key is compared by refers to objects of the region only. -/
def CoversKey : MapKey → Prop
  | .atom (.object v) => ρ.Covers v
  | .atom _ => True
  | .sequence ks => CoversKeys ks

def CoversKeys : List MapKey → Prop
  | [] => True
  | k :: ks => CoversKey k ∧ CoversKeys ks

end

end Region

namespace Heap

def present (h : Heap) : Region where
  sequence a := a < h.sequences.size
  map a := a < h.maps.size
  closure a := a < h.closures.size
  scope a := a < h.scopes.size
  dict a := a < h.dicts.size

/-- Every reference is to an object that is there. -/
structure Closed (h : Heap) : Prop where
  items : ∀ a, h.present.CoversAll (h.items a)
  entries : ∀ a, ∀ e ∈ (h.mapAt a).entries, h.present.Covers e.stored ∧ h.present.Covers e.value
  keys : ∀ a, ∀ e ∈ (h.mapAt a).entries, h.present.CoversKey e.key
  closures : ∀ {a : Nat} {c : ClosureObject}, h.closures[a]? = some c → c.required < h.sequences.size ∧
    c.optional < h.sequences.size ∧ c.body < h.sequences.size ∧ c.scope < h.scopes.size
  bindings : ∀ s, ∀ b ∈ (h.scopeAt s).bindings, h.present.Covers b.2
  parents : ∀ s p, (h.scopeAt s).parent = some p → p < h.scopes.size
  dicts : ∀ a, ∀ e ∈ h.dictAt a, h.present.Covers e.1 ∧ h.present.Covers e.2

end Heap

/-- The region has all objects of the other one. -/
structure Region.Contains (ρ π : Region) : Prop where
  sequence : ∀ {a}, π.sequence a → ρ.sequence a
  map : ∀ {a}, π.map a → ρ.map a
  closure : ∀ {a}, π.closure a → ρ.closure a
  scope : ∀ {a}, π.scope a → ρ.scope a
  dict : ∀ {a}, π.dict a → ρ.dict a

namespace Region.Contains

theorem refl (ρ : Region) : ρ.Contains ρ := ⟨id, id, id, id, id⟩

theorem trans {ρ π τ : Region} (h : ρ.Contains π) (h' : π.Contains τ) : ρ.Contains τ where
  sequence ha := h.sequence (h'.sequence ha)
  map ha := h.map (h'.map ha)
  closure ha := h.closure (h'.closure ha)
  scope ha := h.scope (h'.scope ha)
  dict ha := h.dict (h'.dict ha)

theorem covers {ρ π : Region} (hρ : ρ.Contains π) {v : Value} (hv : π.Covers v) :
    ρ.Covers v := by
  cases v with
  | list a | vector a | pusher a i => exact hρ.sequence hv
  | map a => exact hρ.map hv
  | closure a => exact hρ.closure hv
  | scope a => exact hρ.scope hv
  | dict a => exact hρ.dict hv
  | _ => trivial

mutual

theorem coversKey {ρ π : Region} (hρ : ρ.Contains π) : ∀ {k : MapKey}, π.CoversKey k → ρ.CoversKey k
  | .atom (.object _), hk => hρ.covers hk
  | .atom .nil, _ | .atom (.bool _), _ | .atom (.int _), _ | .atom (.float _), _
  | .atom (.sym _), _ | .atom (.kw _), _ | .atom (.text _), _ | .atom (.number _), _ => trivial
  | .sequence _, hk => coversKeys hρ hk

theorem coversKeys {ρ π : Region} (hρ : ρ.Contains π) :
    ∀ {ks : List MapKey}, π.CoversKeys ks → ρ.CoversKeys ks
  | [], _ => trivial
  | _ :: _, hks => ⟨coversKey hρ hks.1, coversKeys hρ hks.2⟩

end

end Region.Contains

/-! ## Bindings -/

namespace Region

variable {ρ : Region}

theorem covers_bind {v : Value} {name : Str} {bs : List (Str × Value)} (hv : ρ.Covers v)
    (hbs : ∀ b ∈ bs, ρ.Covers b.2) : ∀ b ∈ Heap.bind name v bs, ρ.Covers b.2 := by
  induction bs with
  | nil => simpa [Heap.bind] using hv
  | cons b bs ih =>
    obtain ⟨hb, hbs⟩ := List.forall_mem_cons.1 hbs
    rw [Heap.bind]
    split
    · exact List.forall_mem_cons.2 ⟨hv, hbs⟩
    · exact List.forall_mem_cons.2 ⟨hb, ih hbs⟩

theorem covers_bound? {v : Value} {name : String} {bs : List (Str × Value)} (hbs : ∀ b ∈ bs, ρ.Covers b.2)
    (hv : Heap.bound? name bs = some v) : ρ.Covers v := by
  induction bs with
  | nil => cases hv
  | cons b bs ih =>
    obtain ⟨hb, hbs⟩ := List.forall_mem_cons.1 hbs
    rw [Heap.bound?] at hv
    split at hv
    · cases hv
      exact hb
    · exact ih hbs hv

end Region

namespace Heap

/-! ## Heaps that are closed -/

theorem closed_empty : empty.Closed where
  items _ _ hv := nomatch hv
  entries _ _ he := nomatch he
  keys _ _ he := nomatch he
  closures hc := nomatch hc
  bindings _ _ hb := nomatch hb
  parents _ _ hp := nomatch hp
  dicts _ _ he := nomatch he

variable {h : Heap} {s : Nat} {v : Value} {vs : List Value}

theorem contains_newSequence (h : Heap) (vs : List Value) :
    (h.newSequence vs).2.present.Contains h.present where
  sequence ha := by
    simp only [present, newSequence, Array.size_push] at ha ⊢
    omega
  map := id
  closure := id
  scope := id
  dict := id

theorem Closed.newSequence (hc : h.Closed) (hvs : h.present.CoversAll vs) :
    (h.newSequence vs).2.Closed := by
  have hcontains := contains_newSequence h vs
  exact {
    items := fun a v hv => by
      simp only [Heap.newSequence, Heap.items, Array.getElem?_push] at hv
      refine hcontains.covers ?_
      split at hv
      · exact hvs v hv
      · exact hc.items a v hv
    entries := fun a e he => (hc.entries a e he).imp hcontains.covers hcontains.covers
    keys := fun a e he => hcontains.coversKey (hc.keys a e he)
    closures := fun ha => by
      obtain ⟨hrequired, hoptional, hbody, hscope⟩ := hc.closures ha
      exact ⟨hcontains.sequence hrequired, hcontains.sequence hoptional, hcontains.sequence hbody,
        hscope⟩
    bindings := fun s b hb => hcontains.covers (hc.bindings s b hb)
    parents := hc.parents
    dicts := fun a e he => (hc.dicts a e he).imp hcontains.covers hcontains.covers }

theorem Closed.newStr (hc : h.Closed) (text : String) : (h.newStr text).2.Closed :=
  { hc with }

theorem contains_newScope (h : Heap) (parent : Option Nat) :
    (h.newScope parent).2.present.Contains h.present where
  sequence := id
  map := id
  closure := id
  scope ha := by
    simp only [present, Heap.newScope, Array.size_push] at ha ⊢
    omega
  dict := id

theorem Closed.newScope (hc : h.Closed) {parent : Option Nat}
    (hparent : ∀ p, parent = some p → p < h.scopes.size) : (h.newScope parent).2.Closed := by
  have hcontains := contains_newScope h parent
  exact {
    items := fun a v hv => hcontains.covers (hc.items a v hv)
    entries := fun a e he => (hc.entries a e he).imp hcontains.covers hcontains.covers
    keys := fun a e he => hcontains.coversKey (hc.keys a e he)
    closures := fun ha => by
      obtain ⟨hrequired, hoptional, hbody, hscope⟩ := hc.closures ha
      exact ⟨hrequired, hoptional, hbody, hcontains.scope hscope⟩
    bindings := fun s b hb => by
      simp only [Heap.newScope, scopeAt, Array.getElem?_push] at hb
      split at hb
      · cases hb
      · exact hcontains.covers (hc.bindings s b hb)
    parents := fun s p hp => by
      simp only [Heap.newScope, scopeAt, Array.getElem?_push] at hp
      refine hcontains.scope ?_
      split at hp
      · exact hparent p hp
      · exact hc.parents s p hp
    dicts := fun a e he => (hc.dicts a e he).imp hcontains.covers hcontains.covers }

theorem contains_newMap (h : Heap) (m : MapObject) : (h.newMap m).2.present.Contains h.present where
  sequence := id
  map ha := by
    simp only [present, Heap.newMap, Array.size_push] at ha ⊢
    omega
  closure := id
  scope := id
  dict := id

theorem closed_newMap (hc : h.Closed) {m : MapObject}
    (hentries : ∀ e ∈ m.entries, h.present.Covers e.stored ∧ h.present.Covers e.value)
    (hkeys : ∀ e ∈ m.entries, h.present.CoversKey e.key) : (h.newMap m).2.Closed := by
  have hcontains := contains_newMap h m
  have hmap : ∀ a, ∀ e ∈ ((h.newMap m).2.mapAt a).entries,
      e ∈ m.entries ∨ ∃ b, e ∈ (h.mapAt b).entries := by
    intro a e he
    simp only [Heap.newMap, mapAt, Array.getElem?_push] at he
    split at he
    · exact .inl he
    · exact .inr ⟨a, he⟩
  exact {
    items := fun a v hv => hcontains.covers (hc.items a v hv)
    entries := fun a e he => (hmap a e he).elim
      (fun he => (hentries e he).imp hcontains.covers hcontains.covers)
      fun ⟨b, he⟩ => (hc.entries b e he).imp hcontains.covers hcontains.covers
    keys := fun a e he => (hmap a e he).elim (fun he => hcontains.coversKey (hkeys e he))
      fun ⟨b, he⟩ => hcontains.coversKey (hc.keys b e he)
    closures := fun ha => hc.closures ha
    bindings := fun s b hb => hcontains.covers (hc.bindings s b hb)
    parents := hc.parents
    dicts := fun a e he => (hc.dicts a e he).imp hcontains.covers hcontains.covers }

theorem contains_newClosure (h : Heap) (c : ClosureObject) :
    (h.newClosure c).2.present.Contains h.present where
  sequence := id
  map := id
  closure ha := by
    simp only [present, Heap.newClosure, Array.size_push] at ha ⊢
    omega
  scope := id
  dict := id

theorem Closed.newClosure (hc : h.Closed) {c : ClosureObject} (hrequired : c.required < h.sequences.size)
    (hoptional : c.optional < h.sequences.size) (hbody : c.body < h.sequences.size)
    (hscope : c.scope < h.scopes.size) : (h.newClosure c).2.Closed := by
  have hcontains := contains_newClosure h c
  exact {
    items := fun a v hv => hcontains.covers (hc.items a v hv)
    entries := fun a e he => (hc.entries a e he).imp hcontains.covers hcontains.covers
    keys := fun a e he => hcontains.coversKey (hc.keys a e he)
    closures := fun {a c'} ha => by
      simp only [Heap.newClosure, Array.getElem?_push] at ha
      split at ha
      · cases ha
        exact ⟨hrequired, hoptional, hbody, hscope⟩
      · exact hc.closures ha
    bindings := fun s b hb => hcontains.covers (hc.bindings s b hb)
    parents := hc.parents
    dicts := fun a e he => (hc.dicts a e he).imp hcontains.covers hcontains.covers }

theorem Closed.define (hc : h.Closed) (s : Nat) (name : Str) (hv : h.present.Covers v) :
    (h.define s name v).Closed := by
  have hcontains : (h.define s name v).present.Contains h.present :=
    ⟨id, id, id, fun ha => by
      simpa only [present, Heap.define, setScope, Array.size_setIfInBounds] using ha, id⟩
  have hscope : ∀ t, (∀ b ∈ ((h.define s name v).scopeAt t).bindings, h.present.Covers b.2) ∧
      ∀ p, ((h.define s name v).scopeAt t).parent = some p → p < h.scopes.size := by
    intro t
    simp only [Heap.define, setScope, scopeAt, Array.getElem?_setIfInBounds]
    split
    · split
      · exact ⟨Region.covers_bind hv (hc.bindings s), hc.parents s⟩
      · exact ⟨List.forall_mem_nil _, fun _ hp => by cases hp⟩
    · exact ⟨hc.bindings t, hc.parents t⟩
  exact {
    items := fun a v hv => hcontains.covers (hc.items a v hv)
    entries := fun a e he => (hc.entries a e he).imp hcontains.covers hcontains.covers
    keys := fun a e he => hcontains.coversKey (hc.keys a e he)
    closures := fun ha => by
      obtain ⟨hrequired, hoptional, hbody, hscope⟩ := hc.closures ha
      exact ⟨hrequired, hoptional, hbody, hcontains.scope hscope⟩
    bindings := fun t b hb => hcontains.covers ((hscope t).1 b hb)
    parents := fun t p hp => hcontains.scope ((hscope t).2 p hp)
    dicts := fun a e he => (hc.dicts a e he).imp hcontains.covers hcontains.covers }

mutual

/-- Loading an expression keeps a heap closed, and its value is there. -/
theorem Closed.load : ∀ (e : Expr) {h : Heap}, h.Closed →
    (h.load e).2.Closed ∧ (h.load e).2.present.Covers (h.load e).1 ∧
      (h.load e).2.present.Contains h.present
  | .int _, _, hc | .float _, _, hc | .sym _ .supplied, _, hc => ⟨hc, trivial, .refl _⟩
  | .str s, _, hc | .sym s .written, _, hc | .kw s, _, hc => ⟨hc.newStr s, trivial, .refl _⟩
  | .list items, h, hc => by
    obtain ⟨hc', hcovers, hcontains⟩ := Closed.loadAll items hc
    have hcontains' := contains_newSequence (h.loadAll items).2 (h.loadAll items).1
    refine ⟨hc'.newSequence hcovers, ?_, hcontains'.trans hcontains⟩
    show _ < (Array.push _ _).size
    rw [Array.size_push]
    exact Nat.lt_succ_self _

theorem Closed.loadAll : ∀ (es : List Expr) {h : Heap}, h.Closed →
    (h.loadAll es).2.Closed ∧ (h.loadAll es).2.present.CoversAll (h.loadAll es).1 ∧
      (h.loadAll es).2.present.Contains h.present
  | [], _, hc => ⟨hc, Region.coversAll_nil, .refl _⟩
  | e :: es, h, hc => by
    obtain ⟨hc₁, hcovers₁, hcontains₁⟩ := Closed.load e hc
    obtain ⟨hc₂, hcovers₂, hcontains₂⟩ := Closed.loadAll es hc₁
    exact ⟨hc₂, Region.coversAll_cons.2 ⟨hcontains₂.covers hcovers₁, hcovers₂⟩,
      hcontains₂.trans hcontains₁⟩

end

end Heap

end Sigil
