import Sigil.Proofs.Eval.Nest

/-!
# Evaluation in nested scopes and in one

Linked heaps stay linked by all that evaluation does to scopes, under a watch over what the chain hides
(`Nest.links`). They are linked at first, when an empty scope is added: to the heap itself
(`Nest.linked_start`), and to the heap before it was added (`Nest.linked_within`). And they stay linked
when the chain has one more scope, and the scope that stands for it one more name
(`Nest.Linked.extend`).
-/

namespace Sigil

open Eval

/-- The region of everything but the scopes from `old` on. -/
def Region.olderThan (old : Nat) : Region where
  sequence _ := True
  map _ := True
  closure _ := True
  scope s := s < old
  dict _ := True

namespace Nest

variable {N : Nest} {p : Nat} {h h' : Heap} {s : Nat}

/-- Scopes that are there correspond by their images. -/
def Pairs (N : Nest) (n s s' : Nat) : Prop := s < n ∧ s' = N.image s

/-- New scopes are none of the chain. -/
def Twins (N : Nest) (s s' : Nat) : Prop := s' = N.twin s ∧ s ∉ N.inner

/-- Linked heaps stay linked under a watch over what the chain hides. -/
theorem links {w : Watch} (hN : N.Proper)
    (hw : ∀ {h s name}, w.hides h s name = false → N.hides h s name = false) :
    Links w (.olderThan N.old) N.Pairs (fun s s' => s' = N.image s) N.Twins
      (N.Linked (.olderThan N.old) p) where
  mono hle hs := ⟨Nat.lt_of_lt_of_le hs.1 hle, hs.2⟩
  up hs := hs.2
  linked {s s'} hs := ⟨Nat.lt_succ_self s, by rw [image_of_not_mem hs.2, hs.1]⟩
  own {_} hs := ⟨(hN.twin_old _ hs).symm, hN.not_mem_of_lt hs⟩
  congr hl hg hg' := hl.congr hg hg'
  next hl := ⟨(hl.grown 0).symm, fun hmem => Nat.lt_irrefl _ (hl.inner_lt _ hmem)⟩
  asked? name hl hs hhides := by
    rw [hs.2]
    exact hl.lookup?_image hN (hw hhides)
  lookup? {_ _ s} name hl hs := by
    have hlookup := hl.lookup?_image hN (ScopeChain.hides_old hN.old_le name s hs)
    rwa [image_of_not_mem (hN.not_mem_of_lt hs), hN.twin_old s hs] at hlookup
  ownNames {h h' s} hl hs := by
    have hbindings := hl.bindings s (hN.not_mem_of_lt hs)
    rw [hN.twin_old s hs] at hbindings
    rw [Heap.ownNames, Heap.ownNames, hbindings]
  newScope {h h' q q'} hl hq := by
    rw [hq]
    exact hl.newScope hN q
  define name _ hl hs hv := by
    rw [hs.1]
    exact hl.define hN hs.2 name hv
  defineRoot {h h' s s'} name _ hl hs hv := by
    obtain ⟨hroot, hout⟩ := hl.root_image hN s
    rw [hs.2, hroot]
    exact hl.define hN hout name hv
  assign name _ hl hs hhides hv := by
    rw [hs.2]
    exact hl.assign hN (hw hhides) hv

/-! ## The start -/

/-- No scope of the chain is there yet, and the empty one stands for itself. -/
def start (old : Nat) : Nest := ⟨⟨[], old⟩, old, id, old⟩

/-- No scope of the chain is there yet, and there is no empty one elsewhere. -/
def within (old p : Nat) : Nest := ⟨⟨[], old⟩, p, fun s => if s < old then s else s - 1, old⟩

theorem mem_inner_nil {bottom : Nat} : s ∈ (ScopeChain.mk [] bottom).inner ↔ s = bottom :=
  List.mem_singleton

theorem proper_start (old : Nat) : (start old).Proper where
  nodup := List.nodup_singleton old
  old_le _ hs := Nat.le_of_eq (mem_inner_nil.1 hs).symm
  twin_old _ _ := rfl
  twin_inj _ _ _ _ heq := heq

theorem proper_within (old p : Nat) : (within old p).Proper where
  nodup := List.nodup_singleton old
  old_le _ hs := Nat.le_of_eq (mem_inner_nil.1 hs).symm
  twin_old _ hs := if_pos hs
  twin_inj s t hs ht heq := by
    have hne : s ≠ old := fun h => hs (mem_inner_nil.2 h)
    have hne' : t ≠ old := fun h => ht (mem_inner_nil.2 h)
    simp only [within] at heq
    split at heq <;> split at heq <;> omega

theorem hides_within (old p : Nat) (h : Heap) (s : Nat) (name : String) :
    (within old p).hides h s name = false := by
  induction s using Nat.strongRecOn with
  | ind s ih =>
    rw [ScopeChain.hides]
    split
    · rfl
    · split
      · rfl
      · split
        · next q hq _ => exact ih q hq
        · rfl

theorem scopeAt_of_le (hs : h.scopes.size ≤ s) : h.scopeAt s = ⟨[], none⟩ := by
  rw [Heap.scopeAt, Array.getElem?_eq_none hs]
  rfl

theorem enclosing?_of_le (hs : h.scopes.size ≤ s) : h.enclosing? s = none := by
  rw [Heap.enclosing?, scopeAt_of_le hs]

theorem contains_olderThan (h : Heap) : (Region.olderThan h.scopes.size).Contains h.present where
  sequence _ := trivial
  map _ := trivial
  closure _ := trivial
  scope ha := ha
  dict _ := trivial

/-- What is bound when an empty scope is added is older than that scope. -/
theorem covered_newScope (hc : h.Closed) (p s : Nat) :
    ∀ b ∈ ((h.newScope (some p)).2.scopeAt s).bindings, (Region.olderThan h.scopes.size).Covers b.2 := by
  rw [Heap.scopeAt_newScope_eq]
  split
  · exact fun _ hb => nomatch hb
  · exact fun b hb => (contains_olderThan h).covers (hc.bindings s b hb)

theorem bottom_newScope (hp : p < h.scopes.size) :
    ((h.newScope (some p)).2.scopeAt h.scopes.size).bindings = [] ∧
      ((h.newScope (some p)).2.enclosing? h.scopes.size).map (·.1) = some p := by
  rw [Heap.enclosing?, Heap.scopeAt_newScope_eq, if_pos rfl]
  simp only [dif_pos hp]
  exact ⟨trivial, rfl⟩

theorem enclosing?_newScope (h : Heap) (p : Nat) (hs : s ≠ h.scopes.size) :
    (h.newScope (some p)).2.enclosing? s = h.enclosing? s :=
  Heap.enclosing?_congr (by rw [Heap.scopeAt_newScope_eq, if_neg hs])

theorem enclosing_old {f : Nat → Nat} (hf : ∀ q < h.scopes.size, f q = q) (s : Nat) :
    (h.enclosing? s).map (·.1) = (h.enclosing? s).map fun q => f q.1 := by
  by_cases hs : s < h.scopes.size
  · exact Option.map_congr fun q _ => (hf q.1 (Nat.lt_trans q.2 hs)).symm
  · rw [enclosing?_of_le (Nat.le_of_not_lt hs)]
    rfl

theorem linked_start (hc : h.Closed) (hp : p < h.scopes.size) :
    (start h.scopes.size).Linked (.olderThan h.scopes.size) p (h.newScope (some p)).2
      (h.newScope (some p)).2 := by
  have hsize : (h.newScope (some p)).2.scopes.size = h.scopes.size + 1 := Array.size_push _
  have himage : ∀ s, (start h.scopes.size).image s = s := fun s => by
    rw [image]
    split
    · next hmem => exact (mem_inner_nil.1 hmem).symm
    · rfl
  exact {
    covered := covered_newScope hc p
    grown := fun _ => rfl
    image_lt := fun s hs => by
      rw [himage]
      exact hs
    old_le := by
      rw [hsize]
      exact Nat.le_succ _
    inner_lt := fun s hs => by
      rw [hsize, mem_inner_nil.1 hs]
      exact Nat.lt_succ_self _
    bindings := fun _ _ => rfl
    enclosing := fun s _ => by
      simp only [himage]
      rfl
    chained := trivial
    outer := hp
    bottom := bottom_newScope hp
    flat := by
      refine .inr ⟨fun s hs heq => hs (mem_inner_nil.2 heq), (bottom_newScope hp).2, fun name => ?_⟩
      show Heap.bound? name ((h.newScope (some p)).2.scopeAt h.scopes.size).bindings = none
      rw [(bottom_newScope hp).1]
      rfl }

theorem linked_within (hc : h.Closed) (hp : p < h.scopes.size) :
    (within h.scopes.size p).Linked (.olderThan h.scopes.size) p (h.newScope (some p)).2 h := by
  have hsize : (h.newScope (some p)).2.scopes.size = h.scopes.size + 1 := Array.size_push _
  have hnew : ∀ {s}, s ∉ (within h.scopes.size p).inner → s ≠ h.scopes.size :=
    fun hs heq => hs (mem_inner_nil.2 heq)
  have himage : ∀ s < h.scopes.size, (within h.scopes.size p).image s = s := fun s hs => by
    rw [image_of_not_mem fun hmem => Nat.ne_of_lt hs (mem_inner_nil.1 hmem)]
    exact if_pos hs
  have htwin : ∀ {s}, h.scopes.size < s → h.scopes.size ≤ (within h.scopes.size p).twin s :=
    fun {s} hs => by
      simp only [within]
      split <;> omega
  exact {
    covered := covered_newScope hc p
    grown := fun k => by
      simp only [hsize, within]
      split <;> omega
    image_lt := fun s hs => by
      rw [hsize] at hs
      rcases Nat.lt_succ_iff_lt_or_eq.1 hs with hlt | rfl
      · rw [himage s hlt]
        exact hlt
      · rw [image_of_mem (mem_inner_nil.2 rfl)]
        exact hp
    old_le := by
      rw [hsize]
      exact Nat.le_succ _
    inner_lt := fun s hs => by
      rw [hsize, mem_inner_nil.1 hs]
      exact Nat.lt_succ_self _
    bindings := fun s hs => by
      rw [Heap.scopeAt_newScope_eq, if_neg (hnew hs)]
      rcases Nat.lt_or_gt_of_ne (hnew hs) with hlt | hgt
      · rw [show (within h.scopes.size p).twin s = s from if_pos hlt]
      · rw [scopeAt_of_le (htwin hgt), scopeAt_of_le (Nat.le_of_lt hgt)]
    enclosing := fun s hs => by
      rw [enclosing?_newScope h p (hnew hs)]
      rcases Nat.lt_or_gt_of_ne (hnew hs) with hlt | hgt
      · rw [show (within h.scopes.size p).twin s = s from if_pos hlt]
        exact enclosing_old himage s
      · rw [enclosing?_of_le (htwin hgt), enclosing?_of_le (Nat.le_of_lt hgt)]
        rfl
    chained := trivial
    outer := hp
    bottom := bottom_newScope hp
    flat := .inl ⟨rfl, (if_pos hp).symm⟩ }

/-! ## One more scope -/

def extend (N : Nest) (s : Nat) (name : String) : Nest where
  toScopeChain := N.toScopeChain.extend s name
  flat := N.flat
  twin t := if t ≤ s then N.twin t else N.twin (t - 1)
  old := N.old

theorem mem_inner_extend {name : String} {t : Nat} :
    t ∈ (N.extend s name).inner ↔ t = s ∨ t ∈ N.inner := by
  simp [ScopeChain.inner, extend, ScopeChain.extend]

theorem twin_extend_of_lt {name : String} {t : Nat} (ht : t < s) :
    (N.extend s name).twin t = N.twin t := if_pos (Nat.le_of_lt ht)

theorem twin_extend_of_gt {name : String} (k : Nat) :
    (N.extend s name).twin (s + 1 + k) = N.twin (s + k) := by
  simp only [extend]
  rw [if_neg (by omega)]
  congr 1
  omega

theorem image_extend_of_lt {name : String} {t : Nat} (ht : t < s) :
    (N.extend s name).image t = N.image t := by
  by_cases hmem : t ∈ N.inner
  · rw [image_of_mem hmem, image_of_mem (mem_inner_extend.2 (.inr hmem))]
    rfl
  · rw [image_of_not_mem hmem, image_of_not_mem, twin_extend_of_lt ht]
    rw [mem_inner_extend, not_or]
    exact ⟨Nat.ne_of_lt ht, hmem⟩

/-- A scope that is none of the longer chain is older than the new scope of it or is not there yet. -/
theorem lt_or_exists_of_not_mem {name : String} {t : Nat} (ht : t ∉ (N.extend s name).inner) :
    t ∉ N.inner ∧ (t < s ∨ ∃ k, t = s + 1 + k) := by
  rw [mem_inner_extend, not_or] at ht
  refine ⟨ht.2, ?_⟩
  rcases Nat.lt_or_gt_of_ne ht.1 with hlt | hgt
  · exact .inl hlt
  · exact .inr ⟨t - (s + 1), by omega⟩

theorem Linked.proper_extend {ρ : Region} (hN : N.Proper) (hl : N.Linked ρ p h h') (name : String) :
    (N.extend h.scopes.size name).Proper where
  nodup := by
    refine List.nodup_cons.2 ⟨fun hmem => ?_, hN.nodup⟩
    exact Nat.lt_irrefl _ (hl.inner_lt _ hmem)
  old_le s hs := by
    rcases mem_inner_extend.1 hs with rfl | hs
    · exact hl.old_le
    · exact hN.old_le s hs
  twin_old s hs := (twin_extend_of_lt (Nat.lt_of_lt_of_le hs hl.old_le)).trans (hN.twin_old s hs)
  twin_inj s t hs ht heq := by
    have hnew : ∀ k, h.scopes.size + k ∉ N.inner := fun k hmem => by
      have hlt := hl.inner_lt _ hmem
      omega
    obtain ⟨hout, hs⟩ := lt_or_exists_of_not_mem hs
    obtain ⟨hout', ht⟩ := lt_or_exists_of_not_mem ht
    have hapart : ∀ {s} k, s ∉ N.inner → s < h.scopes.size → N.twin s ≠ N.twin (h.scopes.size + k) :=
      fun k hout hlt heq => by
        have heq := hN.twin_inj _ _ hout (hnew k) heq
        omega
    rcases hs with hs | ⟨k, rfl⟩ <;> rcases ht with ht | ⟨l, rfl⟩
    · rw [twin_extend_of_lt hs, twin_extend_of_lt ht] at heq
      exact hN.twin_inj s t hout hout' heq
    · rw [twin_extend_of_lt hs, twin_extend_of_gt] at heq
      exact absurd heq (hapart l hout hs)
    · rw [twin_extend_of_gt, twin_extend_of_lt ht] at heq
      exact absurd heq.symm (hapart k hout' ht)
    · rw [twin_extend_of_gt, twin_extend_of_gt] at heq
      have heq := hN.twin_inj _ _ (hnew k) (hnew l) heq
      omega

theorem top_mem (C : ScopeChain) : C.top C.chain ∈ C.inner := by
  obtain ⟨chain, bottom⟩ := C
  cases chain with
  | nil => exact ScopeChain.bottom_mem
  | cons c cs => exact ScopeChain.mem_inner_of_chain List.mem_cons_self

theorem chained_extend {name : String} {g : Heap} {cs : List (Nat × String)} :
    (N.extend s name).Chained g cs ↔ N.Chained g cs := by
  induction cs with
  | nil => exact Iff.rfl
  | cons c cs ih =>
    have htop : (N.extend s name).top cs = N.top cs := by cases cs <;> rfl
    rw [ScopeChain.Chained, ScopeChain.Chained, ih, htop]

/-! ### A name in a new scope -/

section

variable {t : Nat} {x : Str} {v : Value}

theorem size_scopes_newScope_define :
    ((h.newScope (some p)).2.define h.scopes.size x v).scopes.size = h.scopes.size + 1 := by
  rw [Heap.size_scopes_define]
  exact Array.size_push _

theorem scopeAt_newScope_define (ht : t ≠ h.scopes.size) :
    ((h.newScope (some p)).2.define h.scopes.size x v).scopeAt t = h.scopeAt t := by
  rw [Heap.scopeAt_define_of_ne (Ne.symm ht), Heap.scopeAt_newScope_eq, if_neg ht]

theorem enclosing?_newScope_define (ht : t ≠ h.scopes.size) :
    ((h.newScope (some p)).2.define h.scopes.size x v).enclosing? t = h.enclosing? t := by
  rw [Heap.enclosing?_define, enclosing?_newScope h p ht]

/-- The new scope binds the name and lies in the one that is given. -/
theorem top_newScope_define (hp : p < h.scopes.size) :
    (((h.newScope (some p)).2.define h.scopes.size x v).scopeAt h.scopes.size).bindings = [(x, v)] ∧
      (((h.newScope (some p)).2.define h.scopes.size x v).enclosing? h.scopes.size).map (·.1)
        = some p := by
  obtain ⟨hbindings, hparent⟩ := bottom_newScope hp
  have hlt : h.scopes.size < (h.newScope (some p)).2.scopes.size := by
    rw [show (h.newScope (some p)).2.scopes.size = h.scopes.size + 1 from Array.size_push _]
    exact Nat.lt_succ_self _
  rw [Heap.bindings_define hlt, hbindings, Heap.enclosing?_define]
  exact ⟨rfl, hparent⟩

end

/-! ### The longer chain -/

section

variable {ρ : Region} (hl : N.Linked ρ p h h') (x : Str) {v : Value} {t : Nat}
include hl

theorem Linked.le_twin (k : Nat) : h'.scopes.size ≤ N.twin (h.scopes.size + k) := by
  rw [hl.grown]
  exact Nat.le_add_right _ _

theorem Linked.top_lt : N.top N.chain < h.scopes.size := hl.inner_lt _ (top_mem N.toScopeChain)

theorem Linked.flat_lt : N.flat < h'.scopes.size := by
  have hlt := hl.image_lt _ hl.top_lt
  rwa [image_of_mem (top_mem N.toScopeChain)] at hlt

theorem Linked.ne_of_mem (ht : t ∈ N.inner) : t ≠ h.scopes.size := Nat.ne_of_lt (hl.inner_lt t ht)

theorem Linked.bindings_extend (hflat : ∀ s ∉ N.inner, N.twin s ≠ N.flat)
    (ht : t ∉ (N.extend h.scopes.size x.text).inner) :
    ((h'.define N.flat x v).scopeAt ((N.extend h.scopes.size x.text).twin t)).bindings
      = (((h.newScope (some (N.top N.chain))).2.define h.scopes.size x v).scopeAt t).bindings := by
  obtain ⟨hout, hlt | ⟨k, rfl⟩⟩ := lt_or_exists_of_not_mem ht
  · rw [twin_extend_of_lt hlt, Heap.scopeAt_define_of_ne (Ne.symm (hflat t hout)),
      scopeAt_newScope_define (Nat.ne_of_lt hlt), hl.bindings t hout]
  · have hne := Nat.ne_of_lt (Nat.lt_of_lt_of_le hl.flat_lt (hl.le_twin k))
    rw [twin_extend_of_gt, Heap.scopeAt_define_of_ne hne, scopeAt_newScope_define (by omega),
      scopeAt_of_le (hl.le_twin k), scopeAt_of_le (by omega)]

theorem Linked.enclosing_extend (ht : t ∉ (N.extend h.scopes.size x.text).inner) :
    ((h'.define N.flat x v).enclosing? ((N.extend h.scopes.size x.text).twin t)).map (·.1)
      = (((h.newScope (some (N.top N.chain))).2.define h.scopes.size x v).enclosing? t).map
          fun q => (N.extend h.scopes.size x.text).image q.1 := by
  obtain ⟨hout, hlt | ⟨k, rfl⟩⟩ := lt_or_exists_of_not_mem ht
  · rw [twin_extend_of_lt hlt, Heap.enclosing?_define, hl.enclosing t hout,
      enclosing?_newScope_define (Nat.ne_of_lt hlt)]
    exact Option.map_congr fun q _ => (image_extend_of_lt (Nat.lt_trans q.2 hlt)).symm
  · rw [twin_extend_of_gt, Heap.enclosing?_define, enclosing?_of_le (hl.le_twin k),
      enclosing?_newScope_define (by omega), enclosing?_of_le (by omega)]
    rfl

/-- The scope that stands for the chain stands for no other scope. -/
theorem Linked.twin_extend_ne_flat (hflat : ∀ s ∉ N.inner, N.twin s ≠ N.flat)
    (ht : t ∉ (N.extend h.scopes.size x.text).inner) :
    (N.extend h.scopes.size x.text).twin t ≠ N.flat := by
  obtain ⟨hout, hlt | ⟨k, rfl⟩⟩ := lt_or_exists_of_not_mem ht
  · rw [twin_extend_of_lt hlt]
    exact hflat t hout
  · rw [twin_extend_of_gt]
    exact Ne.symm (Nat.ne_of_lt (Nat.lt_of_lt_of_le hl.flat_lt (hl.le_twin k)))

/-- The scope that stands for the chain binds a name to what its innermost owner binds it to. -/
theorem Linked.own?_flat_extend
    (hown : ∀ name, h'.own? N.flat name = (N.owner? name).bind fun c => h.own? c.1 name)
    (name : String) :
    (h'.define N.flat x v).own? N.flat name
      = ((N.extend h.scopes.size x.text).owner? name).bind fun c =>
          ((h.newScope (some (N.top N.chain))).2.define h.scopes.size x v).own? c.1 name := by
  rw [Heap.own?_define hl.flat_lt]
  by_cases hname : x.text = name
  · have howner : (N.extend h.scopes.size x.text).owner? name = some (h.scopes.size, x.text) :=
      List.find?_cons_of_pos (beq_iff_eq.2 hname)
    rw [if_pos hname, howner, Option.bind_some, Heap.own?, (top_newScope_define hl.top_lt).1,
      Heap.bound?, if_pos hname]
  · have howner : (N.extend h.scopes.size x.text).owner? name = N.owner? name :=
      List.find?_cons_of_neg fun heq => hname (beq_iff_eq.1 heq)
    rw [if_neg hname, howner, hown]
    refine Option.bind_congr fun c hc => ?_
    have hmem := ScopeChain.mem_inner_of_chain (List.mem_of_find?_eq_some hc)
    rw [Heap.own?, Heap.own?, scopeAt_newScope_define (hl.ne_of_mem hmem)]

/-- A name is bound in a new scope of the chain here, and in the scope that stands for the chain
there. -/
theorem Linked.extend (hflat : ∀ s ∉ N.inner, N.twin s ≠ N.flat) (hp : p ∉ N.inner)
    (hv : ρ.Covers v) :
    (N.extend h.scopes.size x.text).Linked ρ p
      ((h.newScope (some (N.top N.chain))).2.define h.scopes.size x v) (h'.define N.flat x v) := by
  have hsize := size_scopes_newScope_define (p := N.top N.chain) (h := h) (x := x) (v := v)
  obtain ⟨hnew, hparent⟩ := top_newScope_define (x := x) (v := v) hl.top_lt
  rcases hl.flat with ⟨-, hnil⟩ | ⟨-, houter, hown⟩
  · exact absurd hnil.symm (hflat p hp)
  exact {
    covered := fun t => by
      by_cases ht : t = h.scopes.size
      · rw [ht, hnew]
        intro b hb
        cases List.mem_singleton.1 hb
        exact hv
      · rw [scopeAt_newScope_define ht]
        exact hl.covered t
    grown := fun k => by
      rw [hsize, Heap.size_scopes_define, twin_extend_of_gt, hl.grown]
    image_lt := fun t ht => by
      rw [hsize] at ht
      rw [Heap.size_scopes_define]
      rcases Nat.lt_succ_iff_lt_or_eq.1 ht with hlt | rfl
      · rw [image_extend_of_lt hlt]
        exact hl.image_lt t hlt
      · rw [image_of_mem (mem_inner_extend.2 (.inl rfl))]
        exact hl.flat_lt
    old_le := by
      rw [hsize]
      exact Nat.le_succ_of_le hl.old_le
    inner_lt := fun t ht => by
      rw [hsize]
      rcases mem_inner_extend.1 ht with rfl | ht
      · exact Nat.lt_succ_self _
      · exact Nat.lt_succ_of_lt (hl.inner_lt t ht)
    bindings := fun t ht => hl.bindings_extend x hflat ht
    enclosing := fun t ht => hl.enclosing_extend x ht
    chained := ⟨hparent, ⟨x, v, hnew, rfl⟩, chained_extend.2 (hl.chained.congr
      (fun t ht => scopeAt_newScope_define (hl.ne_of_mem ht)) fun _ => ScopeChain.mem_inner_of_chain)⟩
    outer := hl.outer
    bottom := by
      have hbottom := hl.ne_of_mem ScopeChain.bottom_mem
      show (Heap.scopeAt _ N.bottom).bindings = [] ∧ (Heap.enclosing? _ N.bottom).map (·.1) = some p
      rw [scopeAt_newScope_define hbottom, enclosing?_newScope_define hbottom]
      exact hl.bottom
    flat := by
      refine .inr ⟨fun t ht => hl.twin_extend_ne_flat x hflat ht, ?_, hl.own?_flat_extend x hown⟩
      show ((h'.define N.flat x v).enclosing? N.flat).map (·.1) = _
      rw [Heap.enclosing?_define, twin_extend_of_lt (Nat.lt_of_lt_of_le hl.outer hl.old_le)]
      exact houter }

end

end Nest

end Sigil
