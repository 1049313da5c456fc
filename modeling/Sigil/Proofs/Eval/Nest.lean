import Sigil.Proofs.Eval.Regional
import Sigil.Proofs.Heap.Closed

/-!
# Nested scopes that are one scope elsewhere

A `Nest` is a chain of scopes, each inside the next one and with one name, and a single scope that
stands for all of them in another heap. The heaps are `Linked` when that scope binds each name to what
the innermost scope of the chain that has the name binds it to, and all other scopes are the same under
other numbers. A name is then owned by corresponding scopes (`Nest.Linked.owner?_image`), unless it is
asked for in a scope of the chain that lies around another one with the name (`ScopeChain.hides`).
-/

namespace Sigil

/-- Scopes inside one another, each with one name. -/
structure ScopeChain where
  /-- The scopes of the chain, innermost first, with the names that they bind. -/
  chain : List (Nat × String)
  /-- The empty scope around the chain. -/
  bottom : Nat

namespace ScopeChain

variable (C : ScopeChain)

def inner : List Nat := C.chain.map (·.1) ++ [C.bottom]

/-- The innermost scope of a part of the chain. -/
def top : List (Nat × String) → Nat
  | [] => C.bottom
  | c :: _ => c.1

/-- The names of the scopes inside the one that is given. -/
def namesInside (s : Nat) : List (Nat × String) → List String
  | [] => []
  | c :: cs => if c.1 = s then [] else c.2 :: namesInside s cs

/-- On the way from a scope to the owner of a name, the chain is entered at a scope around another
one that has the name. -/
def hides (h : Heap) (s : Nat) (name : String) : Bool :=
  if s ∈ C.inner then (namesInside s C.chain).contains name
  else if (h.own? s name).isSome then false
  else match h.enclosing? s with
    | some ⟨p, _⟩ => hides h p name
    | none => false
termination_by s

/-- The watch over the names that are hidden and over the functions from `start` on. -/
def watch (start : Nat) : Watch := ⟨C.hides, fun a => decide (start ≤ a)⟩

/-- A chain with one more scope. -/
def extend (s : Nat) (name : String) : ScopeChain := { C with chain := (s, name) :: C.chain }

/-- Each scope of the chain lies in the next one and has its own name only. -/
def Chained (h : Heap) : List (Nat × String) → Prop
  | [] => True
  | c :: cs => (h.enclosing? c.1).map (·.1) = some (C.top cs) ∧
      (∃ k v, (h.scopeAt c.1).bindings = [(k, v)] ∧ k.text = c.2) ∧ Chained h cs

/-- The scope of the chain that owns a name. -/
def owner? (name : String) : Option (Nat × String) := C.chain.find? (·.2 == name)

end ScopeChain

/-- A chain of scopes, and the scope that stands for it elsewhere. -/
structure Nest extends ScopeChain where
  /-- The scope that stands for the chain. -/
  flat : Nat
  /-- The numbers of the other scopes. -/
  twin : Nat → Nat
  /-- The number of scopes that are older than the chain. -/
  old : Nat

namespace Nest

variable (N : Nest)

def image (s : Nat) : Nat := if s ∈ N.inner then N.flat else N.twin s

/-- The scopes of the chain are new and different, and the other ones are kept apart. -/
structure Proper : Prop where
  nodup : N.inner.Nodup
  old_le : ∀ s ∈ N.inner, N.old ≤ s
  twin_old : ∀ s < N.old, N.twin s = s
  twin_inj : ∀ s t, s ∉ N.inner → t ∉ N.inner → N.twin s = N.twin t → s = t

/-- The second heap has one scope for the chain, around which `p` lies, and the others under their
other numbers. -/
structure Linked (ρ : Region) (p : Nat) (h h' : Heap) : Prop where
  covered : ∀ s, ∀ b ∈ (h.scopeAt s).bindings, ρ.Covers b.2
  grown : ∀ k, N.twin (h.scopes.size + k) = h'.scopes.size + k
  image_lt : ∀ s < h.scopes.size, N.image s < h'.scopes.size
  old_le : N.old ≤ h.scopes.size
  inner_lt : ∀ s ∈ N.inner, s < h.scopes.size
  bindings : ∀ s ∉ N.inner, (h'.scopeAt (N.twin s)).bindings = (h.scopeAt s).bindings
  enclosing : ∀ s ∉ N.inner,
    (h'.enclosing? (N.twin s)).map (·.1) = (h.enclosing? s).map fun q => N.image q.1
  chained : N.Chained h N.chain
  outer : p < N.old
  bottom : (h.scopeAt N.bottom).bindings = [] ∧ (h.enclosing? N.bottom).map (·.1) = some p
  flat : (N.chain = [] ∧ N.flat = N.twin p) ∨ (∀ s ∉ N.inner, N.twin s ≠ N.flat) ∧
    (h'.enclosing? N.flat).map (·.1) = some (N.twin p) ∧
    ∀ name, h'.own? N.flat name = (N.owner? name).bind fun c => h.own? c.1 name

end Nest

namespace Heap

theorem scopeAt_newScope_eq (h : Heap) (p : Option Nat) (s : Nat) :
    (h.newScope p).2.scopeAt s = if s = h.scopes.size then ⟨[], p⟩ else h.scopeAt s := by
  simp only [newScope, scopeAt, Array.getElem?_push]
  split <;> rfl

theorem scopeAt_define_of_ne {h : Heap} {s t : Nat} (hne : s ≠ t) (name : Str) (v : Value) :
    (h.define s name v).scopeAt t = h.scopeAt t := by
  simp [define, setScope, scopeAt, hne]

theorem bindings_define {h : Heap} {s : Nat} (hs : s < h.scopes.size) (name : Str) (v : Value) :
    ((h.define s name v).scopeAt s).bindings = bind name v (h.scopeAt s).bindings := by
  simp [define, setScope, scopeAt, hs]

theorem define_of_le {h : Heap} {s : Nat} (hs : h.scopes.size ≤ s) (name : Str) (v : Value) :
    h.define s name v = h := by
  simp [define, setScope, Array.setIfInBounds, Nat.not_lt.2 hs]

theorem enclosing?_define (h : Heap) (s t : Nat) (name : Str) (v : Value) :
    (h.define s name v).enclosing? t = h.enclosing? t :=
  enclosing?_congr (parent_define h s name v t)

theorem owner?_of_own? {h : Heap} {s : Nat} {name : String} (hs : (h.own? s name).isSome) :
    h.owner? s name = some s := by
  rw [owner?, if_pos hs]

theorem owner?_of_enclosing {h : Heap} {s p : Nat} {name : String} (hs : h.own? s name = none)
    (hp : (h.enclosing? s).map (·.1) = some p) : h.owner? s name = h.owner? p name := by
  obtain ⟨q, hq, rfl⟩ := Option.map_eq_some_iff.1 hp
  rw [owner?, hs, hq]
  rfl

theorem owner?_of_outermost {h : Heap} {s : Nat} {name : String} (hs : h.own? s name = none)
    (hp : (h.enclosing? s).map (·.1) = none) : h.owner? s name = none := by
  rw [owner?, hs, Option.map_eq_none_iff.1 hp]
  rfl

theorem owner?_le {h : Heap} {s o : Nat} {name : String} (ho : h.owner? s name = some o) : o ≤ s := by
  fun_induction owner? h s name with
  | case1 s hs =>
    cases ho
    exact Nat.le_refl _
  | case2 s hs p hp he ih => exact Nat.le_trans (ih ho) (Nat.le_of_lt hp)
  | case3 => cases ho

theorem root_of_enclosing {h : Heap} {s p : Nat} (hp : (h.enclosing? s).map (·.1) = some p) :
    h.root s = h.root p := by
  obtain ⟨q, hq, rfl⟩ := Option.map_eq_some_iff.1 hp
  rw [root, hq]

theorem root_of_outermost {h : Heap} {s : Nat} (hp : (h.enclosing? s).map (·.1) = none) :
    h.root s = s := by
  rw [root, Option.map_eq_none_iff.1 hp]

end Heap

/-! ## Owners of names -/

namespace ScopeChain

variable {C : ScopeChain} {p : Nat} {h : Heap} {s : Nat} {name : String}

/-- A scope of the chain is the innermost one of a part of the chain. -/
theorem exists_top (hs : s ∈ C.inner) : ∃ pre cs, C.chain = pre ++ cs ∧ C.top cs = s := by
  rcases List.mem_append.1 hs with hs | hs
  · obtain ⟨c, hc, rfl⟩ := List.mem_map.1 hs
    obtain ⟨pre, cs, hsplit⟩ := List.append_of_mem hc
    exact ⟨pre, c :: cs, hsplit, rfl⟩
  · exact ⟨C.chain, [], (List.append_nil _).symm, (List.mem_singleton.1 hs).symm⟩

theorem namesInside_append {pre cs : List (Nat × String)} (hs : C.top cs ∉ pre.map (·.1)) :
    namesInside (C.top cs) (pre ++ cs) = pre.map (·.2) ++ namesInside (C.top cs) cs := by
  induction pre with
  | nil => rfl
  | cons c pre ih =>
    rw [List.map_cons, List.mem_cons, not_or] at hs
    rw [List.cons_append, namesInside, if_neg (Ne.symm hs.1), ih hs.2]
    rfl

theorem namesInside_top (hnodup : C.inner.Nodup) {pre cs : List (Nat × String)} (hsplit : C.chain = pre ++ cs) :
    namesInside (C.top cs) C.chain = pre.map (·.2) := by
  rw [inner, hsplit, List.map_append, List.append_assoc] at hnodup
  have hnot : C.top cs ∉ pre.map (·.1) := fun hmem => by
    refine (List.nodup_append.1 hnodup).2.2 _ hmem _ ?_ rfl
    cases cs with
    | nil => exact List.mem_singleton_self _
    | cons c cs => exact List.mem_cons_self
  have hbottom : cs = [] → namesInside (C.top cs) cs = [] := fun hcs => by rw [hcs]; rfl
  rw [hsplit, namesInside_append hnot]
  cases cs with
  | nil => exact List.append_nil _
  | cons c cs =>
    rw [namesInside, if_pos (show c.1 = C.top (c :: cs) from rfl), List.append_nil]

theorem hides_of_mem (hs : s ∈ C.inner) :
    C.hides h s name = (namesInside s C.chain).contains name := by
  rw [hides, if_pos hs]

theorem own?_of_chained {c : Nat × String} {cs : List (Nat × String)} (hc : C.Chained h (c :: cs)) :
    (h.own? c.1 name).isSome = (c.2 == name) := by
  obtain ⟨-, ⟨k, v, hbindings, htext⟩, -⟩ := hc
  rw [Heap.own?, hbindings, Heap.bound?, htext]
  by_cases hname : c.2 = name
  · rw [if_pos hname, hname]
    simp
  · rw [if_neg hname, Heap.bound?]
    simp [hname]

/-- A name is looked up in the scopes of the chain first, and then around them. -/
theorem owner?_top (hbottom : (h.scopeAt C.bottom).bindings = [])
    (hp : (h.enclosing? C.bottom).map (·.1) = some p) : ∀ {cs : List (Nat × String)}, C.Chained h cs →
    h.owner? (C.top cs) name = ((cs.find? (·.2 == name)).map (·.1)).or (h.owner? p name)
  | [], _ => by
    have hnone : h.own? C.bottom name = none := by rw [Heap.own?, hbottom, Heap.bound?]
    exact Heap.owner?_of_enclosing hnone hp
  | c :: cs, hc => by
    have hown : (h.own? c.1 name).isSome = (c.2 == name) := own?_of_chained hc
    show h.owner? c.1 name = _
    by_cases hname : (c.2 == name) = true
    · rw [hname] at hown
      rw [Heap.owner?_of_own? hown, List.find?_cons, hname]
      rfl
    · rw [Bool.eq_false_iff.2 hname] at hown
      rw [Heap.owner?_of_enclosing (Option.isNone_iff_eq_none.1 (by simpa using hown)) hc.1,
        owner?_top hbottom hp hc.2.2, List.find?_cons, Bool.eq_false_iff.2 hname]

theorem hides_old {old : Nat} (hold : ∀ s ∈ C.inner, old ≤ s) (name : String) :
    ∀ s < old, C.hides h s name = false := by
  intro s hs
  induction s using Nat.strongRecOn with
  | ind s ih =>
    rw [hides, if_neg fun hmem => Nat.not_lt.2 (hold s hmem) hs]
    split
    · rfl
    · split
      · next q hq _ => exact ih q hq (Nat.lt_trans hq hs)
      · rfl

theorem Chained.suffix : ∀ {pre cs : List (Nat × String)}, C.Chained h (pre ++ cs) → C.Chained h cs
  | [], _, hc => hc
  | _ :: _, _, hc => Chained.suffix hc.2.2

theorem own?_of_owner? (hc : C.Chained h C.chain) {c : Nat × String} (how : C.owner? name = some c) :
    c.1 ∈ C.inner ∧ (h.own? c.1 name).isSome := by
  have hmem := List.mem_of_find?_eq_some how
  obtain ⟨pre, cs, hsplit⟩ := List.append_of_mem hmem
  rw [hsplit] at hc
  have hown : (h.own? c.1 name).isSome = (c.2 == name) := own?_of_chained hc.suffix
  rw [List.find?_some how] at hown
  exact ⟨List.mem_append_left _ (List.mem_map_of_mem hmem), hown⟩

/-- Asked for a name that is not hidden, a scope of the chain goes to the owner. -/
theorem find?_of_hides (hnodup : C.inner.Nodup) {pre cs : List (Nat × String)} (hsplit : C.chain = pre ++ cs)
    (hs : C.top cs ∈ C.inner) (hhides : C.hides h (C.top cs) name = false) :
    C.owner? name = cs.find? (·.2 == name) := by
  rw [hides_of_mem hs, namesInside_top hnodup hsplit] at hhides
  have hnone : pre.find? (·.2 == name) = none := by
    refine List.find?_eq_none.2 fun c hc hname => ?_
    have hmem : name ∈ pre.map (·.2) := List.mem_map.2 ⟨c, hc, beq_iff_eq.1 hname⟩
    rw [List.contains_iff_mem.2 hmem] at hhides
    cases hhides
  rw [owner?, hsplit, List.find?_append, hnone, Option.none_or]

theorem root_top (hp : (h.enclosing? C.bottom).map (·.1) = some p) :
    ∀ {cs : List (Nat × String)}, C.Chained h cs → h.root (C.top cs) = h.root p
  | [], _ => Heap.root_of_enclosing hp
  | _ :: _, hc => (Heap.root_of_enclosing hc.1).trans (root_top hp hc.2.2)

theorem Chained.congr {g : Heap} (hscope : ∀ s ∈ C.inner, g.scopeAt s = h.scopeAt s) :
    ∀ {cs : List (Nat × String)}, (∀ c ∈ cs, c.1 ∈ C.inner) → C.Chained h cs → C.Chained g cs
  | [], _, _ => trivial
  | c :: cs, hcs, hc => by
    obtain ⟨hmem, hcs⟩ := List.forall_mem_cons.1 hcs
    have henclosing : g.enclosing? c.1 = h.enclosing? c.1 :=
      Heap.enclosing?_congr (congrArg ScopeObject.parent (hscope c.1 hmem))
    refine ⟨?_, ?_, Chained.congr hscope hcs hc.2.2⟩
    · rw [henclosing]
      exact hc.1
    · rw [hscope c.1 hmem]
      exact hc.2.1

/-- The chain stays when a name is bound again in a scope that binds it. -/
theorem Chained.define {x : Str} {v : Value} (hs : s < h.scopes.size)
    (hown : (h.own? s x.text).isSome) :
    ∀ {cs : List (Nat × String)}, C.Chained h cs → C.Chained (h.define s x v) cs
  | [], _ => trivial
  | c :: cs, ⟨hparent, ⟨k, w, hbindings, htext⟩, hc⟩ => by
    refine ⟨?_, ?_, Chained.define hs hown hc⟩
    · rw [Heap.enclosing?_define]
      exact hparent
    · by_cases hcs : s = c.1
      · subst hcs
        have hname : k.text = x.text := Decidable.byContradiction fun hne => by
          rw [Heap.own?, hbindings, Heap.bound?, if_neg hne] at hown
          cases hown
        refine ⟨k, v, ?_, htext⟩
        rw [Heap.bindings_define hs, hbindings, Heap.bind, if_pos hname]
      · refine ⟨k, w, ?_, htext⟩
        rw [Heap.scopeAt_define_of_ne hcs, hbindings]

theorem ne_bottom_of_owner? (hnodup : C.inner.Nodup) {c : Nat × String}
    (how : C.owner? name = some c) : c.1 ≠ C.bottom := fun heq => by
  refine (List.nodup_append.1 hnodup).2.2 c.1 ?_ C.bottom (List.mem_singleton_self _) heq
  exact List.mem_map_of_mem (List.mem_of_find?_eq_some how)

theorem mem_inner_of_chain {c : Nat × String} (hc : c ∈ C.chain) : c.1 ∈ C.inner :=
  List.mem_append_left _ (List.mem_map_of_mem hc)

theorem bottom_mem : C.bottom ∈ C.inner := List.mem_append_right _ (List.mem_singleton_self _)

end ScopeChain

namespace Nest

open ScopeChain

variable {N : Nest} {ρ : Region} {p : Nat} {h h' : Heap} {s : Nat} {name : String}

theorem image_of_mem (hs : s ∈ N.inner) : N.image s = N.flat := if_pos hs

theorem image_of_not_mem (hs : s ∉ N.inner) : N.image s = N.twin s := if_neg hs

theorem Proper.not_mem_of_lt (hN : N.Proper) (hs : s < N.old) : s ∉ N.inner :=
  fun hmem => Nat.not_lt.2 (hN.old_le s hmem) hs

namespace Linked

theorem own?_twin (hl : N.Linked ρ p h h') (hs : s ∉ N.inner) :
    h'.own? (N.twin s) name = h.own? s name := by
  rw [Heap.own?, Heap.own?, hl.bindings s hs]

variable (hN : N.Proper) (hl : N.Linked ρ p h h')
include hN hl

/-- A name is owned by corresponding scopes. -/
theorem owner?_image : ∀ s, N.hides h s name = false →
    h'.owner? (N.image s) name = (h.owner? s name).map N.image := by
  intro s hhides
  induction s using Nat.strongRecOn with
  | ind s ih =>
    by_cases hs : s ∈ N.inner
    · obtain ⟨pre, cs, hsplit, rfl⟩ := exists_top hs
      have hchained := hl.chained
      have hfind := find?_of_hides hN.nodup hsplit hs hhides
      have houter : h'.owner? (N.twin p) name = (h.owner? p name).map N.image := by
        rw [← image_of_not_mem (hN.not_mem_of_lt hl.outer)]
        exact ih p (Nat.lt_of_lt_of_le hl.outer (hN.old_le _ hs)) (hides_old hN.old_le name p hl.outer)
      rw [hsplit] at hchained
      rw [image_of_mem hs, owner?_top hl.bottom.1 hl.bottom.2 hchained.suffix, ← hfind]
      rcases hl.flat with ⟨hnil, hflat⟩ | ⟨-, henclosing, hown⟩
      · rw [owner?, hnil, hflat, houter]
        rfl
      · specialize hown name
        cases how : N.owner? name with
        | none =>
          rw [how] at hown
          rw [Heap.owner?_of_enclosing hown henclosing, houter]
          rfl
        | some c =>
          obtain ⟨hmem, hsome⟩ := own?_of_owner? hl.chained how
          rw [how] at hown
          rw [Heap.owner?_of_own? (by rw [hown]; exact hsome)]
          exact congrArg some (image_of_mem hmem).symm
    · have hown : h'.own? (N.twin s) name = h.own? s name := own?_twin hl hs
      have hsame := hl.enclosing s hs
      rw [image_of_not_mem hs]
      rw [hides, if_neg hs] at hhides
      cases hname : h.own? s name with
      | some v =>
        rw [Heap.owner?_of_own? (by rw [hown, hname]; rfl), Heap.owner?_of_own? (by rw [hname]; rfl),
          Option.map_some, image_of_not_mem hs]
      | none =>
        rw [hname] at hown hhides
        cases hq : h.enclosing? s with
        | none =>
          rw [hq] at hsame
          rw [Heap.owner?_of_outermost hown hsame, Heap.owner?_of_outermost hname (by rw [hq]; rfl)]
          rfl
        | some q =>
          rw [hq] at hsame hhides
          rw [Heap.owner?_of_enclosing hown hsame,
            Heap.owner?_of_enclosing hname (show _ = some q.1 by rw [hq]; rfl)]
          exact ih q.1 q.2 hhides

theorem root_image : ∀ s, h'.root (N.image s) = N.twin (h.root s) ∧ h.root s ∉ N.inner := by
  intro s
  induction s using Nat.strongRecOn with
  | ind s ih =>
    by_cases hs : s ∈ N.inner
    · obtain ⟨pre, cs, hsplit, rfl⟩ := exists_top hs
      have hchained := hl.chained
      rw [hsplit] at hchained
      have houter := ih p (Nat.lt_of_lt_of_le hl.outer (hN.old_le _ hs))
      rw [image_of_not_mem (hN.not_mem_of_lt hl.outer)] at houter
      have hflat : h'.root N.flat = h'.root (N.twin p) := by
        rcases hl.flat with ⟨-, hflat⟩ | ⟨-, henclosing, -⟩
        · rw [hflat]
        · exact Heap.root_of_enclosing henclosing
      rw [image_of_mem hs, root_top hl.bottom.2 hchained.suffix, hflat]
      exact houter
    · have hsame := hl.enclosing s hs
      rw [image_of_not_mem hs]
      cases hq : h.enclosing? s with
      | none =>
        rw [hq] at hsame
        rw [Heap.root_of_outermost hsame, Heap.root_of_outermost (by rw [hq]; rfl)]
        exact ⟨rfl, hs⟩
      | some q =>
        rw [hq] at hsame
        rw [Heap.root_of_enclosing hsame, Heap.root_of_enclosing (h := h) (s := s) (p := q.1) (by rw [hq]; rfl)]
        exact ih q.1 q.2

/-- An owner of the chain is the innermost scope that has the name. -/
theorem owner?_of_mem {o : Nat} (ho : o ∈ N.inner) : ∀ s, N.hides h s name = false →
    h.owner? s name = some o → ∃ c, N.owner? name = some c ∧ c.1 = o := by
  intro s hhides how
  induction s using Nat.strongRecOn with
  | ind s ih =>
    by_cases hs : s ∈ N.inner
    · obtain ⟨pre, cs, hsplit, rfl⟩ := exists_top hs
      have hchained := hl.chained
      have hfind := find?_of_hides hN.nodup hsplit hs hhides
      rw [hsplit] at hchained
      rw [owner?_top hl.bottom.1 hl.bottom.2 hchained.suffix, ← hfind] at how
      cases hc : N.owner? name with
      | none =>
        rw [hc] at how
        have hle := Nat.lt_of_le_of_lt (Heap.owner?_le how) hl.outer
        exact absurd ho (hN.not_mem_of_lt hle)
      | some c =>
        rw [hc] at how
        exact ⟨c, rfl, Option.some.inj how⟩
    · rw [hides, if_neg hs] at hhides
      cases hname : h.own? s name with
      | some v =>
        rw [Heap.owner?_of_own? (by rw [hname]; rfl)] at how
        cases how
        exact absurd ho hs
      | none =>
        rw [hname] at hhides
        cases hq : h.enclosing? s with
        | none =>
          rw [Heap.owner?_of_outermost hname (by rw [hq]; rfl)] at how
          cases how
        | some q =>
          rw [hq] at hhides
          rw [Heap.owner?_of_enclosing (h := h) (s := s) (p := q.1) hname (by rw [hq]; rfl)] at how
          exact ih q.1 q.2 hhides how

theorem lookup?_image (hhides : N.hides h s name = false) :
    h'.lookup? (N.image s) name = h.lookup? s name ∧
      ∀ v, h.lookup? s name = some v → ρ.Covers v := by
  refine ⟨?_, fun v hv => ?_⟩
  · rw [Heap.lookup?, Heap.lookup?, hl.owner?_image hN s hhides]
    cases how : h.owner? s name with
    | none => rfl
    | some o =>
      show h'.own? (N.image o) name = h.own? o name
      by_cases ho : o ∈ N.inner
      · obtain ⟨c, hc, rfl⟩ := hl.owner?_of_mem hN ho s hhides how
        rcases hl.flat with ⟨hnil, -⟩ | ⟨-, -, hown⟩
        · rw [owner?, hnil] at hc
          cases hc
        · rw [image_of_mem ho, hown, hc]
          rfl
      · rw [image_of_not_mem ho, hl.own?_twin ho]
  · obtain ⟨o, -, hbound⟩ := Option.bind_eq_some_iff.1 hv
    exact Region.covers_bound? (hl.covered o) hbound

end Linked

/-! ## Changes of both heaps -/

namespace Linked

/-- The chain and the scope that stands for it stay when they are not changed. -/
theorem flat_congr {g g' : Heap} (hl : N.Linked ρ p h h')
    (hscope : ∀ s ∈ N.inner, g.scopeAt s = h.scopeAt s)
    (hflat : (∀ s ∉ N.inner, N.twin s ≠ N.flat) → g'.scopeAt N.flat = h'.scopeAt N.flat) :
    (N.chain = [] ∧ N.flat = N.twin p) ∨ (∀ s ∉ N.inner, N.twin s ≠ N.flat) ∧
      (g'.enclosing? N.flat).map (·.1) = some (N.twin p) ∧
      ∀ name, g'.own? N.flat name = (N.owner? name).bind fun c => g.own? c.1 name := by
  refine hl.flat.imp_right fun ⟨hne, henclosing, hown⟩ => ⟨hne, ?_, fun name => ?_⟩
  · rw [Heap.enclosing?_congr (congrArg ScopeObject.parent (hflat hne)), henclosing]
  · rw [Heap.own?, hflat hne]
    refine (hown name).trans (Option.bind_congr fun c hc => ?_)
    rw [Heap.own?, Heap.own?, hscope c.1 (mem_inner_of_chain (List.mem_of_find?_eq_some hc))]

/-- Heaps that have the same scopes inside the same ones stay linked when what is bound in them
corresponds. -/
theorem of_bindings {g g' : Heap} (hl : N.Linked ρ p h h')
    (hsize : g.scopes.size = h.scopes.size) (hsize' : g'.scopes.size = h'.scopes.size)
    (hparent : ∀ t, g.enclosing? t = h.enclosing? t)
    (hparent' : ∀ t, g'.enclosing? t = h'.enclosing? t)
    (hcovered : ∀ t, ∀ b ∈ (g.scopeAt t).bindings, ρ.Covers b.2)
    (hbindings : ∀ t ∉ N.inner, (g'.scopeAt (N.twin t)).bindings = (g.scopeAt t).bindings)
    (hchained : N.Chained g N.chain) (hbottom : (g.scopeAt N.bottom).bindings = [])
    (hflat : (N.chain = [] ∧ N.flat = N.twin p) ∨ (∀ s ∉ N.inner, N.twin s ≠ N.flat) ∧
      (g'.enclosing? N.flat).map (·.1) = some (N.twin p) ∧
      ∀ name, g'.own? N.flat name = (N.owner? name).bind fun c => g.own? c.1 name) :
    N.Linked ρ p g g' where
  covered := hcovered
  grown := by
    rw [hsize, hsize']
    exact hl.grown
  image_lt := by
    rw [hsize, hsize']
    exact hl.image_lt
  old_le := by
    rw [hsize]
    exact hl.old_le
  inner_lt := by
    rw [hsize]
    exact hl.inner_lt
  bindings := hbindings
  enclosing t ht := by rw [hparent, hparent', hl.enclosing t ht]
  chained := hchained
  outer := hl.outer
  bottom := ⟨hbottom, by rw [hparent, hl.bottom.2]⟩
  flat := hflat

theorem covered_define (hl : N.Linked ρ p h h') (s : Nat) (x : Str) {v : Value} (hv : ρ.Covers v)
    (t : Nat) : ∀ b ∈ ((h.define s x v).scopeAt t).bindings, ρ.Covers b.2 := by
  by_cases hst : s = t
  · subst hst
    by_cases hlt : s < h.scopes.size
    · rw [Heap.bindings_define hlt]
      exact Region.covers_bind hv (hl.covered s)
    · rw [Heap.define_of_le (Nat.le_of_not_lt hlt)]
      exact hl.covered s
  · rw [Heap.scopeAt_define_of_ne hst]
    exact hl.covered t

/-- The number of a scope is in bounds on one side when it is on the other. -/
theorem image_lt_iff (hl : N.Linked ρ p h h') (s : Nat) :
    N.image s < h'.scopes.size ↔ s < h.scopes.size := by
  refine ⟨fun hlt => Nat.lt_of_not_le fun hge => ?_, hl.image_lt s⟩
  obtain ⟨k, rfl⟩ := Nat.exists_eq_add_of_le hge
  have hout : h.scopes.size + k ∉ N.inner := fun hmem => Nat.not_lt.2 hge (hl.inner_lt _ hmem)
  rw [image_of_not_mem hout, hl.grown] at hlt
  omega

theorem newScope (hN : N.Proper) (hl : N.Linked ρ p h h') (q : Nat) :
    N.Linked ρ p (h.newScope (some q)).2 (h'.newScope (some (N.image q))).2 := by
  have hsize : (h.newScope (some q)).2.scopes.size = h.scopes.size + 1 := Array.size_push _
  have hsize' : (h'.newScope (some (N.image q))).2.scopes.size = h'.scopes.size + 1 := Array.size_push _
  have hnew : h.scopes.size ∉ N.inner := fun hmem => Nat.lt_irrefl _ (hl.inner_lt _ hmem)
  have htwin : N.twin h.scopes.size = h'.scopes.size := hl.grown 0
  have hinner : ∀ s ∈ N.inner, (h.newScope (some q)).2.scopeAt s = h.scopeAt s := fun s hs => by
    rw [Heap.scopeAt_newScope_eq, if_neg (Nat.ne_of_lt (hl.inner_lt s hs))]
  have hother : ∀ s ∉ N.inner, s ≠ h.scopes.size → N.twin s ≠ h'.scopes.size := fun s hs hne heq =>
    hne (hN.twin_inj s _ hs hnew (heq.trans htwin.symm))
  exact {
    covered := fun s b hb => by
      rw [Heap.scopeAt_newScope_eq] at hb
      split at hb
      · cases hb
      · exact hl.covered s b hb
    grown := fun k => by
      rw [hsize, hsize', Nat.add_assoc, hl.grown, Nat.add_assoc]
    image_lt := fun s hs => by
      rw [hsize] at hs
      rw [hsize']
      rcases Nat.lt_succ_iff_lt_or_eq.1 hs with hlt | rfl
      · exact Nat.lt_succ_of_lt (hl.image_lt s hlt)
      · rw [image_of_not_mem hnew, htwin]
        exact Nat.lt_succ_self _
    old_le := Nat.le_trans hl.old_le (by omega)
    inner_lt := fun s hs => Nat.lt_of_lt_of_le (hl.inner_lt s hs) (by omega)
    bindings := fun s hs => by
      rw [Heap.scopeAt_newScope_eq, Heap.scopeAt_newScope_eq]
      by_cases hne : s = h.scopes.size
      · rw [hne, if_pos htwin, if_pos rfl]
      · rw [if_neg (hother s hs hne), if_neg hne, hl.bindings s hs]
    enclosing := fun s hs => by
      by_cases hne : s = h.scopes.size
      · have hlt := hl.image_lt_iff q
        rw [hne, htwin, Heap.enclosing?, Heap.enclosing?, Heap.scopeAt_newScope_eq,
          Heap.scopeAt_newScope_eq, if_pos rfl, if_pos rfl]
        by_cases hq : q < h.scopes.size
        · simp only [dif_pos hq, dif_pos (hlt.2 hq)]
          rfl
        · simp only [dif_neg hq, dif_neg (mt hlt.1 hq)]
          rfl
      · have hsame : (h.newScope (some q)).2.enclosing? s = h.enclosing? s :=
          Heap.enclosing?_congr (by rw [Heap.scopeAt_newScope_eq, if_neg hne])
        have hsame' : (h'.newScope (some (N.image q))).2.enclosing? (N.twin s) =
            h'.enclosing? (N.twin s) :=
          Heap.enclosing?_congr (by rw [Heap.scopeAt_newScope_eq, if_neg (hother s hs hne)])
        rw [hsame, hsame', hl.enclosing s hs]
    chained := hl.chained.congr hinner fun _ => mem_inner_of_chain
    outer := hl.outer
    bottom := by
      rw [hinner _ bottom_mem, Heap.enclosing?_congr (congrArg ScopeObject.parent (hinner _ bottom_mem))]
      exact hl.bottom
    flat := hl.flat_congr hinner fun hne => by
      rw [Heap.scopeAt_newScope_eq, if_neg fun heq => hne _ hnew (htwin.trans heq.symm)] }

theorem define (hN : N.Proper) (hl : N.Linked ρ p h h') (hs : s ∉ N.inner) (x : Str) {v : Value}
    (hv : ρ.Covers v) : N.Linked ρ p (h.define s x v) (h'.define (N.twin s) x v) := by
  have hinner : ∀ t ∈ N.inner, (h.define s x v).scopeAt t = h.scopeAt t := fun t ht =>
    Heap.scopeAt_define_of_ne (fun heq : s = t => hs (heq ▸ ht)) x v
  have hbound := hl.image_lt_iff s
  rw [image_of_not_mem hs] at hbound
  refine hl.of_bindings (Heap.size_scopes_define ..) (Heap.size_scopes_define ..)
    (fun t => Heap.enclosing?_define h s t x v) (fun t => Heap.enclosing?_define h' _ t x v)
    (hl.covered_define s x hv) (fun t ht => ?_)
    (hl.chained.congr hinner fun _ => mem_inner_of_chain) ?_
    (hl.flat_congr hinner fun hne => Heap.scopeAt_define_of_ne (hne s hs) x v)
  · by_cases hst : s = t
    · subst hst
      by_cases hlt : s < h.scopes.size
      · rw [Heap.bindings_define hlt, Heap.bindings_define (hbound.2 hlt), hl.bindings s hs]
      · rw [Heap.define_of_le (Nat.le_of_not_lt hlt),
          Heap.define_of_le (Nat.le_of_not_lt (mt hbound.1 hlt)), hl.bindings s hs]
    · have hne : N.twin s ≠ N.twin t := fun heq => hst (hN.twin_inj s t hs ht heq)
      rw [Heap.scopeAt_define_of_ne hst, Heap.scopeAt_define_of_ne hne, hl.bindings t ht]
  · rw [hinner _ bottom_mem]
    exact hl.bottom.1

/-- The scope that stands for the chain binds a name that the chain has as its owner does. -/
theorem own?_define_owner (hflat : N.flat < h'.scopes.size)
    (hown : ∀ name, h'.own? N.flat name = (N.owner? name).bind fun c => h.own? c.1 name) {x : Str}
    {c : Nat × String} (hc : c.1 < h.scopes.size) (how : N.owner? x.text = some c) (v : Value)
    (name : String) :
    (h'.define N.flat x v).own? N.flat name
      = (N.owner? name).bind fun d => (h.define c.1 x v).own? d.1 name := by
  rw [Heap.own?_define hflat]
  by_cases hname : x.text = name
  · rw [if_pos hname, ← hname, how, Option.bind_some, Heap.own?_define hc, if_pos rfl]
  · rw [if_neg hname, hown]
    refine Option.bind_congr fun d _ => ?_
    by_cases hd : c.1 = d.1
    · rw [← hd, Heap.own?_define hc, if_neg hname]
    · rw [Heap.own?_define_of_ne hd]

/-- A name that the chain has is bound in the scope that owns it and in the one that stands for it. -/
theorem defineOwner (hN : N.Proper) (hl : N.Linked ρ p h h') {x : Str} {c : Nat × String}
    (how : N.owner? x.text = some c) {v : Value} (hv : ρ.Covers v) :
    N.Linked ρ p (h.define c.1 x v) (h'.define N.flat x v) := by
  obtain ⟨hmem, hsome⟩ := own?_of_owner? hl.chained how
  have hlt := hl.inner_lt c.1 hmem
  have hlt' := hl.image_lt c.1 hlt
  rw [image_of_mem hmem] at hlt'
  rcases hl.flat with ⟨hnil, -⟩ | ⟨hne, houter, hown⟩
  · rw [owner?, hnil] at how
    cases how
  refine hl.of_bindings (Heap.size_scopes_define ..) (Heap.size_scopes_define ..)
    (fun t => Heap.enclosing?_define h c.1 t x v) (fun t => Heap.enclosing?_define h' _ t x v)
    (hl.covered_define c.1 x hv) (fun t ht => ?_) (hl.chained.define hlt hsome) ?_
    (.inr ⟨hne, ?_, own?_define_owner hlt' hown hlt how v⟩)
  · rw [Heap.scopeAt_define_of_ne (fun heq : c.1 = t => ht (heq ▸ hmem)),
      Heap.scopeAt_define_of_ne (Ne.symm (hne t ht)), hl.bindings t ht]
  · rw [Heap.scopeAt_define_of_ne (ne_bottom_of_owner? hN.nodup how)]
    exact hl.bottom.1
  · rw [Heap.enclosing?_define]
    exact houter

theorem assign (hN : N.Proper) (hl : N.Linked ρ p h h') {x : Str} (hhides : N.hides h s x.text = false)
    {v : Value} (hv : ρ.Covers v) : N.Linked ρ p (h.assign s x v) (h'.assign (N.image s) x v) := by
  rw [Heap.assign, Heap.assign, hl.owner?_image hN s hhides]
  cases how : h.owner? s x.text with
  | none =>
    obtain ⟨hroot, hout⟩ := hl.root_image hN s
    show N.Linked ρ p (h.define (h.root s) x v) (h'.define (h'.root (N.image s)) x v)
    rw [hroot]
    exact hl.define hN hout x hv
  | some o =>
    show N.Linked ρ p (h.define o x v) (h'.define (N.image o) x v)
    by_cases ho : o ∈ N.inner
    · obtain ⟨c, hc, rfl⟩ := hl.owner?_of_mem hN ho s hhides how
      rw [image_of_mem ho]
      exact hl.defineOwner hN hc hv
    · rw [image_of_not_mem ho]
      exact hl.define hN ho x hv

theorem congr {g g' : Heap} (hl : N.Linked ρ p h h') (hg : g.scopes = h.scopes)
    (hg' : g'.scopes = h'.scopes) : N.Linked ρ p g g' := by
  have hscope : ∀ t, g.scopeAt t = h.scopeAt t := Heap.scopeAt_congr hg
  have hscope' : ∀ t, g'.scopeAt t = h'.scopeAt t := Heap.scopeAt_congr hg'
  exact hl.of_bindings (congrArg Array.size hg) (congrArg Array.size hg')
    (fun t => Heap.enclosing?_congr (congrArg ScopeObject.parent (hscope t)))
    (fun t => Heap.enclosing?_congr (congrArg ScopeObject.parent (hscope' t)))
    (fun t => by
      rw [hscope]
      exact hl.covered t)
    (fun t ht => by rw [hscope, hscope', hl.bindings t ht])
    (hl.chained.congr (fun t _ => hscope t) fun _ => mem_inner_of_chain)
    (by
      rw [hscope]
      exact hl.bottom.1)
    (hl.flat_congr (fun t _ => hscope t) fun _ => hscope' _)

end Linked

end Nest

end Sigil
