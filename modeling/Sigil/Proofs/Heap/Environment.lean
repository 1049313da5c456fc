import Sigil.Eval.SpecialForm
import Sigil.Proofs.Eval.Bindings

/-!
# Scopes as environments

A heap holds a forest of scopes. What a scope sees is decided by its chain (`Heap.chain`), from the
scope itself to the outermost one, and by what each scope of the chain binds itself. A write changes
what one scope binds one name to (`ScopeWrite.apply`), and never where a scope lies; so a sequence of
writes to a heap is the same sequence of updates of a function (`own?_writes`), and each heap on the
way obeys the laws of environments (`EnvironmentLaws`).
-/

namespace Sigil

open Eval

namespace Heap

/-! ## Chains -/

/-- A scope and those that it lies in, from inside to outside. -/
def chain (h : Heap) (s : Nat) : List Nat :=
  match h.enclosing? s with
  | some ⟨p, _⟩ => s :: chain h p
  | none => [s]
termination_by s

/-- The scope `t` is on the chain of `s`, and no scope before it owns the name. -/
def Sees (h : Heap) (s : Nat) (name : String) (t : Nat) : Prop :=
  ∃ inner outer, h.chain s = inner ++ t :: outer ∧ ∀ u ∈ inner, h.own? u name = none

/-- The nearest scope on the chain of `s` that owns the name is `t`. -/
def NearestOwner (h : Heap) (s : Nat) (name : String) (t : Nat) : Prop :=
  h.Sees s name t ∧ (h.own? t name).isSome

variable {h h' : Heap} {s t : Nat} {name : String} {v : Value}

theorem owner?_eq_find? (h : Heap) (s : Nat) (name : String) :
    h.owner? s name = (h.chain s).find? fun t => (h.own? t name).isSome := by
  fun_induction chain h s with
  | case1 s p hp he ih =>
    rw [owner?, he, List.find?_cons]
    cases hown : (h.own? s name).isSome with
    | true => rfl
    | false => exact ih
  | case2 s he =>
    rw [owner?, he, List.find?_singleton]

theorem getLast?_chain (h : Heap) (s : Nat) : (h.chain s).getLast? = some (h.root s) := by
  fun_induction chain h s with
  | case1 s p hp he ih =>
    rw [root, he, List.getLast?_cons, ih]
    rfl
  | case2 s he =>
    rw [root, he]
    rfl

/-- A chain depends on where its scopes lie only, none of which is younger than the first. -/
theorem chain_congr (hpar : ∀ t ≤ s, (h'.scopeAt t).parent = (h.scopeAt t).parent) :
    h'.chain s = h.chain s := by
  fun_induction chain h s with
  | case1 s p hp he ih =>
    rw [chain, enclosing?_congr (hpar s (Nat.le_refl _)), he]
    exact congrArg (s :: ·) (ih fun t ht => hpar t (Nat.le_trans ht (Nat.le_of_lt hp)))
  | case2 s he => rw [chain, enclosing?_congr (hpar s (Nat.le_refl _)), he]

theorem le_of_mem_chain (ht : t ∈ h.chain s) : t ≤ s := by
  fun_induction chain h s with
  | case1 s p hp he ih =>
    rcases List.mem_cons.1 ht with rfl | ht
    · exact Nat.le_refl _
    · exact Nat.le_trans (ih ht) (Nat.le_of_lt hp)
  | case2 s he => exact Nat.le_of_eq (List.mem_singleton.1 ht)

theorem pairwise_chain (h : Heap) (s : Nat) : (h.chain s).Pairwise (· > ·) := by
  fun_induction chain h s with
  | case1 s p hp he ih =>
    exact .cons (fun t ht => Nat.lt_of_le_of_lt (le_of_mem_chain ht) hp) ih
  | case2 s he => exact List.pairwise_singleton _ _

theorem owner?_eq_some_iff : h.owner? s name = some t ↔ h.NearestOwner s name t := by
  rw [owner?_eq_find?, List.find?_eq_some_iff_append, NearestOwner, Sees]
  constructor
  · rintro ⟨hown, inner, outer, heq, hinner⟩
    exact ⟨⟨inner, outer, heq, fun u hu => by simpa using hinner u hu⟩, hown⟩
  · rintro ⟨⟨inner, outer, heq, hinner⟩, hown⟩
    exact ⟨hown, inner, outer, heq, fun u hu => by simpa using hinner u hu⟩

theorem owner?_eq_none_iff : h.owner? s name = none ↔ ∀ t ∈ h.chain s, h.own? t name = none := by
  simp [owner?_eq_find?, List.find?_eq_none]

theorem lookup?_eq_findSome? (h : Heap) (s : Nat) (name : String) :
    h.lookup? s name = (h.chain s).findSome? fun t => h.own? t name := by
  rw [lookup?, owner?_eq_find?]
  induction h.chain s with
  | nil => rfl
  | cons t ts ih =>
    rw [List.find?_cons, List.findSome?_cons, ← ih]
    cases hown : h.own? t name with
    | some v => exact hown
    | none => rfl

theorem lookup?_of_own? (hv : h.own? s name = some v) : h.lookup? s name = some v := by
  rw [lookup?, owner?, if_pos (by rw [hv]; rfl)]
  exact hv

theorem lookup?_eq_some_iff :
    h.lookup? s name = some v ↔ ∃ t, h.NearestOwner s name t ∧ h.own? t name = some v := by
  simp only [lookup?, Option.bind_eq_some_iff, owner?_eq_some_iff]

theorem lt_of_lookup? (hv : h.lookup? s name = some v) : s < h.scopes.size := by
  refine Nat.lt_of_not_le fun hle => ?_
  have hscope : h.scopeAt s = ⟨[], none⟩ := by rw [scopeAt, Array.getElem?_eq_none hle]; rfl
  have hin : h.enclosing? s = none := by rw [enclosing?, hscope]
  have hown : h.own? s name = none := by rw [own?, hscope]; rfl
  rw [lookup?_eq_findSome?, chain, hin, List.findSome?_cons, hown] at hv
  cases hv

theorem lookup?_congr (hscope : ∀ t ≤ s, h'.scopeAt t = h.scopeAt t) (name : String) :
    h'.lookup? s name = h.lookup? s name := by
  have hown : ∀ t ∈ h.chain s, h'.own? t name = h.own? t name := fun t ht => by
    rw [own?, own?, hscope t (le_of_mem_chain ht)]
  have hchain : h'.chain s = h.chain s := chain_congr fun t ht => by rw [hscope t ht]
  rw [lookup?_eq_findSome?, lookup?_eq_findSome?, hchain]
  generalize h.chain s = ts at hown
  induction ts with
  | nil => rfl
  | cons t ts ih =>
    obtain ⟨ht, hts⟩ := List.forall_mem_cons.1 hown
    rw [List.findSome?_cons, List.findSome?_cons, ht, ih hts]

/-- The outermost scope is seen by a name that no scope of the chain owns. -/
theorem sees_root (hnone : h.owner? s name = none) : h.Sees s name (h.root s) := by
  obtain ⟨inner, heq⟩ := List.getLast?_eq_some_iff.1 (getLast?_chain h s)
  refine ⟨inner, [], heq, fun u hu => owner?_eq_none_iff.1 hnone u ?_⟩
  rw [heq]
  exact List.mem_append_left _ hu

end Heap

/-! ## Writes -/

/-- How a name is written: in the scope itself, or where it is bound. -/
inductive WriteKind where
  | set
  | assign

/-- A write to one of the first `n` scopes. -/
structure ScopeWrite (n : Nat) where
  kind : WriteKind
  scope : Fin n
  name : Str
  value : Value

namespace Heap

variable {n : Nat} {h : Heap}

def write (h : Heap) (w : ScopeWrite n) : Heap :=
  match w.kind with
  | .set => h.define w.scope w.name w.value
  | .assign => h.assign w.scope w.name w.value

def writes (h : Heap) (ws : List (ScopeWrite n)) : Heap := ws.foldl write h

end Heap

namespace ScopeWrite

variable {n : Nat}

/-- The scope that a write changes: the scope itself, or the nearest one on its chain that owns the
name, or else the last one of the chain. -/
def target (w : ScopeWrite n) (chain : List Nat) (own? : Nat → String → Option Value) : Nat :=
  match w.kind with
  | .set => w.scope
  | .assign =>
    (chain.find? fun t => (own? t w.name.text).isSome).getD (chain.getLast?.getD w.scope)

/-- A write as an update of what scopes bind names to, where scopes have these chains. -/
def apply (chain : Nat → List Nat) (own? : Nat → String → Option Value) (w : ScopeWrite n) :
    Nat → String → Option Value := fun t name =>
  if t = w.target (chain w.scope) own? ∧ name = w.name.text then some w.value else own? t name

end ScopeWrite

namespace Heap

variable {n : Nat} {h : Heap} {w : ScopeWrite n}

/-- The scope that a write to the heap changes. -/
def written (h : Heap) (w : ScopeWrite n) : Nat := w.target (h.chain w.scope) h.own?

theorem written_assign (hw : w.kind = .assign) :
    h.written w = (h.owner? w.scope w.name.text).getD (h.root w.scope) := by
  rw [written, ScopeWrite.target, hw]
  simp only
  rw [getLast?_chain, owner?_eq_find?, Option.getD_some]

theorem write_eq_define (h : Heap) (w : ScopeWrite n) :
    h.write w = h.define (h.written w) w.name w.value := by
  cases hw : w.kind with
  | set => simp only [write, written, ScopeWrite.target, hw]
  | assign =>
    rw [written_assign hw, write, hw]
    rfl

theorem sees_written (hw : w.kind = .assign) : h.Sees w.scope w.name.text (h.written w) := by
  rw [written_assign hw]
  cases how : h.owner? w.scope w.name.text with
  | some t => exact (owner?_eq_some_iff.1 how).1
  | none => exact sees_root how

theorem written_lt (hn : n ≤ h.scopes.size) : h.written w < h.scopes.size := by
  have hscope : w.scope < h.scopes.size := Nat.lt_of_lt_of_le w.scope.isLt hn
  cases hw : w.kind with
  | set => simpa only [written, ScopeWrite.target, hw] using hscope
  | assign =>
    obtain ⟨inner, outer, heq, -⟩ := sees_written (h := h) hw
    refine Nat.lt_of_le_of_lt (le_of_mem_chain (h := h) ?_) hscope
    rw [heq]
    exact List.mem_append_right _ List.mem_cons_self

/-! ## What one write keeps and changes -/

theorem chain_write (h : Heap) (w : ScopeWrite n) : (h.write w).chain = h.chain := by
  funext s
  rw [write_eq_define]
  exact chain_congr fun t _ => parent_define h _ _ _ t

theorem size_write (h : Heap) (w : ScopeWrite n) : (h.write w).scopes.size = h.scopes.size := by
  rw [write_eq_define, size_scopes_define]

/-- A write changes one binding. -/
theorem own?_write (hn : n ≤ h.scopes.size) : (h.write w).own? = w.apply h.chain h.own? := by
  funext t name
  rw [write_eq_define, ScopeWrite.apply, ← written]
  by_cases ht : t = h.written w
  · subst ht
    simp only [own?_define (written_lt hn), true_and, eq_comm]
  · rw [own?_define_of_ne (Ne.symm ht), if_neg fun hand => ht hand.1]

theorem own?_written (hn : n ≤ h.scopes.size) :
    (h.write w).own? (h.written w) w.name.text = some w.value := by
  rw [own?_write hn, ScopeWrite.apply, if_pos ⟨rfl, rfl⟩]

/-- The first value on a chain stays, where a value is changed that has another one before it. -/
theorem findSome?_congr_of_unseen {chain : List Nat} {f g : Nat → Option Value} {t : Nat}
    (heq : ∀ u, u ≠ t → g u = f u)
    (hunseen : ¬ ∃ inner outer, chain = inner ++ t :: outer ∧ ∀ u ∈ inner, f u = none) :
    chain.findSome? g = chain.findSome? f := by
  induction chain with
  | nil => rfl
  | cons a chain ih =>
    have hne : a ≠ t := by
      rintro rfl
      exact hunseen ⟨[], chain, rfl, fun _ hu => nomatch hu⟩
    rw [List.findSome?_cons, List.findSome?_cons, heq a hne]
    cases hf : f a with
    | some v => rfl
    | none =>
      refine ih ?_
      rintro ⟨inner, outer, rfl, hinner⟩
      exact hunseen ⟨a :: inner, outer, rfl, List.forall_mem_cons.2 ⟨hf, hinner⟩⟩

/-- What a scope looks up changes only by a write that it sees. -/
theorem sees_of_lookup?_ne (hn : n ≤ h.scopes.size) {s : Nat} {name : String}
    (hne : (h.write w).lookup? s name ≠ h.lookup? s name) :
    name = w.name.text ∧ h.Sees s name (h.written w) := by
  simp only [lookup?_eq_findSome?, chain_write, own?_write hn] at hne
  by_cases hname : name = w.name.text
  · refine ⟨hname, Classical.byContradiction fun hunseen => hne ?_⟩
    refine findSome?_congr_of_unseen (fun u hu => ?_) hunseen
    rw [ScopeWrite.apply, if_neg fun hand => hu hand.1]
  · refine absurd (congrArg (List.findSome? · _) (funext fun u => ?_)) hne
    rw [ScopeWrite.apply, if_neg fun hand => hname hand.2]

theorem lookup?_assign (hn : n ≤ h.scopes.size) (hw : w.kind = .assign) :
    (h.write w).lookup? w.scope w.name.text = some w.value := by
  obtain ⟨inner, outer, heq, hinner⟩ := sees_written hw
  have hlater := h.pairwise_chain w.scope
  rw [heq, List.pairwise_append] at hlater
  refine lookup?_eq_some_iff.2 ⟨h.written w, ?_, own?_written hn⟩
  refine ⟨⟨inner, outer, by rw [chain_write, heq], fun u hu => ?_⟩, by rw [own?_written hn]; rfl⟩
  have hne : h.written w < u := hlater.2.2 u hu _ List.mem_cons_self
  rw [own?_write hn, ScopeWrite.apply, if_neg fun hand => (Nat.ne_of_gt hne) hand.1, hinner u hu]

/-! ## Sequences of writes -/

theorem chain_writes (h : Heap) (ws : List (ScopeWrite n)) : (h.writes ws).chain = h.chain := by
  induction ws generalizing h with
  | nil => rfl
  | cons w ws ih => exact (ih (h.write w)).trans (chain_write h w)

theorem own?_writes (hn : n ≤ h.scopes.size) (ws : List (ScopeWrite n)) :
    (h.writes ws).own? = ws.foldl (ScopeWrite.apply h.chain) h.own? := by
  induction ws generalizing h with
  | nil => rfl
  | cons w ws ih =>
    have hrest := ih (h := h.write w) (by rw [size_write]; exact hn)
    rw [chain_write, own?_write hn] at hrest
    exact hrest

end Heap

/-! ## The laws -/

/-- What reading and writing scopes of a heap does. -/
structure Heap.EnvironmentLaws (h : Heap) : Prop where
  /-- A scope is asked for a name by a symbol or a string. It gives the value of the nearest scope on
  its chain that owns the name. -/
  get_iff : ∀ s (name : Str) v (m : Machine), ∀ key ∈ [Value.sym name, .str name],
    (Container.get (.scope s) key { m with heap := h } = .ok v { m with heap := h } ↔
      ∃ t, h.NearestOwner s name.text t ∧ h.own? t name.text = some v)
  /-- The fault is that no scope of the chain owns the name. -/
  unbound_iff : ∀ s (name : Str) (m : Machine), ∀ key ∈ [Value.sym name, .str name],
    (Container.get (.scope s) key { m with heap := h }
        = .error (.fault (.unboundSymbol name.text)) { m with heap := h } ↔
      ∀ t ∈ h.chain s, h.own? t name.text = none)
  /-- A symbol is evaluated in the same way, unless it is a constant. -/
  eval_eq : ∀ s (name : Str) (m : Machine), name.text ≠ "nil" → name.text ≠ "t" →
    Form.lookup name.text s { m with heap := h }
      = Container.get (.scope s) (.sym name) { m with heap := h }
  /-- Putting a value under a key is a write. -/
  put_eq : ∀ (s : Fin h.scopes.size) (name : Str) v (m : Machine), ∀ key ∈ [Value.sym name, .str name],
    Container.put (.scope s) key v { m with heap := h }
      = .ok () { m with heap := h.write ⟨.set, s, name, v⟩ }
  /-- It changes one binding of the scope itself. -/
  set_one : ∀ (s : Fin h.scopes.size) (name : Str) v t text,
    (h.write ⟨.set, s, name, v⟩).own? t text
      = if t = s ∧ text = name.text then some v else h.own? t text
  /-- An assignment changes one binding, of the nearest scope that owns the name or else of the
  outermost scope, and the name then has the new value. -/
  assign_one : ∀ (s : Fin h.scopes.size) (name : Str) v, ∃ o,
    (h.NearestOwner s name.text o ∨
      (∀ t ∈ h.chain s, h.own? t name.text = none) ∧ (h.chain s).getLast? = some o) ∧
    (∀ t text, (h.assign s name v).own? t text
      = if t = o ∧ text = name.text then some v else h.own? t text) ∧
    (h.assign s name v).lookup? s name.text = some v
  /-- What a scope looks up changes only if the written scope is on its chain, the name is the written
  one, and no nearer scope owns it. -/
  changes_only : ∀ (w : ScopeWrite h.scopes.size) s text,
    (h.write w).lookup? s text ≠ h.lookup? s text →
      text = w.name.text ∧ h.Sees s text (h.written w)

namespace Heap

theorem get_scope {h : Heap} (s : Nat) {name : Str} {key : Value}
    (hkey : key ∈ [Value.sym name, .str name]) (m : Machine) :
    Container.get (.scope s) key { m with heap := h } =
      match h.lookup? s name.text with
      | some v => .ok v { m with heap := h }
      | none => .error (.fault (.unboundSymbol name.text)) { m with heap := h } := by
  have hread : ∀ r : Option Value, (match r with
      | some v => return v
      | none => raise (.unboundSymbol name.text) : Eval Value) { m with heap := h } =
      match r with
      | some v => .ok v { m with heap := h }
      | none => .error (.fault (.unboundSymbol name.text)) { m with heap := h } := by
    rintro (_ | v) <;> rfl
  obtain rfl | rfl : key = .sym name ∨ key = .str name := by simpa using hkey
  · exact hread (h.lookup? s name.text)
  · exact hread (h.lookup? s name.text)

theorem environmentLaws (h : Heap) : h.EnvironmentLaws where
  get_iff s name v m key hkey := by
    rw [← lookup?_eq_some_iff, get_scope s hkey]
    cases h.lookup? s name.text <;> simp
  unbound_iff s name m key hkey := by
    rw [← owner?_eq_none_iff, ← lookup?_eq_none_iff, get_scope s hkey]
    cases h.lookup? s name.text <;> simp
  eval_eq s name m hnil ht := by
    rw [Form.lookup, if_neg hnil, if_neg ht]
    rfl
  put_eq s name v m key hkey := by
    obtain rfl | rfl : key = .sym name ∨ key = .str name := by simpa using hkey
    · rfl
    · rfl
  set_one s name v t text := by
    rw [own?_write (Nat.le_refl _)]
    rfl
  assign_one s name v := by
    let w : ScopeWrite h.scopes.size := ⟨.assign, s, name, v⟩
    refine ⟨h.written w, ?_, fun t text => ?_, lookup?_assign (w := w) (Nat.le_refl _) rfl⟩
    · rw [written_assign (w := w) rfl]
      cases how : h.owner? w.scope w.name.text with
      | some o => exact .inl (owner?_eq_some_iff.1 how)
      | none => exact .inr ⟨owner?_eq_none_iff.1 how, getLast?_chain h _⟩
    · exact congrFun (congrFun (own?_write (w := w) (Nat.le_refl _)) t) text
  changes_only w s text hne := sees_of_lookup?_ne (Nat.le_refl _) hne

/-- Scopes obey the laws of environments: in every forest of scopes and after every sequence of writes
to them, where each write has changed the bindings as the update does that it stands for. -/
theorem environment_laws (h : Heap) (ws : List (ScopeWrite h.scopes.size)) :
    (h.writes ws).chain = h.chain ∧
      (h.writes ws).own? = ws.foldl (ScopeWrite.apply h.chain) h.own? ∧
      (h.writes ws).EnvironmentLaws :=
  ⟨chain_writes h ws, own?_writes (Nat.le_refl _) ws, environmentLaws _⟩

end Heap

end Sigil
