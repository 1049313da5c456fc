import Sigil.Proofs.Eval.Bindings

/-!
# Heaps grow

Objects are added to a heap and changed, never removed, and an identity is given out once: loading
an expression and evaluating a form leave a heap that is `Grown` (`Heap.loaded_load`,
`Interp.grows_ofDepth`). Loading adds sequences and strings only.
-/

namespace Sigil

namespace Heap

/-- The second heap has as many objects of each sort, and has given out as many identities. -/
structure Grown (h h' : Heap) : Prop where
  sequences_le : h.sequences.size ≤ h'.sequences.size
  maps_le : h.maps.size ≤ h'.maps.size
  closures_le : h.closures.size ≤ h'.closures.size
  scopes_le : h.scopes.size ≤ h'.scopes.size
  dicts_le : h.dicts.size ≤ h'.dicts.size
  fresh_le : h.fresh ≤ h'.fresh

variable {h h₁ h' : Heap}

theorem Grown.refl (h : Heap) : Grown h h := by
  constructor <;> exact Nat.le_refl _

theorem Grown.trans (hg : Grown h h₁) (hg' : Grown h₁ h') : Grown h h' where
  sequences_le := Nat.le_trans hg.sequences_le hg'.sequences_le
  maps_le := Nat.le_trans hg.maps_le hg'.maps_le
  closures_le := Nat.le_trans hg.closures_le hg'.closures_le
  scopes_le := Nat.le_trans hg.scopes_le hg'.scopes_le
  dicts_le := Nat.le_trans hg.dicts_le hg'.dicts_le
  fresh_le := Nat.le_trans hg.fresh_le hg'.fresh_le

theorem grown_newSequence (h : Heap) (vs : List Value) : Grown h (h.newSequence vs).2 := by
  constructor <;> simp [newSequence]

theorem grown_newMap (h : Heap) (m : MapObject) : Grown h (h.newMap m).2 := by
  constructor <;> simp [newMap]

theorem grown_newClosure (h : Heap) (c : ClosureObject) : Grown h (h.newClosure c).2 := by
  constructor <;> simp [newClosure]

theorem grown_newScope (h : Heap) (parent : Option Nat) : Grown h (h.newScope parent).2 := by
  constructor <;> simp [newScope]

theorem grown_nextFresh (h : Heap) : Grown h { h with fresh := h.fresh + 1 } := by
  constructor <;> simp

theorem grown_setItems (h : Heap) (a : Nat) (vs : List Value) : Grown h (h.setItems a vs) := by
  constructor <;> simp [setItems]

theorem grown_setMap (h : Heap) (a : Nat) (m : MapObject) : Grown h (h.setMap a m) := by
  constructor <;> simp [setMap]

theorem grown_define (h : Heap) (s : Nat) (name : Str) (v : Value) :
    Grown h (h.define s name v) := by
  constructor <;> simp [define, setScope]

/-- The second heap has more sequences and strings, and nothing else is added or changed. -/
structure Loaded (h h' : Heap) : Prop where
  sequences_le : h.sequences.size ≤ h'.sequences.size
  maps_eq : h'.maps = h.maps
  closures_eq : h'.closures = h.closures
  scopes_eq : h'.scopes = h.scopes
  dicts_eq : h'.dicts = h.dicts
  fresh_le : h.fresh ≤ h'.fresh

theorem Loaded.trans (hl : Loaded h h₁) (hl' : Loaded h₁ h') : Loaded h h' where
  sequences_le := Nat.le_trans hl.sequences_le hl'.sequences_le
  maps_eq := hl'.maps_eq.trans hl.maps_eq
  closures_eq := hl'.closures_eq.trans hl.closures_eq
  scopes_eq := hl'.scopes_eq.trans hl.scopes_eq
  dicts_eq := hl'.dicts_eq.trans hl.dicts_eq
  fresh_le := Nat.le_trans hl.fresh_le hl'.fresh_le

theorem Loaded.grown (hl : Loaded h h') : Grown h h' where
  sequences_le := hl.sequences_le
  maps_le := Nat.le_of_eq (congrArg Array.size hl.maps_eq.symm)
  closures_le := Nat.le_of_eq (congrArg Array.size hl.closures_eq.symm)
  scopes_le := Nat.le_of_eq (congrArg Array.size hl.scopes_eq.symm)
  dicts_le := Nat.le_of_eq (congrArg Array.size hl.dicts_eq.symm)
  fresh_le := hl.fresh_le

mutual

theorem loaded_load : ∀ (e : Expr) (h : Heap), Loaded h (h.load e).2
  | .int _, _ | .float _, _ | .sym _ .supplied, _ =>
    ⟨Nat.le_refl _, rfl, rfl, rfl, rfl, Nat.le_refl _⟩
  | .str _, _ | .sym _ .written, _ | .kw _, _ =>
    ⟨Nat.le_refl _, rfl, rfl, rfl, rfl, Nat.le_succ _⟩
  | .list items, h => (loaded_loadAll items h).trans
    ⟨(grown_newSequence _ _).sequences_le, rfl, rfl, rfl, rfl, Nat.le_refl _⟩

theorem loaded_loadAll : ∀ (es : List Expr) (h : Heap), Loaded h (h.loadAll es).2
  | [], _ => ⟨Nat.le_refl _, rfl, rfl, rfl, rfl, Nat.le_refl _⟩
  | e :: es, h => (loaded_load e h).trans (loaded_loadAll es _)

end

end Heap

namespace Eval

open Heap (Grown)

variable {α β : Type} {x : Eval α} {f : α → Eval β}

def Grows {α : Type} (x : Eval α) : Prop := ∀ m : Machine, Grown m.heap (left (x m)).heap

theorem grows_of_heap (h : ∀ m, (left (x m)).heap = m.heap) : Grows x := fun m => by
  rw [h]
  exact Grown.refl _

theorem Grows.bind (hx : Grows x) (hf : ∀ a, Grows (f a)) : Grows (x >>= f) := by
  intro m
  have hgrown := hx m
  show Grown m.heap (left (EStateM.bind x f m)).heap
  unfold EStateM.bind
  cases hrun : x m with
  | ok a m₁ =>
    rw [hrun] at hgrown
    exact hgrown.trans (hf a m₁)
  | error s m₁ =>
    rw [hrun] at hgrown
    exact hgrown

theorem Grows.inFrame (frame : CallFrame) (hx : Grows x) : Grows (inFrame frame x) :=
  Grows.bind (grows_of_heap fun _ => rfl) fun _ => hx.bind fun _ =>
    Grows.bind (grows_of_heap fun _ => rfl) fun _ => grows_of_heap fun _ => rfl

theorem grows_onHeap {g : Heap → α × Heap} (hg : ∀ h, Grown h (g h).2) : Grows (onHeap g) :=
  fun m => hg m.heap

theorem grows_modifyHeap {g : Heap → Heap} (hg : ∀ h, Grown h (g h)) : Grows (modifyHeap g) :=
  fun m => hg m.heap

theorem parametric_grows :
    Parametric .same (fun h h' => h' = h) (fun _ => True) fun _ x _ => Grows x where
  toReads := Renaming.reads_same
  pure _ _ := grows_of_heap fun _ => rfl
  throw _ _ := grows_of_heap fun _ => rfl
  bind := Grows.bind
  readHeap hf := Grows.bind (grows_of_heap fun _ => rfl) fun h => hf h h rfl
  emit _ := grows_of_heap fun _ => rfl
  note _ := grows_of_heap fun _ => rfl
  inFrame _ _ := Grows.inFrame _
  newSequence vs := grows_onHeap fun h => h.grown_newSequence vs
  newStr _ := grows_onHeap Heap.grown_nextFresh
  newMap test hint := grows_onHeap fun h => h.grown_newMap ⟨test, hint, []⟩
  newClosure c := grows_onHeap fun h => h.grown_newClosure c
  newPusher _ := grows_onHeap Heap.grown_nextFresh
  newScope parent hf :=
    Grows.bind (grows_onHeap fun h => h.grown_newScope (some parent)) fun s => hf s trivial
  setItems a vs := grows_modifyHeap fun h => h.grown_setItems a vs
  putKey a k v := fun m => by
    rw [Container.putKey_eq]
    cases hput : m.heap.mapPut a k v with
    | none => exact Grown.refl _
    | some h =>
      obtain ⟨form, -, rfl⟩ := Heap.mapPut_eq_some.1 hput
      exact m.heap.grown_setMap a _
  define s name v _ := grows_modifyHeap fun h => h.grown_define s name v
  defineRoot s name v := grows_modifyHeap fun h => h.grown_define (h.root s) name v
  assign _ name v := grows_modifyHeap fun h => h.grown_define _ name v

end Eval

theorem Interp.grows_ofDepth : ∀ depth,
    Interp.Related .same (fun _ x _ => Eval.Grows x) (ofDepth depth) (ofDepth depth)
  | 0 => ⟨fun _ _ => Eval.grows_of_heap fun _ => rfl, fun _ _ _ => Eval.grows_of_heap fun _ => rfl⟩
  | depth + 1 =>
    ⟨Eval.parametric_grows.evalForm (grows_ofDepth depth), fun f args name =>
      Eval.parametric_grows.callValue (grows_ofDepth depth) f args name fun _ _ => trivial⟩

end Sigil
