import Sigil.Eval.Basic
import Sigil.Proofs.Heap.Renaming

/-!
# Evaluation is parametric in what it does to the heap

The rules of evaluation are put together from elementary computations: reading the heap, adding and
changing objects, raising faults. A relation `R` between computations that holds of these and is
kept by sequencing (`Parametric`) therefore holds of every rule, as soon as it holds of the next
level of evaluation (`Parametric.evalForm`, `Parametric.callValue`). The two computations may work
on heaps whose objects have different references: `σ` gives those of the second one, and the result
of the second one is the renamed result of the first. A property of a single computation is the
case in which `R` looks at the first one only.

A scope is written by binding a name in it, which happens to new scopes (`Fresh`) only, by defining
a name in the outermost scope, and by assignment. The exception is `map-put` with a scope as its
target, so `Parametric.callValue` has a condition on that.
-/

namespace Sigil

open Eval

/-! ## Renamed data -/

namespace Renaming

def parameters (σ : Renaming) (ps : Form.Parameters) : Form.Parameters where
  required := ps.required.map σ.str
  optional := ps.optional.map σ.str
  rest := ps.rest.map σ.str

def walk (σ : Renaming) : Container.Walk → Container.Walk
  | .items ref index => .items (σ.sequence ref) index
  | .chars rest => .chars rest
  | .keys ref index size => .keys (σ.map ref) index size
  | .names => .names

/-- The elements of a step of several walks, and the walks after it. -/
def step (σ : Renaming) (r : Option (List Value × List Container.Walk)) :
    Option (List Value × List Container.Walk) :=
  r.map fun p => (p.1.map σ.value, p.2.map σ.walk)

/-- What heaps that are related by `I` show of renamed objects. -/
structure Reads (σ : Renaming) (I : Heap → Heap → Prop) : Prop where
  items : ∀ {h h' : Heap} (a : Nat), I h h' →
    h'.items (σ.sequence a) = (h.items a).map σ.value
  closureAt : ∀ {h h' : Heap} (a : Nat), I h h' →
    h'.closureAt (σ.closure a) = σ.closureObject (h.closureAt a)
  dictAt : ∀ {h h' : Heap} (a : Nat), I h h' →
    h'.dictAt (σ.dict a) = (h.dictAt a).map fun e => (σ.value e.1, σ.value e.2)
  lookup? : ∀ {h h' : Heap} (s : Nat) (name : String), I h h' →
    h'.lookup? (σ.scope s) name = (h.lookup? s name).map σ.value
  ownNames : ∀ {h h' : Heap} (s : Nat), I h h' →
    h'.ownNames (σ.scope s) = (h.ownNames s).map σ.str
  getKey : ∀ {h h' : Heap} (a : Nat) (k : Value), I h h' →
    h'.mapGet (σ.map a) (σ.value k) = (h.mapGet a k).map σ.value
  mapKeys : ∀ {h h' : Heap} (a : Nat), I h h' →
    h'.mapKeys (σ.map a) = (h.mapKeys a).map σ.value
  view : ∀ {h h' : Heap} (v : Value), I h h' → h'.view (σ.value v) = h.view v
  sameKey : ∀ {h h' : Heap} (test : MapTest) (v w : Value), I h h' →
    h'.sameKey test (σ.value v) (σ.value w) = h.sameKey test v w
  equal : ∀ {h h' : Heap} (v w : Value), I h h' →
    h'.equal (σ.value v) (σ.value w) = h.equal v w
  ordered : ∀ {h h' : Heap} (c : Comparison) (v w : Value), I h h' →
    h'.ordered c (σ.value v) (σ.value w) = h.ordered c v w

theorem reads_same : same.Reads fun h h' => h' = h where
  items a hI := by rw [hI, value_same, List.map_id]; rfl
  closureAt a hI := by rw [hI, closureObject_same]; rfl
  dictAt a hI := by rw [hI, value_same]; exact (List.map_id _).symm
  lookup? s name hI := by rw [hI, value_same, Option.map_id]; rfl
  ownNames s hI := by rw [hI, str_same, List.map_id]; rfl
  getKey a k hI := by
    rw [hI, value_same]
    exact (Except.map_id ▸ rfl)
  mapKeys a hI := by rw [hI, value_same, List.map_id]; rfl
  view v hI := by rw [hI, value_same]; rfl
  sameKey test v w hI := by rw [hI, value_same]; rfl
  equal v w hI := by rw [hI, value_same]; rfl
  ordered c v w hI := by rw [hI, value_same]; rfl

variable {σ : Renaming} {I : Heap → Heap → Prop} {h h' : Heap}

theorem getD_value (vs : List Value) (i : Nat) :
    (vs.map σ.value)[i]?.getD .nil = σ.value (vs[i]?.getD .nil) := by
  rw [List.getElem?_map]
  cases vs[i]? <;> rfl

theorem isTrue_value (hr : σ.Reads I) (hI : I h h') (v : Value) :
    h'.isTrue (σ.value v) = h.isTrue v := by
  cases v <;> simp [Heap.isTrue, value, hr.items _ hI]

theorem mapSize_map (hr : σ.Reads I) (hI : I h h') (a : Nat) :
    h'.mapSize (σ.map a) = h.mapSize a := by
  have hkeys := congrArg List.length (hr.mapKeys a hI)
  simpa [Heap.mapKeys, Heap.mapSize] using hkeys

theorem isNothing_value (hr : σ.Reads I) (hI : I h h') (v : Value) :
    Container.isNothing h' (σ.value v) = Container.isNothing h v := by
  cases v <;>
    simp [Container.isNothing, value, hr.items _ hI, mapSize_map hr hI, hr.dictAt _ hI]

theorem roundLimit_walk (hr : σ.Reads I) (hI : I h h') (walks : List Container.Walk) :
    Library.roundLimit h' (walks.map σ.walk) = Library.roundLimit h walks := by
  have hahead : ∀ w : Container.Walk, (σ.walk w).ahead h' = w.ahead h := by
    intro w
    cases w <;> simp [walk, Container.Walk.ahead, hr.items _ hI]
  simp only [Library.roundLimit, List.map_map, Function.comp_def, hahead]

theorem isDeclaration_value (hr : σ.Reads I) (hI : I h h') (v : Value) :
    Form.isDeclaration h' (σ.value v) = Form.isDeclaration h v := by
  rw [Form.isDeclaration, Form.isDeclaration, sequence?_value]
  cases v.sequence? with
  | none => rfl
  | some a =>
    simp only [Option.map_some, hr.items a hI, List.head?_map]
    rcases (h.items a).head? with _ | v
    · rfl
    · cases v <;> simp [value]

theorem mapField?_map (hr : σ.Reads I) (hI : I h h') (a : Nat) (name : Str) :
    Container.mapField? h' (σ.map a) (σ.str name)
      = (Container.mapField? h a name).map σ.value := by
  have hget : ∀ k, h'.mapGet (σ.map a) (σ.value k) = (h.mapGet a k).map σ.value :=
    fun k => hr.getKey a k hI
  have hsym := hget (.sym name)
  have hkw := hget (.kw name)
  have hstr := hget (.str name)
  simp only [value] at hsym hkw hstr
  simp only [Container.mapField?, List.findSome?, hsym, hkw, hstr]
  cases h.mapGet a (.sym name) <;> cases h.mapGet a (.kw name) <;>
    cases h.mapGet a (.str name) <;> rfl

end Renaming

/-! ## Parametric relations -/

/-- A relation that holds of the elementary computations and is kept by sequencing. `R φ x y` says
that the result of `y` is that of `x`, renamed by `φ`. -/
structure Parametric (σ : Renaming) (I : Heap → Heap → Prop) (Fresh : Nat → Prop)
    (R : ∀ {α : Type}, (α → α) → Eval α → Eval α → Prop) : Prop extends σ.Reads I where
  pure : ∀ {α : Type} (φ : α → α) (a : α), R φ (Pure.pure a) (Pure.pure (φ a))
  throw : ∀ {α : Type} (φ : α → α) (s : Stop), R φ (MonadExcept.throw s) (MonadExcept.throw s)
  bind : ∀ {α β : Type} {φ : α → α} {ψ : β → β} {x y : Eval α} {f g : α → Eval β},
    R φ x y → (∀ a, R ψ (f a) (g (φ a))) → R ψ (x >>= f) (y >>= g)
  readHeap : ∀ {β : Type} {ψ : β → β} {f g : Heap → Eval β},
    (∀ h h', I h h' → R ψ (f h) (g h')) → R ψ (heap >>= f) (heap >>= g)
  emit : ∀ e, R id (Eval.emit e) (Eval.emit e)
  note : ∀ n, R id (Eval.note n) (Eval.note n)
  inFrame : ∀ {x y : Eval Value} (name : String) (args : List Value), R σ.value x y →
    R σ.value (Eval.inFrame ⟨name, args⟩ x) (Eval.inFrame ⟨name, args.map σ.value⟩ y)
  newSequence : ∀ vs, R σ.sequence (onHeap (·.newSequence vs))
    (onHeap (·.newSequence (vs.map σ.value)))
  newStr : ∀ s, R σ.str (onHeap (·.newStr s)) (onHeap (·.newStr s))
  newMap : ∀ test hint, R σ.map (onHeap (·.newMap ⟨test, hint, []⟩))
    (onHeap (·.newMap ⟨test, hint, []⟩))
  newClosure : ∀ c, R σ.closure (onHeap (·.newClosure c))
    (onHeap (·.newClosure (σ.closureObject c)))
  newPusher : ∀ a, R σ.value (onHeap fun h => (.pusher a h.fresh, { h with fresh := h.fresh + 1 }))
    (onHeap fun h => (.pusher (σ.sequence a) h.fresh, { h with fresh := h.fresh + 1 }))
  newScope : ∀ {β : Type} {ψ : β → β} {f g : Nat → Eval β} (parent : Nat),
    (∀ s, Fresh s → R ψ (f s) (g (σ.scope s))) →
    R ψ (onHeap (·.newScope (some parent)) >>= f)
      (onHeap (·.newScope (some (σ.scope parent))) >>= g)
  setItems : ∀ a vs, R id (modifyHeap (·.setItems a vs))
    (modifyHeap (·.setItems (σ.sequence a) (vs.map σ.value)))
  putKey : ∀ a k v, R id (Container.putKey a k v)
    (Container.putKey (σ.map a) (σ.value k) (σ.value v))
  define : ∀ s name v, Fresh s → R id (modifyHeap (·.define s name v))
    (modifyHeap (·.define (σ.scope s) (σ.str name) (σ.value v)))
  defineRoot : ∀ s name v, R id (modifyHeap fun h => h.define (h.root s) name v)
    (modifyHeap fun h => h.define (h.root (σ.scope s)) (σ.str name) (σ.value v))
  assign : ∀ s name v, R id (modifyHeap (·.assign s name v))
    (modifyHeap (·.assign (σ.scope s) (σ.str name) (σ.value v)))

namespace Parametric

variable {σ : Renaming} {I : Heap → Heap → Prop} {Fresh : Nat → Prop}
  {R : ∀ {α : Type}, (α → α) → Eval α → Eval α → Prop}

section

variable (u : Parametric σ I Fresh R)
include u

/-! ## Results, faults and texts -/

theorem pure_eq {α : Type} {φ : α → α} {a b : α} (hb : b = φ a) :
    R φ (Pure.pure a) (Pure.pure b) := hb ▸ u.pure φ a

theorem raise {α : Type} (φ : α → α) (e : EvalFault) : R φ (raise e) (raise e) := u.throw φ _

theorem raise_eq {α : Type} (φ : α → α) {e e' : EvalFault} (he : e' = e) :
    R φ (Eval.raise e) (Eval.raise e') := he ▸ u.raise φ e

theorem raise_bind {α β : Type} (φ : β → β) (e : EvalFault) (f g : α → Eval β) :
    R φ (Eval.raise e >>= f) (Eval.raise e >>= g) := u.throw φ (.fault e)

theorem map {α β : Type} {φ : α → α} {ψ : β → β} {x y : Eval α} {f g : α → β} (hx : R φ x y)
    (hf : ∀ a, g (φ a) = ψ (f a)) : R ψ (do return f (← x)) (do return g (← y)) :=
  u.bind hx fun a => u.pure_eq (hf a)

theorem ofExcept {α : Type} {φ : α → α} {r r' : Except EvalFault α} (hr : r' = r.map φ) :
    R φ (ofExcept r) (ofExcept r') := by
  rw [hr]
  cases r with
  | ok a => exact u.pure φ a
  | error e => exact u.raise φ e

theorem ofExcept_same {α : Type} (r : Except EvalFault α) : R id (Eval.ofExcept r) (Eval.ofExcept r) :=
  u.ofExcept (by cases r <;> rfl)

theorem ofPrint (r : Except PrintFault String) : R id (ofPrint r) (ofPrint r) := by
  cases r with
  | ok a => exact u.pure id a
  | error e => exact u.raise id _

theorem mapM {α β : Type} {φ : α → α} {ψ : β → β} {f g : α → Eval β}
    (hf : ∀ a, R ψ (f a) (g (φ a))) (as : List α) :
    R (List.map ψ) (as.mapM f) ((as.map φ).mapM g) := by
  induction as with
  | nil => exact u.pure (List.map ψ) []
  | cons a as ih =>
    rw [List.mapM_cons, List.map_cons, List.mapM_cons]
    exact u.bind (hf a) fun b => u.bind ih fun bs => u.pure (List.map ψ) (b :: bs)

theorem mapM_same {α β : Type} {ψ : β → β} {f : α → Eval β} (hf : ∀ a, R ψ (f a) (f a))
    (as : List α) : R (List.map ψ) (as.mapM f) (as.mapM f) := by
  have h := u.mapM (φ := id) (f := f) (g := f) hf as
  rwa [List.map_id] at h

theorem newList (vs : List Value) : R σ.value (newList vs) (newList (vs.map σ.value)) :=
  u.map (u.newSequence vs) fun _ => rfl

theorem newList_eq {vs ws : List Value} (hw : ws = vs.map σ.value) :
    R σ.value (Eval.newList vs) (Eval.newList ws) := hw ▸ u.newList vs

theorem newVector (vs : List Value) : R σ.value (newVector vs) (newVector (vs.map σ.value)) :=
  u.map (u.newSequence vs) fun _ => rfl

theorem newVector_eq {vs ws : List Value} (hw : ws = vs.map σ.value) :
    R σ.value (Eval.newVector vs) (Eval.newVector ws) := hw ▸ u.newVector vs

theorem newString (s : String) : R σ.value (newString s) (newString s) :=
  u.map (u.newStr s) fun _ => rfl

theorem shown (v : Value) : R id (shown v) (shown (σ.value v)) := by
  refine u.readHeap fun h h' hI => ?_
  rw [Heap.shown, Heap.shown, u.view v hI]
  exact u.ofPrint _

theorem bare (v : Value) : R id (bare v) (bare (σ.value v)) := by
  refine u.readHeap fun h h' hI => ?_
  rw [Heap.bare, Heap.bare, u.view v hI]
  exact u.ofPrint _

theorem printed (v : Value) : R id (printed v) (printed (σ.value v)) := by
  refine u.readHeap fun h h' hI => ?_
  rw [Heap.print, Heap.print, u.view v hI]
  exact u.ofPrint _

theorem complaint {α : Type} (φ : α → α) (v : Value) (fault : String → EvalFault) :
    R φ (do Eval.raise (fault (← Eval.shown v)))
      (do Eval.raise (fault (← Eval.shown (σ.value v)))) :=
  u.bind (u.shown v) fun _ => u.raise φ _

/-! ## Containers -/

theorem offset (length : Nat) (index : Int) (outside : EvalFault) :
    R id (Container.offset length index outside) (Container.offset length index outside) := by
  unfold Container.offset
  split
  · exact u.raise id _
  · split
    · exact u.pure id _
    · exact u.raise id _

theorem scopeKey (key : Value) :
    R σ.str (Container.scopeKey key) (Container.scopeKey (σ.value key)) := by
  cases key with
  | str s | sym s => exact u.pure σ.str s
  | _ => exact u.raise σ.str _

theorem get (target key : Value) :
    R σ.value (Container.get target key) (Container.get (σ.value target) (σ.value key)) := by
  have helement : ∀ a, R σ.value (Container.get (.list a) key)
      (Container.get (.list (σ.sequence a)) (σ.value key)) := by
    intro a
    refine u.readHeap fun h h' hI => ?_
    simp only [Renaming.integer?_value, Renaming.typeName_value, u.items a hI, List.length_map]
    split
    · refine u.bind (u.offset _ _ _) fun i => u.pure_eq (Renaming.getD_value _ _)
    · exact u.raise σ.value _
  cases target with
  | list a => exact helement a
  | vector a => exact helement a
  | str s =>
    show R σ.value (Container.get (.str s) key) (Container.get (.str (σ.str s)) (σ.value key))
    simp only [Container.get, Renaming.integer?_value, Renaming.typeName_value, Renaming.text_str]
    split
    · exact u.bind (u.offset _ _ _) fun i => u.newString _
    · exact u.raise σ.value _
  | map a =>
    refine u.readHeap fun h h' hI => ?_
    rw [u.getKey a key hI]
    rcases h.mapGet a key with (_ | _) | v
    · refine u.readHeap fun h h' hI => ?_
      rw [u.view key hI]
      exact u.raise σ.value _
    · exact u.raise σ.value _
    · exact u.pure σ.value v
  | scope a =>
    refine u.bind (u.scopeKey key) fun name => u.readHeap fun h h' hI => ?_
    rw [Renaming.text_str, u.lookup? a _ hI]
    cases h.lookup? a name.text with
    | some v => exact u.pure σ.value v
    | none => exact u.raise σ.value _
  | _ => exact u.raise σ.value _

theorem put (target key v : Value) (hfresh : ∀ s, target = .scope s → Fresh s) :
    R id (Container.put target key v)
      (Container.put (σ.value target) (σ.value key) (σ.value v)) := by
  have helement : ∀ a, R id (Container.put (.list a) key v)
      (Container.put (.list (σ.sequence a)) (σ.value key) (σ.value v)) := by
    intro a
    refine u.readHeap fun h h' hI => ?_
    simp only [Renaming.integer?_value, Renaming.typeName_value, u.items a hI, List.length_map]
    split
    · refine u.bind (u.offset _ _ _) fun i => ?_
      rw [id, ← List.map_set]
      exact u.setItems a _
    · exact u.raise id _
  cases target with
  | list a => exact helement a
  | vector a => exact helement a
  | map a => exact u.putKey a key v
  | scope s => exact u.bind (u.scopeKey key) fun name => u.define s name v (hfresh s rfl)
  | _ => exact u.raise id _

theorem length (v : Value) : R id (Container.length v) (Container.length (σ.value v)) := by
  cases v with
  | list a | vector a =>
    refine u.readHeap fun h h' hI => u.pure_eq ?_
    rw [u.items a hI, List.length_map, id]
  | str s => exact u.pure_eq (by rw [Renaming.text_str]; rfl)
  | map a => exact u.readHeap fun h h' hI => u.pure_eq (Renaming.mapSize_map u.toReads hI a)
  | dict a =>
    refine u.readHeap fun h h' hI => u.pure_eq ?_
    rw [u.dictAt a hI, List.length_map, id]
  | _ => exact u.raise id _

theorem keys (v : Value) : R (List.map σ.value) (Container.keys v) (Container.keys (σ.value v)) := by
  cases v with
  | map a => exact u.readHeap fun h h' hI => u.pure_eq (u.mapKeys a hI)
  | scope s =>
    refine u.readHeap fun h h' hI => u.pure_eq ?_
    rw [u.ownNames s hI, List.map_map, List.map_map]
    rfl
  | dict a =>
    refine u.readHeap fun h h' hI => u.pure_eq ?_
    rw [u.dictAt a hI, List.map_map, List.map_map]
    rfl
  | _ => exact u.raise _ _

theorem fieldName (v : Value) :
    R σ.str (Container.fieldName v) (Container.fieldName (σ.value v)) := by
  cases v with
  | sym s | kw s | str s => exact u.pure σ.str s
  | _ => exact u.raise σ.str _

theorem parameterNames (a : Nat) :
    R σ.value (Container.parameters a) (Container.parameters (σ.closure a)) := by
  refine u.readHeap fun h h' hI => ?_
  refine u.newList_eq ?_
  simp only [u.closureAt a hI, Renaming.closureObject, u.items _ hI, List.map_append]
  congr 1
  rcases (h.closureAt a).rest with _ | s
  · rfl
  · simp only [Option.map_some, Renaming.text_str]
    split <;> rfl

theorem property (target : Value) (name : Str) :
    R σ.value (Container.property target name)
      (Container.property (σ.value target) (σ.str name)) := by
  have hmissing : R σ.value (Eval.raise (.fieldNotFound name.text))
      (Eval.raise (.fieldNotFound name.text)) := u.raise _ _
  unfold Container.property
  rw [Renaming.text_str]
  cases target with
  | sym s | kw s =>
    dsimp only [Renaming.value]
    split
    · exact u.pure σ.value (.str s)
    · exact hmissing
  | vector a =>
    dsimp only [Renaming.value]
    split
    · refine u.readHeap fun h h' hI => u.pure_eq ?_
      rw [u.items a hI, List.length_map]
      rfl
    · split
      · exact u.newPusher a
      · exact hmissing
  | closure a =>
    dsimp only [Renaming.value]
    refine u.readHeap fun h h' hI => ?_
    have hname : ∀ name : Option Str,
        (name.map σ.str).elim Value.nil Value.str = σ.value (name.elim .nil .str) := by
      rintro (_ | s) <;> rfl
    simp only [u.closureAt a hI, Renaming.closureObject, hname]
    split
    case h_7 => exact u.parameterNames a
    case h_8 => exact hmissing
    all_goals exact u.pure σ.value _
  | _ => exact hmissing

theorem field (target : Value) (name : Str) :
    R σ.value (Container.field target name) (Container.field (σ.value target) (σ.str name)) := by
  unfold Container.field
  rw [Renaming.text_str]
  cases target with
  | map a =>
    refine u.readHeap fun h h' hI => ?_
    rw [Renaming.mapField?_map u.toReads hI]
    cases Container.mapField? h a name with
    | some v => exact u.pure σ.value v
    | none => exact u.raise _ _
  | scope a =>
    refine u.readHeap fun h h' hI => ?_
    rw [u.lookup? a _ hI]
    cases h.lookup? a name.text with
    | some v => exact u.pure σ.value v
    | none => exact u.raise _ _
  | _ => exact u.property _ name

/-! ## Walking through containers -/

theorem walk (v : Value) : R σ.walk (Container.walk v) (Container.walk (σ.value v)) := by
  cases v with
  | list a | vector a => exact u.pure σ.walk (.items a 0)
  | str s => exact u.pure_eq (by rw [Renaming.text_str]; rfl)
  | map a =>
    refine u.readHeap fun h h' hI => u.pure_eq ?_
    rw [Renaming.mapSize_map u.toReads hI]
    rfl
  | scope s => exact u.pure σ.walk .names
  | _ => exact u.raise _ _

theorem next (w : Container.Walk) :
    R (Option.map fun p => (σ.value p.1, σ.walk p.2)) w.next (σ.walk w).next := by
  cases w with
  | items a index =>
    refine u.readHeap fun h h' hI => ?_
    rw [u.items a hI, List.getElem?_map]
    cases (h.items a)[index]? with
    | some v => exact u.pure _ (some (v, Container.Walk.items a (index + 1)))
    | none => exact u.pure _ none
  | chars cs =>
    cases cs with
    | nil => exact u.pure _ none
    | cons c cs =>
      exact u.bind (u.newString _) fun v => u.pure _ (some (v, Container.Walk.chars cs))
  | keys a index size =>
    refine u.readHeap fun h h' hI => ?_
    simp only [u.mapKeys a hI, List.length_map, List.getElem?_map]
    split
    · exact u.raise_bind _ _ _ _
    · cases (h.mapKeys a)[index]? with
      | some v => exact u.pure _ (some (v, Container.Walk.keys a (index + 1) size))
      | none => exact u.pure _ none
  | names => exact u.raise _ _

theorem nextAll : ∀ ws : List Container.Walk,
    R σ.step (Container.Walk.nextAll ws) (Container.Walk.nextAll (ws.map σ.walk))
  | [] => u.pure σ.step (some ([], []))
  | w :: ws => by
    refine u.bind (u.next w) fun r => ?_
    rcases r with _ | ⟨v, w⟩
    · exact u.pure σ.step none
    · refine u.bind (nextAll ws) fun r => ?_
      rcases r with _ | ⟨vs, ws⟩
      · exact u.pure σ.step none
      · exact u.pure σ.step (some (v :: vs, w :: ws))

theorem elements (v : Value) :
    R (List.map σ.value) (Container.elements v) (Container.elements (σ.value v)) := by
  cases v with
  | list a | vector a => exact u.readHeap fun h h' hI => u.pure_eq (u.items a hI)
  | str s =>
    show R (List.map σ.value) (Container.elements (.str s)) (Container.elements (.str (σ.str s)))
    simp only [Container.elements, Renaming.text_str]
    exact u.mapM_same (fun c => u.newString _) _
  | map a => exact u.readHeap fun h h' hI => u.pure_eq (u.mapKeys a hI)
  | _ => exact u.raise _ _

/-! ## The standard library -/

theorem repeated (target : Value) (count : Int) :
    R σ.value (Library.repeated target count) (Library.repeated (σ.value target) count) := by
  have hsequence : ∀ a, R σ.value
      (do
        let items := (← Eval.heap).items a
        let n ← Eval.ofExcept (Value.copies false items.length count)
        Eval.newList (List.replicate n items).flatten)
      (do
        let items := (← Eval.heap).items (σ.sequence a)
        let n ← Eval.ofExcept (Value.copies false items.length count)
        Eval.newList (List.replicate n items).flatten) := by
    intro a
    refine u.readHeap fun h h' hI => ?_
    simp only [u.items a hI, List.length_map]
    refine u.bind (u.ofExcept_same _) fun n => u.newList_eq ?_
    rw [List.map_flatten, List.map_replicate, id]
  cases target with
  | str s =>
    show R σ.value (Library.repeated (.str s) count) (Library.repeated (.str (σ.str s)) count)
    simp only [Library.repeated, Renaming.text_str]
    exact u.bind (u.ofExcept_same _) fun n => u.newString _
  | list a | vector a => exact hsequence a
  | _ => exact u.pure σ.value _

theorem product (a b : Value) :
    R σ.value (Library.product a b) (Library.product (σ.value a) (σ.value b)) := by
  have hrepeatable : ∀ v, Library.isRepeatable (σ.value v) = Library.isRepeatable v := by
    intro v
    cases v <;> rfl
  simp only [Library.product, hrepeatable, Renaming.integer?_value, Renaming.typeName_value]
  split
  · split
    · exact u.repeated a _
    · exact u.raise _ _
  · split
    · split
      · exact u.repeated b _
      · exact u.raise _ _
    · exact u.ofExcept (Renaming.mul_value a b)

theorem combine {f : Value → Value → Eval Value}
    (hf : ∀ a b, R σ.value (f a b) (f (σ.value a) (σ.value b))) :
    ∀ (a : Value) (bs : List Value),
      R σ.value (Library.combine f a bs) (Library.combine f (σ.value a) (bs.map σ.value))
  | a, [] => u.pure σ.value a
  | a, b :: bs => u.bind (hf a b) fun c => combine hf c bs

theorem chain {relation : Heap → Value → Value → Except EvalFault Bool}
    (hr : ∀ {h h'} v w, I h h' → relation h' (σ.value v) (σ.value w) = relation h v w) :
    ∀ args : List Value,
      R id (Library.chain relation args) (Library.chain relation (args.map σ.value))
  | [] | [_] => u.pure id true
  | a :: b :: rest => by
    refine u.readHeap fun h h' hI => ?_
    rw [hr a b hI]
    refine u.bind (u.ofExcept_same _) fun holds => ?_
    cases holds with
    | true => exact chain hr (b :: rest)
    | false => exact u.pure id false

theorem comparison {relation : Heap → Value → Value → Except EvalFault Bool}
    (hr : ∀ {h h'} v w, I h h' → relation h' (σ.value v) (σ.value w) = relation h v w)
    (args : List Value) :
    R σ.value (Library.comparison relation args)
      (Library.comparison relation (args.map σ.value)) := by
  unfold Library.comparison
  rw [List.isEmpty_map]
  split
  · exact u.raise _ _
  · exact u.map (u.chain hr args) fun _ => rfl

theorem spread (args : List Value) :
    R (List.map σ.value) (Library.spread args) (Library.spread (args.map σ.value)) := by
  unfold Library.spread
  rw [List.getLast?_map]
  rcases args.getLast? with _ | v
  · exact u.pure _ []
  · rw [Option.map_some, ← List.map_dropLast]
    cases v with
    | nil => exact u.pure _ args.dropLast
    | list a | vector a =>
      refine u.readHeap fun h h' hI => u.pure_eq ?_
      rw [u.items a hI, List.map_append]
    | _ => exact u.raise _ _

theorem concat (args : List Value) :
    R σ.value (Library.concat args) (Library.concat (args.map σ.value)) :=
  u.bind (u.mapM u.bare args) fun texts => by
    rw [List.map_id]
    exact u.newString _

theorem topics (v : Value) : R id (Library.topics v) (Library.topics (σ.value v)) := by
  unfold Library.topics
  rw [Renaming.sequence?_value]
  cases v.sequence? with
  | some a =>
    refine u.readHeap fun h h' hI => ?_
    rw [u.items a hI]
    refine u.map (u.mapM u.fieldName _) fun names => ?_
    rw [List.map_map]
    exact List.map_congr_left fun name _ => Renaming.text_str name
  | none => exact u.map (u.fieldName v) fun name => by rw [Renaming.text_str, id]

theorem printedBare (v : Value) :
    R id (Library.printedBare v) (Library.printedBare (σ.value v)) := by
  cases v with
  | str s => exact u.pure_eq (by rw [Renaming.text_str]; rfl)
  | _ => exact u.printed _

theorem makeVector (size contents : Value) :
    R σ.value (Library.makeVector size contents)
      (Library.makeVector (σ.value size) (σ.value contents)) := by
  have hbad : R σ.value (do Eval.raise (.badVectorSize (← Eval.shown size)))
      (do Eval.raise (.badVectorSize (← Eval.shown (σ.value size)))) :=
    u.complaint _ size .badVectorSize
  cases size with
  | int n =>
    have hitems : R σ.value
        (do
          let items ← Container.elements contents
          if items.length = n.toNat then Eval.newVector items
          else Eval.raise (.sizeMismatch (← Eval.shown (.int n)) (toString items.length)))
        (do
          let items ← Container.elements (σ.value contents)
          if items.length = n.toNat then Eval.newVector items
          else Eval.raise (.sizeMismatch (← Eval.shown (.int n)) (toString items.length))) := by
      refine u.bind (u.elements contents) fun items => ?_
      rw [List.length_map]
      split
      · exact u.newVector _
      · exact u.complaint _ (.int n) (.sizeMismatch · _)
    unfold Library.makeVector
    dsimp only [Renaming.value]
    split
    · exact hbad
    · cases contents with
      | nil =>
        dsimp only
        split
        · exact u.raise _ _
        · split
          · exact u.raise _ _
          · exact u.newVector_eq (by rw [List.map_replicate]; rfl)
      | _ => exact hitems
  | _ => exact hbad

theorem pushOnto (a : Nat) (v : Value) :
    R σ.value (Library.pushOnto a v) (Library.pushOnto (σ.sequence a) (σ.value v)) := by
  refine u.readHeap fun h h' hI => ?_
  have hitems : (h.items a).map σ.value ++ [σ.value v] = (h.items a ++ [v]).map σ.value := by
    rw [List.map_append, List.map_singleton]
  simp only [u.items a hI, List.length_map, hitems]
  exact u.bind (u.setItems a _) fun _ => u.pure σ.value _

theorem applyPusher (a : Nat) (args : List Value) :
    R σ.value (Sigil.applyPusher a args)
      (Sigil.applyPusher (σ.sequence a) (args.map σ.value)) := by
  unfold Sigil.applyPusher
  rw [List.length_map, Library.arg, Library.arg, Renaming.getD_value]
  split
  · exact u.raise _ _
  · exact u.pushOnto a _

theorem sizeHint (v : Value) : R id (Library.sizeHint v) (Library.sizeHint (σ.value v)) := by
  cases v with
  | nil => exact u.pure id none
  | bool b => exact u.pure id (some (SizeHint.flag b))
  | int n =>
    unfold Library.sizeHint
    dsimp only [Renaming.value]
    split
    · exact u.complaint id (.int n) .badSizeHint
    · exact u.pure id _
  | _ => exact u.complaint id _ .badSizeHint

theorem mapTest (v : Value) : R id (Library.mapTest v) (Library.mapTest (σ.value v)) := by
  unfold Library.mapTest
  cases v with
  | nil => exact u.pure id _
  | sym s | kw s | str s =>
    dsimp only [Renaming.value]
    rw [Renaming.text_str]
    split
    · exact u.pure id _
    · exact u.raise id _
  | _ => exact u.complaint id _ .badTest

theorem mapGet (target key default : Value) :
    R σ.value (Library.mapGet target key default)
      (Library.mapGet (σ.value target) (σ.value key) (σ.value default)) := by
  cases target with
  | map a =>
    refine u.readHeap fun h h' hI => ?_
    rw [u.getKey a key hI]
    rcases h.mapGet a key with (_ | _) | v
    · exact u.pure σ.value default
    · exact u.raise σ.value _
    · exact u.pure σ.value v
  | _ => unfold Library.mapGet; exact u.get _ key

theorem predicate (test : MapTest) (v w : Value) :
    R σ.value (Library.predicate test v w)
      (Library.predicate test (σ.value v) (σ.value w)) := by
  refine u.readHeap fun h h' hI => ?_
  rw [u.sameKey test v w hI]
  cases h.sameKey test v w with
  | none => exact u.raise σ.value _
  | some same => exact u.pure σ.value (.bool same)

theorem accessIndex (target index : Value) :
    R σ.value (Library.accessIndex target index)
      (Library.accessIndex (σ.value target) (σ.value index)) := by
  cases index with
  | int n =>
    cases target with
    | nil => exact u.complaint _ (.int n) .nilIndex
    | _ => unfold Library.accessIndex; exact u.get _ (.int n)
  | _ => exact u.complaint _ _ .badIndex

theorem walkThrough (v : Value) :
    R σ.walk (Library.walkThrough v) (Library.walkThrough (σ.value v)) := by
  refine u.readHeap fun h h' hI => ?_
  rw [Renaming.isNothing_value u.toReads hI]
  split
  · exact u.pure σ.walk (.chars [])
  · exact u.walk v

/-! ## Forms -/

theorem parts (a : Nat) :
    R (List.map σ.value) (Form.parts a) (Form.parts (σ.sequence a)) :=
  u.readHeap fun _ _ hI => u.pure_eq (u.items a hI)

theorem part (a index : Nat) : R σ.value (Form.part a index) (Form.part (σ.sequence a) index) :=
  u.map (u.parts a) fun vs => Renaming.getD_value vs index

theorem checkParts (a least : Nat) (most : Option Nat) :
    R id (Form.checkParts a least most) (Form.checkParts (σ.sequence a) least most) := by
  refine u.bind (u.parts a) fun ps => ?_
  simp only [List.length_map, List.head?_map]
  split
  · rcases ps.head? with _ | v
    · exact u.raise id _
    · cases v with
      | sym s => exact u.raise_eq id (congrArg EvalFault.wrongParts (Renaming.text_str s))
      | _ => exact u.raise id _
  · exact u.pure id _

theorem symbol (what : String) (v : Value) :
    R σ.str (Form.symbol what v) (Form.symbol what (σ.value v)) := by
  cases v with
  | sym s => exact u.pure σ.str s
  | _ => exact u.complaint _ _ (.notSymbol what)

theorem lookup (name : String) (scope : Nat) :
    R σ.value (Form.lookup name scope) (Form.lookup name (σ.scope scope)) := by
  unfold Form.lookup
  split
  · exact u.pure σ.value .nil
  · split
    · exact u.pure σ.value (.bool true)
    · refine u.readHeap fun h h' hI => ?_
      rw [u.lookup? scope name hI]
      cases h.lookup? scope name with
      | some v => exact u.pure σ.value v
      | none => exact u.raise _ _

theorem binding (v : Value) :
    R σ.binding (Form.binding v) (Form.binding (σ.value v)) := by
  have hbad : ∀ v, R σ.binding (do Eval.raise (.badBinding (← Eval.shown v)))
      (do Eval.raise (.badBinding (← Eval.shown (σ.value v)))) :=
    fun v => u.complaint _ v .badBinding
  have hname : ∀ name form, R σ.binding
      (do return (← Form.symbol "Binding name" name, form))
      (do return (← Form.symbol "Binding name" (σ.value name), σ.value form)) :=
    fun name form => u.map (u.symbol _ name) fun _ => rfl
  cases v with
  | sym s => exact u.pure σ.binding (s, .nil)
  | list a | vector a =>
    refine u.readHeap fun h h' hI => ?_
    rw [u.items a hI]
    rcases h.items a with _ | ⟨name, _ | ⟨form, _ | _⟩⟩
    · exact hbad _
    · exact hname name .nil
    · exact hname name form
    · exact hbad _
  | _ => exact hbad _

theorem bindings (a : Nat) :
    R (List.map σ.binding) (Form.bindings a) (Form.bindings (σ.sequence a)) := by
  refine u.bind (u.checkParts a 1 none) fun _ => u.bind (u.part a 1) fun v => ?_
  rw [Renaming.sequence?_value]
  cases v.sequence? with
  | some b =>
    refine u.readHeap fun h h' hI => ?_
    rw [u.items b hI]
    exact u.mapM u.binding _
  | none =>
    refine u.bind (u.part a 0) fun head => ?_
    cases head with
    | sym s => exact u.raise_eq _ (congrArg _ (Renaming.text_str s))
    | _ => exact u.raise _ _

theorem defineAll {scope : Nat} (hfresh : Fresh scope) : ∀ bs : List (Str × Value),
    R id (Form.defineAll scope bs) (Form.defineAll (σ.scope scope) (bs.map σ.binding))
  | [] => u.pure id ()
  | (name, v) :: rest => u.bind (u.define scope name v hfresh) fun _ => defineAll hfresh rest

theorem sortParameters (current : Form.Section) (ps : Form.Parameters) (vs : List Value) :
    R σ.parameters (Form.sortParameters current ps vs)
      (Form.sortParameters current (σ.parameters ps) (vs.map σ.value)) := by
  induction vs generalizing current ps with
  | nil => exact u.pure σ.parameters ps
  | cons v vs ih =>
    refine u.bind (u.symbol "Parameter" v) fun s => ?_
    rw [Renaming.text_str]
    have hrest : (σ.parameters ps).rest.isSome = ps.rest.isSome := Option.isSome_map
    split
    · exact ih .optional ps
    · split
      · exact ih .rest ps
      · cases current with
        | required =>
          have h := ih .required { ps with required := ps.required ++ [s] }
          simpa only [Renaming.parameters, List.map_append, List.map_singleton] using h
        | optional =>
          have h := ih .optional { ps with optional := ps.optional ++ [s] }
          simpa only [Renaming.parameters, List.map_append, List.map_singleton] using h
        | rest =>
          dsimp only
          rw [hrest]
          split
          · exact u.raise _ _
          · exact ih .rest { ps with rest := some s }

theorem parameters (v : Value) :
    R σ.parameters (Form.parameters v) (Form.parameters (σ.value v)) := by
  unfold Form.parameters
  rw [Renaming.sequence?_value]
  cases v.sequence? with
  | some a =>
    refine u.readHeap fun h h' hI => ?_
    rw [u.items a hI]
    exact u.sortParameters .required ⟨[], [], none⟩ _
  | none => exact u.complaint _ v .parametersNotList

theorem function (params : Value) (forms : List Value) (scope : Nat) (name : Option Str) :
    R σ.value (Form.function params forms scope name)
      (Form.function (σ.value params) (forms.map σ.value) (σ.scope scope) (name.map σ.str)) := by
  refine u.bind (u.parameters params) fun ps => u.readHeap fun h h' hI => ?_
  have hnames : ∀ names : List Str, (names.map σ.str).map Value.str = (names.map .str).map σ.value :=
    fun names => by
      rw [List.map_map, List.map_map]
      rfl
  have hbody : (forms.map σ.value).dropWhile (Form.isDeclaration h')
      = (forms.dropWhile (Form.isDeclaration h)).map σ.value := by
    rw [List.dropWhile_map]
    congr 2
    funext v
    exact Renaming.isDeclaration_value u.toReads hI v
  rw [hbody]
  simp only [Renaming.parameters, hnames]
  exact u.bind (u.newSequence _) fun required => u.bind (u.newSequence _) fun optional =>
    u.bind (u.newSequence _) fun body =>
      u.map (u.newClosure ⟨required, optional, ps.rest, body, scope, name⟩) fun _ => rfl

theorem bindParameters {scope : Nat} (hfresh : Fresh scope) : ∀ ps args : List Value,
    R id (bindParameters scope ps args)
      (bindParameters (σ.scope scope) (ps.map σ.value) (args.map σ.value))
  | [], _ => u.pure id ()
  | p :: ps, args => by
    refine u.bind (u.scopeKey p) fun name => ?_
    have harg : (args.map σ.value).headD .nil = σ.value (args.headD .nil) := by cases args <;> rfl
    rw [harg, ← List.map_tail]
    exact u.bind (u.define scope name _ hfresh) fun _ => bindParameters hfresh ps args.tail

end

end Parametric

end Sigil
