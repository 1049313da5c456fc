import Sigil.Proofs.Eval.Watch
import Sigil.Proofs.Heap.Region

/-!
# Evaluation stays in a region

A computation that starts from values of a region reads and changes objects of the region only, and
what it adds is to belong to the region. So two computations that start from the same values of a
region do the same on two heaps that show the same of it, however their other objects differ. The two
may run in different scopes: `E` says which scopes correspond, and `R P x y` that the two
computations have the same result, of which `P` holds. Where the two heaps are one and the scopes are
the same, this says of one computation that it stays in the region.

As for parametric relations, a relation that holds of the elementary computations and is kept by
sequencing (`Confined`) holds of every rule of evaluation (`Confined.evalForm`,
`Confined.callValue`). Here each step may use what is known of the values that it gets. The first
computation is a watched one, and may be refused what the second one does.
-/

namespace Sigil

open Eval

/-! ## What is seen of a region -/

/-- What heaps that are related by `I` show of a region, where the scopes that `E` relates show the
same names. -/
structure Region.Reads (ρ : Region) (Up : Nat → Nat → Prop) (I : Heap → Heap → Prop) : Prop where
  items : ∀ {h h' : Heap} {a : Nat}, I h h' → ρ.sequence a →
    h'.items a = h.items a ∧ ρ.CoversAll (h.items a)
  closureAt : ∀ {h h' : Heap} {a : Nat}, I h h' → ρ.closure a →
    ∃ s, h'.closureAt a = { h.closureAt a with scope := s } ∧ Up (h.closureAt a).scope s ∧
      ρ.sequence (h.closureAt a).required ∧ ρ.sequence (h.closureAt a).optional ∧
      ρ.sequence (h.closureAt a).body
  dictAt : ∀ {h h' : Heap} {a : Nat}, I h h' → ρ.dict a →
    h'.dictAt a = h.dictAt a ∧ ρ.CoversAll ((h.dictAt a).map (·.1))
  lookup? : ∀ {h h' : Heap} {s : Nat} (name : String), I h h' → ρ.scope s →
    h'.lookup? s name = h.lookup? s name ∧ ∀ v, h.lookup? s name = some v → ρ.Covers v
  ownNames : ∀ {h h' : Heap} {s : Nat}, I h h' → ρ.scope s → h'.ownNames s = h.ownNames s
  getKey : ∀ {h h' : Heap} {a : Nat} {k : Value}, I h h' → ρ.map a → ρ.Covers k →
    h'.mapGet a k = h.mapGet a k ∧ ∀ v, h.mapGet a k = .ok v → ρ.Covers v
  mapKeys : ∀ {h h' : Heap} {a : Nat}, I h h' → ρ.map a →
    h'.mapKeys a = h.mapKeys a ∧ ρ.CoversAll (h.mapKeys a)
  view : ∀ {h h' : Heap} {v : Value}, I h h' → ρ.Covers v → h'.view v = h.view v
  sameKey : ∀ {h h' : Heap} (test : MapTest) {v w : Value}, I h h' → ρ.Covers v → ρ.Covers w →
    h'.sameKey test v w = h.sameKey test v w
  equal : ∀ {h h' : Heap} {v w : Value}, I h h' → ρ.Covers v → ρ.Covers w →
    h'.equal v w = h.equal v w
  ordered : ∀ {h h' : Heap} (c : Comparison) {v w : Value}, I h h' → ρ.Covers v → ρ.Covers w →
    h'.ordered c v w = h.ordered c v w

namespace Region

variable {ρ : Region} {Up : Nat → Nat → Prop} {I : Heap → Heap → Prop} {h h' : Heap}

/-- The objects at which a walk goes through belong to the region. -/
def CoversWalk (ρ : Region) : Container.Walk → Prop
  | .items a _ => ρ.sequence a
  | .keys a _ _ => ρ.map a
  | .chars _ | .names => True

variable (hr : ρ.Reads Up I) (hI : I h h')
include hr hI

theorem mapSize_eq {a : Nat} (ha : ρ.map a) : h'.mapSize a = h.mapSize a := by
  have hkeys := congrArg List.length (hr.mapKeys hI ha).1
  simpa [Heap.mapKeys, Heap.mapSize] using hkeys

theorem roundLimit_eq {walks : List Container.Walk} (hwalks : ∀ w ∈ walks, ρ.CoversWalk w) :
    Library.roundLimit h' walks = Library.roundLimit h walks := by
  have hahead : ∀ w ∈ walks, w.ahead h' = w.ahead h := by
    intro w hw
    cases w with
    | items a index => simp only [Container.Walk.ahead, (hr.items hI (hwalks _ hw)).1]
    | _ => rfl
  rw [Library.roundLimit, Library.roundLimit, List.map_congr_left hahead]

theorem isTrue_eq {v : Value} (hv : ρ.Covers v) : h'.isTrue v = h.isTrue v := by
  cases v with
  | list a => simp only [Heap.isTrue, (hr.items hI hv).1]
  | _ => rfl

theorem isNothing_eq {v : Value} (hv : ρ.Covers v) :
    Container.isNothing h' v = Container.isNothing h v := by
  cases v with
  | list a | vector a => simp only [Container.isNothing, (hr.items hI hv).1]
  | map a => simp only [Container.isNothing, mapSize_eq hr hI hv]
  | dict a => simp only [Container.isNothing, (hr.dictAt hI hv).1]
  | _ => rfl

theorem isDeclaration_eq {v : Value} (hv : ρ.Covers v) :
    Form.isDeclaration h' v = Form.isDeclaration h v := by
  cases ha : v.sequence? with
  | none => simp only [Form.isDeclaration, ha]
  | some a => simp only [Form.isDeclaration, ha, (hr.items hI (sequence_of_covers hv ha)).1]

theorem mapField?_eq {a : Nat} (ha : ρ.map a) (name : Str) :
    Container.mapField? h' a name = Container.mapField? h a name ∧
      ∀ v, Container.mapField? h a name = some v → ρ.Covers v := by
  have hget : ∀ {k : Value}, ρ.Covers k → h'.mapGet a k = h.mapGet a k :=
    fun hk => (hr.getKey hI ha hk).1
  refine ⟨?_, fun v hv => ?_⟩
  · simp only [Container.mapField?, List.findSome?, hget (covers_str (ρ := ρ) name),
      hget (show ρ.Covers (.sym name) from trivial), hget (show ρ.Covers (.kw name) from trivial)]
  · obtain ⟨k, hk, hsome⟩ := List.exists_of_findSome?_eq_some hv
    have hcovers : ρ.Covers k := by
      simp only [List.mem_cons, List.not_mem_nil, or_false] at hk
      rcases hk with rfl | rfl | rfl <;> trivial
    refine (hr.getKey hI ha hcovers).2 v ?_
    cases hk : h.mapGet a k with
    | error lapse => simp [hk, Except.toOption] at hsome
    | ok w => simpa [hk, Except.toOption] using hsome

end Region

/-! ## Relations that hold in a region -/

/-- A relation that holds of the elementary computations on a region and is kept by sequencing.
`R n P x y` says that `x` and `y` have the same result, of which `P` holds, on heaps that have `n` scopes
at least. `E n` relates corresponding scopes among the first `n`, in which forms are evaluated, `Up`
scopes in which new ones are put, and `Fresh` new scopes. The first computation may be refused what the
watch `w` is over. -/
structure Confined (w : Watch) (ρ : Region) (E : Nat → Nat → Nat → Prop) (Up Fresh : Nat → Nat → Prop)
    (I : Heap → Heap → Prop) (R : Nat → ∀ {α : Type}, (α → Prop) → Eval α → Eval α → Prop) : Prop
    extends ρ.Reads Up I where
  mono : ∀ {n k s s' : Nat}, n ≤ k → E n s s' → E k s s'
  up : ∀ {n s s' : Nat}, E n s s' → Up s s'
  linked : ∀ {s s' : Nat}, Fresh s s' → E (s + 1) s s'
  own : ∀ {s : Nat}, ρ.scope s → Fresh s s
  asked? : ∀ {h h' : Heap} {s s' : Nat} (name : String), I h h' → E h.scopes.size s s' →
    w.hides h s name = false →
    h'.lookup? s' name = h.lookup? s name ∧ ∀ v, h.lookup? s name = some v → ρ.Covers v
  scopeOf : ∀ {h h' : Heap} {a : Nat}, I h h' → ρ.closure a → w.keeps a = false →
    (h'.closureAt a).scope = (h.closureAt a).scope ∧ ρ.scope (h.closureAt a).scope
  refused : ∀ {n : Nat} {α : Type} {P : α → Prop} (y : Eval α), R n P (Eval.raise Interp.refusal) y
  pure : ∀ {n : Nat} {α : Type} {P : α → Prop} {a : α}, P a → R n P (Pure.pure a) (Pure.pure a)
  throw : ∀ {n : Nat} {α : Type} (P : α → Prop) (s : Stop),
    R n P (MonadExcept.throw s) (MonadExcept.throw s)
  bind : ∀ {n : Nat} {α β : Type} {P : α → Prop} {Q : β → Prop} {x y : Eval α} {f g : α → Eval β},
    R n P x y → (∀ a, P a → R n Q (f a) (g a)) → R n Q (x >>= f) (y >>= g)
  readHeap : ∀ {n : Nat} {β : Type} {Q : β → Prop} {f g : Heap → Eval β},
    (∀ h h', I h h' → n ≤ h.scopes.size → R h.scopes.size Q (f h) (g h')) →
    R n Q (heap >>= f) (heap >>= g)
  emit : ∀ {n : Nat} e, R n (fun _ => True) (Eval.emit e) (Eval.emit e)
  note : ∀ {n : Nat} e, R n (fun _ => True) (Eval.note e) (Eval.note e)
  inFrame : ∀ {n : Nat} {x y : Eval Value} (frame : CallFrame), R n ρ.Covers x y →
    R n ρ.Covers (Eval.inFrame frame x) (Eval.inFrame frame y)
  newSequence : ∀ {n : Nat} {vs}, ρ.CoversAll vs →
    R n ρ.sequence (onHeap (·.newSequence vs)) (onHeap (·.newSequence vs))
  newStr : ∀ {n : Nat} s, R n (fun _ => True) (onHeap (·.newStr s)) (onHeap (·.newStr s))
  newMap : ∀ {n : Nat} test hint,
    R n ρ.map (onHeap (·.newMap ⟨test, hint, []⟩)) (onHeap (·.newMap ⟨test, hint, []⟩))
  newClosure : ∀ {n : Nat} {c : ClosureObject} {s : Nat}, ρ.sequence c.required →
    ρ.sequence c.optional → ρ.sequence c.body → E n c.scope s →
    R n ρ.closure (onHeap (·.newClosure c)) (onHeap (·.newClosure { c with scope := s }))
  newPusher : ∀ {n a : Nat}, ρ.sequence a →
    R n ρ.Covers (onHeap fun h => (.pusher a h.fresh, { h with fresh := h.fresh + 1 }))
      (onHeap fun h => (.pusher a h.fresh, { h with fresh := h.fresh + 1 }))
  newScope : ∀ {n : Nat} {β : Type} {Q : β → Prop} {f g : Nat → Eval β} {p p' : Nat}, Up p p' →
    (∀ s s', n ≤ s → Fresh s s' → R (s + 1) Q (f s) (g s')) →
    R n Q (onHeap (·.newScope (some p)) >>= f) (onHeap (·.newScope (some p')) >>= g)
  setItems : ∀ {n a : Nat} {vs}, ρ.sequence a → ρ.CoversAll vs →
    R n (fun _ => True) (modifyHeap (·.setItems a vs)) (modifyHeap (·.setItems a vs))
  putKey : ∀ {n a : Nat} {k v}, ρ.map a → ρ.Covers k → ρ.Covers v →
    R n (fun _ => True) (Container.putKey a k v) (Container.putKey a k v)
  define : ∀ {n s s' : Nat} name {v}, Fresh s s' → ρ.Covers v →
    R n (fun _ => True) (modifyHeap (·.define s name v)) (modifyHeap (·.define s' name v))
  defineRoot : ∀ {n s s' : Nat} name {v}, E n s s' → ρ.Covers v →
    R n (fun _ => True) (modifyHeap fun h => h.define (h.root s) name v)
      (modifyHeap fun h => h.define (h.root s') name v)
  assign : ∀ {n s s' : Nat} name {v}, E n s s' → ρ.Covers v →
    R n (fun _ => True) (w.assign s name v) (modifyHeap (·.assign s' name v))

namespace Confined

variable {w : Watch} {ρ : Region} {E : Nat → Nat → Nat → Prop} {Up Fresh : Nat → Nat → Prop}
  {I : Heap → Heap → Prop} {R : Nat → ∀ {α : Type}, (α → Prop) → Eval α → Eval α → Prop} {n : Nat}

section

variable (u : Confined w ρ E Up Fresh I R)
include u

/-! ## Results, faults and texts -/

theorem done {α : Type} (a : α) : R n (fun _ => True) (Pure.pure a) (Pure.pure a) := u.pure trivial

theorem pure_eq {α : Type} {P : α → Prop} {a b : α} (hb : b = a) (ha : P a) :
    R n P (Pure.pure a) (Pure.pure b) := by
  rw [hb]
  exact u.pure ha

theorem raise {α : Type} (P : α → Prop) (e : EvalFault) : R n P (raise e) (raise e) := u.throw P _

theorem raise_bind {α β : Type} (P : β → Prop) (e : EvalFault) (f g : α → Eval β) :
    R n P (Eval.raise e >>= f) (Eval.raise e >>= g) := u.throw P (.fault e)

theorem map {α β : Type} {P : α → Prop} {Q : β → Prop} {x y : Eval α} {f : α → β} (hx : R n P x y)
    (hf : ∀ a, P a → Q (f a)) : R n Q (do return f (← x)) (do return f (← y)) :=
  u.bind hx fun a ha => u.pure (hf a ha)

theorem ofExcept {α : Type} {P : α → Prop} {r : Except EvalFault α} (hr : ∀ a, r = .ok a → P a) :
    R n P (ofExcept r) (ofExcept r) := by
  cases r with
  | ok a => exact u.pure (hr a rfl)
  | error e => exact u.raise P e

theorem ofPrint (r : Except PrintFault String) :
    R n (fun _ => True) (ofPrint r) (ofPrint r) := by
  cases r with
  | ok a => exact u.done a
  | error e => exact u.raise _ _

theorem mapM {α β : Type} {P : α → Prop} {Q : β → Prop} {f : α → Eval β}
    (hf : ∀ a, P a → R n Q (f a) (f a)) {as : List α} (has : ∀ a ∈ as, P a) :
    R n (fun bs => ∀ b ∈ bs, Q b) (as.mapM f) (as.mapM f) := by
  induction as with
  | nil => exact u.pure fun _ hb => nomatch hb
  | cons a as ih =>
    obtain ⟨ha, has⟩ := List.forall_mem_cons.1 has
    rw [List.mapM_cons]
    refine u.bind (hf a ha) fun b hb => u.bind (ih has) fun bs hbs => u.pure ?_
    exact List.forall_mem_cons.2 ⟨hb, hbs⟩

theorem newList {vs : List Value} (hvs : ρ.CoversAll vs) : R n ρ.Covers (newList vs) (newList vs) :=
  u.map (u.newSequence hvs) fun _ ha => ha

theorem newVector {vs : List Value} (hvs : ρ.CoversAll vs) :
    R n ρ.Covers (newVector vs) (newVector vs) :=
  u.map (u.newSequence hvs) fun _ ha => ha

theorem newString (s : String) : R n ρ.Covers (newString s) (newString s) :=
  u.map (u.newStr s) fun _ _ => trivial

theorem shown {v : Value} (hv : ρ.Covers v) : R n (fun _ => True) (shown v) (shown v) := by
  refine u.readHeap fun h h' hI _ => ?_
  rw [Heap.shown, Heap.shown, u.view hI hv]
  exact u.ofPrint _

theorem bare {v : Value} (hv : ρ.Covers v) : R n (fun _ => True) (bare v) (bare v) := by
  refine u.readHeap fun h h' hI _ => ?_
  rw [Heap.bare, Heap.bare, u.view hI hv]
  exact u.ofPrint _

theorem printed {v : Value} (hv : ρ.Covers v) : R n (fun _ => True) (printed v) (printed v) := by
  refine u.readHeap fun h h' hI _ => ?_
  rw [Heap.print, Heap.print, u.view hI hv]
  exact u.ofPrint _

theorem complaint {α : Type} (P : α → Prop) {v : Value} (hv : ρ.Covers v)
    (fault : String → EvalFault) :
    R n P (do Eval.raise (fault (← Eval.shown v))) (do Eval.raise (fault (← Eval.shown v))) :=
  u.bind (u.shown hv) fun _ _ => u.raise P _

/-! ## Containers -/

theorem offset (length : Nat) (index : Int) (outside : EvalFault) :
    R n (fun _ => True) (Container.offset length index outside)
      (Container.offset length index outside) := by
  unfold Container.offset
  split
  · exact u.raise _ _
  · split
    · exact u.done _
    · exact u.raise _ _

theorem scopeKey (key : Value) :
    R n (fun _ => True) (Container.scopeKey key) (Container.scopeKey key) := by
  cases key with
  | str s | sym s => exact u.done s
  | _ => exact u.raise _ _

theorem get {target key : Value} (ht : ρ.Covers target) (hk : ρ.Covers key) :
    R n ρ.Covers (Container.get target key) (Container.get target key) := by
  have helement : ∀ a, ρ.sequence a →
      R n ρ.Covers (Container.get (.list a) key) (Container.get (.list a) key) := by
    intro a ha
    refine u.readHeap fun h h' hI _ => ?_
    obtain ⟨hitems, hcovers⟩ := u.items hI ha
    simp only [hitems]
    split
    · exact u.bind (u.offset _ _ _) fun i _ => u.pure (hcovers.getD i)
    · exact u.raise _ _
  cases target with
  | list a => exact helement a ht
  | vector a => exact helement a ht
  | str s =>
    simp only [Container.get]
    split
    · exact u.bind (u.offset _ _ _) fun i _ => u.newString _
    · exact u.raise _ _
  | map a =>
    refine u.readHeap fun h h' hI _ => ?_
    obtain ⟨hget, hcovers⟩ := u.getKey hI ht hk
    rw [hget]
    rcases hv : h.mapGet a key with (_ | _) | v
    · refine u.readHeap fun h h' hI _ => ?_
      rw [u.view hI hk]
      exact u.raise _ _
    · exact u.raise _ _
    · exact u.pure (hcovers v hv)
  | scope a =>
    refine u.bind (u.scopeKey key) fun name _ => u.readHeap fun h h' hI _ => ?_
    obtain ⟨hlookup, hcovers⟩ := u.lookup? name.text hI ht
    rw [hlookup]
    cases hv : h.lookup? a name.text with
    | some v => exact u.pure (hcovers v hv)
    | none => exact u.raise _ _
  | _ => exact u.raise _ _

theorem put {target key v : Value} (ht : ρ.Covers target) (hk : ρ.Covers key)
    (hv : ρ.Covers v) :
    R n (fun _ => True) (Container.put target key v) (Container.put target key v) := by
  have helement : ∀ a, ρ.sequence a →
      R n (fun _ => True) (Container.put (.list a) key v) (Container.put (.list a) key v) := by
    intro a ha
    refine u.readHeap fun h h' hI _ => ?_
    obtain ⟨hitems, hcovers⟩ := u.items hI ha
    simp only [hitems]
    split
    · exact u.bind (u.offset _ _ _) fun i _ => u.setItems ha (hcovers.set i hv)
    · exact u.raise _ _
  cases target with
  | list a => exact helement a ht
  | vector a => exact helement a ht
  | map a => exact u.putKey ht hk hv
  | scope s => exact u.bind (u.scopeKey key) fun name _ => u.define name (u.own ht) hv
  | _ => exact u.raise _ _

theorem length {v : Value} (hv : ρ.Covers v) :
    R n (fun _ => True) (Container.length v) (Container.length v) := by
  cases v with
  | list a | vector a =>
    exact u.readHeap fun h h' hI _ => u.pure_eq (by rw [(u.items hI hv).1]) trivial
  | str s => exact u.done _
  | map a => exact u.readHeap fun h h' hI _ => u.pure_eq (Region.mapSize_eq u.toReads hI hv) trivial
  | dict a => exact u.readHeap fun h h' hI _ => u.pure_eq (by rw [(u.dictAt hI hv).1]) trivial
  | _ => exact u.raise _ _

theorem keys {v : Value} (hv : ρ.Covers v) :
    R n ρ.CoversAll (Container.keys v) (Container.keys v) := by
  cases v with
  | map a => exact u.readHeap fun h h' hI _ => u.pure_eq (u.mapKeys hI hv).1 (u.mapKeys hI hv).2
  | scope s =>
    refine u.readHeap fun h h' hI _ => u.pure_eq (by rw [u.ownNames hI hv]) ?_
    exact Region.coversAll_map Region.covers_str _
  | dict a =>
    refine u.readHeap fun h h' hI _ => u.pure_eq (by rw [(u.dictAt hI hv).1]) ?_
    exact (u.dictAt hI hv).2
  | _ => exact u.raise _ _

theorem fieldName (v : Value) :
    R n (fun _ => True) (Container.fieldName v) (Container.fieldName v) := by
  cases v with
  | sym s | kw s | str s => exact u.done s
  | _ => exact u.raise _ _

theorem parameterNames {a : Nat} (ha : ρ.closure a) :
    R n ρ.Covers (Container.parameters a) (Container.parameters a) := by
  refine u.readHeap fun h h' hI _ => ?_
  obtain ⟨s, hclosure, -, hrequired, hoptional, -⟩ := u.closureAt hI ha
  obtain ⟨hitems, hcovers⟩ := u.items hI hrequired
  obtain ⟨hitems', hcovers'⟩ := u.items hI hoptional
  simp only [hclosure, hitems, hitems']
  refine u.newList (Region.coversAll_append.2 ⟨Region.coversAll_append.2 ⟨hcovers, hcovers'⟩, ?_⟩)
  rcases (h.closureAt a).rest with _ | s
  · exact Region.coversAll_nil
  · dsimp only
    split
    · exact Region.coversAll_nil
    · exact Region.coversAll_cons.2 ⟨trivial, Region.coversAll_nil⟩

omit u in
theorem covers_rest (rest : Option Str) : ρ.Covers (rest.elim .nil .str) := by
  cases rest <;> trivial

theorem property {target : Value} (ht : ρ.Covers target) (name : Str)
    (hopen : ∀ a, target = .closure a → Builtin.underscored name.text = "closure" → w.keeps a = false) :
    R n ρ.Covers (Container.property target name) (Container.property target name) := by
  have hmissing : ∀ {n}, R n ρ.Covers (Eval.raise (.fieldNotFound name.text))
      (Eval.raise (.fieldNotFound name.text)) := u.raise _ _
  unfold Container.property
  cases target with
  | sym s | kw s =>
    dsimp only
    split
    · exact u.pure trivial
    · exact hmissing
  | vector a =>
    dsimp only
    split
    · exact u.readHeap fun h h' hI _ => u.pure_eq (by rw [(u.items hI ht).1]) trivial
    · split
      · exact u.newPusher ht
      · exact hmissing
  | closure a =>
    dsimp only
    refine u.readHeap fun h h' hI _ => ?_
    have hscope := u.scopeOf hI ht
    obtain ⟨s, hclosure, -, hrequired, hoptional, hbody⟩ := u.closureAt hI ht
    simp only [hclosure] at hscope ⊢
    split
    · exact u.pure hrequired
    · exact u.pure hoptional
    · exact u.pure (covers_rest _)
    · exact u.pure hbody
    · next hname =>
      obtain ⟨hsame, hown⟩ := hscope (hopen a rfl hname)
      exact u.pure_eq (congrArg Value.scope hsame) hown
    · exact u.pure (covers_rest _)
    · exact u.parameterNames ht
    · exact hmissing
  | _ => exact hmissing

theorem field {target : Value} (ht : ρ.Covers target) (name : Str)
    (hopen : ∀ a, target = .closure a → Builtin.underscored name.text = "closure" → w.keeps a = false) :
    R n ρ.Covers (Container.field target name) (Container.field target name) := by
  unfold Container.field
  cases target with
  | map a =>
    refine u.readHeap fun h h' hI _ => ?_
    obtain ⟨hfield, hcovers⟩ := Region.mapField?_eq u.toReads hI ht name
    rw [hfield]
    cases hv : Container.mapField? h a name with
    | some v => exact u.pure (hcovers v hv)
    | none => exact u.raise _ _
  | scope a =>
    refine u.readHeap fun h h' hI _ => ?_
    obtain ⟨hlookup, hcovers⟩ := u.lookup? name.text hI ht
    rw [hlookup]
    cases hv : h.lookup? a name.text with
    | some v => exact u.pure (hcovers v hv)
    | none => exact u.raise _ _
  | _ => exact u.property ht name hopen

/-! ## Walking through containers -/

theorem walk {v : Value} (hv : ρ.Covers v) :
    R n ρ.CoversWalk (Container.walk v) (Container.walk v) := by
  cases v with
  | list a | vector a => exact u.pure hv
  | str s => exact u.pure trivial
  | map a =>
    exact u.readHeap fun h h' hI _ => u.pure_eq (by rw [Region.mapSize_eq u.toReads hI hv]) hv
  | scope s => exact u.pure trivial
  | _ => exact u.raise _ _

theorem next {w : Container.Walk} (hw : ρ.CoversWalk w) :
    R n (fun r => ∀ p, r = some p → ρ.Covers p.1 ∧ ρ.CoversWalk p.2) w.next w.next := by
  cases w with
  | items a index =>
    refine u.readHeap fun h h' hI _ => ?_
    obtain ⟨hitems, hcovers⟩ := u.items hI hw
    rw [hitems]
    cases hv : (h.items a)[index]? with
    | some v =>
      refine u.pure ?_
      rintro _ ⟨⟩
      exact ⟨hcovers v (List.mem_of_getElem? hv), hw⟩
    | none => exact u.pure fun _ hp => nomatch hp
  | chars cs =>
    cases cs with
    | nil => exact u.pure fun _ hp => nomatch hp
    | cons c cs =>
      refine u.bind (u.newString _) fun v hv => u.pure ?_
      rintro _ ⟨⟩
      exact ⟨hv, trivial⟩
  | keys a index size =>
    refine u.readHeap fun h h' hI _ => ?_
    obtain ⟨hkeys, hcovers⟩ := u.mapKeys hI hw
    simp only [hkeys]
    split
    · exact u.raise_bind _ _ _ _
    · cases hv : (h.mapKeys a)[index]? with
      | some v =>
        refine u.pure ?_
        rintro _ ⟨⟩
        exact ⟨hcovers v (List.mem_of_getElem? hv), hw⟩
      | none => exact u.pure fun _ hp => nomatch hp
  | names => exact u.raise _ _

theorem nextAll : ∀ {ws : List Container.Walk}, (∀ w ∈ ws, ρ.CoversWalk w) →
    R n (fun r => ∀ p, r = some p → ρ.CoversAll p.1 ∧ ∀ w ∈ p.2, ρ.CoversWalk w)
      (Container.Walk.nextAll ws) (Container.Walk.nextAll ws)
  | [], _ => u.pure (by rintro _ ⟨⟩; exact ⟨Region.coversAll_nil, fun _ hw => nomatch hw⟩)
  | w :: ws, hws => by
    obtain ⟨hw, hws⟩ := List.forall_mem_cons.1 hws
    refine u.bind (u.next hw) fun r hr => ?_
    rcases r with _ | ⟨v, w⟩
    · exact u.pure fun _ hp => nomatch hp
    · obtain ⟨hv, hw⟩ := hr _ rfl
      refine u.bind (nextAll hws) fun r hr => ?_
      rcases r with _ | ⟨vs, ws⟩
      · exact u.pure fun _ hp => nomatch hp
      · obtain ⟨hvs, hws⟩ := hr _ rfl
        refine u.pure ?_
        rintro _ ⟨⟩
        exact ⟨Region.coversAll_cons.2 ⟨hv, hvs⟩, List.forall_mem_cons.2 ⟨hw, hws⟩⟩

theorem elements {v : Value} (hv : ρ.Covers v) :
    R n ρ.CoversAll (Container.elements v) (Container.elements v) := by
  cases v with
  | list a | vector a =>
    exact u.readHeap fun h h' hI _ => u.pure_eq (u.items hI hv).1 (u.items hI hv).2
  | str s => exact u.mapM (fun c _ => u.newString _) fun c _ => trivial
  | map a => exact u.readHeap fun h h' hI _ => u.pure_eq (u.mapKeys hI hv).1 (u.mapKeys hI hv).2
  | _ => exact u.raise _ _

/-! ## The standard library -/

theorem repeated {target : Value} (ht : ρ.Covers target) (count : Int) :
    R n ρ.Covers (Library.repeated target count) (Library.repeated target count) := by
  have hsequence : ∀ a, ρ.sequence a → R n ρ.Covers
      (do
        let items := (← Eval.heap).items a
        let n ← Eval.ofExcept (Value.copies false items.length count)
        Eval.newList (List.replicate n items).flatten)
      (do
        let items := (← Eval.heap).items a
        let n ← Eval.ofExcept (Value.copies false items.length count)
        Eval.newList (List.replicate n items).flatten) := by
    intro a ha
    refine u.readHeap fun h h' hI _ => ?_
    obtain ⟨hitems, hcovers⟩ := u.items hI ha
    simp only [hitems]
    exact u.bind (u.ofExcept fun _ _ => trivial) fun n _ => u.newList (hcovers.copies n)
  cases target with
  | str s => exact u.bind (u.ofExcept fun _ _ => trivial) fun n _ => u.newString _
  | list a | vector a => exact hsequence a ht
  | _ => exact u.pure ht

theorem product {a b : Value} (ha : ρ.Covers a) (hb : ρ.Covers b) :
    R n ρ.Covers (Library.product a b) (Library.product a b) := by
  unfold Library.product
  split
  · split
    · exact u.repeated ha _
    · exact u.raise _ _
  · split
    · split
      · exact u.repeated hb _
      · exact u.raise _ _
    · exact u.ofExcept (Region.covers_arithmetic _ _ _ a b)

theorem combine {f : Value → Value → Eval Value}
    (hf : ∀ {a b}, ρ.Covers a → ρ.Covers b → R n ρ.Covers (f a b) (f a b)) :
    ∀ {a : Value} {bs : List Value}, ρ.Covers a → ρ.CoversAll bs →
      R n ρ.Covers (Library.combine f a bs) (Library.combine f a bs)
  | _, [], ha, _ => u.pure ha
  | _, _ :: _, ha, hbs => by
    obtain ⟨hb, hbs⟩ := Region.coversAll_cons.1 hbs
    exact u.bind (hf ha hb) fun c hc => combine hf hc hbs

/-- A relation that has the same answer for values of the region. -/
theorem chain {relation : Heap → Value → Value → Except EvalFault Bool}
    (hr : ∀ {h h'} {v w : Value}, I h h' → ρ.Covers v → ρ.Covers w →
      relation h' v w = relation h v w) :
    ∀ {n : Nat} {args : List Value}, ρ.CoversAll args →
      R n (fun _ => True) (Library.chain relation args) (Library.chain relation args)
  | _, [], _ | _, [_], _ => u.done true
  | _, a :: b :: rest, hargs => by
    obtain ⟨ha, hrest⟩ := Region.coversAll_cons.1 hargs
    refine u.readHeap fun h h' hI _ => ?_
    rw [hr hI ha (Region.coversAll_cons.1 hrest).1]
    refine u.bind (u.ofExcept fun _ _ => trivial) fun holds _ => ?_
    cases holds with
    | true => exact chain hr hrest
    | false => exact u.done false

theorem comparison {relation : Heap → Value → Value → Except EvalFault Bool}
    (hr : ∀ {h h'} {v w : Value}, I h h' → ρ.Covers v → ρ.Covers w →
      relation h' v w = relation h v w) {args : List Value} (hargs : ρ.CoversAll args) :
    R n ρ.Covers (Library.comparison relation args) (Library.comparison relation args) := by
  unfold Library.comparison
  split
  · exact u.raise _ _
  · exact u.map (u.chain hr hargs) fun _ _ => trivial

theorem spread {args : List Value} (hargs : ρ.CoversAll args) :
    R n ρ.CoversAll (Library.spread args) (Library.spread args) := by
  have hinit : ρ.CoversAll args.dropLast := fun v hv => hargs v ((List.dropLast_sublist _).subset hv)
  unfold Library.spread
  cases hsome : args.getLast? with
  | none => exact u.pure Region.coversAll_nil
  | some v =>
    have hv := hargs v (List.mem_of_getLast? hsome)
    cases v with
    | nil => exact u.pure hinit
    | list a | vector a =>
      refine u.readHeap fun h h' hI _ => u.pure_eq (by rw [(u.items hI hv).1]) ?_
      exact Region.coversAll_append.2 ⟨hinit, (u.items hI hv).2⟩
    | _ => exact u.raise _ _

theorem concat {args : List Value} (hargs : ρ.CoversAll args) :
    R n ρ.Covers (Library.concat args) (Library.concat args) :=
  u.bind (u.mapM (fun _ hv => u.bare hv) hargs) fun _ _ => u.newString _

theorem topics {v : Value} (hv : ρ.Covers v) :
    R n (fun _ => True) (Library.topics v) (Library.topics v) := by
  unfold Library.topics
  cases ha : v.sequence? with
  | some a =>
    refine u.readHeap fun h h' hI _ => ?_
    rw [(u.items hI (Region.sequence_of_covers hv ha)).1]
    exact u.map (u.mapM (P := fun _ => True) (fun v _ => u.fieldName v) fun _ _ => trivial)
      fun _ _ => trivial
  | none => exact u.map (u.fieldName v) fun _ _ => trivial

theorem printedBare {v : Value} (hv : ρ.Covers v) :
    R n (fun _ => True) (Library.printedBare v) (Library.printedBare v) := by
  cases v with
  | str s => exact u.done _
  | _ => exact u.printed hv

theorem makeVector {size contents : Value} (hs : ρ.Covers size) (hc : ρ.Covers contents) :
    R n ρ.Covers (Library.makeVector size contents) (Library.makeVector size contents) := by
  cases size with
  | int k =>
    have hitems : R n ρ.Covers
        (do
          let items ← Container.elements contents
          if items.length = k.toNat then Eval.newVector items
          else Eval.raise (.sizeMismatch (← Eval.shown (.int k)) (toString items.length)))
        (do
          let items ← Container.elements contents
          if items.length = k.toNat then Eval.newVector items
          else Eval.raise (.sizeMismatch (← Eval.shown (.int k)) (toString items.length))) := by
      refine u.bind (u.elements hc) fun items hitems => ?_
      split
      · exact u.newVector hitems
      · exact u.complaint _ hs (.sizeMismatch · _)
    unfold Library.makeVector
    dsimp only
    split
    · exact u.complaint _ hs .badVectorSize
    · cases contents with
      | nil =>
        dsimp only
        split
        · exact u.raise _ _
        · split
          · exact u.raise _ _
          · exact u.newVector (Region.coversAll_replicate (v := .nil) trivial _)
      | _ => exact hitems
  | _ => exact u.complaint _ hs .badVectorSize

theorem pushOnto {a : Nat} {v : Value} (ha : ρ.sequence a) (hv : ρ.Covers v) :
    R n ρ.Covers (Library.pushOnto a v) (Library.pushOnto a v) := by
  refine u.readHeap fun h h' hI _ => ?_
  obtain ⟨hitems, hcovers⟩ := u.items hI ha
  simp only [hitems]
  have hvs := Region.coversAll_append.2 ⟨hcovers, Region.coversAll_cons.2 ⟨hv, Region.coversAll_nil⟩⟩
  exact u.bind (u.setItems ha hvs) fun _ _ => u.pure trivial

theorem applyPusher {a : Nat} {args : List Value} (ha : ρ.sequence a) (hargs : ρ.CoversAll args) :
    R n ρ.Covers (Sigil.applyPusher a args) (Sigil.applyPusher a args) := by
  unfold Sigil.applyPusher
  split
  · exact u.raise _ _
  · exact u.pushOnto ha (hargs.getD 0)

theorem sizeHint {v : Value} (hv : ρ.Covers v) :
    R n (fun _ => True) (Library.sizeHint v) (Library.sizeHint v) := by
  cases v with
  | nil => exact u.done none
  | bool b => exact u.done (some (SizeHint.flag b))
  | int n =>
    unfold Library.sizeHint
    dsimp only
    split
    · exact u.complaint _ hv .badSizeHint
    · exact u.done _
  | _ => exact u.complaint _ hv .badSizeHint

theorem mapTest {v : Value} (hv : ρ.Covers v) :
    R n (fun _ => True) (Library.mapTest v) (Library.mapTest v) := by
  unfold Library.mapTest
  cases v with
  | nil => exact u.done _
  | sym s | kw s | str s =>
    dsimp only
    split
    · exact u.done _
    · exact u.raise _ _
  | _ => exact u.complaint _ hv .badTest

theorem mapGet {target key default : Value} (ht : ρ.Covers target) (hk : ρ.Covers key)
    (hd : ρ.Covers default) :
    R n ρ.Covers (Library.mapGet target key default) (Library.mapGet target key default) := by
  cases target with
  | map a =>
    refine u.readHeap fun h h' hI _ => ?_
    obtain ⟨hget, hcovers⟩ := u.getKey hI ht hk
    rw [hget]
    rcases hv : h.mapGet a key with (_ | _) | v
    · exact u.pure hd
    · exact u.raise _ _
    · exact u.pure (hcovers v hv)
  | _ => unfold Library.mapGet; exact u.get ht hk

theorem predicate (test : MapTest) {a b : Value} (ha : ρ.Covers a) (hb : ρ.Covers b) :
    R n ρ.Covers (Library.predicate test a b) (Library.predicate test a b) := by
  refine u.readHeap fun h h' hI _ => ?_
  rw [u.sameKey test hI ha hb]
  cases h.sameKey test a b with
  | none => exact u.raise _ _
  | some same => exact u.pure trivial

theorem accessIndex {target index : Value} (ht : ρ.Covers target) (hi : ρ.Covers index) :
    R n ρ.Covers (Library.accessIndex target index) (Library.accessIndex target index) := by
  cases index with
  | int n =>
    cases target with
    | nil => exact u.complaint _ hi .nilIndex
    | _ => unfold Library.accessIndex; exact u.get ht hi
  | _ => exact u.complaint _ hi _

theorem walkThrough {v : Value} (hv : ρ.Covers v) :
    R n ρ.CoversWalk (Library.walkThrough v) (Library.walkThrough v) := by
  refine u.readHeap fun h h' hI _ => ?_
  rw [Region.isNothing_eq u.toReads hI hv]
  split
  · exact u.pure trivial
  · exact u.walk hv

/-! ## Forms -/

theorem parts {a : Nat} (ha : ρ.sequence a) : R n ρ.CoversAll (Form.parts a) (Form.parts a) :=
  u.readHeap fun _ _ hI _ => u.pure_eq (u.items hI ha).1 (u.items hI ha).2

theorem part {a : Nat} (ha : ρ.sequence a) (index : Nat) :
    R n ρ.Covers (Form.part a index) (Form.part a index) :=
  u.map (u.parts ha) fun _ hvs => hvs.getD index

theorem checkParts {a : Nat} (ha : ρ.sequence a) (least : Nat) (most : Option Nat) :
    R n (fun _ => True) (Form.checkParts a least most) (Form.checkParts a least most) := by
  refine u.bind (u.parts ha) fun ps _ => ?_
  dsimp only
  split
  · exact u.raise _ _
  · exact u.done _

theorem symbol (what : String) {v : Value} (hv : ρ.Covers v) :
    R n (fun _ => True) (Form.symbol what v) (Form.symbol what v) := by
  cases v with
  | sym s => exact u.done s
  | _ => exact u.complaint _ hv (.notSymbol what)

theorem lookup (name : String) {s s' : Nat} (hs : E n s s') :
    R n ρ.Covers (w.lookup name s) (Form.lookup name s') := by
  unfold Form.lookup Watch.lookup
  split
  · exact u.pure trivial
  · split
    · exact u.pure trivial
    · refine u.readHeap fun h h' hI hn => ?_
      by_cases hhidden : w.hides h s name = true
      · rw [if_pos hhidden]
        exact u.refused _
      · obtain ⟨hlookup, hcovers⟩ := u.asked? name hI (u.mono hn hs) (Bool.eq_false_iff.2 hhidden)
        rw [if_neg hhidden, hlookup]
        cases hv : h.lookup? s name with
        | some v => exact u.pure (hcovers v hv)
        | none => exact u.raise _ _

theorem binding {v : Value} (hv : ρ.Covers v) :
    R n (fun b => ρ.Covers b.2) (Form.binding v) (Form.binding v) := by
  have hbad : ∀ {n v}, ρ.Covers v → R n (fun b : Str × Value => ρ.Covers b.2)
      (do Eval.raise (.badBinding (← Eval.shown v)))
      (do Eval.raise (.badBinding (← Eval.shown v))) :=
    fun hv => u.complaint _ hv .badBinding
  have hname : ∀ {n name form}, ρ.Covers name → ρ.Covers form →
      R n (fun b : Str × Value => ρ.Covers b.2) (do return (← Form.symbol "Binding name" name, form))
        (do return (← Form.symbol "Binding name" name, form)) :=
    fun hname hform => u.map (u.symbol _ hname) fun _ _ => hform
  cases v with
  | sym s => exact u.pure trivial
  | list a | vector a =>
    refine u.readHeap fun h h' hI _ => ?_
    obtain ⟨hitems, hcovers⟩ := u.items hI hv
    rw [hitems]
    generalize h.items a = items at hcovers
    rcases items with _ | ⟨name, _ | ⟨form, _ | _⟩⟩
    · exact hbad hv
    · exact hname (hcovers name (by simp)) trivial
    · exact hname (hcovers name (by simp)) (hcovers form (by simp))
    · exact hbad hv
  | _ => exact hbad hv

theorem bindings {a : Nat} (ha : ρ.sequence a) :
    R n (fun bs => ∀ b ∈ bs, ρ.Covers b.2) (Form.bindings a) (Form.bindings a) := by
  refine u.bind (u.checkParts ha 1 none) fun _ _ => u.bind (u.part ha 1) fun v hv => ?_
  cases hb : v.sequence? with
  | some b =>
    refine u.readHeap fun h h' hI _ => ?_
    obtain ⟨hitems, hcovers⟩ := u.items hI (Region.sequence_of_covers hv hb)
    rw [hitems]
    exact u.mapM (fun _ hv => u.binding hv) hcovers
  | none =>
    refine u.bind (u.part ha 0) fun head _ => ?_
    cases head with
    | sym s => exact u.raise _ _
    | _ => exact u.raise _ _

theorem defineAll {s s' : Nat} (hs : Fresh s s') : ∀ {bs : List (Str × Value)},
    (∀ b ∈ bs, ρ.Covers b.2) → R n (fun _ => True) (Form.defineAll s bs) (Form.defineAll s' bs)
  | [], _ => u.done ()
  | (name, v) :: rest, hbs => by
    obtain ⟨hv, hrest⟩ := List.forall_mem_cons.1 hbs
    exact u.bind (u.define name hs hv) fun _ _ => defineAll hs hrest

theorem sortParameters (current : Form.Section) (ps : Form.Parameters) {vs : List Value}
    (hvs : ρ.CoversAll vs) :
    R n (fun _ => True) (Form.sortParameters current ps vs) (Form.sortParameters current ps vs) := by
  induction vs generalizing current ps with
  | nil => exact u.done ps
  | cons v vs ih =>
    obtain ⟨hv, hvs⟩ := Region.coversAll_cons.1 hvs
    refine u.bind (u.symbol "Parameter" hv) fun s _ => ?_
    split
    · exact ih .optional ps hvs
    · split
      · exact ih .rest ps hvs
      · cases current with
        | required | optional => exact ih _ _ hvs
        | rest =>
          dsimp only
          split
          · exact u.raise _ _
          · exact ih .rest _ hvs

theorem parameters {v : Value} (hv : ρ.Covers v) :
    R n (fun _ => True) (Form.parameters v) (Form.parameters v) := by
  unfold Form.parameters
  cases ha : v.sequence? with
  | some a =>
    refine u.readHeap fun h h' hI _ => ?_
    obtain ⟨hitems, hcovers⟩ := u.items hI (Region.sequence_of_covers hv ha)
    rw [hitems]
    exact u.sortParameters .required ⟨[], [], none⟩ hcovers
  | none => exact u.complaint _ hv .parametersNotList

theorem function {params : Value} {forms : List Value} {s s' : Nat} (hparams : ρ.Covers params)
    (hforms : ρ.CoversAll forms) (hs : E n s s') (name : Option Str) :
    R n ρ.Covers (Form.function params forms s name) (Form.function params forms s' name) := by
  refine u.bind (u.parameters hparams) fun ps _ => u.readHeap fun h h' hI hn => ?_
  have hbody : forms.dropWhile (Form.isDeclaration h')
      = forms.dropWhile (Form.isDeclaration h) := by
    clear hparams
    induction forms with
    | nil => rfl
    | cons v forms ih =>
      obtain ⟨hv, hforms⟩ := Region.coversAll_cons.1 hforms
      rw [List.dropWhile_cons, List.dropWhile_cons, Region.isDeclaration_eq u.toReads hI hv,
        ih hforms]
  rw [hbody]
  refine u.bind (u.newSequence (Region.coversAll_map Region.covers_str _)) fun required hrequired =>
    u.bind (u.newSequence (Region.coversAll_map Region.covers_str _)) fun optional hoptional =>
      u.bind (u.newSequence ?_) fun body hbody => ?_
  · exact fun v hv => hforms v ((List.dropWhile_sublist _).subset hv)
  · exact u.map (u.newClosure (c := ⟨required, optional, ps.rest, body, s, name⟩) hrequired
      hoptional hbody (u.mono hn hs)) fun _ ha => ha

theorem bindParameters {s s' : Nat} (hs : Fresh s s') : ∀ {ps args : List Value},
    ρ.CoversAll args → R n (fun _ => True) (bindParameters s ps args) (bindParameters s' ps args)
  | [], _, _ => u.done ()
  | p :: ps, args, hargs => by
    refine u.bind (u.scopeKey p) fun name _ => ?_
    refine u.bind (u.define name hs hargs.headD) fun _ _ => bindParameters hs ?_
    exact fun v hv => hargs v (List.mem_of_mem_tail hv)

end

end Confined

end Sigil
