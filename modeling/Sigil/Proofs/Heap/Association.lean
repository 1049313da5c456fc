import Sigil.Eval.Library
import Sigil.Heap.MapStep
import Sigil.Proofs.Heap.Grounded

/-!
# Maps as association lists

An `Association` holds key objects with their values in the order of insertion and is searched
with a relation between keys. A map whose stored keys still have the forms under which they were
put in (`MapObject.Settled`) answers every operation as the association list of its entries does,
searched with the predicate of the map's test (`Represents.mapStep`). A new map is settled, and
the operations keep it so: they never change what keys are compared by (`mapSteps_newMap`). A key
that contains itself cannot be compared by its contents, and no operation ends with it.
-/

namespace Sigil

/-- Key objects and values, in the order in which the keys were put in. -/
abbrev Association := List (Value × Value)

/-- The key on which an operation is done. -/
def MapStep.key? : MapStep → Option Value
  | put k _ | get k | getOr k _ | delete k | pop k | getOrPut k _ | contains k => some k
  | clear => none

namespace Association

variable (same : Value → Value → Bool)

def lookup? (l : Association) (k : Value) : Option Value :=
  (l.find? fun e => same k e.1).map (·.2)

/-- Put a value under a key. A key that is there keeps its object and its place; another one goes
to the end. -/
def put (k v : Value) : Association → Association
  | [] => [(k, v)]
  | (stored, old) :: rest =>
    if same k stored then (stored, v) :: rest else (stored, old) :: put k v rest

def erase (l : Association) (k : Value) : Association := l.filter fun e => !same k e.1

def step (l : Association) : MapStep → MapAnswer × Association
  | .put k v => (.done, l.put same k v)
  | .get k => match l.lookup? same k with
    | some v => (.value v, l)
    | none => (.missing k, l)
  | .getOr k v => (.value ((l.lookup? same k).getD v), l)
  | .delete k => match l.lookup? same k with
    | some _ => (.done, l.erase same k)
    | none => (.missing k, l)
  | .pop k => match l.lookup? same k with
    | some v => (.value v, l.erase same k)
    | none => (.missing k, l)
  | .getOrPut k v => match l.lookup? same k with
    | some w => (.value w, l)
    | none => (.value v, l.put same k v)
  | .contains k => (.truth (l.lookup? same k).isSome, l)
  | .clear => (.done, [])

/-- Do operations one after the other. One whose key is not among those that are `keyed` does not
come to an end. -/
def run (keyed : Value → Bool) (l : Association) : List MapStep → List MapAnswer × Association
  | [] => ([], l)
  | s :: ss =>
    let (answer, l) := if s.key?.all keyed then l.step same s else (.endless, l)
    let (answers, l) := run keyed l ss
    (answer :: answers, l)

/-- No key is the same as a later one. -/
def Apart (l : Association) : Prop := l.Pairwise fun a b => same a.1 b.1 = false

end Association

/-! ## Settled maps -/

namespace MapObject

variable {m : MapObject} {norm : Value → Option MapKey} {form : MapKey} {k v : Value}

def pairs (m : MapObject) : Association := m.entries.map fun e => (e.stored, e.value)

/-- Every key has one entry, under the form that its object has now. -/
structure Settled (norm : Value → Option MapKey) (m : MapObject) : Prop where
  distinct : m.Distinct
  form : ∀ e ∈ m.entries, norm e.stored = some e.key

theorem settled_nil (norm : Value → Option MapKey) (test : MapTest) (hint : Option SizeHint) :
    Settled norm ⟨test, hint, []⟩ := ⟨List.nodup_nil, nofun⟩

/-- Two keys are the same when they have the same form. -/
def sameForm (norm : Value → Option MapKey) (a b : Value) : Bool :=
  (do return (← norm a) == (← norm b)) == some true

theorem sameForm_eq {a b : Value} {f g : MapKey} (ha : norm a = some f) (hb : norm b = some g) :
    sameForm norm a b = (f == g) := by
  simp [sameForm, ha, hb]

theorem key_of_find? {e : Entry} (he : m.find? form = some e) : e.key = form := by
  simpa using List.find?_some he

theorem Settled.find? (h : m.Settled norm) (hk : norm k = some form) :
    (m.find? form).map (·.value) = m.pairs.lookup? (sameForm norm) k := by
  have hform := h.form
  unfold MapObject.find? Association.lookup? pairs
  generalize m.entries = es at hform
  induction es with
  | nil => rfl
  | cons e es ih =>
    have he : norm e.stored = some e.key := hform e List.mem_cons_self
    have ih := ih fun e' h' => hform e' (List.mem_cons_of_mem e h')
    simp only [List.map_cons, List.find?_cons, sameForm_eq hk he, BEq.comm (a := e.key)]
    cases form == e.key with
    | true => rfl
    | false => exact ih

theorem mem_putEntry {e : Entry} {key : MapKey} {es : List Entry}
    (h : e ∈ putEntry key k v es) : e.key = key ∧ e.stored = k ∨
      ∃ e' ∈ es, e.key = e'.key ∧ e.stored = e'.stored := by
  induction es with
  | nil =>
    rw [putEntry, List.mem_singleton] at h
    subst h
    exact .inl ⟨rfl, rfl⟩
  | cons e₀ es ih =>
    rw [putEntry] at h
    split at h
    · rcases List.mem_cons.1 h with rfl | h
      · exact .inr ⟨e₀, List.mem_cons_self, rfl, rfl⟩
      · exact .inr ⟨e, List.mem_cons_of_mem e₀ h, rfl, rfl⟩
    · rcases List.mem_cons.1 h with rfl | h
      · exact .inr ⟨e, List.mem_cons_self, rfl, rfl⟩
      · rcases ih h with h | ⟨e', he', hsame⟩
        · exact .inl h
        · exact .inr ⟨e', List.mem_cons_of_mem e₀ he', hsame⟩

theorem Settled.put (h : m.Settled norm) (hk : norm k = some form) (v : Value) :
    (m.put form k v).Settled norm where
  distinct := h.distinct.put _ _ _
  form e he := by
    rcases mem_putEntry he with ⟨hkey, hstored⟩ | ⟨e', he', hkey, hstored⟩
    · rw [hkey, hstored, hk]
    · rw [hkey, hstored]
      exact h.form e' he'

theorem Settled.pairs_put (h : m.Settled norm) (hk : norm k = some form) (v : Value) :
    (m.put form k v).pairs = m.pairs.put (sameForm norm) k v := by
  have hform := h.form
  unfold pairs MapObject.put
  simp only
  generalize m.entries = es at hform
  induction es with
  | nil => rfl
  | cons e es ih =>
    have he : norm e.stored = some e.key := hform e List.mem_cons_self
    have ih := ih fun e' h' => hform e' (List.mem_cons_of_mem e h')
    simp only [putEntry, List.map_cons, Association.put, sameForm_eq hk he]
    by_cases heq : e.key = form
    · simp [heq]
    · have hne : ¬form = e.key := fun h => heq h.symm
      simpa [heq, hne] using ih

theorem Settled.erase (h : m.Settled norm) (k : MapKey) : (m.erase k).Settled norm where
  distinct := h.distinct.erase k
  form e he := h.form e ((List.mem_filter.1 he).1)

theorem Settled.pairs_erase (h : m.Settled norm) (hk : norm k = some form) :
    (m.erase form).pairs = m.pairs.erase (sameForm norm) k := by
  unfold pairs MapObject.erase Association.erase
  simp only [List.filter_map]
  congr 1
  refine List.filter_congr fun e he => ?_
  simp only [Function.comp, sameForm_eq hk (h.form e he), bne, BEq.comm (a := e.key)]

theorem Settled.apart (h : m.Settled norm) : m.pairs.Apart (sameForm norm) := by
  have hdistinct := List.pairwise_map.1 h.distinct
  refine List.pairwise_map.2 (hdistinct.imp_of_mem ?_)
  intro a b ha hb hne
  simpa [sameForm_eq (h.form a ha) (h.form b hb)] using hne

/-- The first key of a settled map is found and taken out each time, until none is left. -/
theorem drain_of_settled {h : Heap} (hm : m.Settled (h.key m.test)) {n : Nat}
    (hn : m.entries.length ≤ n) : h.drain n m = ({ m with entries := [] }, none) := by
  induction n generalizing m with
  | zero =>
    have hnil : m.entries = [] := List.length_eq_zero_iff.1 (Nat.le_zero.1 hn)
    rw [Heap.drain, ← hnil]
  | succ n ih =>
    cases hes : m.entries with
    | nil =>
      simp only [Heap.drain, hes]
      rw [← hes]
    | cons e es =>
      have he : h.entryOf m e.stored = .ok e := by
        refine Heap.entryOf_eq_ok.2 ⟨e.key, hm.form e (by simp [hes]), ?_⟩
        simp [find?, hes]
      have hnodup : e.key ∉ es.map (·.key) := by
        have hd := hm.distinct
        rw [Distinct, hes, List.map_cons, List.nodup_cons] at hd
        exact hd.1
      have hrest : (m.erase e.key).entries = es := by
        have hkeep : ∀ e' ∈ es, (e'.key != e.key) = true := by
          intro e' he'
          refine bne_iff_ne.2 fun heq => hnodup ?_
          exact List.mem_map.2 ⟨e', he', heq⟩
        simp [erase, hes, List.filter_eq_self.2 hkeep]
      have hlen : (m.erase e.key).entries.length ≤ n := by
        rw [hrest]
        rw [hes, List.length_cons] at hn
        omega
      simp only [Heap.drain, hes, he]
      rw [ih (hm.erase e.key) hlen]
      rfl

end MapObject

/-! ## Operations on a map of a heap -/

namespace Heap

variable {h : Heap} {ref : Nat} {m : MapObject} {l : Association} {norm : Value → Option MapKey}
  {test : MapTest} {form : MapKey} {k v : Value}

theorem mapAt_setMap (hr : ref < h.maps.size) (m : MapObject) : (h.setMap ref m).mapAt ref = m := by
  simp [setMap, mapAt, hr]

theorem key_setMap (h : Heap) (ref : Nat) (m : MapObject) : (h.setMap ref m).key = h.key := by
  have hkeyTo : ∀ fold n, (h.setMap ref m).keyTo fold n = h.keyTo fold n := by
    intro fold n
    induction n with
    | zero => rfl
    | succ n ih =>
      rw [keyTo, keyTo, ih]
      rfl
  have hdepth : (h.setMap ref m).depth = h.depth := by simp [depth, size, setMap]
  funext test v
  cases test with
  | eq | eql => rfl
  | equal | equalp => simp only [key, contentKey, hdepth, hkeyTo]

/-- The map at `ref` has the test `test`, for which `norm` gives the forms of keys; it is settled and
holds the keys and values of `l`. -/
structure Represents (test : MapTest) (norm : Value → Option MapKey) (h : Heap) (ref : Nat)
    (l : Association) : Prop where
  bound : ref < h.maps.size
  test_eq : (h.mapAt ref).test = test
  norm_eq : h.key test = norm
  settled : (h.mapAt ref).Settled norm
  pairs_eq : (h.mapAt ref).pairs = l

theorem Represents.setMap (hl : Represents test norm h ref l) (htest : m.test = test)
    (hm : m.Settled norm) : Represents test norm (h.setMap ref m) ref m.pairs where
  bound := by simpa [Heap.setMap] using hl.bound
  test_eq := by rw [mapAt_setMap hl.bound, htest]
  norm_eq := by rw [key_setMap, hl.norm_eq]
  settled := by rw [mapAt_setMap hl.bound]; exact hm
  pairs_eq := by rw [mapAt_setMap hl.bound]

theorem mapStep_of_key_none (hk : h.key (h.mapAt ref).test k = none) {s : MapStep}
    (hs : s.key? = some k) : h.mapStep ref s = (.endless, h) := by
  cases s <;> cases hs <;>
    simp [mapStep, mapGet, mapPut, entryOf, changed, Lapse.answer, hk, Except.map]

section Operations

open MapObject (sameForm)

variable (hl : Represents test norm h ref l)
include hl

theorem Represents.mapStep_of_none (hk : norm k = none) {s : MapStep} (hs : s.key? = some k) :
    h.mapStep ref s = (.endless, h) :=
  mapStep_of_key_none (by rw [hl.test_eq, hl.norm_eq, hk]) hs

section

variable (hk : norm k = some form)
include hk

theorem Represents.entryOf :
    h.entryOf (h.mapAt ref) k = ((h.mapAt ref).find? form).elim (.error .missing) .ok := by
  rw [Heap.entryOf, hl.test_eq, hl.norm_eq, hk]
  cases hfound : (h.mapAt ref).find? form <;> simp [hfound]

theorem Represents.lookup?_eq :
    l.lookup? (sameForm norm) k = ((h.mapAt ref).find? form).map (·.value) := by
  rw [hl.settled.find? hk, hl.pairs_eq]

theorem Represents.mapPut (v : Value) : ∃ h', h.mapPut ref k v = some h' ∧
    Represents test norm h' ref (l.put (sameForm norm) k v) := by
  have hput := hl.setMap (m := (h.mapAt ref).put form k v) hl.test_eq (hl.settled.put hk v)
  rw [hl.settled.pairs_put hk, hl.pairs_eq] at hput
  exact ⟨_, mapPut_eq_some.2 ⟨form, by rw [hl.test_eq, hl.norm_eq, hk], rfl⟩, hput⟩

theorem Represents.mapErase :
    Represents test norm (h.mapErase ref form) ref (l.erase (sameForm norm) k) := by
  have herase := hl.setMap (m := (h.mapAt ref).erase form) hl.test_eq (hl.settled.erase form)
  rwa [hl.settled.pairs_erase hk, hl.pairs_eq] at herase

end

theorem Represents.mapClear : ∃ h', h.mapClear ref = (h', none) ∧ Represents test norm h' ref [] := by
  have hsettled : (h.mapAt ref).Settled (h.key (h.mapAt ref).test) := by
    rw [hl.test_eq, hl.norm_eq]
    exact hl.settled
  have hempty := hl.setMap (m := { h.mapAt ref with entries := [] }) hl.test_eq
    (MapObject.settled_nil norm _ _)
  refine ⟨_, ?_, hempty⟩
  rw [Heap.mapClear, MapObject.drain_of_settled hsettled (Nat.le_refl _)]

/-- The map answers an operation as its association list does. -/
theorem Represents.mapStep (s : MapStep) (hs : ∀ k, s.key? = some k → (norm k).isSome) :
    (h.mapStep ref s).1 = (l.step (sameForm norm) s).1 ∧
      Represents test norm (h.mapStep ref s).2 ref (l.step (sameForm norm) s).2 := by
  cases s with
  | clear =>
    obtain ⟨h', hclear, hh'⟩ := hl.mapClear
    simp only [Heap.mapStep, Association.step, hclear]
    exact ⟨trivial, hh'⟩
  | put k v =>
    obtain ⟨form, hk⟩ := Option.isSome_iff_exists.1 (hs k rfl)
    obtain ⟨h', hput, hh'⟩ := hl.mapPut hk v
    simp only [Heap.mapStep, Association.step, changed, hput]
    exact ⟨trivial, hh'⟩
  | getOr k v | contains k | get k =>
    obtain ⟨form, hk⟩ := Option.isSome_iff_exists.1 (hs k rfl)
    simp only [Heap.mapStep, Heap.mapGet, Association.step, hl.entryOf hk, hl.lookup?_eq hk]
    cases (h.mapAt ref).find? form <;> exact ⟨rfl, hl⟩
  | delete k | pop k =>
    obtain ⟨form, hk⟩ := Option.isSome_iff_exists.1 (hs k rfl)
    simp only [Heap.mapStep, Association.step, hl.entryOf hk, hl.lookup?_eq hk]
    cases he : (h.mapAt ref).find? form with
    | none => exact ⟨rfl, hl⟩
    | some e =>
      refine ⟨rfl, ?_⟩
      simp only [Option.elim_some, Option.map_some, MapObject.key_of_find? he]
      exact hl.mapErase hk
  | getOrPut k v =>
    obtain ⟨form, hk⟩ := Option.isSome_iff_exists.1 (hs k rfl)
    obtain ⟨h', hput, hh'⟩ := hl.mapPut hk v
    simp only [Heap.mapStep, Heap.mapGet, Association.step, hl.entryOf hk, hl.lookup?_eq hk,
      changed, hput]
    cases (h.mapAt ref).find? form with
    | none => exact ⟨rfl, hh'⟩
    | some e => exact ⟨rfl, hl⟩

/-- The map answers a sequence of operations as its association list does, and none of those whose
key has no form. -/
theorem Represents.mapSteps (ss : List MapStep) :
    let expected := l.run (sameForm norm) (fun k => (norm k).isSome) ss
    (h.mapSteps ref ss).1 = expected.1 ∧
      Represents test norm (h.mapSteps ref ss).2 ref expected.2 := by
  induction ss generalizing h l with
  | nil => exact ⟨rfl, hl⟩
  | cons s ss ih =>
    simp only [Heap.mapSteps, Association.run]
    split
    · next hkeyed =>
      have hforms : ∀ k, s.key? = some k → (norm k).isSome := fun k hk => by simpa [hk] using hkeyed
      obtain ⟨hanswer, hstep⟩ := hl.mapStep s hforms
      obtain ⟨hanswers, hrun⟩ := ih hstep
      exact ⟨by rw [hanswer, hanswers], hrun⟩
    · next hkeyed =>
      cases hk : s.key? with
      | none => simp [hk] at hkeyed
      | some k =>
        have hnone : norm k = none := by simpa [hk] using hkeyed
        rw [hl.mapStep_of_none hnone hk]
        obtain ⟨hanswers, hrun⟩ := ih hl
        exact ⟨by rw [hanswers], hrun⟩

omit hl in
theorem represents_newMap (h : Heap) (test : MapTest) (hint : Option SizeHint) :
    let new := h.newMap ⟨test, hint, []⟩
    Represents test (new.2.key test) new.2 new.1 [] := by
  have hmap : (h.newMap ⟨test, hint, []⟩).2.mapAt (h.newMap ⟨test, hint, []⟩).1
      = ⟨test, hint, []⟩ := by simp [newMap, mapAt]
  refine ⟨by simp [newMap], ?_, rfl, ?_, ?_⟩ <;> simp only [hmap]
  · exact MapObject.settled_nil _ test hint
  · rfl

end Operations

end Heap

/-! ## The predicates of the tests -/

def MapTest.builtin : MapTest → Builtin
  | eq => .eq
  | eql => .eql
  | equal => .equal
  | equalp => .equalp

theorem MapTest.name_builtin (t : MapTest) : t.builtin.name = t.name := by cases t <;> rfl

/-- The predicate of a test compares the forms of its arguments, and does not come to an end when
one has none. -/
theorem Library.run_builtin (next : Interp) (t : MapTest) (a b : Value) (m : Machine) :
    Library.run next t.builtin [a, b] m = match m.heap.sameKey t a b with
      | some same => .ok (.bool same) m
      | none => .error (.fault (.endless .key)) m := by
  have hrun : Library.run next t.builtin [a, b] m = (match m.heap.sameKey t a b with
      | some same => pure (Value.bool same)
      | none => Eval.raise (.endless .key) : Eval Value) m := by cases t <;> rfl
  rw [hrun]
  cases m.heap.sameKey t a b <;> rfl

/-- The builtin function of the test's name says of keys that are `keyed` whether they are the `same`,
and does not come to an end on other ones. -/
def MapTest.Decides (t : MapTest) (h : Heap) (keyed : Value → Bool) (same : Value → Value → Bool) :
    Prop :=
  t.builtin.name = t.name ∧ ∀ next a b (m : Machine),
    Library.run next t.builtin [a, b] { m with heap := h }
      = if keyed a && keyed b then .ok (.bool (same a b)) { m with heap := h }
        else .error (.fault (.endless .key)) { m with heap := h }

theorem Heap.decides_key (h : Heap) (t : MapTest) :
    t.Decides h (fun k => (h.key t k).isSome) fun a b => h.sameKey t a b == some true := by
  refine ⟨t.name_builtin, fun next a b m => ?_⟩
  rw [Library.run_builtin, ← isSome_sameKey]
  dsimp only
  rcases h.sameKey t a b with _ | _ | _ <;> rfl

/-- A new map answers every sequence of operations as the association list that is searched with
the predicate of the map's test, and has the same length and the same key objects in the same
order; no two of its keys are the same under the predicate. Only an operation whose key the
test has to look into and which contains itself does not come to an end, and changes nothing. The
predicate is the builtin function of the same name, before and after the operations. -/
theorem Heap.mapSteps_newMap (h : Heap) (test : MapTest) (hint : Option SizeHint)
    (steps : List MapStep) :
    let new := h.newMap ⟨test, hint, []⟩
    let keyed k := (new.2.key test k).isSome
    let same a b := new.2.sameKey test a b == some true
    let done := new.2.mapSteps new.1 steps
    let expected := Association.run same keyed [] steps
    (∀ k, keyed k = true ↔ new.2.Comparable test k) ∧
      done.1 = expected.1 ∧
      done.2.mapSize new.1 = expected.2.length ∧
      done.2.mapKeys new.1 = expected.2.map (·.1) ∧
      expected.2.Apart same ∧
      test.Decides new.2 keyed same ∧ test.Decides done.2 keyed same := by
  intro new keyed same done expected
  have hnew : Represents test (new.2.key test) new.2 new.1 [] := represents_newMap h test hint
  obtain ⟨hanswers, hdone⟩ := hnew.mapSteps steps
  have hpairs : (done.2.mapAt new.1).pairs = expected.2 := hdone.pairs_eq
  have hkey : done.2.key test = new.2.key test := hdone.norm_eq
  refine ⟨fun k => isSome_key, hanswers, ?_, ?_, ?_, new.2.decides_key test, ?_⟩
  · rw [← hpairs, MapObject.pairs, List.length_map, mapSize]
  · rw [← hpairs, MapObject.pairs, List.map_map]
    rfl
  · rw [← hpairs]
    exact hdone.settled.apart
  · have hdecides := done.2.decides_key test
    simp only [sameKey, hkey] at hdecides
    exact hdecides

/-- A list that contains itself can be put in an association list, but in no map with the test
`equal`. -/
theorem Heap.mapSteps_selfContaining :
    let new := selfContaining.newMap ⟨.equal, none, []⟩
    let same a b := new.2.sameKey .equal a b == some true
    (new.2.mapSteps new.1 [.put (.list 0) (.int 0)]).1 = [.endless] ∧
      (Association.run same (fun _ => true) [] [.put (.list 0) (.int 0)]).1 = [.done] := by
  decide +kernel

/-- An overwritten key keeps its place and its object, and one that comes back goes to the end. -/
example :
    let key (id : Nat) (text : String) : Value := .str (.made id text)
    let new := Heap.empty.newMap ⟨.equalp, none, []⟩
    (new.2.mapSteps new.1 [.put (key 0 "a") .nil, .put (key 1 "b") .nil, .put (key 2 "B") .nil,
      .delete (key 3 "A"), .put (key 4 "A") .nil]).2.mapKeys new.1 = [key 1 "b", key 4 "A"] := by
  cbv

end Sigil
