import Sigil.Proofs.Eval.Regional
import Sigil.Proofs.Eval.Runs
import Sigil.Proofs.Heap.Merged

/-!
# Maps with any keys and values

What a map is read as makes the map and then evaluates keys and values, where the builtins are bound under
their names. Nothing else is known of keys and values: they may have any effects, bind the names of
the builtins anew and fail. Key and value of each pair are evaluated and put in before the next pair,
each once, up to the first that fails (`Interp.Fills`). Nothing refers to the map before it is full, so
it then has the entries that were put in, merged by its test (`Interp.eval_map`).
-/

namespace Sigil

open Eval

namespace Interp

variable {scope n : Nat} {s : Str} {forms args : List Value} {m m' : Machine}

/-- Key and value of a pair are evaluated in turn and put into the map `r`. The result is the entry, with
the key as the test then compares it; a key that it cannot compare is not put in. -/
inductive Puts (depth : Nat) (test : MapTest) (scope r : Nat) (pair : Value × Value) (m : Machine) :
    EStateM.Result Stop Machine Entry → Prop
  | noKey {m' : Machine} {s : Stop} (key : (ofDepth depth).eval pair.1 scope m = .error s m') :
      Puts depth test scope r pair m (.error s m')
  | noValue {k : Value} {m₁ m' : Machine} {s : Stop}
      (key : (ofDepth depth).eval pair.1 scope m = .ok k m₁)
      (value : (ofDepth depth).eval pair.2 scope m₁ = .error s m') :
      Puts depth test scope r pair m (.error s m')
  | noForm {k v : Value} {m₁ m₂ : Machine} (key : (ofDepth depth).eval pair.1 scope m = .ok k m₁)
      (value : (ofDepth depth).eval pair.2 scope m₁ = .ok v m₂)
      (form_eq : m₂.heap.key test k = none) :
      Puts depth test scope r pair m
        (.error (.fault (.endless .key)) (called .mapPut [.map r, k, v] m₂))
  | put {k v : Value} {form : MapKey} {m₁ m₂ : Machine}
      (key : (ofDepth depth).eval pair.1 scope m = .ok k m₁)
      (value : (ofDepth depth).eval pair.2 scope m₁ = .ok v m₂)
      (form_eq : m₂.heap.key test k = some form) :
      Puts depth test scope r pair m (.ok ⟨form, k, v⟩ { m₂ with
        heap := m₂.heap.setMap r ((m₂.heap.mapAt r).put form k v)
        notes := .call "map-put" 3 :: m₂.notes })

/-- Pairs are evaluated and put into the map `r` in turn, each once, up to the first that stops: the
first one with a depth that is given, each later one a level further out. -/
inductive Fills (test : MapTest) (scope r : Nat) : Nat → List (Value × Value) → Machine →
    EStateM.Result Stop Machine (List Entry) → Prop
  | nil (depth : Nat) (m : Machine) : Fills test scope r depth [] m (.ok [] m)
  | stop {depth : Nat} {p : Value × Value} {ps : List (Value × Value)} {m m' : Machine} {s : Stop}
      (head : Puts depth test scope r p m (.error s m')) :
      Fills test scope r depth (p :: ps) m (.error s m')
  | later {depth : Nat} {p : Value × Value} {ps : List (Value × Value)} {e : Entry}
      {m m₁ m' : Machine} {s : Stop} (head : Puts depth test scope r p m (.ok e m₁))
      (rest : Fills test scope r (depth + 1) ps m₁ (.error s m')) :
      Fills test scope r depth (p :: ps) m (.error s m')
  | cons {depth : Nat} {p : Value × Value} {ps : List (Value × Value)} {e : Entry} {es : List Entry}
      {m m₁ m' : Machine} (head : Puts depth test scope r p m (.ok e m₁))
      (rest : Fills test scope r (depth + 1) ps m₁ (.ok es m')) :
      Fills test scope r depth (p :: ps) m (.ok (e :: es) m')

section

variable {test : MapTest} {r depth : Nat} {ps : List (Value × Value)} {es : List Entry}
  {m₁ : Machine} {stop : Stop}

theorem Fills.append_of_error (hf : Fills test scope r depth ps m (.error stop m'))
    (qs : List (Value × Value)) : Fills test scope r depth (ps ++ qs) m (.error stop m') := by
  generalize hr : EStateM.Result.error stop m' = result at hf
  induction hf with
  | nil | cons => cases hr
  | stop head =>
    cases hr
    exact .stop head
  | later head _ ih =>
    cases hr
    exact .later head (ih rfl)

theorem Fills.append {qs : List (Value × Value)} {result : EStateM.Result Stop Machine (List Entry)}
    (hf : Fills test scope r depth ps m (.ok es m₁))
    (hg : Fills test scope r (depth + ps.length) qs m₁ result) :
    Fills test scope r depth (ps ++ qs) m (mapResult (es ++ ·) result) := by
  generalize hr : EStateM.Result.ok es m₁ = first at hf
  induction hf generalizing es with
  | stop | later => cases hr
  | nil =>
    cases hr
    cases result <;> exact hg
  | cons head _ ih =>
    cases hr
    rw [List.length_cons, ← Nat.add_assoc, Nat.add_right_comm] at hg
    cases result with
    | error s m' => exact .later head (ih hg rfl)
    | ok fs m' => exact .cons head (ih hg rfl)

end

/-! ## What the map holds -/

end Interp

/-- All objects but the map `r`. -/
def Region.withoutMap (r : Nat) : Region where
  sequence _ := True
  map a := a ≠ r
  closure _ := True
  scope _ := True
  dict _ := True

theorem Region.covers_withoutMap {h : Heap} {r : Nat} {v : Value} {d : Datum} (hv : h.Has ∅ v d) :
    (Region.withoutMap r).Covers v := by
  cases Heap.level_of_has hv with
  | map hmem => cases hmem
  | _ => trivial

/-- In a heap without dangling references nothing refers to a map that is added. -/
theorem Heap.Closed.encloses_newMap {h : Heap} (hc : h.Closed) (test : MapTest)
    (hint : Option SizeHint) :
    (Region.withoutMap h.maps.size).Encloses (h.newMap ⟨test, hint, []⟩).2 := by
  have hcontains : (Region.withoutMap h.maps.size).Contains h.present :=
    ⟨fun _ => trivial, fun ha => Nat.ne_of_lt ha, fun _ => trivial, fun _ => trivial,
      fun _ => trivial⟩
  exact {
    items := fun {a} _ v hv => hcontains.covers (hc.items a v hv)
    entries := fun {a} ha e he => by
      have hold : (h.newMap ⟨test, hint, []⟩).2.mapAt a = h.mapAt a := by
        have hne : a ≠ h.maps.size := ha
        simp [newMap, mapAt, Array.getElem?_push, hne]
      rw [hold] at he
      exact (hc.entries a e he).imp hcontains.covers hcontains.covers
    closures := fun _ _ => ⟨trivial, trivial, trivial⟩
    dicts := fun {a} _ e he => (hc.dicts a e he).imp hcontains.covers hcontains.covers
    newSequences := fun _ => trivial
    newMaps := fun {a} ha => by
      simp only [newMap, Array.size_push] at ha
      exact Nat.ne_of_gt ha
    newClosures := fun _ => trivial
    scopes := fun _ => trivial
    bindings := fun s b hb => hcontains.covers (hc.bindings s b hb) }

theorem Region.Encloses.setMap {ρ : Region} {h : Heap} {r : Nat} (he : ρ.Encloses h) (hr : ¬ρ.map r)
    (m : MapObject) : ρ.Encloses (h.setMap r m) :=
  { he with
    entries := fun {a} ha => by
      have hne : r ≠ a := fun heq => hr (heq ▸ ha)
      have hold : (h.setMap r m).mapAt a = h.mapAt a := by
        simp [Heap.setMap, Heap.mapAt, hne]
      rw [hold]
      exact he.entries ha
    newMaps := fun {a} ha => by
      simp only [Heap.setMap, Array.size_setIfInBounds] at ha
      exact he.newMaps ha }

namespace Interp

section

variable {test : MapTest} {hint : Option SizeHint} {scope r depth : Nat} {p : Value × Value}
  {ps : List (Value × Value)} {e : Entry} {es acc : List Entry} {m m' : Machine}

/-- The map `r` has the entries `acc`, and nothing else refers to it. -/
structure Unseen (r : Nat) (test : MapTest) (hint : Option SizeHint) (acc : List Entry) (m : Machine) :
    Prop where
  encloses : (Region.withoutMap r).Encloses m.heap
  map_eq : m.heap.maps[r]? = some ⟨test, hint, acc⟩

theorem Unseen.mapAt_eq (hm : Unseen r test hint acc m) : m.heap.mapAt r = ⟨test, hint, acc⟩ := by
  rw [Heap.mapAt, hm.map_eq, Option.getD_some]

theorem Unseen.eval (hm : Unseen r test hint acc m) {form v : Value}
    (hform : (Region.withoutMap r).Covers form)
    (heval : (ofDepth depth).eval form scope m = .ok v m') : Unseen r test hint acc m' := by
  obtain ⟨he, hspares, -⟩ := (stays hform depth scope).of_ok hm.encloses heval
  exact ⟨he, by rw [hspares.maps fun h => h rfl, hm.map_eq]⟩

theorem Puts.unseen (hp : Puts depth test scope r p m (.ok e m')) (hm : Unseen r test hint acc m)
    (hk : (Region.withoutMap r).Covers p.1) (hv : (Region.withoutMap r).Covers p.2) :
    Unseen r test hint (MapObject.putEntry e.key e.stored e.value acc) m' := by
  cases hp with
  | put hkey hvalue =>
    have hm₂ := (hm.eval hk hkey).eval hv hvalue
    have hlt := (Array.getElem?_eq_some_iff.1 hm₂.map_eq).1
    refine ⟨hm₂.encloses.setMap (fun h => h rfl) _, ?_⟩
    rw [hm₂.mapAt_eq]
    simp [Heap.setMap, hlt, MapObject.put]

theorem Fills.unseen {result : EStateM.Result Stop Machine (List Entry)}
    (hf : Fills test scope r depth ps m result) (hresult : result = .ok es m')
    (hm : Unseen r test hint acc m)
    (hps : ∀ p ∈ ps, (Region.withoutMap r).Covers p.1 ∧ (Region.withoutMap r).Covers p.2) :
    Unseen r test hint (es.foldl (fun acc e => MapObject.putEntry e.key e.stored e.value acc) acc)
      m' := by
  induction hf generalizing es acc m' with
  | stop | later => cases hresult
  | nil =>
    cases hresult
    exact hm
  | cons head _ ih =>
    cases hresult
    obtain ⟨hp, hps⟩ := List.forall_mem_cons.1 hps
    exact (ih rfl (head.unseen hm hp.1 hp.2) hps :)

theorem Fills.calls_eq {result : EStateM.Result Stop Machine (List Entry)}
    (hf : Fills test scope r depth ps m result) (hresult : result = .ok es m') :
    m'.calls = m.calls := by
  induction hf generalizing es with
  | stop | later => cases hresult
  | nil =>
    cases hresult
    rfl
  | @cons depth p _ _ _ _ _ _ head _ ih =>
    cases hresult
    rw [ih rfl]
    cases head with
    | put hkey hvalue =>
      have hframed := (framed_ofDepth depth).eval
      exact ((hframed p.2 scope).calls hvalue).trans ((hframed p.1 scope).calls hkey)

end

/-! ## Insertions -/

def answer {α β : Type} (b : β) : EStateM.Result Stop Machine α → EStateM.Result Stop Machine β
  | .ok _ m => .ok b m
  | .error s m => .error s m

theorem Fills.exists_concat {test : MapTest} {r depth : Nat} {p : Value × Value}
    {ps : List (Value × Value)} {es : List Entry} {m₁ : Machine}
    {result : EStateM.Result Stop Machine Entry} (hf : Fills test scope r depth ps m (.ok es m₁))
    (hp : Puts (depth + ps.length) test scope r p m₁ result) :
    ∃ result', Fills test scope r depth (ps ++ [p]) m result' ∧
      ∀ v : Value, answer v result = answer v result' := by
  cases result with
  | error s m' => exact ⟨_, hf.append (.stop hp), fun _ => rfl⟩
  | ok e m' => exact ⟨_, hf.append (.cons hp (.nil _ _)), fun _ => rfl⟩

theorem run_mapPut (next : Interp) (r : Nat) (k v : Value) (m : Machine) :
    Library.run next .mapPut [.map r, k, v] m = match m.heap.key (m.heap.mapAt r).test k with
      | some form => .ok (.map r) { m with
          heap := m.heap.setMap r ((m.heap.mapAt r).put form k v) }
      | none => .error (.fault (.endless .key)) m := by
  show (do
    Container.putKey r k v
    return Value.map r) m = _
  have hput := Container.putKey_eq r k v m
  cases hform : m.heap.key (m.heap.mapAt r).test k with
  | none =>
    rw [Heap.mapPut, hform] at hput
    exact bind_of_error hput
  | some form =>
    rw [Heap.mapPut_eq_some.2 ⟨form, hform, rfl⟩] at hput
    exact bind_of_ok hput

theorem exists_puts {test : MapTest} {hint : Option SizeHint} {acc : List Entry} {r : Nat}
    {k v : Value} (hm : Unseen r test hint acc m) (hk : (Region.withoutMap r).Covers k)
    (hv : (Region.withoutMap r).Covers v) (depth scope : Nat) :
    ∃ result, Puts (depth + 1) test scope r (k, v) m result ∧
      (do
        let args ← (ofDepth (depth + 1)).values scope [k, v]
        (ofDepth (depth + 1)).call (.builtin .mapPut) (.map r :: args) (some Builtin.mapPut.name)) m =
      answer (.map r) result := by
  cases hkey : (ofDepth (depth + 1)).eval k scope m with
  | error s m₁ =>
    refine ⟨_, .noKey hkey, ?_⟩
    rw [bind_of_error (values_cons_of_head hkey)]
    rfl
  | ok key m₁ =>
    cases hvalue : (ofDepth (depth + 1)).eval v scope m₁ with
    | error s m₂ =>
      refine ⟨_, .noValue hkey hvalue, ?_⟩
      rw [bind_of_error (values_cons_of_rest hkey (values_cons_of_head hvalue))]
      rfl
    | ok value m₂ =>
      rw [bind_of_ok (values_cons_of_ok hkey (values_cons_of_ok hvalue (values_nil m₂)))]
      have hat := ((hm.eval hk hkey).eval hv hvalue).mapAt_eq
      have hrun := run_mapPut (ofDepth depth) r key value (called .mapPut [.map r, key, value] m₂)
      simp only [called, hat] at hrun
      cases hform : m₂.heap.key test key with
      | none =>
        rw [hform] at hrun
        exact ⟨_, .noForm hkey hvalue hform, call_builtin_of_error rfl hrun⟩
      | some form =>
        rw [hform] at hrun
        exact ⟨_, .put hkey hvalue hform, by rw [call_builtin_of_ok rfl hrun, hat]; rfl⟩

/-- An insertion evaluates the form of the map, then key and value, and puts them in. -/
theorem eval_insertion {e k v : Expr} {form : Value}
    (hput : m.heap.lookup? scope "map-put" = some (.builtin .mapPut))
    (hform : m.heap.Has ∅ form (.ofExpr (.list [.known "map-put", e, k, v]))) :
    ∃ f p, m.heap.Has ∅ f (.ofExpr e) ∧
      (m.heap.Has ∅ p.1 (.ofExpr k) ∧ m.heap.Has ∅ p.2 (.ofExpr v)) ∧
      (∀ depth < 2, (ofDepth depth).eval form scope m = .error .exhausted m) ∧
      (∀ depth s m₁, (ofDepth (depth + 1)).eval f scope m = .error s m₁ →
        (ofDepth (depth + 2)).eval form scope m = .error s m₁) ∧
      ∀ test hint acc depth r m₁, (ofDepth (depth + 1)).eval f scope m = .ok (.map r) m₁ →
        Unseen r test hint acc m₁ →
        ∃ result, Puts (depth + 1) test scope r p m₁ result ∧
          (ofDepth (depth + 2)).eval form scope m = answer (.map r) result := by
  obtain ⟨a, s, parts, rfl, hitems, hs, hparts⟩ := Expr.exists_form_of_has hform
  obtain ⟨f, _, hf, hrest₁, rfl⟩ := List.forall₂_cons_right_iff.1 hparts
  obtain ⟨fk, _, hfk, hrest₂, rfl⟩ := List.forall₂_cons_right_iff.1 hrest₁
  obtain ⟨fv, _, hfv, hnil, rfl⟩ := List.forall₂_cons_right_iff.1 hrest₂
  obtain rfl := List.forall₂_nil_right_iff.1 hnil
  replace hs : s.text = Builtin.mapPut.name := hs
  refine ⟨f, (fk, fv), hf, ⟨hfk, hfv⟩, fun depth => eval_named_exhausted hitems hs, ?_, ?_⟩
  · intro depth stop m₁ hstop
    rw [eval_named hitems hs hput, bind_of_error (values_cons_of_head hstop)]
  · intro test hint acc depth r m₁ hok hunseen
    obtain ⟨result, hputs, hresult⟩ := exists_puts hunseen (Region.covers_withoutMap hfk)
      (Region.covers_withoutMap hfv) depth scope
    refine ⟨result, hputs, ?_⟩
    rw [eval_named hitems hs hput, ← hresult, values]
    rw [bind_assoc, bind_of_ok hok]
    simp only [bind_assoc, pure_bind]

/-- The name of the test and, where a size is asked for, the number of pairs. -/
def mapArgs (test : Str) (sized : Bool) (count : Nat) : List Value :=
  .sym test :: if sized then [.int count] else []

def hintOf (sized : Bool) (count : Nat) : Option SizeHint := if sized then some (.count count) else none

def withMap (test : MapTest) (name : Str) (sized : Bool) (count : Nat) (m : Machine) : Machine :=
  { m with
    heap := (m.heap.newMap ⟨test, hintOf sized count, []⟩).2
    notes := .call "make-map" (mapArgs name sized count).length :: m.notes }

theorem complaint?_makeMap (test : Str) (sized : Bool) (count : Nat) :
    Builtin.makeMap.signature.complaint? ("StdLib." ++ Builtin.makeMap.callName)
      (mapArgs test sized count).length = none := by
  cases sized <;> rfl

theorem run_makeMap (next : Interp) (name : Str) (sized : Bool) (count : Nat) :
    Library.run next .makeMap (mapArgs name sized count) = (do
      let test ← Library.mapTest (.sym name)
      return .map (← onHeap (·.newMap ⟨test, hintOf sized count, []⟩))) := by
  have hhint : Library.sizeHint (Library.arg (mapArgs name sized count) 1)
      = pure (hintOf sized count) := by
    cases sized with
    | false => rfl
    | true =>
      show Library.sizeHint (.int count) = _
      rw [Library.sizeHint, if_neg (Int.not_lt.2 (Int.natCast_nonneg count))]
      rfl
  show (do
    let hint ← Library.sizeHint (Library.arg (mapArgs name sized count) 1)
    let test ← Library.mapTest (.sym name)
    return Value.map (← onHeap (·.newMap ⟨test, hint, []⟩))) = _
  rw [hhint, pure_bind]

theorem call_makeMap_of_none {name : Str} (hname : MapTest.ofName? name.text = none) (sized : Bool)
    (count : Nat) (m : Machine) :
    (ofDepth (n + 1)).call (.builtin .makeMap) (mapArgs name sized count)
        (some Builtin.makeMap.name) m =
      .error (.fault (.unknownTest name.text)) (called .makeMap (mapArgs name sized count) m) := by
  refine call_builtin_of_error (complaint?_makeMap name sized count) ?_
  rw [run_makeMap]
  simp only [Library.mapTest, hname]
  rfl

theorem call_makeMap_of_some {name : Str} {test : MapTest}
    (hname : MapTest.ofName? name.text = some test) (sized : Bool) (count : Nat) (m : Machine) :
    (ofDepth (n + 1)).call (.builtin .makeMap) (mapArgs name sized count)
        (some Builtin.makeMap.name) m =
      .ok (.map m.heap.maps.size) (withMap test name sized count m) := by
  refine call_builtin_of_ok (complaint?_makeMap name sized count)
    (k := { withMap test name sized count m with
      calls := ⟨"make-map", mapArgs name sized count⟩ :: m.calls }) ?_
  rw [run_makeMap]
  simp only [Library.mapTest, hname]
  rfl

/-- The form with which a map literal begins makes an empty map of the test that is named. -/
theorem eval_constructor {lit : MapLiteral Expr} {sized : Bool} {form : Value}
    (hmake : m.heap.lookup? scope "make-map" = some (.builtin .makeMap))
    (hform : m.heap.Has ∅ form (.ofExpr (lit.constructor sized))) :
    (∀ depth < 2, (ofDepth depth).eval form scope m = .error .exhausted m) ∧
      ∃ name : Str, name.text = lit.test ∧ ∀ depth, (ofDepth (depth + 2)).eval form scope m =
        (ofDepth (depth + 1)).call (.builtin .makeMap) (mapArgs name sized lit.pairs.length)
          (some Builtin.makeMap.name) m := by
  have hform' : m.heap.Has ∅ form (.list (.sym "make-map" ::
      .list [.sym "quote", .sym lit.test] ::
      (if sized then [.int lit.pairs.length] else []))) := by
    cases sized <;> exact hform
  obtain ⟨a, s, parts, rfl, hitems, hs, hparts⟩ := Expr.exists_form_of_has hform'
  obtain ⟨f, size, hf, hsize, rfl⟩ := List.forall₂_cons_right_iff.1 hparts
  obtain ⟨c, q, quoted, rfl, hquote, hq, hquoted⟩ := Expr.exists_form_of_has hf
  obtain ⟨t, _, ht, hnil, rfl⟩ := List.forall₂_cons_right_iff.1 hquoted
  obtain rfl := List.forall₂_nil_right_iff.1 hnil
  obtain ⟨name, rfl, hname⟩ := Expr.exists_sym_of_has ht
  replace hs : s.text = Builtin.makeMap.name := hs
  refine ⟨fun depth => eval_named_exhausted hitems hs, name, hname, fun depth => ?_⟩
  have hargs : (ofDepth (depth + 1)).values scope (.list c :: size) m
      = .ok (mapArgs name sized lit.pairs.length) m := by
    cases sized with
    | false =>
      obtain rfl := List.forall₂_nil_right_iff.1 hsize
      exact values_cons_of_ok (eval_quote hquote hq) (values_nil m)
    | true =>
      obtain ⟨i, _, hi, hnil, rfl⟩ := List.forall₂_cons_right_iff.1 hsize
      obtain rfl := List.forall₂_nil_right_iff.1 hnil
      cases Heap.level_of_has hi
      exact values_cons_of_ok (eval_quote hquote hq) (values_cons_of_ok rfl (values_nil m))
  rw [eval_named hitems hs hmake, bind_of_ok hargs]

/-- The insertions of a map literal, around the form that makes the map. -/
def insertions (e : Expr) (pairs : List (Expr × Expr)) : Expr :=
  pairs.foldl (fun e p => .list [.known "map-put", e, p.1, p.2]) e

/-- The forms of keys and values stand for those of a literal. -/
def PairsHave (h : Heap) : List (Value × Value) → List (Expr × Expr) → Prop :=
  List.Forall₂ fun p e => h.Has ∅ p.1 (.ofExpr e.1) ∧ h.Has ∅ p.2 (.ofExpr e.2)

theorem unseen_withMap (hclosed : m.heap.Closed) (test : MapTest) (name : Str) (sized : Bool)
    (count : Nat) : Unseen m.heap.maps.size test (hintOf sized count) []
      (withMap test name sized count m) :=
  ⟨hclosed.encloses_newMap test _, by simp [withMap, Heap.newMap]⟩

theorem PairsHave.covers {h : Heap} {ps : List (Value × Value)} {pairs : List (Expr × Expr)}
    (hps : PairsHave h ps pairs) (r : Nat) :
    ∀ p ∈ ps, (Region.withoutMap r).Covers p.1 ∧ (Region.withoutMap r).Covers p.2 := by
  intro p hp
  obtain ⟨e, -, hk, hv⟩ := Heap.exists_of_mem_forall₂ hps hp
  exact ⟨Region.covers_withoutMap hk, Region.covers_withoutMap hv⟩

theorem eval_insertions {lit : MapLiteral Expr} {sized : Bool} {pairs : List (Expr × Expr)}
    {form : Value} (hclosed : m.heap.Closed)
    (hmake : m.heap.lookup? scope "make-map" = some (.builtin .makeMap))
    (hput : m.heap.lookup? scope "map-put" = some (.builtin .mapPut))
    (hform : m.heap.Has ∅ form (.ofExpr (insertions (lit.constructor sized) pairs))) :
    ∃ (name : Str) (ps : List (Value × Value)), name.text = lit.test ∧ PairsHave m.heap ps pairs ∧
      (∀ depth < pairs.length + 2, (ofDepth depth).eval form scope m = .error .exhausted m) ∧
      (MapTest.ofName? lit.test = none → ∀ depth,
        (ofDepth (pairs.length + 2 + depth)).eval form scope m =
          .error (.fault (.unknownTest lit.test))
            (called .makeMap (mapArgs name sized lit.pairs.length) m)) ∧
      ∀ test, MapTest.ofName? lit.test = some test → ∀ depth, ∃ result,
        Fills test scope m.heap.maps.size (depth + 2) ps
          (withMap test name sized lit.pairs.length m) result ∧
        (ofDepth (pairs.length + 2 + depth)).eval form scope m =
          answer (.map m.heap.maps.size) result := by
  induction pairs using List.reverseRecOn generalizing form with
  | nil =>
    obtain ⟨hshallow, name, hname, heval⟩ := eval_constructor hmake hform
    refine ⟨name, [], hname, .nil, hshallow, fun hnone depth => ?_, fun test hsome depth => ?_⟩
    · rw [← hname] at hnone ⊢
      rw [List.length_nil, Nat.zero_add, Nat.add_comm, heval, call_makeMap_of_none hnone]
    · rw [← hname] at hsome
      refine ⟨_, .nil _ _, ?_⟩
      rw [List.length_nil, Nat.zero_add, Nat.add_comm, heval, call_makeMap_of_some hsome]
      rfl
  | append_singleton pairs p ih =>
    rw [insertions, List.foldl_append] at hform
    obtain ⟨f, fp, hf, hfp, hshallow, herror, hok⟩ := eval_insertion hput hform
    obtain ⟨name, ps, hname, hps, hexhausted, hnone, hsome⟩ := ih hf
    have hinner : ∀ depth, pairs.length + 2 + depth = pairs.length + 1 + depth + 1 := by omega
    have houter : ∀ depth, (pairs ++ [p]).length + 2 + depth = pairs.length + 1 + depth + 2 := by
      intro depth
      rw [List.length_append, List.length_singleton]
      omega
    simp only [hinner] at hnone hsome
    simp only [houter]
    refine ⟨name, ps ++ [fp], hname, List.rel_append hps (.cons hfp .nil), ?_, ?_, ?_⟩
    · intro depth hdepth
      rw [List.length_append, List.length_singleton] at hdepth
      rcases depth with _ | _ | depth
      · exact hshallow 0 (by omega)
      · exact hshallow 1 (by omega)
      · exact herror depth _ _ (hexhausted (depth + 1) (by omega))
    · exact fun hunknown depth => herror _ _ _ (hnone hunknown depth)
    · intro test hknown depth
      obtain ⟨result, hfills, hresult⟩ := hsome test hknown depth
      cases result with
      | error s m₁ => exact ⟨_, hfills.append_of_error [fp], herror _ _ _ hresult⟩
      | ok es m₁ =>
        have hunseen := hfills.unseen rfl (unseen_withMap hclosed test name sized _) (hps.covers _)
        obtain ⟨result, hputs, heval⟩ := hok test _ _ _ _ _ hresult hunseen
        have hdepth : depth + 2 + ps.length = pairs.length + 1 + depth + 1 := by
          rw [hps.length_eq]
          omega
        rw [← hdepth] at hputs
        obtain ⟨result', hfills', hanswer⟩ := hfills.exists_concat hputs
        exact ⟨result', hfills', heval.trans (hanswer _)⟩

/-- What a map literal comes to, from the result of its pairs, with its new map at `r`: the map has the
entries that were put into it, or the evaluation stops as that of the pairs does. -/
inductive MapMade (m : Machine) (test : MapTest) (hint : Option SizeHint) (r : Nat) :
    EStateM.Result Stop Machine (List Entry) → EStateM.Result Stop Machine Value → Prop
  | made {es entries : List Entry} {m' : Machine}
      (map_eq : m'.heap.maps[r]? = some ⟨test, hint, entries⟩)
      (merges : MapObject.Merges es entries) (calls_eq : m'.calls = m.calls) :
      MapMade m test hint r (.ok es m') (.ok (.map r) m')
  | stopped (s : Stop) (m' : Machine) : MapMade m test hint r (.error s m') (.error s m')

/-- The elements of a map literal: perhaps the name of the test, which is `eql` otherwise, and then
keys and values in turn. -/
inductive Spells (lit : MapLiteral Expr) : List Expr → Prop
  | plain (test_eq : lit.test = "eql") : Spells lit (lit.pairs.flatMap fun p => [p.1, p.2])
  | named {spec : Expr} (test_eq : Element.testName? spec = some lit.test) :
    Spells lit (spec :: lit.pairs.flatMap fun p => [p.1, p.2])

theorem flatMap_pairUp : ∀ {items : List Expr}, items.length % 2 = 0 →
    ((MapLiteral.pairUp items).flatMap fun p => [p.1, p.2]) = items
  | [], _ => rfl
  | [_], h => nomatch h
  | k :: v :: rest, h => by
    simp only [List.length_cons] at h
    have hrest : rest.length % 2 = 0 := by omega
    rw [MapLiteral.pairUp, List.flatMap_cons, flatMap_pairUp hrest]
    rfl

theorem spells_of_ofItems {label : String} {items : List Expr} {lit : MapLiteral Expr}
    (hlit : MapLiteral.ofItems label items = .ok lit) : Spells lit items := by
  unfold MapLiteral.ofItems at hlit
  split at hlit
  · next heven =>
    cases hlit
    have hplain : Spells ⟨MapTest.default.name, .supplied, MapLiteral.pairUp items⟩ _ := .plain rfl
    rwa [flatMap_pairUp heven] at hplain
  · next hodd =>
    rcases items with _ | ⟨spec, rest⟩
    · exact absurd rfl hodd
    · rw [List.length_cons] at hodd
      dsimp only at hlit
      split at hlit
      · next test htest =>
        cases hlit
        have hnamed : Spells ⟨test, .written, MapLiteral.pairUp rest⟩ _ := .named htest
        rwa [flatMap_pairUp (by omega)] at hnamed
      · cases hlit

/-- A map literal is made first, unless its test is unknown: then nothing else is evaluated. After that
keys and values are evaluated in turn, each once, and put in. This takes two levels more than there are
pairs, as each insertion is an argument of the next one; with fewer, the evaluation is cut off. -/
theorem eval_map {label : String} {sized : Bool} {items : List Expr} {lit : MapLiteral Expr}
    {form : Value} {scope : Nat} {m : Machine} (hlit : MapLiteral.ofItems label items = .ok lit)
    (hmake : m.heap.lookup? scope "make-map" = some (.builtin .makeMap))
    (hput : m.heap.lookup? scope "map-put" = some (.builtin .mapPut))
    (hclosed : m.heap.Closed) (hform : m.heap.Has ∅ form (.ofExpr (lit.build sized))) :
    Spells lit items ∧ ∃ (name : Str) (ps : List (Value × Value)), name.text = lit.test ∧
      PairsHave m.heap ps lit.pairs ∧
      (∀ depth < lit.pairs.length + 2, (ofDepth depth).eval form scope m = .error .exhausted m) ∧
      (MapTest.ofName? lit.test = none → ∀ depth,
        (ofDepth (lit.pairs.length + 2 + depth)).eval form scope m =
          .error (.fault (.unknownTest lit.test))
            (called .makeMap (mapArgs name sized lit.pairs.length) m)) ∧
      ∀ test, MapTest.ofName? lit.test = some test → ∀ depth, ∃ result,
        Fills test scope m.heap.maps.size (depth + 2) ps
          (withMap test name sized lit.pairs.length m) result ∧
        MapMade m test (hintOf sized lit.pairs.length) m.heap.maps.size result
          ((ofDepth (lit.pairs.length + 2 + depth)).eval form scope m) := by
  obtain ⟨name, ps, hname, hps, hexhausted, hunknown, hknown⟩ :=
    eval_insertions hclosed hmake hput hform
  refine ⟨spells_of_ofItems hlit, name, ps, hname, hps, hexhausted, hunknown, ?_⟩
  intro test htest depth
  obtain ⟨result, hfills, hresult⟩ := hknown test htest depth
  refine ⟨result, hfills, ?_⟩
  rw [hresult]
  cases result with
  | error s m' => exact .stopped s m'
  | ok es m' =>
    have hunseen := hfills.unseen rfl (unseen_withMap hclosed test name sized _) (hps.covers _)
    exact .made hunseen.map_eq (MapObject.merges_putAll es) (hfills.calls_eq rfl)

/-- A map with one key twice, of which the first value binds `map-put` anew. -/
def repeating : MapLiteral Expr :=
  ⟨"equal", .written, [(.str "a", .list [.known "setq", .known "map-put", .int 1]), (.str "a", .int 2)]⟩

theorem eval_map_repeating :
    let h := libraryScope [.makeMap, .mapPut]
    let m := loaded h (repeating.build true)
    m.heap.lookup? 0 "make-map" = some (.builtin .makeMap) ∧
      m.heap.lookup? 0 "map-put" = some (.builtin .mapPut) ∧ m.heap.Closed ∧
      ∃ r, MapMade m .equal (some (.count 2)) m.heap.maps.size r
        ((ofDepth 6).eval (h.load (repeating.build true)).1 0 m) := by
  intro h m
  have hmake : m.heap.lookup? 0 "make-map" = some (.builtin .makeMap) := by
    decide +kernel
  have hput : m.heap.lookup? 0 "map-put" = some (.builtin .mapPut) := by
    decide +kernel
  have hclosed : m.heap.Closed :=
    closed_loaded (closed_libraryScope [.makeMap, .mapPut]) (repeating.build true)
  have hlit : MapLiteral.ofItems "map" [.sym "equal" .written, .str "a",
      .list [.known "setq", .known "map-put", .int 1], .str "a", .int 2] = .ok repeating := rfl
  obtain ⟨-, _, _, -, -, -, -, hresult⟩ :=
    eval_map hlit hmake hput hclosed (has_loaded h (repeating.build true))
  exact ⟨hmake, hput, hclosed, (hresult .equal (by decide) 2).imp fun _ hr => hr.2⟩

end Interp

end Sigil
