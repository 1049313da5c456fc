import Sigil.Proofs.Eval.Makes
import Sigil.Proofs.Heap.Environment
import Sigil.Proofs.Reader.Literal
import Sigil.Session.Runner

/-!
# Printed values evaluate back

A `Literal` datum is made of vectors and maps with constants and plain expressions in them. Its text
is read with the default extensions as an expression that makes it again (`rebuilds_of_literal`). So
a value with such contents is printed as a text that is read and evaluated to a value with the same
contents, in every scope in which the builtins are bound under their names (`eval_print`).
-/

namespace Sigil

open Reader (Takes ReadsAs ReadsBack)
open Heap (Has Apart Identifiable)

/-! ## Plain expressions -/

namespace Datum

mutual

theorem ofExpr_spelled : ∀ e : Expr, ofExpr e.spelled = ofExpr e
  | .int _ | .float _ | .str _ | .sym _ _ | .kw _ => rfl
  | .list items => by rw [Expr.spelled, ofExpr, ofExpr, ofExprs_spelledAll items]

theorem ofExprs_spelledAll : ∀ es : List Expr, ofExprs (Expr.spelledAll es) = ofExprs es
  | [] => rfl
  | e :: es => by rw [Expr.spelledAll, ofExprs, ofExprs, ofExpr_spelled e, ofExprs_spelledAll es]

end

theorem ofExpr_eq_of_spelled {e e' : Expr} (h : e'.spelled = e.spelled) : ofExpr e' = ofExpr e := by
  rw [← ofExpr_spelled e', h, ofExpr_spelled]

end Datum

/-- An atom that the extended reader gives back: a whole number of at most 4300 digits, a string,
and a symbol or a keyword that is read from its text when a blank or a closing parenthesis
follows. -/
def Expr.Recoverable : Expr → Prop
  | int n => (Nat.toDigits 10 n.natAbs).length ≤ 4300
  | str _ => True
  | sym name _ => ReadsAs name (sym name .written)
  | kw name => ReadsAs (":" ++ name) (kw name)
  | float _ | list _ => False

theorem Reader.readsBack_of_recoverable {a : Expr} (h : a.Recoverable) : ReadsBack .extended a := by
  cases a with
  | int n => exact readsBack_int Registry.lisp_extended h
  | str s => exact readsBack_str Registry.lisp_extended s
  | sym name o => exact ⟨name, .sym name .written, rfl, rfl, takes_sym_of_readsAs h⟩
  | kw name => exact ⟨":" ++ name, .kw name, rfl, rfl, takes_kw_of_readsAs h⟩
  | float x => exact h.elim
  | list es => exact h.elim

/-! ## Literals -/

namespace Datum

/-- Contents that have a literal: nil, true, expressions of atoms that are given back, and vectors
and maps of literals. A map that compares objects by identity has atoms for keys. -/
inductive Literal : Datum → Prop
  | nil : Literal .nil
  | true : Literal (.bool true)
  | plain {e : Expr} (atoms : e.Each Expr.Recoverable) : Literal (.ofExpr e)
  | vector {items : List Datum} (parts : ∀ d ∈ items, Literal d) : Literal (.vector items)
  | map {test : MapTest} {entries : List (Datum × Datum)} (keys : ∀ d ∈ entries, Literal d.1)
      (values : ∀ d ∈ entries, Literal d.2)
      (identifiable : test = .eq ∨ test = .eql → ∀ d ∈ entries, Identifiable d.1) :
      Literal (.map test none entries none)

/-- The datum has a text, and the text inside a literal is read as an expression that makes the
datum. -/
def Rebuilds (d : Datum) : Prop :=
  ∃ text e, d.print = .ok text ∧ Takes .extended (d.inside text).toList e ∧ e.Makes d

theorem rebuilds_nil : Rebuilds .nil :=
  ⟨"nil", .sym "nil" .written, rfl, Reader.takes_word (by decide) (by decide) (by cbv),
    Expr.makes_nil _⟩

theorem rebuilds_true : Rebuilds (.bool true) :=
  ⟨"t", .sym "t" .written, rfl, Reader.takes_word (by decide) (by decide) (by cbv),
    Expr.makes_true _⟩

theorem takes_inside {d : Datum} {text : String} {e : Expr} (hq : d.isQuotedInside = true)
    (h : Takes .extended text.toList e) : Takes .extended (d.inside text).toList (.quote e) := by
  rw [inside, if_pos hq, String.toList_append]
  exact Reader.takes_quote Registry.lisp_extended h

theorem rebuilds_of_quoted {e : Expr} (h : ReadsBack .extended e)
    (hq : (ofExpr e).isQuotedInside = true) : Rebuilds (ofExpr e) := by
  obtain ⟨text, e', hprint, hspelled, htakes⟩ := h
  refine ⟨text, .quote e', hprint, takes_inside hq htakes, ?_⟩
  rw [← ofExpr_eq_of_spelled hspelled]
  exact Expr.makes_quote e'

/-- Only symbols have an origin to forget. -/
theorem eq_of_spelled {e e' : Expr} (h : e'.spelled = e.spelled)
    (hq : (ofExpr e).isQuotedInside = false) : e' = e := by
  cases e with
  | sym | list => cases hq
  | int | float | str | kw =>
    cases e' <;> cases h
    rfl

theorem rebuilds_of_constant {e : Expr} (h : ReadsBack .extended e)
    (hq : (ofExpr e).isQuotedInside = false) (hmakes : e.Makes (ofExpr e)) :
    Rebuilds (ofExpr e) := by
  obtain ⟨text, e', hprint, hspelled, htakes⟩ := h
  rw [eq_of_spelled hspelled hq] at htakes
  exact ⟨text, e, hprint, by rwa [inside, hq], hmakes⟩

theorem rebuilds_of_readsBack {e : Expr} (h : ReadsBack .extended e) : Rebuilds (ofExpr e) := by
  cases e with
  | sym name o => exact rebuilds_of_quoted h rfl
  | list items => exact rebuilds_of_quoted h rfl
  | int n => exact rebuilds_of_constant h rfl (Expr.makes_int n)
  | float x => exact rebuilds_of_constant h rfl (Expr.makes_float x)
  | str s => exact rebuilds_of_constant h rfl (Expr.makes_str s)
  | kw name => exact rebuilds_of_constant h rfl (Expr.makes_kw name)

theorem rebuilds_plain {e : Expr} (h : e.Each Expr.Recoverable) : Rebuilds (ofExpr e) :=
  rebuilds_of_readsBack
    (Reader.readsBack_of_each Registry.lisp_extended (h.imp fun _ => Reader.readsBack_of_recoverable))

/-! ## Vectors and maps -/

end Datum

namespace MapLiteral

variable {α : Type}

/-- The keys and values of pairs, in the order of a literal. -/
def alternating : List (α × α) → List α
  | [] => []
  | p :: pairs => p.1 :: p.2 :: alternating pairs

theorem pairUp_alternating (pairs : List (α × α)) : pairUp (alternating pairs) = pairs := by
  induction pairs with
  | nil => rfl
  | cons p pairs ih => rw [alternating, pairUp, ih]

theorem length_alternating (pairs : List (α × α)) :
    (alternating pairs).length = 2 * pairs.length := by
  induction pairs with
  | nil => rfl
  | cons p pairs ih =>
    simp only [alternating, List.length_cons, ih]
    omega

theorem buildMap_alternating (label : String) (pairs : List (Expr × Expr)) :
    buildMap label false (alternating pairs)
      = .ok ((⟨MapTest.default.name, .supplied, pairs⟩ : MapLiteral Expr).build false) := by
  unfold buildMap ofItems
  rw [if_pos (by rw [length_alternating]; omega), pairUp_alternating]
  rfl

/-- A test that is named makes the number of elements odd. -/
theorem buildMap_named (label name : String) (pairs : List (Expr × Expr)) :
    buildMap label false (.sym name .written :: alternating pairs)
      = .ok ((⟨name, .written, pairs⟩ : MapLiteral Expr).build false) := by
  unfold buildMap ofItems
  rw [if_neg (by rw [List.length_cons, length_alternating]; omega)]
  simp only [Element.testName?, pairUp_alternating]
  rfl

end MapLiteral

namespace Datum

/-- The datum has a text, and the text inside a literal is read as an expression that `R` relates
to the datum. -/
def ReadInside (R : Expr → Datum → Prop) (d : Datum) : Prop :=
  ∃ text e, d.print = .ok text ∧ Takes .extended (d.inside text).toList e ∧ R e d

variable {R : Expr → Datum → Prop}

theorem printInside_of_readInside {items : List Datum} (h : ∀ d ∈ items, d.ReadInside R) :
    ∃ texts es, printInside items = .ok texts ∧
      List.Forall₂ (Takes .extended) (texts.map String.toList) es ∧ List.Forall₂ R es items := by
  induction items with
  | nil => exact ⟨[], [], rfl, .nil, .nil⟩
  | cons d ds ih =>
    obtain ⟨text, e, hprint, htakes, he⟩ := h d List.mem_cons_self
    obtain ⟨texts, es, hprints, hall, hes⟩ := ih fun d hd => h d (List.mem_cons_of_mem _ hd)
    refine ⟨d.inside text :: texts, e :: es, ?_, .cons htakes hall, .cons he hes⟩
    rw [printInside, hprint, hprints]
    rfl

/-- A vector is read as the literal of what its elements are read as. -/
theorem exists_read_vector {items : List Datum} (h : ∀ d ∈ items, d.ReadInside R) :
    ∃ text es, (vector items).print = .ok text ∧ Takes .extended text.toList (.vector es) ∧
      List.Forall₂ R es items := by
  obtain ⟨texts, es, hprints, hall, hes⟩ := printInside_of_readInside h
  refine ⟨"#v(" ++ String.intercalate " " texts ++ ")", es, ?_, ?_, hes⟩
  · rw [print, hprints]
    rfl
  · rw [String.toList_append, String.toList_append, String.toList_intercalate]
    exact Reader.takes_vector hall

theorem rebuilds_vector {items : List Datum} (h : ∀ d ∈ items, d.Rebuilds) :
    Rebuilds (.vector items) := by
  obtain ⟨text, es, hprint, htakes, hes⟩ := exists_read_vector h
  exact ⟨text, .vector es, hprint, htakes, Expr.makes_vector hes⟩

theorem printEntries_of_readInside {entries : List (Datum × Datum)}
    (h : ∀ d ∈ entries, d.1.ReadInside R ∧ d.2.ReadInside R) :
    ∃ texts pairs, printEntries entries = .ok texts ∧
      List.Forall₂ (Takes .extended) (texts.map String.toList) (MapLiteral.alternating pairs) ∧
      List.Forall₂ (fun p d => R p.1 d.1 ∧ R p.2 d.2) pairs entries := by
  induction entries with
  | nil => exact ⟨[], [], rfl, .nil, .nil⟩
  | cons d ds ih =>
    obtain ⟨⟨key, k, hkey, htakesKey, hk⟩, value, v, hvalue, htakesValue, hv⟩ :=
      h d List.mem_cons_self
    obtain ⟨texts, pairs, hprints, hall, hpairs⟩ := ih fun d hd => h d (List.mem_cons_of_mem _ hd)
    refine ⟨d.1.inside key :: d.2.inside value :: texts, (k, v) :: pairs, ?_,
      .cons htakesKey (.cons htakesValue hall), .cons ⟨hk, hv⟩ hpairs⟩
    rw [printEntries, hkey, hvalue, hprints]
    rfl

theorem takes_test (test : MapTest) :
    Takes .extended test.name.toList (.sym test.name .written) := by
  cases test <;> exact Reader.takes_word (by decide) (by decide) (by cbv)

/-- A map is read as the literal of what its keys and values are read as. The literal starts with
the name of the test when that is not the default one. -/
theorem exists_read_map {test : MapTest} {entries : List (Datum × Datum)}
    (h : ∀ d ∈ entries, d.1.ReadInside R ∧ d.2.ReadInside R) :
    ∃ text o pairs, (map test none entries none).print = .ok text ∧
      Takes .extended text.toList ((⟨test.name, o, pairs⟩ : MapLiteral Expr).build false) ∧
      List.Forall₂ (fun p d => R p.1 d.1 ∧ R p.2 d.2) pairs entries := by
  obtain ⟨texts, pairs, hprints, hall, hpairs⟩ := printEntries_of_readInside h
  have htakes : ∀ {texts : List String} {es e},
      List.Forall₂ (Takes .extended) (texts.map String.toList) es →
      buildMap "#h(...)" false es = .ok e →
      Takes .extended ("#h(" ++ String.intercalate " " texts ++ ")").toList e := by
    intro texts es e hall hbuild
    rw [String.toList_append, String.toList_append, String.toList_intercalate]
    exact Reader.takes_map hall hbuild
  have hprint : print (.map test none entries none) = .ok ("#h(" ++ String.intercalate " "
      (if test = .default then texts else test.name :: texts) ++ ")") := by
    rw [print, hprints]
    rfl
  by_cases hdefault : test = .default
  · rw [if_pos hdefault] at hprint
    refine ⟨_, .supplied, pairs, hprint, ?_, hpairs⟩
    rw [hdefault]
    exact htakes hall (MapLiteral.buildMap_alternating _ _)
  · rw [if_neg hdefault] at hprint
    have hnamed : List.Forall₂ (Takes .extended) ((test.name :: texts).map String.toList)
        (.sym test.name .written :: MapLiteral.alternating pairs) :=
      .cons (@takes_test test) hall
    exact ⟨_, .written, pairs, hprint, htakes hnamed (MapLiteral.buildMap_named _ _ _), hpairs⟩

theorem rebuilds_map {test : MapTest} {entries : List (Datum × Datum)}
    (h : ∀ d ∈ entries, d.1.Rebuilds ∧ d.2.Rebuilds)
    (hapart : entries.Pairwise fun a b => Apart test a.1 b.1) :
    Rebuilds (.map test none entries none) := by
  obtain ⟨text, o, pairs, hprint, htakes, hpairs⟩ := exists_read_map h
  exact ⟨text, _, hprint, htakes, Expr.makes_map o hpairs (Heap.putsAll_of_apart hapart)⟩

/-- Related lists are pairwise related in ways that imply each other. -/
theorem pairwise_of_forall₂ {α β : Type} {r : α → β → Prop} {q : α → α → Prop}
    {q' : β → β → Prop} {as : List α} {bs : List β} (hab : List.Forall₂ r as bs)
    (hbs : bs.Pairwise q') (himp : ∀ {a a' b b'}, r a b → r a' b' → q' b b' → q a a') :
    as.Pairwise q := by
  induction hab with
  | nil => exact .nil
  | cons hr hrest ih =>
    obtain ⟨hhead, htail⟩ := List.pairwise_cons.1 hbs
    refine List.pairwise_cons.2 ⟨fun a ha => ?_, ih htail⟩
    obtain ⟨b, hb, hrb⟩ := Heap.exists_of_mem_forall₂ hrest ha
    exact himp hr hrb (hhead b hb)

/-- The keys of a map are different keys in every heap. -/
theorem pairwise_apart_of_has {h : Heap} {S : Set Nat} {v : Value} {test : MapTest}
    {entries : List (Datum × Datum)} (hv : h.Has S v (.map test none entries none))
    (hident : test = .eq ∨ test = .eql → ∀ d ∈ entries, Identifiable d.1) :
    entries.Pairwise fun a b => Apart test a.1 b.1 := by
  cases Heap.level_of_has hv with
  | @map a test values entries _ _ _ _ hkeys hparts =>
    have hparts := (List.forall₂_and_left _ _).2 ⟨fun d hd ht => hident ht d hd, hparts.flip⟩
    refine pairwise_of_forall₂ hparts (List.pairwise_map.1 hkeys) ?_
    intro d d' e e' hd hd' hne
    exact Heap.apart_of_key_ne (fun ht => ⟨hd.1 ht, hd'.1 ht⟩) hd.2.1 hd'.2.1 hne

/-- The contents of a value that have a literal are made again by their text. -/
theorem rebuilds_of_literal {d : Datum} (hd : d.Literal) :
    ∀ {h : Heap} {S : Set Nat} {v : Value}, h.Has S v d → d.Rebuilds := by
  induction hd with
  | nil => exact fun _ => rebuilds_nil
  | true => exact fun _ => rebuilds_true
  | plain hatoms => exact fun _ => rebuilds_plain hatoms
  | vector _ ih =>
    intro h S v hv
    refine rebuilds_vector fun d hd => ?_
    obtain ⟨w, hw⟩ := Heap.exists_element_of_has hv hd
    exact ih d hd hw
  | map _ _ hident ihkeys ihvalues =>
    intro h S v hv
    refine rebuilds_map (fun d hd => ?_) (pairwise_apart_of_has hv hident)
    obtain ⟨w, hw⟩ := Heap.exists_entry_of_has hv hd
    exact ⟨ihkeys d hd hw.1, ihvalues d hd hw.2⟩

end Datum

/-! ## Root scopes -/

namespace Heap

/-- Bindings that are made one after the other: the last one of a name is the one that is seen. -/
theorem own?_foldl {α : Type} (f : Heap → α → Heap) (name : α → String) (value : α → Value)
    {scope : Nat} {x : String} (hf : ∀ h a, scope < h.scopes.size →
      scope < (f h a).scopes.size ∧
        (f h a).own? scope x = if name a = x then some (value a) else h.own? scope x)
    (as : List α) {h : Heap} (hs : scope < h.scopes.size) :
    scope < (as.foldl f h).scopes.size ∧ (as.foldl f h).own? scope x =
      ((as.reverse.find? (name · == x)).map value).or (h.own? scope x) := by
  induction as generalizing h with
  | nil => exact ⟨hs, rfl⟩
  | cons a as ih =>
    obtain ⟨hsize, hown⟩ := hf h a hs
    refine ⟨(ih hsize).1, ?_⟩
    rw [List.foldl_cons, (ih hsize).2, hown, List.reverse_cons, List.find?_append]
    cases hfound : as.reverse.find? (name · == x) with
    | some b => rfl
    | none => by_cases hname : name a = x <;> simp [hname]

theorem standard_create (w : World) (registry : Registry) (usesPrelude : Bool) :
    (Runner.create w registry usesPrelude).2.heap.Standard
      (Runner.create w registry usesPrelude).1.root := by
  intro b
  let root := w.heap.scopes.size
  let bind (h : Heap) (b : Builtin) : Heap :=
    (h.newStr b.name).2.define root (h.newStr b.name).1 (.builtin b)
  let bindOperator (h : Heap) (o : String × Builtin) : Heap :=
    h.define root (.fixed o.1) (.builtin o.2)
  have hsize : ∀ (h : Heap) s name v, (h.define s name v).scopes.size = h.scopes.size :=
    fun h s name v => by simp [define, setScope]
  have hroot : root < (w.heap.newScope none).2.scopes.size := by simp [newScope, root]
  obtain ⟨hscope, hbuiltins⟩ := own?_foldl bind Builtin.name .builtin
    (fun h a hs => ⟨by rw [hsize]; exact hs, own?_define hs _ _ b.name⟩) Builtin.all hroot
  obtain ⟨-, hoperators⟩ := own?_foldl bindOperator Prod.fst (fun o => .builtin o.2)
    (fun h a hs => ⟨by rw [hsize]; exact hs, own?_define hs _ _ b.name⟩) Builtin.operators hscope
  have hfound : Builtin.all.reverse.find? (·.name == b.name) = some b := by cases b <;> rfl
  have hnone : Builtin.operators.reverse.find? (·.1 == b.name) = none := by cases b <;> rfl
  rw [hbuiltins, hfound, hnone] at hoperators
  exact lookup?_of_own? hoperators

end Heap

/-! ## The round trip -/

/-- A value that has a literal is printed as a text that is read with the default extensions as
one form. Evaluated in a scope in which the builtins are bound under their names, with as many
levels as the form is nested deep, it gives a value with the same contents but for size hints. -/
theorem Heap.eval_print {h : Heap} {n scope : Nat} {v : Value} {d : Datum} {m : Machine}
    (hv : h.Holds Set.univ n v d) (hd : d.Literal) (hq : d.isQuotedInside = false)
    (hstd : m.heap.Standard scope) :
    ∃ text e, h.print v = .ok text ∧ Reader.readAll .extended text = .ok [e] ∧
      ∀ levels, e.depth ≤ levels → ∃ v' m',
        (Interp.ofDepth levels).eval (m.heap.load e).1 scope
          { m with heap := (m.heap.load e).2 } = .ok v' m' ∧
        (m'.heap.view v').withoutHints = (h.view v).withoutHints := by
  have hv : h.Has Set.univ v d := hv.has
  obtain ⟨text, e, hprint, htakes, hmakes⟩ := Datum.rebuilds_of_literal hd hv
  rw [Datum.inside, hq, if_neg Bool.false_ne_true] at htakes
  obtain ⟨noted, hread⟩ := @Reader.exists_read_of_takes _ _ text "" htakes Reader.follows_nil
  rw [String.append_empty] at hread
  refine ⟨text, e, by rw [hv.print, hprint], ?_, fun levels hlevels => ?_⟩
  · exact Reader.readAll_of_form (by rw [hread]) (by rw [hread]; rfl)
  · obtain ⟨hkeeps, hform⟩ := Heap.load_has e m.heap
    obtain ⟨v', h', hyields, -, hv'⟩ :=
      hmakes levels scope _ _ hlevels (hstd.keeps hkeeps) hform
    obtain ⟨notes, hrun⟩ := hyields { m with heap := (m.heap.load e).2 } rfl
    exact ⟨v', _, hrun, by rw [hv'.view, hv.view]⟩

/-- A heap with the vector `#v(1 #h(equal '(b) "a"))`. -/
def Heap.nested : Heap where
  sequences := #[[.sym (.made 0 "b")], [.int 1, .map 0]]
  maps := #[⟨.equal, none, [⟨.sequence [.atom (.sym "b")], .list 0, .str (.made 1 "a")⟩]⟩]
  closures := #[]
  scopes := #[]
  dicts := #[]
  fresh := 2

theorem Heap.eval_print_nested :
    ∃ text e, Heap.nested.print (.vector 1) = .ok text ∧
      Reader.readAll .extended text = .ok [e] ∧
      ∀ levels, e.depth ≤ levels → ∃ v' m',
        (Interp.ofDepth levels).eval
          ((Runner.create .initial .extended false).2.heap.load e).1
          (Runner.create .initial .extended false).1.root
          ⟨((Runner.create .initial .extended false).2.heap.load e).2, [], [], []⟩ = .ok v' m' ∧
        (m'.heap.view v').withoutHints = (Heap.nested.view (.vector 1)).withoutHints := by
  have hsym : ReadsAs "b" (.sym "b" .written) := by
    intro next hnext
    rcases List.mem_pair.1 hnext with rfl | rfl <;> exact ⟨_, rfl⟩
  have hkey : Datum.Literal (.list [.sym "b"]) :=
    .plain (e := .list [.sym "b" .written]) ⟨hsym, trivial⟩
  have hone : Datum.Literal (.int 1) :=
    .plain (e := .int 1) (show (Nat.toDigits 10 1).length ≤ 4300 by decide)
  have htext : Datum.Literal (.str "a") := .plain (e := .str "a") trivial
  have hmap : Datum.Literal (.map .equal none [(.list [.sym "b"], .str "a")] none) := by
    refine .map ?_ ?_ (by rintro (h | h) <;> cases h)
    · simpa using hkey
    · simpa using htext
  have hliteral : Datum.Literal
      (.vector [.int 1, .map .equal none [(.list [.sym "b"], .str "a")] none]) := by
    refine .vector fun d hd => ?_
    rcases List.mem_pair.1 hd with rfl | rfl
    · exact hone
    · exact hmap
  have hholds : Heap.nested.Holds Set.univ 4 (.vector 1)
      (.vector [.int 1, .map .equal none [(.list [.sym "b"], .str "a")] none]) := by
    refine .vector (by decide) (.cons (.int 1) (.cons ?_ .nil))
    refine .map trivial (by decide) rfl rfl (List.nodup_singleton _) ?_
    exact .cons ⟨.list (by decide) (.cons (.sym rfl) .nil), .str rfl⟩ .nil
  exact Heap.eval_print (m := ⟨(Runner.create .initial .extended false).2.heap, [], [], []⟩)
    hholds hliteral rfl (Heap.standard_create .initial .extended false)

/-- The heap after `(1)` was put into a map as a key and its element was changed. -/
def Heap.changedKey : Heap :=
  let (key, h) := Heap.empty.newSequence [.int 1]
  let (map, h) := h.newMap ⟨.equal, none, []⟩
  ((h.mapPut map (.list key) (.int 0)).getD h).setItems key [.int 2]

/-- A map with the list `(2)` as its only key that has no text: the key is not found under its
present form. -/
theorem Heap.not_print_changedKey :
    (Heap.changedKey.mapAt 0).pairs.map
        (fun p => (Heap.changedKey.view p.1, Heap.changedKey.view p.2))
      = [(.list [.int 2], .int 0)] ∧
    ¬ ∃ text, Heap.changedKey.print (.map 0) = .ok text := by
  refine ⟨rfl, ?_⟩
  rintro ⟨text, htext⟩
  have hlost : Heap.changedKey.print (.map 0) = .error (.lostKey (.list [.int 2])) := rfl
  rw [hlost] at htext
  cases htext

end Sigil
