import Sigil.Heap.Compare
import Sigil.Proofs.Session.Rebuilt

/-!
# Lists in printed values

Inside a vector or a map a list is printed behind a quote, and what is quoted is read but not
evaluated. So it comes back when it is plain: nil and true in it come back as the symbols `nil` and
`t`, and a vector or a map as the call that would build it, for no expression has any of them
(`Datum.isPlain_ofExpr`). A value comes back from its text with the same contents if and only if all
lists in it are plain (`Heap.eval_print_iff`).

Keys that were different can become the same key on the way, as lists with nil and with the symbol
`nil` do. Such a map comes back with fewer entries.
-/

namespace Sigil

open Reader (Takes ReadsBack)
open Heap (Has Identifiable PutsAll)

namespace Datum

/-! ## Related lists -/

theorem exists_forall₂ {α β γ : Type} {R : α → β → Prop} {Q : β → γ → Prop} {as : List α}
    {cs : List γ} (h : List.Forall₂ (fun a c => ∃ b, R a b ∧ Q b c) as cs) :
    ∃ bs, List.Forall₂ R as bs ∧ List.Forall₂ Q bs cs := by
  induction h with
  | nil => exact ⟨[], .nil, .nil⟩
  | cons hb _ ih =>
    obtain ⟨b, hr, hq⟩ := hb
    obtain ⟨bs, hrs, hqs⟩ := ih
    exact ⟨b :: bs, .cons hr hrs, .cons hq hqs⟩

theorem eq_iff_forall_mem {α : Type} {p : α → Prop} {as bs : List α}
    (h : List.Forall₂ (fun a b => a = b ↔ p b) as bs) : as = bs ↔ ∀ b ∈ bs, p b := by
  induction h with
  | nil => simp
  | cons hab _ ih => rw [List.cons_eq_cons, hab, ih, List.forall_mem_cons]

/-! ## Plain lists -/

mutual

/-- An atom other than nil and the truth values, or a list of such data. -/
def isPlain : Datum → Bool
  | int _ | float _ | str _ | sym _ | kw _ => true
  | list items => arePlain items
  | _ => false

def arePlain : List Datum → Bool
  | [] => true
  | d :: ds => d.isPlain && arePlain ds

end

mutual

/-- Whether all lists in a datum are plain: none has nil, a truth value, a vector or a map in it, at
any depth. -/
def hasPlainLists : Datum → Bool
  | list items => arePlain items
  | vector items => havePlainLists items
  | map _ _ entries _ => entriesHavePlainLists entries
  | _ => true

def havePlainLists : List Datum → Bool
  | [] => true
  | d :: ds => d.hasPlainLists && havePlainLists ds

def entriesHavePlainLists : List (Datum × Datum) → Bool
  | [] => true
  | (k, v) :: rest => k.hasPlainLists && v.hasPlainLists && entriesHavePlainLists rest

end

theorem havePlainLists_iff {ds : List Datum} :
    havePlainLists ds = true ↔ ∀ d ∈ ds, d.hasPlainLists = true := by
  induction ds with
  | nil => simp [havePlainLists]
  | cons d ds ih => simp [havePlainLists, ih]

theorem entriesHavePlainLists_iff {es : List (Datum × Datum)} :
    entriesHavePlainLists es = true ↔
      ∀ e ∈ es, e.1.hasPlainLists = true ∧ e.2.hasPlainLists = true := by
  induction es with
  | nil => simp [entriesHavePlainLists]
  | cons e es ih => simp [entriesHavePlainLists, ih]

mutual

/-- An expression has no nil, no truth value, no vector and no map in it. -/
theorem isPlain_ofExpr : ∀ e : Expr, (ofExpr e).isPlain = true
  | .int _ | .float _ | .str _ | .sym _ _ | .kw _ => rfl
  | .list items => arePlain_ofExprs items

theorem arePlain_ofExprs : ∀ es : List Expr, arePlain (ofExprs es) = true
  | [] => rfl
  | e :: es => by rw [ofExprs, arePlain, isPlain_ofExpr e, arePlain_ofExprs es]; rfl

end

/-! ## What is read -/

/-- Contents of nil, true and atoms that are given back, in lists, vectors and maps. A map that
compares objects by identity has atoms for keys. -/
inductive Composed : Datum → Prop
  | nil : Composed .nil
  | true : Composed (.bool true)
  | atom {e : Expr} (recoverable : e.Recoverable) : Composed (.ofExpr e)
  | float {x : Float} (finite : Binary64.isFinite x = true) : Composed (.float x)
  | list {items : List Datum} (parts : ∀ d ∈ items, Composed d) : Composed (.list items)
  | vector {items : List Datum} (parts : ∀ d ∈ items, Composed d) : Composed (.vector items)
  | map {test : MapTest} {entries : List (Datum × Datum)} (keys : ∀ d ∈ entries, Composed d.1)
      (values : ∀ d ∈ entries, Composed d.2)
      (identifiable : test = .eq ∨ test = .eql → ∀ d ∈ entries, Identifiable d.1) :
      Composed (.map test none entries none)

/-- The datum has a text, and the text is read as an expression: as the datum itself when that is
plain. -/
def Legible (d : Datum) : Prop :=
  ∃ text e, d.print = .ok text ∧ Takes .extended text.toList e ∧ (d.isPlain = true → ofExpr e = d)

theorem legible_of_readsBack {e : Expr} (h : ReadsBack .extended e) : (ofExpr e).Legible := by
  obtain ⟨text, e', hprint, hspelled, htakes⟩ := h
  exact ⟨text, e', hprint, htakes, fun _ => ofExpr_eq_of_spelled hspelled⟩

theorem Legible.inside {d : Datum} (hd : d.Legible) : d.ReadInside fun _ _ => True := by
  obtain ⟨text, e, hprint, htakes, -⟩ := hd
  by_cases hq : d.isQuotedInside = true
  · exact ⟨text, .quote e, hprint, takes_inside hq htakes, trivial⟩
  · exact ⟨text, e, hprint, by rwa [Datum.inside, if_neg hq], trivial⟩

theorem printAll_of_legible {items : List Datum} (h : ∀ d ∈ items, d.Legible) :
    ∃ texts es, printAll items = .ok texts ∧
      List.Forall₂ (Takes .extended) (texts.map String.toList) es ∧
      (arePlain items = true → ofExprs es = items) := by
  induction items with
  | nil => exact ⟨[], [], rfl, .nil, fun _ => rfl⟩
  | cons d ds ih =>
    obtain ⟨text, e, hprint, htakes, hplain⟩ := h d List.mem_cons_self
    obtain ⟨texts, es, hprints, hall, hplains⟩ := ih fun d hd => h d (List.mem_cons_of_mem _ hd)
    refine ⟨text :: texts, e :: es, ?_, .cons htakes hall, fun hp => ?_⟩
    · rw [printAll, hprint, hprints]
      rfl
    · obtain ⟨hhead, htail⟩ := Bool.and_eq_true_iff.1 hp
      rw [ofExprs, hplain hhead, hplains htail]

/-- A pair that is abbreviated by a mark is read as the pair. -/
theorem legible_marked {head mark : String} {d : Datum}
    (habbr : abbreviation? [sym head, d] = some mark)
    (hmark : ∀ {p e}, Takes .extended p e →
      Takes .extended (mark.toList ++ p) (.list [Expr.known head, e]))
    (h : ∀ a ∈ [sym head, d], a.Legible) : (list [sym head, d]).Legible := by
  obtain ⟨text, e, hprint, htakes, hplain⟩ := h d (by simp)
  refine ⟨mark ++ text, .list [Expr.known head, e], ?_, ?_, fun hp => ?_⟩
  · rw [print, printAll, printAll, printAll, hprint]
    exact congrArg Except.ok (Reader.printedList_of_some habbr)
  · rw [String.toList_append]
    exact hmark htakes
  · have hd : d.isPlain = true := by simpa [isPlain, arePlain] using hp
    simp only [ofExpr, ofExprs, Expr.known, hplain hd]

theorem abbreviation?_cases (items : List Datum) :
    (∃ d, items = [sym "quote", d] ∧ abbreviation? items = some "'") ∨
    (∃ d, items = [sym "function", d] ∧ abbreviation? items = some "#'") ∨
    abbreviation? items = none := by
  unfold abbreviation?
  split
  · exact .inl ⟨_, rfl, rfl⟩
  · exact .inr (.inl ⟨_, rfl, rfl⟩)
  · exact .inr (.inr rfl)

theorem legible_list {items : List Datum} (h : ∀ d ∈ items, d.Legible) :
    (list items).Legible := by
  rcases abbreviation?_cases items with ⟨d, rfl, habbr⟩ | ⟨d, rfl, habbr⟩ | habbr
  · exact legible_marked habbr (Reader.takes_quote Registry.lisp_extended) h
  · exact legible_marked habbr (Reader.takes_function Registry.lisp_extended) h
  · obtain ⟨texts, es, hprints, htakes, hplain⟩ := printAll_of_legible h
    refine ⟨"(" ++ String.intercalate " " texts ++ ")", .list es, ?_, ?_, fun hp => ?_⟩
    · rw [print, hprints]
      exact congrArg Except.ok (Reader.printedList_of_none habbr)
    · rw [String.toList_append, String.toList_append, String.toList_intercalate]
      exact Reader.takes_list Registry.lisp_extended htakes
    · rw [ofExpr, hplain hp]

theorem Composed.legible {d : Datum} (hd : d.Composed) : d.Legible := by
  induction hd with
  | nil =>
    obtain ⟨text, e, hprint, htakes, -⟩ := rebuilds_nil
    exact ⟨text, e, hprint, htakes, fun h => by cases h⟩
  | true =>
    obtain ⟨text, e, hprint, htakes, -⟩ := rebuilds_true
    exact ⟨text, e, hprint, htakes, fun h => by cases h⟩
  | atom he => exact legible_of_readsBack (Reader.readsBack_of_recoverable he)
  | float hx => exact legible_of_readsBack (Reader.readsBack_float Registry.lisp_extended hx)
  | list _ ih => exact legible_list ih
  | vector _ ih =>
    obtain ⟨text, es, hprint, htakes, -⟩ := exists_read_vector fun d hd => (ih d hd).inside
    exact ⟨text, _, hprint, htakes, fun h => by cases h⟩
  | map _ _ _ ihkeys ihvalues =>
    obtain ⟨text, o, pairs, hprint, htakes, -⟩ :=
      exists_read_map fun d hd => ⟨(ihkeys d hd).inside, (ihvalues d hd).inside⟩
    exact ⟨text, _, hprint, htakes, fun h => by cases h⟩

/-! ## What is made -/

/-- The expression makes contents, which are `d` if and only if all lists in `d` are plain. -/
def Remakes (e : Expr) (d : Datum) : Prop :=
  ∃ d', e.Makes d' ∧ (d' = d ↔ d.hasPlainLists = true)

theorem Rebuilds.remade {d : Datum} (hd : d.Rebuilds) (hplain : d.hasPlainLists = true) :
    d.ReadInside Remakes := by
  obtain ⟨text, e, hprint, htakes, hmakes⟩ := hd
  exact ⟨text, e, hprint, htakes, d, hmakes, iff_of_true rfl hplain⟩

/-- A list is read behind a quote, and comes back as what is read. -/
theorem Legible.remade_list {items : List Datum} (h : (list items).Legible) :
    (list items).ReadInside Remakes := by
  obtain ⟨text, e, hprint, htakes, hplain⟩ := h
  refine ⟨text, .quote e, hprint, takes_inside rfl htakes, .ofExpr e, Expr.makes_quote e, ?_⟩
  refine ⟨fun heq => ?_, hplain⟩
  have hread := isPlain_ofExpr e
  rw [heq] at hread
  exact hread

theorem remade_vector {items : List Datum} (h : ∀ d ∈ items, d.ReadInside Remakes) :
    (vector items).ReadInside Remakes := by
  obtain ⟨text, es, hprint, htakes, hes⟩ := exists_read_vector h
  obtain ⟨ds, hmakes, hds⟩ := exists_forall₂ hes
  refine ⟨text, .vector es, hprint, htakes, .vector ds, Expr.makes_vector hmakes, ?_⟩
  rw [vector.injEq, eq_iff_forall_mem hds, hasPlainLists, havePlainLists_iff]

/-- The keys and values that pairs make, each what was printed if and only if its lists are
plain. -/
theorem exists_entries {pairs : List (Expr × Expr)} {entries : List (Datum × Datum)}
    (h : List.Forall₂ (fun p d => Remakes p.1 d.1 ∧ Remakes p.2 d.2) pairs entries) :
    ∃ made : List (Datum × Datum),
      List.Forall₂ (fun p d => p.1.Makes d.1 ∧ p.2.Makes d.2) pairs made ∧
      List.Forall₂ (fun m d => (m.1 = d.1 ↔ d.1.hasPlainLists = true) ∧
        (m.2 = d.2 ↔ d.2.hasPlainLists = true)) made entries := by
  refine exists_forall₂ (h.imp fun p d hp => ?_)
  obtain ⟨⟨k, hk, hkey⟩, v, hv, hvalue⟩ := hp
  exact ⟨(k, v), ⟨hk, hv⟩, hkey, hvalue⟩

theorem hasPlainLists_of_identifiable {d : Datum} (hd : Identifiable d) :
    d.hasPlainLists = true := by
  cases d with
  | int | sym | kw => rfl
  | nil | bool | float | str | list | vector | map | closure | builtin | scope | dict | eof
  | again => exact hd.elim

theorem remade_map {test : MapTest} {entries : List (Datum × Datum)}
    (h : ∀ d ∈ entries, d.1.ReadInside Remakes ∧ d.2.ReadInside Remakes)
    (hident : test = .eq ∨ test = .eql → ∀ d ∈ entries, Identifiable d.1)
    (hapart : entries.Pairwise fun a b => Heap.Apart test a.1 b.1) :
    (map test none entries none).ReadInside Remakes := by
  obtain ⟨text, o, pairs, hprint, htakes, hpairs⟩ := exists_read_map h
  obtain ⟨made, hmakes, hmade⟩ := exists_entries hpairs
  have heq : made = entries ↔ entriesHavePlainLists entries = true := by
    rw [entriesHavePlainLists_iff]
    refine eq_iff_forall_mem (hmade.imp fun m d hd => ?_)
    rw [Prod.ext_iff, hd.1, hd.2]
  refine ⟨text, _, hprint, htakes, ?_⟩
  by_cases hplain : entriesHavePlainLists entries = true
  · rw [heq.2 hplain] at hmakes
    exact ⟨_, Expr.makes_map o hmakes (Heap.putsAll_of_apart hapart), iff_of_true rfl hplain⟩
  · -- with as many entries as there were, those that were made would be the ones that there were
    have hkeys : test = .eq ∨ test = .eql → ∀ m ∈ made, Identifiable m.1 := by
      intro ht m hm
      obtain ⟨d, hd, hkey, -⟩ := Heap.exists_of_mem_forall₂ hmade hm
      rw [hkey.2 (hasPlainLists_of_identifiable (hident ht d hd))]
      exact hident ht d hd
    obtain ⟨ds, hputs⟩ := Heap.exists_putsAll fun ht => ⟨List.forall_mem_nil _, hkeys ht⟩
    refine ⟨_, Expr.makes_map o hmakes hputs, iff_of_false (fun hsame => hplain (heq.1 ?_)) hplain⟩
    obtain rfl : ds = entries := by simpa using hsame
    refine (hputs.eq_or_length_lt.resolve_right ?_).symm
    rw [hmade.length_eq]
    simp

/-- The text of contents makes contents, the same if and only if all lists in them are plain. -/
theorem Composed.remade {d : Datum} (hd : d.Composed) :
    ∀ {h : Heap} {S : Set Nat} {v : Value}, h.Has S v d → d.ReadInside Remakes := by
  induction hd with
  | nil =>
    intro h S v _
    exact rebuilds_nil.remade rfl
  | true =>
    intro h S v _
    exact rebuilds_true.remade rfl
  | @atom e he =>
    intro h S v _
    have hplain : (ofExpr e).hasPlainLists = Bool.true := by
      cases e with
      | float => exact he.elim
      | list => exact he.elim
      | int | str | sym | kw => rfl
    exact (rebuilds_of_readsBack (Reader.readsBack_of_recoverable he)).remade hplain
  | @float x hx =>
    intro h S v _
    have hreads := Reader.readsBack_float Registry.lisp_extended hx
    exact (rebuilds_of_readsBack hreads).remade rfl
  | list parts =>
    intro h S v _
    exact (Composed.list parts).legible.remade_list
  | vector _ ih =>
    intro h S v hv
    refine remade_vector fun d hd => ?_
    obtain ⟨w, hw⟩ := Heap.exists_element_of_has hv hd
    exact ih d hd hw
  | map _ _ hident ihkeys ihvalues =>
    intro h S v hv
    refine remade_map (fun d hd => ?_) hident (pairwise_apart_of_has hv hident)
    obtain ⟨w, hw⟩ := Heap.exists_entry_of_has hv hd
    exact ⟨ihkeys d hd hw.1, ihvalues d hd hw.2⟩

end Datum

/-! ## The round trip -/

/-- A value is printed as a text that is read with the default extensions as one form. Evaluated in
a scope in which the builtins are bound under their names, with as many levels as the form is nested
deep, it gives a value, which has the same contents, but for size hints, if and only if all lists in
the value are plain. -/
theorem Heap.eval_print_iff {h : Heap} {n scope : Nat} {v : Value} {d : Datum} {m : Machine}
    (hv : h.Holds Set.univ n v d) (hd : d.Composed) (hq : d.isQuotedInside = false)
    (hstd : m.heap.Standard scope) :
    ∃ text e, h.print v = .ok text ∧ Reader.readAll .extended text = .ok [e] ∧
      ∀ levels, e.depth ≤ levels → ∃ v' m',
        (Interp.ofDepth levels).eval (m.heap.load e).1 scope
          { m with heap := (m.heap.load e).2 } = .ok v' m' ∧
        ((m'.heap.view v').withoutHints = (h.view v).withoutHints ↔ d.hasPlainLists = true) := by
  have hv : h.Has Set.univ v d := hv.has
  obtain ⟨text, e, hprint, htakes, d', hmakes, hsame⟩ := hd.remade hv
  rw [Datum.inside, hq, if_neg Bool.false_ne_true] at htakes
  obtain ⟨noted, hread⟩ := @Reader.exists_read_of_takes _ _ text "" htakes Reader.follows_nil
  rw [String.append_empty] at hread
  refine ⟨text, e, by rw [hv.print, hprint], ?_, fun levels hlevels => ?_⟩
  · exact Reader.readAll_of_form (by rw [hread]) (by rw [hread]; rfl)
  · obtain ⟨hkeeps, hform⟩ := Heap.load_has e m.heap
    obtain ⟨v', h', hyields, -, hv'⟩ :=
      hmakes levels scope _ _ hlevels (hstd.keeps hkeeps) hform
    obtain ⟨notes, hrun⟩ := hyields { m with heap := (m.heap.load e).2 } rfl
    refine ⟨v', _, hrun, ?_⟩
    rw [hv'.view, hv.view]
    exact hsame

/-- A heap with the vector `#v('(nil))`. -/
def Heap.nilInList : Heap where
  sequences := #[[.nil], [.list 0]]
  maps := #[]
  closures := #[]
  scopes := #[]
  dicts := #[]
  fresh := 0

theorem Heap.eval_print_nilInList :
    ∃ text e, Heap.nilInList.print (.vector 1) = .ok text ∧
      Reader.readAll .extended text = .ok [e] ∧
      ∀ levels, e.depth ≤ levels → ∃ v' m',
        (Interp.ofDepth levels).eval
          ((Runner.create .initial .extended false).2.heap.load e).1
          (Runner.create .initial .extended false).1.root
          ⟨((Runner.create .initial .extended false).2.heap.load e).2, [], [], []⟩ = .ok v' m' ∧
        ((m'.heap.view v').withoutHints = (Heap.nilInList.view (.vector 1)).withoutHints ↔
          (Datum.vector [.list [.nil]]).hasPlainLists = true) := by
  have hholds : Heap.nilInList.Holds Set.univ 3 (.vector 1) (.vector [.list [.nil]]) :=
    .vector (by decide) (.cons (.list (by decide) (.cons .nil .nil)) .nil)
  have hcomposed : (Datum.vector [.list [.nil]]).Composed := by
    refine .vector (List.forall_mem_singleton.2 (.list (List.forall_mem_singleton.2 ?_)))
    exact .nil
  exact Heap.eval_print_iff (m := ⟨(Runner.create .initial .extended false).2.heap, [], [], []⟩)
    hholds hcomposed rfl (Heap.standard_create .initial .extended false)

namespace Runner

/-- The text of the value of a script, and whether what the text evaluates to equals the value. -/
def reprint? (r : Runner) (w : World) (script : String) : Option (String × Bool) := do
  let first := r.attempt w script
  let v ← first.1.toOption
  let text ← (first.2.2.heap.print v).toOption
  let second := first.2.1.attempt first.2.2 text
  let v' ← second.1.toOption
  let same ← (second.2.2.heap.equal v v').toOption
  return (text, same)

/-- A root scope with the builtins and the default extensions. -/
def standard : Runner × World := create .initial .extended false

/-- Lists with nil, true, a vector and a map in them do not come back, in a vector or a map. -/
theorem not_reprint_equal :
    standard.1.reprint? standard.2 "#v((list nil))" = some ("#v('(nil))", false) ∧
      standard.1.reprint? standard.2 "#v((list (list t)))" = some ("#v('((t)))", false) ∧
      standard.1.reprint? standard.2 "#h(1 (list #v(2)))" = some ("#h(1 '(#v(2)))", false) ∧
      standard.1.reprint? standard.2 "#v((list #h(1 2)))" = some ("#v('(#h(1 2)))", false) := by
  decide +kernel

end Runner

end Sigil
