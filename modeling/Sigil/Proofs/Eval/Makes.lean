import Sigil.MapLiteral
import Sigil.Proofs.Eval.Yields
import Sigil.Proofs.Heap.Construction

/-!
# Expressions that build values

`Expr.Makes e d` says that `e` evaluates to a value with the contents `d` wherever the builtins are
bound under their names, with as many levels as `e` is nested deep. The maps of the value are new,
and the objects that there were are kept. What a quotation, a vector and a map are read as makes
what was written (`makes_quote`, `makes_vector`, `makes_map`), where the entries of a map are put in
one after the other.
-/

namespace Sigil

open Eval
open Heap (Keeps Has Filled Puts PutsAll)

/-! ## Scopes that are kept -/

namespace Heap

variable {h h' : Heap} {S : Set Nat} {scope : Nat}

theorem owner?_congr (hs : h'.scopes = h.scopes) (scope : Nat) (name : String) :
    h'.owner? scope name = h.owner? scope name := by
  have hown : ∀ s, h'.own? s name = h.own? s name := fun s => by simp only [own?, scopeAt, hs]
  have henclosing : ∀ s, h'.enclosing? s = h.enclosing? s :=
    fun s => by simp only [enclosing?, scopeAt, hs]
  fun_induction owner? h scope name with
  | case1 s hsome => rw [owner?, hown, if_pos hsome]
  | case2 s hnone p hp he ih =>
    rw [owner?, hown, if_neg hnone, henclosing, he]
    exact ih
  | case3 s hnone he => rw [owner?, hown, if_neg hnone, henclosing, he]

theorem Standard.keeps (hk : Keeps S h h') (hstd : h.Standard scope) : h'.Standard scope := by
  intro b
  have hown : ∀ s, h'.own? s b.name = h.own? s b.name :=
    fun s => by simp only [own?, scopeAt, hk.scopes_eq]
  rw [← hstd b, lookup?, lookup?, owner?_congr hk.scopes_eq]
  simp only [hown]

end Heap

/-! ## Forms and their parts -/

namespace Expr

mutual

/-- How deep an expression is nested. -/
def depth : Expr → Nat
  | list items => depthAll items + 1
  | _ => 1

def depthAll : List Expr → Nat
  | [] => 0
  | e :: es => max (depth e) (depthAll es)

end

theorem depth_pos (e : Expr) : 1 ≤ e.depth := by
  cases e <;> simp [depth]

variable {e k v : Expr} {es : List Expr} {d dk dv : Datum} {ds : List Datum} {n scope : Nat}
  {form : Value} {h : Heap} {S : Set Nat} {name : String} {test : MapTest}

theorem exists_sym_of_has (hv : h.Has S form (.sym name)) : ∃ s, form = .sym s ∧ s.text = name := by
  cases Heap.level_of_has hv with
  | sym hs => exact ⟨_, rfl, hs⟩

theorem exists_list_of_has (hv : h.Has S form (.list ds)) :
    ∃ a, form = .list a ∧ List.Forall₂ (h.Has S) (h.items a) ds := by
  cases Heap.level_of_has hv with
  | list _ hparts => exact ⟨_, rfl, hparts⟩

theorem exists_form_of_has (hform : h.Has S form (.list (.sym name :: ds))) :
    ∃ a s forms, form = .list a ∧ h.items a = .sym s :: forms ∧ s.text = name ∧
      List.Forall₂ (h.Has S) forms ds := by
  obtain ⟨a, rfl, hparts⟩ := exists_list_of_has hform
  generalize hitems : h.items a = items at hparts
  cases hparts with
  | cons hhead hrest =>
    obtain ⟨s, rfl, hs⟩ := exists_sym_of_has hhead
    exact ⟨a, s, _, rfl, hitems, hs, hrest⟩

/-! ## What an expression makes -/

/-- The expression evaluates to a value with the contents `d`. -/
def Makes (e : Expr) (d : Datum) : Prop :=
  ∀ (n scope : Nat) (form : Value) (h : Heap), e.depth ≤ n → h.Standard scope →
    h.Has ∅ form (.ofExpr e) →
    ∃ v h', Yields ((Interp.ofDepth n).eval form scope) h v h' ∧ Keeps Set.univ h h' ∧
      h'.Has (Set.Ico h.maps.size h'.maps.size) v d

theorem exists_level (hn : e.depth ≤ n) : ∃ k, n = k + 1 :=
  ⟨n - 1, by have := depth_pos e; omega⟩

theorem makes_nil (o : Origin) : Makes (sym "nil" o) .nil := by
  intro n scope form h hn _ hform
  obtain ⟨n, rfl⟩ := exists_level hn
  obtain ⟨s, rfl, hs⟩ := exists_sym_of_has hform
  refine ⟨.nil, h, yields_eval_sym ?_, Keeps.refl _ h, Heap.has_of_level .nil⟩
  rw [hs]
  exact yields_pure Value.nil h

theorem makes_true (o : Origin) : Makes (sym "t" o) (.bool true) := by
  intro n scope form h hn _ hform
  obtain ⟨n, rfl⟩ := exists_level hn
  obtain ⟨s, rfl, hs⟩ := exists_sym_of_has hform
  refine ⟨.bool true, h, yields_eval_sym ?_, Keeps.refl _ h, Heap.has_of_level (.bool true)⟩
  rw [hs]
  exact yields_pure (Value.bool true) h

theorem makes_int (i : Int) : Makes (int i) (.int i) := by
  intro n scope form h hn _ hform
  obtain ⟨n, rfl⟩ := exists_level hn
  cases Heap.level_of_has hform with
  | int => exact ⟨.int i, h, yields_pure _ h, Keeps.refl _ h, Heap.has_of_level (.int i)⟩

theorem makes_float (x : Float) : Makes (float x) (.float x) := by
  intro n scope form h hn _ hform
  obtain ⟨n, rfl⟩ := exists_level hn
  cases Heap.level_of_has hform with
  | float => exact ⟨.float x, h, yields_pure _ h, Keeps.refl _ h, Heap.has_of_level (.float x)⟩

theorem makes_str (text : String) : Makes (str text) (.str text) := by
  intro n scope form h hn _ hform
  obtain ⟨n, rfl⟩ := exists_level hn
  cases Heap.level_of_has hform with
  | str hs => exact ⟨_, h, yields_pure _ h, Keeps.refl _ h, Heap.has_of_level (.str hs)⟩

theorem makes_kw (name : String) : Makes (kw name) (.kw name) := by
  intro n scope form h hn _ hform
  obtain ⟨n, rfl⟩ := exists_level hn
  cases Heap.level_of_has hform with
  | kw hs => exact ⟨_, h, yields_pure _ h, Keeps.refl _ h, Heap.has_of_level (.kw hs)⟩

/-- A quoted expression makes itself. -/
theorem makes_quote (e : Expr) : Makes (quote e) (.ofExpr e) := by
  intro n scope form h hn _ hform
  obtain ⟨n, rfl⟩ := exists_level hn
  obtain ⟨a, s, forms, rfl, hitems, hs, hparts⟩ := exists_form_of_has hform
  cases hparts with
  | cons hv hnil =>
    cases hnil
    exact ⟨_, h, yields_quote hitems hs, Keeps.refl _ h, hv.subset (Set.empty_subset _)⟩

/-! ## Calls -/

theorem exists_values (hes : List.Forall₂ Makes es ds) {forms : List Value}
    (hn : depthAll es ≤ n) (hstd : h.Standard scope)
    (hforms : List.Forall₂ (h.Has ∅) forms (Datum.ofExprs es)) :
    ∃ vs h', Yields ((Interp.ofDepth n).values scope forms) h vs h' ∧ Keeps Set.univ h h' ∧
      List.Forall₂ (h'.Has (Set.Ico h.maps.size h'.maps.size)) vs ds := by
  induction hes generalizing forms h with
  | nil =>
    cases hforms
    exact ⟨[], h, yields_values_nil _ scope h, Keeps.refl _ h, .nil⟩
  | cons he _ ih =>
    cases hforms with
    | cons hform hforms =>
      obtain ⟨hhead, htail⟩ := max_le_iff.1 hn
      obtain ⟨v, h₁, hv, hk, hd⟩ := he n scope _ h hhead hstd hform
      have hkept := hk.subset (Set.subset_univ ∅)
      obtain ⟨vs, h₂, hvs, hk', hds⟩ :=
        ih htail (hstd.keeps hk) (hforms.imp fun _ _ hf => hf.keeps hkept)
      refine ⟨v :: vs, h₂, yields_values_cons hv hvs, hk.trans hk', .cons ?_ (hds.imp ?_)⟩
      · exact (hd.keeps (hk'.subset (Set.subset_univ _))).subset
          (Set.Ico_subset_Ico_right hk'.maps_le)
      · exact fun _ _ hd => hd.subset (Set.Ico_subset_Ico_left hk.maps_le)

/-- What is left of a call of a builtin when its arguments are evaluated. -/
theorem exists_call (b : Builtin) (hes : List.Forall₂ Makes es ds)
    (hn : (list (known b.name :: es)).depth ≤ n) (hstd : h.Standard scope)
    (hform : h.Has ∅ form (.ofExpr (list (known b.name :: es))))
    (hcount : b.signature.complaint? ("StdLib." ++ b.callName) es.length = none) :
    ∃ next vs h₁, Keeps Set.univ h h₁ ∧
      List.Forall₂ (h₁.Has (Set.Ico h.maps.size h₁.maps.size)) vs ds ∧
      ∀ {v h₂}, Yields (Library.run next b vs) h₁ v h₂ →
        Yields ((Interp.ofDepth n).eval form scope) h v h₂ := by
  obtain ⟨a, s, forms, rfl, hitems, hs, hforms⟩ := exists_form_of_has hform
  have hdepth : max 1 (depthAll es) + 1 ≤ n := hn
  obtain ⟨n, rfl⟩ : ∃ k, n = k + 2 := ⟨n - 2, by omega⟩
  obtain ⟨vs, h₁, hvs, hk, hds⟩ :=
    exists_values (n := n + 1) hes (by omega) hstd hforms
  have hlength : vs.length = es.length := hds.length_eq.trans hes.length_eq.symm
  refine ⟨Interp.ofDepth n, vs, h₁, hk, hds, fun hrun => ?_⟩
  exact yields_call hitems hs hstd hvs (by rw [hlength]; exact hcount) hrun

/-- The call of `list` makes a list of what its arguments make. -/
theorem makes_list (hes : List.Forall₂ Makes es ds) :
    Makes (list (known "list" :: es)) (.list ds) := by
  intro n scope form h hn hstd hform
  have hcount : Builtin.list.signature.complaint? ("StdLib." ++ Builtin.list.callName) es.length
      = none := Signature.complaint?_eq_none_iff.2 ⟨Nat.zero_le _, .inl rfl⟩
  obtain ⟨next, vs, h₁, hk, hds, heval⟩ := exists_call .list hes hn hstd hform hcount
  exact ⟨_, _, heval (Library.yields_list next vs h₁), hk.trans (Keeps.newSequence _ h₁ vs),
    Heap.has_newList hds⟩

/-- What a vector literal is read as makes the vector. -/
theorem makes_vector (hes : List.Forall₂ Makes es ds) : Makes (vector es) (.vector ds) := by
  intro n scope form h hn hstd hform
  have hargs : List.Forall₂ Makes [int es.length, list (known "list" :: es)]
      [.int es.length, .list ds] := .cons (makes_int _) (.cons (makes_list hes) .nil)
  obtain ⟨next, vs, h₁, hk, hds, heval⟩ :=
    exists_call .makeVector hargs hn hstd hform rfl
  cases hds with
  | cons hlength hrest =>
    cases hrest with
    | cons hcontents hnil =>
      cases hnil
      obtain ⟨a, rfl, hitems⟩ := exists_list_of_has hcontents
      cases Heap.level_of_has hlength
      rw [hes.length_eq, ← hitems.length_eq] at heval
      exact ⟨_, _, heval (Library.yields_makeVector next rfl),
        hk.trans (Keeps.newSequence _ h₁ (h₁.items a)), Heap.has_newVector hitems⟩

/-! ## Maps -/

/-- The expression evaluates to a map into which the keys and values `ds` were put. -/
def Fills (e : Expr) (test : MapTest) (ds : List (Datum × Datum)) : Prop :=
  ∀ (n scope : Nat) (form : Value) (h : Heap), e.depth ≤ n → h.Standard scope →
    h.Has ∅ form (.ofExpr e) →
    ∃ r h', Yields ((Interp.ofDepth n).eval form scope) h (.map r) h' ∧ Keeps Set.univ h h' ∧
      h.maps.size ≤ r ∧ Filled h' r h'.maps.size test ds

theorem Fills.makes {ds : List (Datum × Datum)} (he : Fills e test ds) :
    Makes e (.map test none ds none) := by
  intro n scope form h hn hstd hform
  obtain ⟨r, h', hv, hk, hr, hfilled⟩ := he n scope form h hn hstd hform
  refine ⟨.map r, h', hv, hk, ?_⟩
  exact (hfilled.has (Nat.le_refl _)).subset (Set.Ico_subset_Ico_left hr)

theorem fills_constructor (o : Origin) :
    Fills ((⟨test.name, o, []⟩ : MapLiteral Expr).constructor false) test [] := by
  intro n scope form h hn hstd hform
  have hargs : List.Forall₂ Makes [quote (sym test.name o)] [.sym test.name] :=
    .cons (makes_quote _) .nil
  obtain ⟨next, vs, h₁, hk, hds, heval⟩ :=
    exists_call .makeMap hargs hn hstd hform rfl
  cases hds with
  | cons hname hnil =>
    cases hnil
    obtain ⟨s, rfl, hs⟩ := exists_sym_of_has hname
    refine ⟨_, _, heval (Library.yields_makeMap next hs h₁),
      hk.trans (Keeps.newMap Set.univ h₁ _), hk.maps_le, ?_⟩
    exact Heap.filled_newMap h₁ test _

theorem Fills.put {ds ds' : List (Datum × Datum)} (he : Fills e test ds) (hk : Makes k dk)
    (hv : Makes v dv) (hputs : Puts test dk dv ds ds') :
    Fills (list [known "map-put", e, k, v]) test ds' := by
  intro n scope form h hn hstd hform
  obtain ⟨a, s, forms, rfl, hitems, hs, hforms⟩ := exists_form_of_has hform
  obtain ⟨form₁, _, hform₁, hrest₁, rfl⟩ := List.forall₂_cons_right_iff.1 hforms
  obtain ⟨form₂, _, hform₂, hrest₂, rfl⟩ := List.forall₂_cons_right_iff.1 hrest₁
  obtain ⟨form₃, _, hform₃, hrest₃, rfl⟩ := List.forall₂_cons_right_iff.1 hrest₂
  cases hrest₃
  have hdepth : max 1 (max e.depth (max k.depth (max v.depth 0))) + 1 ≤ n := hn
  obtain ⟨n, rfl⟩ : ∃ m, n = m + 2 := ⟨n - 2, by omega⟩
  -- the map, the key and the value, each in the heap that the one before it leaves
  obtain ⟨r, h₁, hmap, hkeep₁, hr, hfilled⟩ :=
    he (n + 1) scope form₁ h (by omega) hstd hform₁
  obtain ⟨key, h₂, hkey, hkeep₂, hdk⟩ := hk (n + 1) scope form₂ h₁ (by omega)
    (hstd.keeps hkeep₁) (hform₂.keeps (hkeep₁.subset (Set.subset_univ _)))
  have hkeep := hkeep₁.trans hkeep₂
  obtain ⟨value, h₃, hvalue, hkeep₃, hdv⟩ := hv (n + 1) scope form₃ h₂ (by omega)
    (hstd.keeps hkeep) (hform₃.keeps (hkeep.subset (Set.subset_univ _)))
  have hargs := yields_values_cons hmap (yields_values_cons hkey
    (yields_values_cons hvalue (yields_values_nil _ scope h₃)))
  have hname : s.text = Builtin.mapPut.name := hs
  have hold : h₃.Has (Set.Ico h₁.maps.size h₃.maps.size) key dk :=
    (hdk.keeps (hkeep₃.subset (Set.subset_univ _))).subset
      (Set.Ico_subset_Ico_right hkeep₃.maps_le)
  have hnew : h₃.Has (Set.Ico h₁.maps.size h₃.maps.size) value dv :=
    hdv.subset (Set.Ico_subset_Ico_left hkeep₂.maps_le)
  obtain ⟨h₄, hput, hfilled⟩ := (hfilled.keeps (hkeep₂.trans hkeep₃)).put hfilled.bound
    (hkeep₂.trans hkeep₃).maps_le hold hnew hputs
  have hcall := yields_call hitems hname hstd hargs rfl
    (Library.yields_mapPut (Interp.ofDepth n) hput)
  obtain ⟨form, -, rfl⟩ := Heap.mapPut_eq_some.1 hput
  refine ⟨r, _, hcall, (hkeep.trans hkeep₃).setMap (.inl hr) _, hr, ?_⟩
  simpa [Heap.setMap] using hfilled

theorem fills_foldl {pairs : List (Expr × Expr)} {ds entries ds' : List (Datum × Datum)}
    (he : Fills e test ds)
    (hpairs : List.Forall₂ (fun p d => Makes p.1 d.1 ∧ Makes p.2 d.2) pairs entries)
    (hputs : PutsAll test ds entries ds') :
    Fills (pairs.foldl (fun e p => list [known "map-put", e, p.1, p.2]) e) test ds' := by
  induction hpairs generalizing e ds with
  | nil =>
    cases hputs
    exact he
  | cons hp _ ih =>
    cases hputs with
    | cons hhead hrest => exact ih (he.put hp.1 hp.2 hhead) hrest

/-- What a map literal is read as makes the map into which the keys and values are put. -/
theorem makes_map {pairs : List (Expr × Expr)} {entries ds : List (Datum × Datum)} (o : Origin)
    (hpairs : List.Forall₂ (fun p d => Makes p.1 d.1 ∧ Makes p.2 d.2) pairs entries)
    (hputs : PutsAll test [] entries ds) :
    Makes ((⟨test.name, o, pairs⟩ : MapLiteral Expr).build false) (.map test none ds none) := by
  have hfills := fills_foldl (fills_constructor o) hpairs hputs
  exact hfills.makes

end Expr

end Sigil
