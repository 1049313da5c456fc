import Sigil.Proofs.Eval.Growth
import Sigil.Proofs.Session.Twins

/-!
# A root scope beside other objects

A runner adds a root scope with the builtins to the heap. In an empty heap this and the forms of the
prelude are all that there is (`Heap.withRoot`, then loading). A heap that has the lists of these
forms already, and other objects, has an image of that heap after a root scope is added
(`Heap.image_beside`).
-/

namespace Sigil

namespace Heap

/-- The heap with a root scope for a new runner. -/
def withRoot (h : Heap) : Heap := Runner.defineBuiltins (h.newScope none).2 h.scopes.size

/-- Adding a root scope keeps what making a scope and binding names in it keeps. -/
theorem withRoot_of {P : Heap → Prop} {h : Heap} (hscope : P (h.newScope none).2)
    (hname : ∀ {h} (s : String), P h → P (h.newStr s).2)
    (hdefine : ∀ {h} (s : Nat) (name : Str) (v : Value), P h → P (h.define s name v)) :
    P h.withRoot := by
  have hfoldl : ∀ {α : Type} (f : Heap → α → Heap), (∀ h a, P h → P (f h a)) →
      ∀ (as : List α) {h : Heap}, P h → P (as.foldl f h) := by
    intro α f hf as
    induction as with
    | nil => exact fun h => h
    | cons a as ih => exact fun h => ih (hf _ a h)
  refine hfoldl _ (fun h o => hdefine _ _ _) _ (hfoldl _ (fun h b hP => ?_) _ hscope)
  exact hdefine _ _ _ (hname b.name hP)

/-- Adding a root scope adds no other objects. -/
theorem withRoot_keeps (h : Heap) :
    h.withRoot.sequences = h.sequences ∧ h.withRoot.maps = h.maps ∧
      h.withRoot.closures = h.closures ∧ h.withRoot.dicts = h.dicts :=
  withRoot_of (P := fun g => g.sequences = h.sequences ∧ g.maps = h.maps ∧
    g.closures = h.closures ∧ g.dicts = h.dicts) ⟨rfl, rfl, rfl, rfl⟩ (fun _ h => h)
    fun _ _ _ h => h

end Heap

theorem Image.foldl {σ : Renaming} {α : Type} {f g : Heap → α → Heap}
    (hfg : ∀ a {h h'}, Image σ h h' → Image σ (f h a) (g h' a)) (as : List α) {h h' : Heap}
    (hI : Image σ h h') : Image σ (as.foldl f h) (as.foldl g h') := by
  induction as generalizing h h' with
  | nil => exact hI
  | cons a as ih => exact ih (hfg a hI)

theorem Image.bindBuiltin {σ : Renaming} {h h' : Heap} (hI : Image σ h h') (scope : Nat)
    (b : Builtin) :
    Image σ (Runner.bindBuiltin scope h b) (Runner.bindBuiltin (σ.scope scope) h' b) := by
  have hname := hI.newStr_fst b.name
  unfold Runner.bindBuiltin
  dsimp only
  rw [hname]
  exact hI.nextFresh.define _ _ (.builtin b)

theorem Image.withRoot {σ : Renaming} {h h' : Heap} (hI : Image σ h h') :
    Image σ h.withRoot h'.withRoot := by
  have hscope : σ.scope h.scopes.size = h'.scopes.size := hI.scopes.size_eq
  have hbuiltins := Image.foldl (fun b _ _ hI => hI.bindBuiltin h.scopes.size b) Builtin.all
    (hI.newScope none)
  rw [Heap.withRoot, Heap.withRoot, ← hscope]
  exact Image.foldl (fun o _ _ hI => hI.define _ (.fixed o.1) (.builtin o.2)) Builtin.operators
    hbuiltins

/-! ## Loaded values -/

namespace Heap

variable {σ : Renaming} {sequences first last : Nat}

theorem items_newSequence_eq (h : Heap) (vs : List Value) (k : Nat) :
    (h.newSequence vs).2.items k = if k = h.sequences.size then vs else h.items k := by
  simp only [newSequence, items, Array.getElem?_push]
  split <;> rfl

mutual

/-- A renaming that keeps the references below `sequences` and the identities from `first` to `last`
keeps what is loaded with these. -/
theorem load_fixed (hsequence : ∀ k < sequences, σ.sequence k = k)
    (hidentity : ∀ i, first ≤ i → i < last → σ.identity i = i) : ∀ (e : Expr) {h : Heap},
    first ≤ h.fresh → (h.load e).2.fresh ≤ last → (h.load e).2.sequences.size ≤ sequences →
    (∀ k, (h.items k).map σ.value = h.items k) →
    σ.value (h.load e).1 = (h.load e).1 ∧
      ∀ k, ((h.load e).2.items k).map σ.value = (h.load e).2.items k
  | .int _, _, _, _, _, hitems | .float _, _, _, _, _, hitems
  | .sym _ .supplied, _, _, _, _, hitems => ⟨rfl, hitems⟩
  | .str s, h, hfirst, hlast, _, hitems | .sym s .written, h, hfirst, hlast, _, hitems
  | .kw s, h, hfirst, hlast, _, hitems => by
    have hfresh : σ.identity h.fresh = h.fresh := hidentity _ hfirst hlast
    refine ⟨?_, hitems⟩
    simp [load, newStr, Renaming.value, Renaming.str, hfresh]
  | .list items, h, hfirst, hlast, hsize, hitems => by
    have hsize' : (h.loadAll items).2.sequences.size + 1 ≤ sequences := by
      simpa [load, newSequence] using hsize
    obtain ⟨hvalues, hitems⟩ := loadAll_fixed hsequence hidentity items hfirst hlast
      (Nat.le_of_succ_le hsize') hitems
    refine ⟨congrArg Value.list (hsequence _ hsize'), fun k => ?_⟩
    simp only [load, items_newSequence_eq]
    split
    · exact hvalues
    · exact hitems k

theorem loadAll_fixed (hsequence : ∀ k < sequences, σ.sequence k = k)
    (hidentity : ∀ i, first ≤ i → i < last → σ.identity i = i) : ∀ (es : List Expr) {h : Heap},
    first ≤ h.fresh → (h.loadAll es).2.fresh ≤ last → (h.loadAll es).2.sequences.size ≤ sequences →
    (∀ k, (h.items k).map σ.value = h.items k) →
    (h.loadAll es).1.map σ.value = (h.loadAll es).1 ∧
      ∀ k, ((h.loadAll es).2.items k).map σ.value = (h.loadAll es).2.items k
  | [], _, _, _, _, hitems => ⟨rfl, hitems⟩
  | e :: es, h, hfirst, hlast, hsize, hitems => by
    have hloaded := loaded_loadAll es (h.load e).2
    obtain ⟨hvalue, hitems⟩ := load_fixed hsequence hidentity e hfirst
      (Nat.le_trans hloaded.fresh_le hlast) (Nat.le_trans hloaded.sequences_le hsize) hitems
    obtain ⟨hvalues, hitems⟩ := loadAll_fixed hsequence hidentity es
      (Nat.le_trans hfirst (loaded_load e h).fresh_le) hlast hsize hitems
    refine ⟨?_, hitems⟩
    simp only [loadAll, List.map_cons, hvalue, hvalues]

end

/-! ## The image -/

/-- The renaming that puts every object behind those of a heap. -/
def behind (g : Heap) : Renaming where
  sequence k := g.sequences.size + k
  map k := g.maps.size + k
  closure k := g.closures.size + k
  scope k := g.scopes.size + k
  dict k := g.dicts.size + k
  identity i := g.fresh + i

theorem image_behind (g : Heap) : Image g.behind .empty g := by
  have hempty : ∀ {α : Type} (φ : α → α) (ys : Array α), Moved (ys.size + ·) φ #[] ys := fun φ ys =>
    ⟨fun k => by simp, fun k => by simp⟩
  exact {
    faithful := by
      constructor <;> intro i j hij <;> simpa [behind] using hij
    sequences := hempty _ _
    maps := hempty _ _
    closures := hempty _ _
    scopes := hempty _ _
    dicts := hempty _ _
    fresh := fun k => by simp [behind, empty] }

/-- The heap of a new runner, with the forms of a prelude. -/
def loadedWith (es : List Expr) : Heap := (empty.withRoot.loadAll es).2

/-- The renaming under which the objects of a new runner with the forms of a prelude are found in a
heap that has these forms and gets another root scope: the lists of the forms and the strings in them
are where they were, and everything else is behind the heap. -/
def beside (es : List Expr) (g : Heap) : Renaming where
  sequence k :=
    if k < (loadedWith es).sequences.size then k
    else g.sequences.size + (k - (loadedWith es).sequences.size)
  map k := g.maps.size + k
  closure k := g.closures.size + k
  scope k := g.scopes.size + k
  dict k := g.dicts.size + k
  identity i :=
    if i < empty.withRoot.fresh then g.fresh + i
    else if i < (loadedWith es).fresh then i
    else g.withRoot.fresh + (i - (loadedWith es).fresh)

theorem fresh_withRoot (g : Heap) : g.withRoot.fresh = g.fresh + empty.withRoot.fresh :=
  (g.image_behind.withRoot.fresh 0).symm

theorem fresh_le_loadedWith (es : List Expr) : empty.withRoot.fresh ≤ (loadedWith es).fresh :=
  (loaded_loadAll es _).fresh_le

theorem faithful_beside {es : List Expr} {g : Heap} (hg : Grown (loadedWith es) g) :
    (beside es g).Faithful where
  sequence i j hij := by
    have hsize := hg.sequences_le
    simp only [beside] at hij
    split at hij <;> split at hij <;> omega
  map i j hij := Nat.add_left_cancel hij
  closure i j hij := Nat.add_left_cancel hij
  scope i j hij := Nat.add_lt_add_left hij _
  dict i j hij := Nat.add_left_cancel hij
  identity i j hij := by
    have hfresh := hg.fresh_le
    have hroot := fresh_withRoot g
    have hnames := fresh_le_loadedWith es
    simp only [beside] at hij
    split at hij <;> split at hij <;> (try split at hij) <;> (try split at hij) <;> omega

/-- In a root scope the names are strings made for it, and the values are builtins. -/
def isRootBinding : Str × Value → Bool
  | (.made i _, .builtin _) => i < empty.withRoot.fresh
  | (.fixed _, .builtin _) => true
  | _ => false

theorem isRootBinding_withRoot :
    (empty.withRoot.scopes.all fun s => s.bindings.all isRootBinding) = true := by
  decide +kernel

/-- The bindings of the first root scope have the same names under both renamings. -/
theorem scopeObject_beside {es : List Expr} {g : Heap} :
    ∀ s ∈ empty.withRoot.scopes, (beside es g).scopeObject s = g.behind.scopeObject s := by
  intro s hs
  have hall := Array.all_eq_true'.1 isRootBinding_withRoot s hs
  have hbindings : s.bindings.map (beside es g).binding = s.bindings.map g.behind.binding := by
    refine List.map_congr_left fun b hb => ?_
    have hroot := List.all_eq_true.1 hall b hb
    obtain ⟨name, v⟩ := b
    cases v with
    | builtin b =>
      cases name with
      | fixed text => rfl
      | made i text =>
        have hi : i < empty.withRoot.fresh := by simpa [isRootBinding] using hroot
        simp [Renaming.binding, Renaming.str, Renaming.value, beside, behind, hi]
    | _ => cases name <;> cases hroot
  simp only [Renaming.scopeObject, hbindings]
  rfl

/-- The forms and their lists have the same references under the renaming. -/
theorem fixed_beside (es : List Expr) (g : Heap) :
    (empty.withRoot.loadAll es).1.map (beside es g).value = (empty.withRoot.loadAll es).1 ∧
      ∀ k, ((loadedWith es).items k).map (beside es g).value = (loadedWith es).items k := by
  have hnone : ∀ k, empty.withRoot.items k = [] := fun k =>
    items_of_size_le (by rw [(withRoot_keeps empty).1]; exact Nat.zero_le k)
  have hidentity : ∀ i, empty.withRoot.fresh ≤ i → i < (loadedWith es).fresh →
      (beside es g).identity i = i := fun i hfirst hlast => by
    simp [beside, Nat.not_lt.2 hfirst, hlast]
  exact loadAll_fixed (fun k hk => if_pos hk) hidentity es (Nat.le_refl _) (Nat.le_refl _)
    (Nat.le_refl _) fun k => by rw [hnone, List.map_nil]

theorem sequences_beside {es : List Expr} {g : Heap} (hg : Grown (loadedWith es) g)
    (hitems : ∀ k < (loadedWith es).sequences.size, g.items k = (loadedWith es).items k) :
    Moved (beside es g).sequence (List.map (beside es g).value) (loadedWith es).sequences
      g.sequences where
  get k := by
    have hget : ∀ {h : Heap}, k < h.sequences.size → h.sequences[k]? = some (h.items k) :=
      fun hk => by simp [items, hk]
    by_cases hk : k < (loadedWith es).sequences.size
    · have hsame : (beside es g).sequence k = k := if_pos hk
      rw [hsame, hget hk, hget (Nat.lt_of_lt_of_le hk hg.sequences_le), hitems k hk, Option.map_some]
      exact congrArg some ((fixed_beside es g).2 k).symm
    · have hnew : g.sequences.size ≤ (beside es g).sequence k := by simp [beside, hk]
      rw [Array.getElem?_eq_none hnew, Array.getElem?_eq_none (Nat.le_of_not_lt hk), Option.map_none]
  add k := by simp [beside]

/-- A heap that has the lists of the forms as they were read has, with another root scope, an image
of the heap of a new runner. -/
theorem image_beside {es : List Expr} {g : Heap} (hg : Grown (loadedWith es) g)
    (hitems : ∀ k < (loadedWith es).sequences.size, g.items k = (loadedWith es).items k) :
    Image (beside es g) (loadedWith es) g.withRoot := by
  have hroot := g.image_behind.withRoot
  have hloaded := loaded_loadAll es empty.withRoot
  obtain ⟨-, hmaps, hclosures, hdicts⟩ := withRoot_keeps empty
  have hnone : ∀ {α : Type} {xs : Array α} {p : α → Prop}, xs = #[] → ∀ x ∈ xs, p x := by
    rintro α _ p rfl x hx
    simp at hx
  have hfresh : ∀ k, (beside es g).identity ((loadedWith es).fresh + k) = g.withRoot.fresh + k := by
    intro k
    have hnames := fresh_le_loadedWith es
    simp only [beside]
    rw [if_neg (by omega), if_neg (by omega)]
    omega
  refine ⟨faithful_beside hg, ?_, ?_, ?_, ?_, ?_, hfresh⟩
  · rw [(withRoot_keeps g).1]
    exact sequences_beside hg hitems
  · rw [loadedWith, hloaded.maps_eq]
    exact hroot.maps.congr (hnone hmaps)
  · rw [loadedWith, hloaded.closures_eq]
    exact hroot.closures.congr (hnone hclosures)
  · rw [loadedWith, hloaded.scopes_eq]
    exact hroot.scopes.congr scopeObject_beside
  · rw [loadedWith, hloaded.dicts_eq]
    exact hroot.dicts.congr (hnone hdicts)

end Heap

end Sigil
