import Sigil.Value.Arithmetic

/-!
# Regions

A `Region` is a set of objects, given by their references. It covers a value that is an atom or
refers to one of its objects. Strings are atoms here, so arithmetic gives covered values only.
-/

namespace Sigil

/-- Some objects of each sort. -/
structure Region where
  sequence : Nat → Prop
  map : Nat → Prop
  closure : Nat → Prop
  scope : Nat → Prop
  dict : Nat → Prop

namespace Region

variable (ρ : Region)

/-- The value is an atom or refers to an object of the region. -/
def Covers : Value → Prop
  | .list a | .vector a | .pusher a _ => ρ.sequence a
  | .map a => ρ.map a
  | .closure a => ρ.closure a
  | .scope a => ρ.scope a
  | .dict a => ρ.dict a
  | _ => True

/-- The region covers all of the values. -/
def CoversAll (vs : List Value) : Prop := ∀ v ∈ vs, ρ.Covers v

variable {ρ} {a b v : Value} {vs ws : List Value} {i n : Nat}

theorem covers_str (s : Str) : ρ.Covers (.str s) := trivial

theorem sequence_of_covers (hv : ρ.Covers v) (ha : v.sequence? = some n) : ρ.sequence n := by
  cases v <;> simp [Value.sequence?] at ha <;> exact ha ▸ hv

/-! ## Lists of values -/

theorem coversAll_nil : ρ.CoversAll [] := fun _ hv => nomatch hv

theorem coversAll_cons : ρ.CoversAll (v :: vs) ↔ ρ.Covers v ∧ ρ.CoversAll vs :=
  List.forall_mem_cons

theorem coversAll_append : ρ.CoversAll (vs ++ ws) ↔ ρ.CoversAll vs ∧ ρ.CoversAll ws :=
  List.forall_mem_append

theorem CoversAll.drop (hvs : ρ.CoversAll vs) (n : Nat) : ρ.CoversAll (vs.drop n) :=
  fun v hv => hvs v (List.mem_of_mem_drop hv)

theorem CoversAll.getD (hvs : ρ.CoversAll vs) (i : Nat) : ρ.Covers (vs[i]?.getD .nil) := by
  cases hv : vs[i]? with
  | none => trivial
  | some v => exact hvs v (List.mem_of_getElem? hv)

theorem CoversAll.headD (hvs : ρ.CoversAll vs) : ρ.Covers (vs.headD .nil) := by
  cases vs with
  | nil => trivial
  | cons v vs => exact hvs v List.mem_cons_self

theorem CoversAll.set (hvs : ρ.CoversAll vs) (i : Nat) (hv : ρ.Covers v) :
    ρ.CoversAll (vs.set i v) := by
  intro w hw
  rcases List.mem_or_eq_of_mem_set hw with hw | rfl
  · exact hvs w hw
  · exact hv

theorem coversAll_replicate (hv : ρ.Covers v) (n : Nat) : ρ.CoversAll (List.replicate n v) :=
  fun _ hw => (List.mem_replicate.1 hw).2 ▸ hv

theorem CoversAll.copies (hvs : ρ.CoversAll vs) (n : Nat) :
    ρ.CoversAll (List.replicate n vs).flatten := by
  intro w hw
  obtain ⟨us, hus, hw⟩ := List.mem_flatten.1 hw
  exact hvs w ((List.mem_replicate.1 hus).2 ▸ hw)

theorem coversAll_map {α : Type} {f : α → Value} (hf : ∀ x, ρ.Covers (f x)) (xs : List α) :
    ρ.CoversAll (xs.map f) := by
  intro v hv
  obtain ⟨x, -, rfl⟩ := List.mem_map.1 hv
  exact hf x

/-! ## Numbers -/

/-- A computation of a value that gives covered values only. -/
abbrev CoversResult (ρ : Region) (r : Except EvalFault Value) : Prop :=
  ∀ v, r = .ok v → ρ.Covers v

theorem covers_arithmetic (symbol : String) (whole : Int → Int → Int)
    (double : Float → Float → Float) (a b : Value) :
    ρ.CoversResult (Value.arithmetic symbol whole double a b) := by
  intro v hv
  unfold Value.arithmetic at hv
  split at hv
  · cases hv
    trivial
  · split at hv
    · next x y _ _ =>
      rcases x with _ | x <;> rcases y with _ | y <;> cases hv
      trivial
    · cases hv

theorem covers_neg (a : Value) : ρ.CoversResult a.neg := by
  intro v hv
  cases a <;> cases hv <;> trivial

theorem covers_div (a b : Value) : ρ.CoversResult (a.div b) := by
  intro v hv
  unfold Value.div at hv
  split at hv
  · split at hv
    · cases hv
    · split at hv
      · cases hv
        trivial
      · split at hv <;> cases hv
        trivial
  · split at hv
    · next x y _ _ =>
      rcases x with _ | x <;> rcases y with _ | y <;> try cases hv
      change (if y == 0 then _ else _) = _ at hv
      split at hv <;> cases hv
      trivial
    · cases hv

end Region

end Sigil
