import Sigil.Datum.Basic

/-!
# The atoms of an expression

`Each p e` says that every atom in `e`, at any depth, has the property `p`. A property that does
not look at the origin of symbols is kept by `Expr.spelled`, and data forget origins as well.
-/

namespace Sigil.Expr

mutual

/-- Every atom in an expression, at any depth, has the property `p`. -/
def Each (p : Expr → Prop) : Expr → Prop
  | list items => EachAll p items
  | e => p e

def EachAll (p : Expr → Prop) : List Expr → Prop
  | [] => True
  | e :: es => Each p e ∧ EachAll p es

end

variable {p q : Expr → Prop} {e : Expr} {es : List Expr}

theorem eachAll_iff : EachAll p es ↔ ∀ e ∈ es, Each p e := by
  induction es with
  | nil => simp [EachAll]
  | cons e es ih => simp [EachAll, ih]

mutual

theorem Each.imp (h : ∀ a, p a → q a) : ∀ {e : Expr}, Each p e → Each q e
  | int _, he | float _, he | str _, he | sym _ _, he | kw _, he => h _ he
  | list _, he => EachAll.imp h he

theorem EachAll.imp (h : ∀ a, p a → q a) : ∀ {es : List Expr}, EachAll p es → EachAll q es
  | [], _ => trivial
  | _ :: _, he => ⟨Each.imp h he.1, EachAll.imp h he.2⟩

end

mutual

theorem Each.and : ∀ {e : Expr}, Each p e → Each q e → Each (fun a => p a ∧ q a) e
  | int _, hp, hq | float _, hp, hq | str _, hp, hq | sym _ _, hp, hq | kw _, hp, hq => ⟨hp, hq⟩
  | list _, hp, hq => EachAll.and hp hq

theorem EachAll.and : ∀ {es : List Expr}, EachAll p es → EachAll q es →
    EachAll (fun a => p a ∧ q a) es
  | [], _, _ => trivial
  | _ :: _, hp, hq => ⟨Each.and hp.1 hq.1, EachAll.and hp.2 hq.2⟩

end

mutual

/-- A property that does not look at origins does not see spelling out. -/
theorem each_spelled (h : ∀ s o, p (sym s o) ↔ p (sym s .written)) :
    ∀ {e : Expr}, Each p e.spelled ↔ Each p e
  | int _ | float _ | str _ | kw _ => Iff.rfl
  | sym s o => (h s o).symm
  | list _ => eachAll_spelledAll h

theorem eachAll_spelledAll (h : ∀ s o, p (sym s o) ↔ p (sym s .written)) :
    ∀ {es : List Expr}, EachAll p (spelledAll es) ↔ EachAll p es
  | [] => Iff.rfl
  | _ :: _ => and_congr (each_spelled h) (eachAll_spelledAll h)

end

end Sigil.Expr
