import Sigil.Reader.Step

/-!
# Faults of tokens, paths and literals

A token is refused only as a number with too many digits (`tokenExpr_error`), a path for an empty
field or an index that is no number, or again for the digits of an index (`pathExpr_error`), and
the elements of a literal only where a test name is missing (`category_of_build`).
-/

namespace Sigil

/-- The token writes a number with `n` digits, or the path an index with `n` digits. -/
inductive WritesNumber (n : Nat) (token : List Char) : Prop
  | whole {m : Numeral} (hscan : Numeral.scan? (Atom.dropFinalNewline token) = some m)
      (hwhole : m.isWhole = true) (hlength : m.whole.length = n)
  | index {seg : Segment} (hseg : seg ∈ Path.split token) (hindex : seg.isIndex = true)
      (hdigits : seg.text.toList.all Text.isAsciiDigit = true)
      (hlength : seg.text.toList.length = n)

/-! ## Paths -/

namespace Path

variable {separator : Option Separator} {text cs : List Char} {e : Expr} {seg : Segment}
  {segs : List Segment} {f : ReadFault}

theorem isSome_separator_of_mem (hsep : separator.isSome = true)
    (h : seg ∈ splitFrom separator text cs) : seg.separator.isSome = true := by
  induction cs generalizing separator text with
  | nil =>
    rw [splitFrom, List.mem_singleton] at h
    subst h
    exact hsep
  | cons c cs ih =>
    rw [splitFrom] at h
    split at h
    · rcases List.mem_cons.1 h with rfl | h
      · exact hsep
      · exact ih rfl h
    · exact ih hsep h

/-- Every segment but the first has a separator. -/
theorem isSome_separator_of_mem_tail (h : seg ∈ (splitFrom separator text cs).tail) :
    seg.separator.isSome = true := by
  induction cs generalizing text with
  | nil => cases h
  | cons c cs ih =>
    rw [splitFrom] at h
    split at h
    · exact isSome_separator_of_mem rfl h
    · exact ih h

theorem isIndex_of_split {base : Segment} (h : split cs = base :: segs) (hseg : seg ∈ segs)
    (hfield : seg.isField = false) : seg.isIndex = true := by
  have hsep : seg.separator.isSome = true := by
    cases cs with
    | nil => cases h; cases hseg
    | cons c cs =>
      have htail : segs = (splitFrom none [c] cs).tail := congrArg List.tail h.symm
      exact isSome_separator_of_mem_tail (htail ▸ hseg)
  obtain ⟨sep, hsome⟩ := Option.isSome_iff_exists.1 hsep
  rw [Segment.isField, hsome] at hfield
  rw [Segment.isIndex, hsome]
  cases sep with
  | field => cases hfield
  | index => rfl

theorem index_error (h : index cs = .error f) :
    f.category? = some .invalidIndex ∨
      f = .tooManyDigits cs.length ∧ 4300 < cs.length ∧ cs.all Text.isAsciiDigit = true := by
  unfold index at h
  split at h
  · cases h
    exact .inl rfl
  · next hdigits =>
    split at h
    · next hlong =>
      cases h
      simp only [Bool.or_eq_true, Bool.not_eq_true', not_or, Bool.not_eq_false] at hdigits
      exact .inr ⟨rfl, hlong, hdigits.2⟩
    · cases h

theorem access_error (h : access e seg = .error f) :
    f.category? = some .invalidPath ∨ f.category? = some .invalidIndex ∨
      seg.isField = false ∧ f = .tooManyDigits seg.text.toList.length ∧
        4300 < seg.text.toList.length ∧ seg.text.toList.all Text.isAsciiDigit = true := by
  unfold access at h
  split at h
  · split at h
    · cases h
      exact .inl rfl
    · cases h
  · next hfield =>
    cases hindex : index seg.text.toList with
    | ok i => rw [hindex] at h; cases h
    | error fault =>
      rw [hindex] at h
      cases h
      rcases index_error hindex with hcategory | hdigits
      · exact .inr (.inl hcategory)
      · exact .inr (.inr ⟨Bool.not_eq_true _ ▸ hfield, hdigits⟩)

theorem accesses_error (h : accesses e segs = .error f) :
    ∃ seg ∈ segs, ∃ e, access e seg = .error f := by
  induction segs generalizing e with
  | nil => cases h
  | cons seg segs ih =>
    rw [accesses] at h
    split at h
    · next haccess =>
      cases h
      exact ⟨seg, List.mem_cons_self, e, haccess⟩
    · obtain ⟨seg', hmem, haccess⟩ := ih h
      exact ⟨seg', List.mem_cons_of_mem seg hmem, haccess⟩

end Path

namespace Reader

variable {chars : List Char} {f : ReadFault}

/-! ## Tokens -/

/-- A token is refused only as a whole number with too many digits. -/
theorem tokenExpr_error (h : tokenExpr chars = .error f) :
    ∃ n, f = .tooManyDigits n ∧ 4300 < n ∧ WritesNumber n chars.reverse := by
  unfold tokenExpr Atom.ofToken at h
  split at h
  · next m hscan =>
    unfold Numeral.expr at h
    split at h
    · next hwhole =>
      split at h
      · next hlong =>
        cases h
        exact ⟨_, rfl, hlong, .whole hscan hwhole rfl⟩
      · cases h
    · cases h
  · split at h <;> cases h

/-- A path is refused for a field without a name, for an index that is no number, and for an
index with too many digits. -/
theorem pathExpr_error {trigger : Trigger} (h : pathExpr trigger chars = .error f) :
    f.category? = some .invalidPath ∨ f.category? = some .invalidIndex ∨
      ∃ n, f = .tooManyDigits n ∧ 4300 < n ∧ WritesNumber n chars.reverse := by
  unfold pathExpr at h
  split at h
  · cases h
  · unfold Path.fold at h
    split at h
    · cases h
      exact .inl rfl
    · next base segs hsplit =>
      split at h
      · obtain ⟨seg, hseg, e, haccess⟩ := Path.accesses_error h
        rcases Path.access_error haccess with hcat | hcat | ⟨hfield, hf, hlong, hdigits⟩
        · exact .inl hcat
        · exact .inr (.inl hcat)
        · have hindex : seg.isIndex = true := Path.isIndex_of_split hsplit hseg hfield
          refine .inr (.inr ⟨_, hf, hlong, .index ?_ hindex hdigits rfl⟩)
          rw [hsplit]
          exact List.mem_cons_of_mem base hseg
      · cases h
        exact .inl rfl

/-! ## Literals -/

/-- A map literal has no other fault than that it starts with no test name. -/
theorem category_of_build {shape : Shape} {items : List Expr} (h : shape.build items = .error f) :
    f.category? = some .malformedLiteral := by
  cases shape with
  | list => cases h
  | vector => cases h
  | map sized label =>
    simp only [Shape.build, buildMap, MapLiteral.ofItems] at h
    split at h
    · cases h
    · split at h
      · cases h
      · split at h
        · cases h
        · cases h
          rfl

end Reader

end Sigil
