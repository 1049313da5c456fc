import Sigil.Proofs.Reader.Enclosed
import Sigil.Registry.Readtable

/-!
# Faults that more text does not mend

The end of a text is itself the cause of some faults, and more text may take those away. The
others are final: what follows in the next line leaves their category and their place as they are
(`readAll_append_of_definite`). A fault at a character is found before the line feed is met. At the
end of a text a line feed ends the same token or path; only a literal that waits for its list now
names the line feed as what it found (`step_newline_of_failure`).
-/

namespace Sigil

/-- A fault that is not for want of more text. -/
def ReadFault.Definite (f : ReadFault) : Prop :=
  f.category? ∈ [some .unmatchedClose, some .unknownDispatch, some .malformedLiteral,
    some .invalidPath, some .invalidIndex]

instance (f : ReadFault) : Decidable f.Definite :=
  inferInstanceAs (Decidable (f.category? ∈ _))

theorem ReadFault.Definite.not_wanting {f : ReadFault} (hf : f.Definite) : ¬ f.Wanting := by
  intro hw
  simp only [Definite, Wanting, List.mem_cons, List.not_mem_nil, or_false] at hf hw
  rcases hf with hf | hf | hf | hf | hf <;> simp [hf] at hw

namespace Reader

variable {reg : Registry} {place loc : Location} {s : State} {f : ReadFault} {cur : Cursor}
  {b : List Char}

/-- The line feed after a text has a fault like the one that the end of the text would have
had. -/
theorem step_newline_of_definite (hf : f.Definite) (h : finish place s = .failure f loc) :
    ∃ g taken, step reg place s '\n' = .fail g loc taken ∧ g.category? = f.category? := by
  rcases @step_newline_of_failure reg _ _ _ _ hf.not_wanting h with hstep | ⟨trigger, rfl, hstep⟩
  · exact ⟨f, false, hstep, rfl⟩
  · exact ⟨_, true, hstep, rfl⟩

/-- What follows in the next line does not mend the fault of a form. -/
theorem read_extend_of_definite (hf : f.Definite) (h : (read reg cur).found = .failure f loc) :
    ∃ g, (read reg (extend cur ('\n' :: b))).found = .failure g loc ∧
      g.category? = f.category? := by
  unfold read runAt extend at *
  rcases run_failure_cases h with ⟨s, hs, hfin⟩ | ⟨u, c, v, s, taken, hcs, hs, hstep⟩
  · obtain ⟨g, taken, hstep, hcategory⟩ := @step_newline_of_definite reg _ _ _ _ hf hfin
    exact ⟨g, by rw [run_of_fail hs hstep], hcategory⟩
  · refine ⟨f, ?_, rfl⟩
    rw [hcs, List.append_assoc, List.cons_append, run_of_fail hs hstep]

theorem readForms_extend_of_definite {b : List Char} {cur : Cursor} (hf : f.Definite)
    (h : (readForms reg cur).fault = some (f, loc)) :
    ∃ g, (readForms reg (extend cur ('\n' :: b))).fault = some (g, loc) ∧
      g.category? = f.category? := by
  cases hfound : (read reg cur).found with
  | form e start =>
    have hlt : (read reg cur).rest.after.length < cur.after.length :=
      after_lt_of_read_form hfound
    obtain ⟨hfound', hrest⟩ := read_extend_of_form (b := b) hfound
    rw [readForms_of_form hfound] at h
    obtain ⟨g, hg, hcategory⟩ := readForms_extend_of_definite (b := b) hf h
    exact ⟨g, by rw [readForms_of_form hfound', hrest, hg], hcategory⟩
  | nothing =>
    rw [readForms_of_nothing hfound] at h
    cases h
  | failure fault loc' =>
    rw [readForms_of_failure hfound] at h
    cases h
    obtain ⟨g, hg, hcategory⟩ := read_extend_of_definite (b := b) hf hfound
    exact ⟨g, by rw [readForms_of_failure hg], hcategory⟩
termination_by cur.after.length

/-- A text with a definite fault has a fault of the same category at the same place whatever
follows it in the next line. -/
theorem readAll_append_of_definite {a : String} (h : readAll reg a = .error (f, loc))
    (hf : f.Definite) (b : String) :
    ∃ g, readAll reg (a ++ "\n" ++ b) = .error (g, loc) ∧ g.category? = f.category? := by
  have hcur : Cursor.ofText (a ++ "\n" ++ b) = extend (.ofText a) ('\n' :: b.toList) := by
    simp [Cursor.ofText, extend]
  rw [readAll_eq_error_iff] at h
  obtain ⟨g, hg, hcategory⟩ := readForms_extend_of_definite (b := b.toList) hf h
  exact ⟨g, by rw [readAll_eq_error_iff, hcur, hg], hcategory⟩

/-- A vector literal that ends before its list is not mended by a list in the next line. -/
theorem readAll_append_of_definite_vector :
    readAll .extended "(a #v" = .error (.missingList (.ofPair '#' 'v') none, ⟨1, 6⟩) ∧
      ∃ g, readAll .extended ("(a #v" ++ "\n" ++ "(b))") = .error (g, ⟨1, 6⟩) ∧
        g.category? = some .malformedLiteral := by
  have h : readAll .extended "(a #v"
      = .error (.missingList (.ofPair '#' 'v') none, ⟨1, 6⟩) := readAll_of_failure rfl
  exact ⟨h, readAll_append_of_definite h (by decide) "(b))"⟩

end Reader

end Sigil
