import Sigil.Proofs.Reader.Feed
import Sigil.Proofs.Registry.Writes

/-!
# Reading with more bindings

Rows that bind only free keys, none of them a character of the text, change no reading that
succeeds. The two registries agree on every character of the text, and a pair that only the rows
bind is a fault without them (`step_of_extends`), so both take the same steps up to such a fault
(`run_of_extends`) and find the same forms at the same places (`readForms_of_free`).
-/

namespace Sigil

variable {base ext : Registry} {c : Char} {k : Key}

namespace Registry

theorem kindOf?_congr (h : ext.find? k = base.find? k) : ext.kindOf? k = base.kindOf? k := by
  rw [kindOf?, kindOf?, h]

theorem isTerminating_congr (h : ext.find? (.char c) = base.find? (.char c)) :
    ext.isTerminating c = base.isTerminating c := by
  rw [isTerminating, isTerminating, h]

theorem isCloser_congr (h : ext.find? (.char c) = base.find? (.char c)) :
    ext.isCloser c = base.isCloser c := by
  rw [isCloser, isCloser, kindOf?_congr h]

end Registry

namespace Reader

open Registry (kindOf?_congr isTerminating_congr isCloser_congr)

variable {place : Location} {s : State} {before cs : List Char} {cur : Cursor}

/-! ## Steps -/

theorem endsToken_congr (h : ext.find? (.char c) = base.find? (.char c)) :
    endsToken ext c = endsToken base c := by
  rw [endsToken, endsToken, isTerminating_congr h]

theorem begin_congr (h : ext.find? (.char c) = base.find? (.char c)) :
    State.begin ext s place c = State.begin base s place c := by
  rw [State.begin, State.begin, kindOf?_congr h]

theorem stepBetween_congr (h : ext.find? (.char c) = base.find? (.char c)) :
    s.stepBetween ext place c = s.stepBetween base place c := by
  simp only [State.stepBetween, begin_congr h]

theorem endBefore_congr {result : Except ReadFault Expr} {faultPlace : Location}
    (h : ext.find? (.char c) = base.find? (.char c)) :
    s.endBefore ext result faultPlace place c = s.endBefore base result faultPlace place c := by
  simp only [State.endBefore, stepBetween_congr h]

/-- On a character that both registries bind alike they take the same step, unless the character
completes a pair that `base` does not bind. -/
theorem step_of_extends (hext : ext.Extends base)
    (hc : ext.find? (.char c) = base.find? (.char c)) :
    step ext place s c = step base place s c ∨
      ∃ lead opened, step base place s c = .fail (.unboundPair lead c) opened true := by
  cases hm : s.mode with
  | between => exact .inl (by simp only [step, hm, stepBetween_congr hc])
  | token chars => exact .inl (by simp only [step, hm, endsToken_congr hc, endBefore_congr hc])
  | path trigger opened chars =>
    exact .inl (by simp only [step, hm, endsToken_congr hc, isCloser_congr hc, endBefore_congr hc])
  | pair lead opened =>
    cases hkind : base.kindOf? (Key.ofPair lead c) with
    | none => exact .inr ⟨lead, opened, by simp only [step, hm, hkind]⟩
    | some kind => exact .inl (by simp only [step, hm, hkind, hext.kindOf? hkind])
  | string | rawString | lineComment | blockComment | opener =>
    exact .inl (by simp only [step, hm])

/-! ## Readings -/

/-- Both registries read a text alike, unless `base` finds a fault in it. -/
theorem run_of_extends (hext : ext.Extends base)
    (hcs : ∀ c ∈ cs, ext.find? (.char c) = base.find? (.char c)) :
    run ext before place s cs = run base before place s cs ∨
      ∃ f loc, (run base before place s cs).found = .failure f loc := by
  induction cs generalizing before place s with
  | nil => exact .inl rfl
  | cons c cs ih =>
    rw [List.forall_mem_cons] at hcs
    rcases @step_of_extends base ext c place s hext hcs.1 with hstep | ⟨lead, opened, hfail⟩
    · cases hbase : step base place s c with
      | more t =>
        rw [run_cons hbase, run_cons (hstep.trans hbase)]
        exact ih hcs.2
      | complete e taken | fail f loc taken =>
        left
        rw [run, run, hstep, hbase]
    · right
      rw [run, hfail]
      exact ⟨_, _, rfl⟩

/-- Both registries find the same forms, unless `base` finds a fault. -/
theorem readForms_of_extends {cur : Cursor} (hext : ext.Extends base)
    (hcs : ∀ c ∈ cur.after, ext.find? (.char c) = base.find? (.char c))
    (h : (readForms base cur).fault = none) : readForms ext cur = readForms base cur := by
  have hread : read ext cur = read base cur := by
    refine (run_of_extends hext hcs).resolve_right ?_
    rintro ⟨f, loc, hfound⟩
    have hfound : (read base cur).found = .failure f loc := hfound
    rw [readForms_of_failure hfound] at h
    cases h
  cases hfound : (read base cur).found with
  | form e start =>
    have hlt : (read base cur).rest.after.length < cur.after.length := after_lt_of_read_form hfound
    obtain ⟨u, hu, -⟩ := exists_run_rest base cur.before cur.loc .idle cur.after
    have hrest : ∀ c ∈ (read base cur).rest.after, ext.find? (.char c) = base.find? (.char c) :=
      fun c hc => hcs c (by rw [hu]; exact List.mem_append_right u hc)
    rw [readForms_of_form hfound] at h
    rw [readForms_of_form (hread ▸ hfound), readForms_of_form hfound, hread,
      readForms_of_extends hext hrest h]
  | nothing => rw [readForms_of_nothing (hread ▸ hfound), readForms_of_nothing hfound, hread]
  | failure f loc =>
    rw [readForms_of_failure hfound] at h
    cases h
termination_by cur.after.length

/-! ## Readtables -/

/-- With rows on top of a registry that bind only keys that it leaves free, a text without the
single characters among these keys has the same forms at the same places, when it can be read
without the rows. -/
theorem readForms_of_free {rows : List Row} {text : String} {forms : List Expr}
    (hext : Readtable.extend base rows = .ok ext) (hfree : Readtable.Free base rows)
    (htext : ∀ row ∈ rows, ∀ c, row.trigger.key = .ok (.char c) → c ∉ text.toList)
    (h : readAll base text = .ok forms) :
    readAll ext text = .ok forms ∧
      readForms ext (.ofText text) = readForms base (.ofText text) := by
  have hchars : ∀ c ∈ text.toList, ext.find? (.char c) = base.find? (.char c) :=
    fun c hc => Readtable.find?_extend hext fun row hrow hkey => htext row hrow c hkey hc
  have hforms : readForms ext (.ofText text) = readForms base (.ofText text) :=
    readForms_of_extends (Readtable.extends_of_free hext hfree) hchars (readAll_eq_ok_iff.1 h).1
  exact ⟨by rw [readAll_eq_ok_iff, hforms]; exact readAll_eq_ok_iff.1 h, hforms⟩

/-- The pairs of the default extensions in a string, in a token and in a comment. -/
theorem readForms_of_free_bundled :
    Readtable.Free .standard Readtable.bundled ∧
      readAll .standard "(f \"#v(\" x#h) ; #/"
        = .ok [.list [.sym "f" .written, .str "#v(", .sym "x#h" .written]] ∧
      readAll .extended "(f \"#v(\" x#h) ; #/"
        = .ok [.list [.sym "f" .written, .str "#v(", .sym "x#h" .written]] := by
  have hfree : Readtable.Free .standard Readtable.bundled := by
    intro row hrow k hkey
    simp only [Readtable.bundled, List.mem_cons, List.not_mem_nil, or_false] at hrow
    rcases hrow with rfl | rfl | rfl | rfl | rfl | rfl | rfl | rfl <;> cases hkey <;> rfl
  have htext : ∀ row ∈ Readtable.bundled, ∀ c, row.trigger.key = .ok (.char c) →
      c ∉ "(f \"#v(\" x#h) ; #/".toList := by
    intro row hrow c hkey
    simp only [Readtable.bundled, List.mem_cons, List.not_mem_nil, or_false] at hrow
    rcases hrow with rfl | rfl | rfl | rfl | rfl | rfl | rfl | rfl <;> cases hkey <;> decide
  have hread : readAll .standard "(f \"#v(\" x#h) ; #/"
      = .ok [.list [.sym "f" .written, .str "#v(", .sym "x#h" .written]] := by cbv
  exact ⟨hfree, hread,
    (readForms_of_free Readtable.extend_standard_bundled hfree htext hread).1⟩

end Reader

end Sigil
