import Sigil.Proofs.Session.Composition

/-!
# What comes of a script

A script raises a failure when its prelude does, or when reading or evaluating one of its forms
does (`Runner.Raises`); it raises one at most, and that is what the attempt to run it ends with
(`Runner.attempt_cases`). The report of a failure shows the arguments of the calls under way, and
there may be no text for one of them, as for a map of which a key was changed. So a script has the
outcome that it should have exactly when the report of what it raises can be printed
(`Runner.reported_iff`).
-/

namespace Sigil

/-! ## Texts of several values -/

theorem exists_mapM_eq_ok_iff {α β ε : Type} {f : α → Except ε β} {as : List α} :
    (∃ bs, as.mapM f = .ok bs) ↔ ∀ a ∈ as, ∃ b, f a = .ok b := by
  induction as with
  | nil => simp [pure, Except.pure]
  | cons a as ih =>
    rw [List.forall_mem_cons, ← ih, List.mapM_cons]
    cases hf : f a with
    | error e => simp [bind, Except.bind]
    | ok b => cases as.mapM f <;> simp [bind, Except.bind, pure, Except.pure]

theorem infix_intercalate {α : Type} {sep x : List α} {xs : List (List α)} (h : x ∈ xs) :
    x <:+: sep.intercalate xs := by
  induction xs with
  | nil => cases h
  | cons y ys ih =>
    cases ys with
    | nil =>
      obtain rfl : x = y := List.mem_singleton.1 h
      simp [List.intercalate_singleton]
    | cons z zs =>
      rw [List.intercalate_cons_cons]
      rcases List.mem_cons.1 h with rfl | h
      · rw [List.append_assoc]
        exact (List.prefix_append x _).isInfix
      · exact (ih h).trans (List.suffix_append _ _).isInfix

/-! ## Reports that can be printed -/

namespace Report

variable {m : Machine} {f : Failure} {head source : String} {stack : List String}
  {place : Option Location}

/-- There is a text for the failure and for every argument of every call under way. -/
def Printable (m : Machine) (f : Failure) : Prop :=
  (∃ head, summary m.calls f = .ok head) ∧
    ∀ frame ∈ m.calls, ∀ v ∈ frame.args, ∃ text, argument m.heap v = .ok text

theorem exists_call_iff {h : Heap} {frame : CallFrame} :
    (∃ text, call h frame = .ok text) ↔ ∀ v ∈ frame.args, ∃ text, argument h v = .ok text := by
  rw [← exists_mapM_eq_ok_iff]
  unfold call
  cases frame.args.mapM (argument h) <;> simp [bind, Except.bind, pure, Except.pure]

theorem exists_callStack_iff {h : Heap} {calls : List CallFrame} :
    (∃ lines, callStack h calls = .ok lines) ↔
      ∀ frame ∈ calls, ∀ v ∈ frame.args, ∃ text, argument h v = .ok text := by
  have hcalls : (∃ texts, calls.reverse.mapM (call h) = .ok texts) ↔
      ∀ frame ∈ calls, ∀ v ∈ frame.args, ∃ text, argument h v = .ok text := by
    rw [exists_mapM_eq_ok_iff]
    simp only [List.mem_reverse, exists_call_iff]
  rw [← hcalls]
  unfold callStack
  cases calls with
  | nil => simp [pure, Except.pure]
  | cons frame calls =>
    cases (frame :: calls).reverse.mapM (call h) <;>
      simp [bind, Except.bind, pure, Except.pure]

theorem exists_parts_iff : (∃ p, parts m f = .ok p) ↔ Printable m f := by
  rw [Printable, ← exists_callStack_iff]
  unfold parts
  cases summary m.calls f with
  | error e => simp [bind, Except.bind]
  | ok head => cases callStack m.heap m.calls <;> simp [bind, Except.bind, pure, Except.pure]

theorem summary_of_parts (h : parts m f = .ok (head, stack)) : summary m.calls f = .ok head := by
  unfold parts at h
  cases hsummary : summary m.calls f with
  | error e => rw [hsummary] at h; cases h
  | ok text =>
    rw [hsummary] at h
    cases hstack : callStack m.heap m.calls with
    | error e => rw [hstack] at h; cases h
    | ok lines => rw [hstack] at h; cases h; rfl

theorem summary_ne_empty {calls : List CallFrame} (h : summary calls f = .ok head) :
    head ≠ "" := by
  cases f with
  | reading fault place =>
    simp only [summary] at h
    split at h <;> cases h <;> simp
  | evaluating fault =>
    cases hm : fault.message with
    | error e => rw [summary, hm] at h; cases h
    | ok text => rw [summary, hm] at h; cases h; simp
  | table fault => cases h; simp
  | tooDeep => cases h; decide

/-- Every line of a report stands in its text. -/
theorem infix_located {line : String} (h : line ∈ head :: around source place ++ stack) :
    line.toList <:+: (located source head place stack).toList := by
  rw [located, String.toList_intercalate]
  exact infix_intercalate (List.mem_map_of_mem h)

/-- A report shows its place already. -/
theorem formatted_located (hhead : head ≠ "") :
    (Outcome.failure (located source head place stack) place).formatted
      = located source head place stack := by
  have hempty : located source head place stack ≠ "" := by
    intro hempty
    have hline : head.toList <:+: (located source head place stack).toList :=
      infix_located (List.mem_cons_self)
    rw [hempty] at hline
    exact hhead (String.toList_inj.1 (List.infix_nil.1 hline))
  unfold Outcome.formatted formatError
  simp only [String.isEmpty_iff, if_neg hempty]
  cases place with
  | none => rfl
  | some l =>
    have hplace : Text.occurs
        ("(line " ++ toString l.line ++ ", col " ++ toString l.col ++ ")").toList
        (located source head (some l) stack).toList = true := by
      rw [Text.occurs_iff]
      exact infix_located (by simp [around])
    exact if_pos hplace

end Report

/-! ## Failures that a script raises -/

namespace Runner

open Reader (read)

/-- The world after the next form of a text was read. -/
def afterReading (r : Runner) (w : World) (cur : Cursor) : World :=
  w.noted ((read r.registry cur).dispatched.map .dispatch)

/-- Reading or evaluating one of the forms of a text raises the failure. -/
inductive FormRaises : Runner → World → Cursor → Failure → Prop
  | reading {r : Runner} {w : World} {cur : Cursor} {f : ReadFault} {place : Location}
      (found : (read r.registry cur).found = .failure f place) :
      FormRaises r w cur (.reading f place)
  | evaluating {r s : Runner} {w w' : World} {cur : Cursor} {e : Expr} {start : Location}
      {f : Failure} (found : (read r.registry cur).found = .form e start)
      (raised : r.evaluate (r.afterReading w cur) e = (.error f, s, w')) : FormRaises r w cur f
  | later {r s : Runner} {w w' : World} {cur : Cursor} {e : Expr} {start : Location} {v : Value}
      {f : Failure} (found : (read r.registry cur).found = .form e start)
      (evaluated : r.evaluate (r.afterReading w cur) e = (.ok v, s, w'))
      (raised : FormRaises s w' (read r.registry cur).rest f) : FormRaises r w cur f

/-- The prelude, or reading or evaluating one of the forms of the script raises the failure. -/
inductive Raises (r : Runner) (w : World) (source : String) (f : Failure) : Prop
  | prelude {s : Runner} {w' : World}
      (raised : prepare { r with calls := [], effects := [] } w = (.error f, s, w'))
  | form {s : Runner} {w' : World}
      (prepared : prepare { r with calls := [], effects := [] } w = (.ok (), s, w'))
      (raised : s.FormRaises w' (.ofText source) f)

variable {r s : Runner} {w w' : World} {cur : Cursor} {source : String}

theorem not_formRaises_of_nothing (h : (read r.registry cur).found = .nothing) (f : Failure) :
    ¬ r.FormRaises w cur f := by
  intro hf
  cases hf with
  | reading h' | evaluating h' | later h' => rw [h] at h'; cases h'

theorem formRaises_of_failure {fault : ReadFault} {place : Location}
    (h : (read r.registry cur).found = .failure fault place) (f : Failure) :
    r.FormRaises w cur f ↔ f = .reading fault place := by
  constructor
  · intro hf
    cases hf with
    | reading h' => rw [h] at h'; cases h'; rfl
    | evaluating h' | later h' => rw [h] at h'; cases h'
  · rintro rfl
    exact .reading h

theorem formRaises_of_form {e : Expr} {start : Location}
    (h : (read r.registry cur).found = .form e start) (f : Failure) :
    r.FormRaises w cur f ↔ match r.evaluate (r.afterReading w cur) e with
      | (.ok _, s, w') => s.FormRaises w' (read r.registry cur).rest f
      | (.error g, _, _) => f = g := by
  constructor
  · intro hf
    cases hf with
    | reading h' => rw [h] at h'; cases h'
    | evaluating h' hraised => rw [h] at h'; cases h'; rw [hraised]
    | later h' hevaluated hraised => rw [h] at h'; cases h'; rw [hevaluated]; exact hraised
  · intro hf
    split at hf
    · next hevaluated => exact .later h hevaluated hf
    · next hraised => exact .evaluating h (hf ▸ hraised)

/-- A text of which no form raises a failure gives a value. Of any other text, the failure that is
raised is the one that ends the run. -/
theorem runForms_cases (r : Runner) (w : World) (v : Value) (last : Option Location)
    (cur : Cursor) :
    (∃ u s w', r.runForms w v last cur = (.ok u, s, w') ∧ ∀ f, ¬ r.FormRaises w cur f) ∨
    ∃ f form s w', r.runForms w v last cur = (.error (f, form), s, w') ∧
      ∀ g, r.FormRaises w cur g ↔ g = f := by
  cases hfound : (read r.registry cur).found with
  | nothing =>
    exact .inl ⟨_, _, _, runForms_of_nothing hfound, not_formRaises_of_nothing hfound⟩
  | failure fault place =>
    exact .inr ⟨_, _, _, _, runForms_of_failure hfound, formRaises_of_failure hfound⟩
  | form e start =>
    have hlt : (read r.registry cur).rest.after.length < cur.after.length :=
      Reader.after_lt_of_read_form hfound
    simp only [runForms_of_form hfound, formRaises_of_form hfound, afterReading]
    rcases r.evaluate (w.noted ((read r.registry cur).dispatched.map .dispatch)) e
      with ⟨f | u, s, w₁⟩
    · exact .inr ⟨f, some start, s, w₁, rfl, fun _ => .rfl⟩
    · exact runForms_cases s w₁ u (some start) (read r.registry cur).rest
termination_by cur.after.length

/-- A script that raises no failure gives a value. Of any other script, the failure that is raised
is the one that ends the attempt. -/
theorem attempt_cases (r : Runner) (w : World) (source : String) :
    (∃ v s w', r.attempt w source = (.ok v, s, w') ∧ ∀ f, ¬ r.Raises w source f) ∨
    ∃ f form s w', r.attempt w source = (.error (f, form), s, w') ∧
      ∀ g, r.Raises w source g ↔ g = f := by
  unfold attempt
  rcases hp : prepare { r with calls := [], effects := [] } w with ⟨f | _, s, w₁⟩
  · refine .inr ⟨f, none, s, w₁, rfl, fun g => ⟨fun hg => ?_, ?_⟩⟩
    · cases hg with
      | prelude hraised => rw [hp] at hraised; cases hraised; rfl
      | form hprepared => rw [hp] at hprepared; cases hprepared
    · rintro rfl
      exact .prelude hp
  · have hraises : ∀ g, r.Raises w source g ↔ s.FormRaises w₁ (.ofText source) g := by
      refine fun g => ⟨fun hg => ?_, .form hp⟩
      cases hg with
      | prelude hraised => rw [hp] at hraised; cases hraised
      | form hprepared hraised => rw [hp] at hprepared; cases hprepared; exact hraised
    simp only [hraises]
    exact runForms_cases s w₁ .nil none (.ofText source)

/-! ## Outcomes -/

/-- The script has an outcome, which is a failure exactly when the script raises one. The message of
a failure is the last effect, and shows the place of the failure. -/
def Reported (r : Runner) (w : World) (source : String) : Prop :=
  ∃ o, (r.handle w source).1 = .ok o ∧
    ((∃ message place, o = .failure message place) ↔ ∃ f, r.Raises w source f) ∧
    ∀ message place, o = .failure message place →
      (r.handle w source).2.1.effects.head? = some ⟨["stderr"], message⟩ ∧ o.formatted = message

/-- A script has the outcome that it should have exactly when there is a text for the failure that
it raises, if any, and for the arguments of the calls that are under way then. -/
theorem reported_iff (r : Runner) (w : World) (source : String) :
    r.Reported w source ↔ ∀ f, r.Raises w source f →
      Report.Printable ((r.attempt w source).2.1.machine (r.attempt w source).2.2) f := by
  rcases attempt_cases r w source with
    ⟨v, s, w', hattempt, hraises⟩ | ⟨f, form, s, w', hattempt, hraises⟩
  · have hnone : ¬ ∃ f, r.Raises w source f := fun ⟨f, hf⟩ => hraises f hf
    refine ⟨fun _ f hf => absurd hf (hraises f), fun _ => ⟨.success v, ?_, ?_, nofun⟩⟩
    · rw [handle_of_ok hattempt]
    · exact iff_of_false nofun hnone
  · simp only [hraises, forall_eq, hattempt, ← Report.exists_parts_iff]
    rw [Reported, handle_of_error hattempt]
    cases hparts : Report.parts (s.machine w') f with
    | error e => simp
    | ok p =>
      obtain ⟨head, stack⟩ := p
      have hhead : head ≠ "" := Report.summary_ne_empty (Report.summary_of_parts hparts)
      refine ⟨fun _ => ⟨_, rfl⟩, fun _ => ⟨_, rfl, ?_, ?_⟩⟩
      · exact iff_of_true ⟨_, _, rfl⟩ ⟨f, (hraises f).2 rfl⟩
      · rintro message place ⟨⟩
        exact ⟨rfl, Report.formatted_located hhead⟩

/-- A script that fails while the arguments of a call hold a map of which a key was changed. The
report of its failure has no text. -/
theorem not_reported_changedKey :
    ¬ (create .initial .extended false).1.Reported (create .initial .extended false).2
      "((lambda (k m) (map-put m k 0) (map-put k 0 2) x) (list 1) (make-map 'equal))" := by
  have hescapes : (match ((create .initial .extended false).1.handle
      (create .initial .extended false).2
      "((lambda (k m) (map-put m k 0) (map-put k 0 2) x) (list 1) (make-map 'equal))").1 with
    | .error _ => true
    | .ok _ => false) = true := by decide +kernel
  rintro ⟨o, ho, -⟩
  rw [ho] at hescapes
  cases hescapes

end Runner

end Sigil
