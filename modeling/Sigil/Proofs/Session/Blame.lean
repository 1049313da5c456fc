import Sigil.Proofs.Reader.Extent
import Sigil.Proofs.Reader.Located
import Sigil.Proofs.Reader.Resume
import Sigil.Proofs.Reader.Scan
import Sigil.Proofs.Session.Outcome

/-!
# The place that is blamed

A failure of a script is reported at a place of the text behind every form that was evaluated, and
at the start of the form whose evaluation failed (`Runner.BlamesNext`). One failure is not: a number
with too many digits stops the reader without a fault of a category, and the report still names the
form before it (`Runner.blamesNext_iff`).
-/

namespace Sigil

namespace Location

/-- The place is that of an offset of the text. -/
def AtOffset (text : List Char) (i : Nat) (l : Location) : Prop :=
  i ≤ text.length ∧ start.advance (text.take i) = l

theorem AtOffset.unique {text : List Char} {i j : Nat} {l : Location} (hi : AtOffset text i l)
    (hj : AtOffset text j l) : i = j :=
  advance_take_injective start hi.1 hj.1 (hi.2.trans hj.2.symm)

end Location

open Location (AtOffset)

/-! ## Readings -/

theorem Cursor.ofText_ofList (cs : List Char) : ofText (String.ofList cs) = ⟨[], cs, .start⟩ := by
  rw [ofText, String.toList_ofList]

theorem Cursor.Placed.atOffset {cur : Cursor} (h : cur.Placed) {u : List Char}
    (hu : u <+: cur.after) : AtOffset cur.text (cur.pos + u.length) (cur.loc.advance u) := by
  obtain ⟨v, hv⟩ := hu
  have hsplit : cur.text = cur.before.reverse ++ u ++ v := by
    rw [Cursor.text, ← hv, List.append_assoc]
  have hpos : cur.pos + u.length = (cur.before.reverse ++ u).length := by simp [Cursor.pos]
  constructor
  · rw [hpos, hsplit]
    exact (List.prefix_append _ v).length_le
  · rw [hpos, hsplit, List.take_left, Location.advance_append, ← h]

namespace Reader

variable {reg : Registry} {cur : Cursor} {e : Expr} {start place : Location} {f : ReadFault}

/-- A form starts at the cursor or behind it, and ends behind its start. -/
theorem exists_start (hcur : cur.Placed) (h : (read reg cur).found = .form e start) :
    ∃ i, cur.pos ≤ i ∧ i < (read reg cur).rest.pos ∧ AtOffset cur.text i start := by
  obtain ⟨gap, own, hafter, hrest, hne, rfl, -⟩ := exists_extent h
  have hprefix : gap <+: cur.after := ⟨own ++ (read reg cur).rest.after, by
    rw [hafter, List.append_assoc]⟩
  have hpos : (read reg cur).rest.pos = cur.pos + gap.length + own.length := by
    rw [hrest]
    simp only [Cursor.pos, List.length_append, List.length_reverse]
    omega
  have hlen : 0 < own.length := List.length_pos_iff.2 hne
  exact ⟨cur.pos + gap.length, Nat.le_add_right _ _, by omega, hcur.atOffset hprefix⟩

/-- A fault stands at the cursor or behind it. -/
theorem exists_faultPlace (hcur : cur.Placed) (h : (read reg cur).found = .failure f place) :
    ∃ i, cur.pos ≤ i ∧ AtOffset cur.text i place :=
  (recalls_idle.run (P := fun l => ∃ i, cur.pos ≤ i ∧ AtOffset cur.text i l)
    (fun _ hu => ⟨_, Nat.le_add_right _ _, hcur.atOffset hu⟩) h).1

end Reader

/-! ## Outcomes -/

def Outcome.place? : Outcome → Option Location
  | .success _ => none
  | .failure _ place => place

theorem Outcome.exists_failure_of_place? {x : Except PrintFault Outcome} {l : Location}
    (h : x.toOption.bind place? = some l) : ∃ message, x = .ok (.failure message (some l)) := by
  rcases x with e | _ | ⟨message, place⟩
  · cases h
  · cases h
  · obtain rfl : place = some l := h
    exact ⟨message, rfl⟩

/-! ## Numbers with too many digits -/

open Text (isAsciiDigit)

theorem Atom.ofToken_tooManyDigits {ds : List Char} (hds : ∀ c ∈ ds, isAsciiDigit c = true)
    (hlen : 4300 < ds.length) : Atom.ofToken ds = .error (.tooManyDigits ds.length) := by
  let n : Numeral := ⟨false, ds, none, none⟩
  have hn : n.Digital :=
    { whole := hds
      whole_ne_nil := List.ne_nil_of_length_pos (Nat.zero_lt_of_lt hlen)
      fraction := fun _ h => nomatch h
      exponent := fun _ h => nomatch h }
  have hwritten : n.written = ds := by
    simp [n, Numeral.written, Numeral.signText, Numeral.fractionText, Numeral.exponentText]
  have hexpr : n.expr = .error (.tooManyDigits ds.length) := by
    have hwhole : n.isWhole = true := rfl
    rw [Numeral.expr, if_pos hwhole, if_pos hlen]
  rw [← hwritten, Atom.ofToken_written hn, hexpr, hwritten]

/-- The reader stops behind a number with too many digits. -/
theorem Reader.read_tooManyDigits {reg : Registry} (hr : reg.Lisp) {before ds : List Char}
    {place : Location} (hds : ∀ c ∈ ds, isAsciiDigit c = true) (hlen : 4300 < ds.length) :
    (read reg ⟨before, ds, place⟩).found
      = .failure (.tooManyDigits ds.length) (place.advance ds) := by
  obtain ⟨c, u, rfl⟩ :=
    List.exists_cons_of_ne_nil (List.ne_nil_of_length_pos (Nat.zero_lt_of_lt hlen))
  have hnumeric : ∀ d ∈ c :: u, Text.isNumeric d = true := fun d hd =>
    Text.isNumeric_of_isAsciiDigit (hds d hd)
  have hends : ∀ d ∈ c :: u, endsToken reg d = false := by
    intro d hd
    rw [endsToken, Text.isBlank_of_isNumeric (hnumeric d hd),
      Registry.isTerminating_of_find? (hr.numeric d (hnumeric d hd))]
    rfl
  have hstep : step reg place State.idle c
      = .more { State.idle.enter place with mode := .token [c] } := by
    have hc : Text.isNumeric c = true := hnumeric c List.mem_cons_self
    have hbegin : step reg place State.idle c = State.begin reg (State.idle.enter place) place c :=
      step_of_waits rfl trivial (Text.isBlank_of_isNumeric hc)
    rw [hbegin, State.begin, Registry.kindOf?_of_find? (hr.numeric c hc)]
  have hfeed := @feed_token reg (place.step c) (State.idle.enter place) [c] u
    fun d hd => hends d (List.mem_cons_of_mem c hd)
  have htoken : tokenExpr (u.reverse ++ [c]) = .error (.tooManyDigits (c :: u).length) := by
    rw [tokenExpr, List.reverse_append, List.reverse_reverse]
    exact Atom.ofToken_tooManyDigits hds hlen
  rw [read, runAt, run_cons hstep, run_of_feed hfeed, finish]
  simp only [htoken]
  rfl

namespace Runner

open Reader (read)

variable {r r₁ r₂ s : Runner} {w w₁ w₂ w' : World} {cur cur₁ cur₂ : Cursor} {e : Expr} {v : Value}
  {f : Failure} {start l : Location} {form last : Option Location} {text : List Char}
  {source message : String}

/-! ## Forms that were evaluated -/

/-- Form after form of a text is evaluated, from a runner and a cursor to the ones behind them. -/
inductive Evaluates : Runner → World → Cursor → Runner → World → Cursor → Prop
  | refl {r : Runner} {w : World} {cur : Cursor} : Evaluates r w cur r w cur
  | form {r s r₁ : Runner} {w w' w₁ : World} {cur cur₁ : Cursor} {e : Expr} {start : Location}
      {v : Value} (found : (read r.registry cur).found = .form e start)
      (evaluated : r.evaluate (r.afterReading w cur) e = (.ok v, s, w'))
      (others : Evaluates s w' (read r.registry cur).rest r₁ w₁ cur₁) :
      Evaluates r w cur r₁ w₁ cur₁

/-- The next form of a text cannot be read, and any form that is named stands before it; or its
evaluation fails, and it is the form that is named. -/
inductive Stops (r : Runner) (w : World) (cur : Cursor) : Failure → Option Location → Prop
  | reading {f : ReadFault} {place : Location} {form : Option Location}
      (found : (read r.registry cur).found = .failure f place)
      (named : ∀ l, form = some l → ∃ i < cur.pos, AtOffset cur.text i l) :
      Stops r w cur (.reading f place) form
  | evaluating {e : Expr} {start : Location} {f : Failure} {s : Runner} {w' : World}
      (found : (read r.registry cur).found = .form e start)
      (raised : r.evaluate (r.afterReading w cur) e = (.error f, s, w')) :
      Stops r w cur f (some start)

theorem Evaluates.text_eq (h : r.Evaluates w cur r₁ w₁ cur₁) : cur₁.text = cur.text := by
  induction h with
  | refl => rfl
  | form found evaluated others ih => exact ih.trans (Reader.text_rest _ _)

theorem Evaluates.placed (h : r.Evaluates w cur r₁ w₁ cur₁) (hcur : cur.Placed) :
    cur₁.Placed := by
  induction h with
  | refl => exact hcur
  | form found evaluated others ih => exact ih (Reader.placed_rest hcur)

theorem Evaluates.pos_le (h : r.Evaluates w cur r₁ w₁ cur₁) (hcur : cur.Placed) :
    cur.pos ≤ cur₁.pos := by
  induction h with
  | refl => exact Nat.le_refl _
  | form found evaluated others ih =>
    obtain ⟨i, hi, hrest, -⟩ := Reader.exists_start hcur found
    have hothers := ih (Reader.placed_rest hcur)
    omega

/-- No form is evaluated behind the one at which a run stops. -/
theorem Evaluates.of_stops (h : r.Evaluates w cur r₁ w₁ cur₁) (hstop : r₁.Stops w₁ cur₁ f form)
    (h₂ : r.Evaluates w cur r₂ w₂ cur₂) : r₂.Evaluates w₂ cur₂ r₁ w₁ cur₁ := by
  induction h₂ with
  | refl => exact h
  | form found evaluated others ih =>
    cases h with
    | refl =>
      cases hstop with
      | reading found' => rw [found] at found'; cases found'
      | evaluating found' raised =>
        rw [found] at found'
        cases found'
        rw [evaluated] at raised
        cases raised
    | form found' evaluated' others' =>
      rw [found] at found'
      cases found'
      rw [evaluated] at evaluated'
      cases evaluated'
      exact ih others'

/-- A form whose evaluation fails is the one at which the run stops. -/
theorem Evaluates.eq_of_raised (h : r.Evaluates w cur r₁ w₁ cur₁)
    (found : (read r.registry cur).found = .form e start)
    (raised : r.evaluate (r.afterReading w cur) e = (.error f, s, w')) :
    r₁ = r ∧ w₁ = w ∧ cur₁ = cur := by
  cases h with
  | refl => exact ⟨rfl, rfl, rfl⟩
  | form found' evaluated =>
    rw [found] at found'
    cases found'
    rw [evaluated] at raised
    cases raised

/-! ## Failures -/

theorem exists_stop {r : Runner} {w : World} {cur : Cursor} {v : Value} {last : Option Location}
    (hcur : cur.Placed) (hlast : ∀ l, last = some l → ∃ i < cur.pos, AtOffset cur.text i l)
    (h : r.runForms w v last cur = (.error (f, form), s, w')) :
    ∃ r₁ w₁ cur₁, r.Evaluates w cur r₁ w₁ cur₁ ∧ r₁.Stops w₁ cur₁ f form := by
  cases hfound : (read r.registry cur).found with
  | nothing =>
    rw [runForms_of_nothing hfound] at h
    cases h
  | failure fault place =>
    rw [runForms_of_failure hfound] at h
    cases h
    exact ⟨_, _, _, .refl, .reading hfound hlast⟩
  | form e start =>
    have hlt : (read r.registry cur).rest.after.length < cur.after.length :=
      Reader.after_lt_of_read_form hfound
    rw [runForms_of_form hfound, ← afterReading] at h
    rcases hevaluate : r.evaluate (r.afterReading w cur) e with ⟨g | u, s', w''⟩
    · rw [hevaluate] at h
      cases h
      exact ⟨_, _, _, .refl, .evaluating hfound hevaluate⟩
    · rw [hevaluate] at h
      have hnamed : ∀ l, some start = some l → ∃ i < (read r.registry cur).rest.pos,
          AtOffset (read r.registry cur).rest.text i l := by
        rintro l ⟨⟩
        obtain ⟨i, -, hi, hstart⟩ := Reader.exists_start hcur hfound
        exact ⟨i, hi, (Reader.text_rest r.registry cur).symm ▸ hstart⟩
      obtain ⟨r₁, w₁, cur₁, hevaluates, hstop⟩ :=
        exists_stop (Reader.placed_rest hcur) hnamed h
      exact ⟨r₁, w₁, cur₁, .form hfound hevaluate hevaluates, hstop⟩
termination_by cur.after.length

theorem isReading_of_run {α : Type} {x : Eval α} (h : r.run w x = (.error f, s, w')) :
    f.isReading = false := by
  unfold run at h
  split at h <;> cases h <;> rfl

theorem place_of_not_reading (h : f.isReading = false) : Report.place form f = form := by
  cases f <;> first | rfl | cases h

theorem place_of_preludeForms (h : preludeForms w = (.error f, w')) :
    Report.place none f = none := by
  have hkeep : ∀ {w : World} {reading}, keepPrelude w reading = (.error f, w') →
      Report.place none f = none := by
    intro w reading h
    unfold keepPrelude at h
    simp only at h
    split at h
    · split at h
      · cases h
        rfl
      · next hcategory =>
        cases h
        rw [Report.place, if_neg hcategory]
    · cases h
  unfold preludeForms at h
  split at h
  · cases h
  · split at h
    · cases h
      rfl
    · exact hkeep h

theorem place_of_prepare (h : prepare r w = (.error f, s, w')) : Report.place none f = none := by
  unfold prepare at h
  split at h
  · cases h
  · split at h
    · next hforms =>
      cases h
      exact place_of_preludeForms hforms
    · split at h
      · cases h
      · next hrun =>
        cases h
        exact place_of_not_reading (isReading_of_run hrun)

/-- A script whose failure has a place stops at one of its forms, and not in the prelude. -/
theorem exists_stop_of_attempt (h : r.attempt w source = (.error (f, form), s, w'))
    (hplace : Report.place form f = some l) :
    ∃ s₀ w₀ r₁ w₁ cur₁, prepare { r with calls := [], effects := [] } w = (.ok (), s₀, w₀) ∧
      s₀.Evaluates w₀ (.ofText source) r₁ w₁ cur₁ ∧ r₁.Stops w₁ cur₁ f form := by
  unfold attempt at h
  rcases hprepare : prepare { r with calls := [], effects := [] } w with ⟨_ | _, s₀, w₀⟩
  · rw [hprepare] at h
    cases h
    rw [place_of_prepare hprepare] at hplace
    cases hplace
  · rw [hprepare] at h
    have hnone : ∀ l, (none : Option Location) = some l →
        ∃ i < (Cursor.ofText source).pos, AtOffset (Cursor.ofText source).text i l := by
      rintro l ⟨⟩
    obtain ⟨r₁, w₁, cur₁, hevaluates, hstop⟩ := exists_stop (Cursor.placed_ofText source) hnone h
    exact ⟨s₀, w₀, r₁, w₁, cur₁, rfl, hevaluates, hstop⟩

/-! ## The place in a report -/

/-- The place is behind every form of the script that was evaluated, and it is the start of the form
whose evaluation failed. -/
def BlamesNext (r : Runner) (w : World) (source : String) (l : Location) : Prop :=
  ∃ s w', prepare { r with calls := [], effects := [] } w = (.ok (), s, w') ∧
    ∀ {s₁ w₁ cur}, s.Evaluates w' (.ofText source) s₁ w₁ cur →
      (∃ i, cur.pos ≤ i ∧ AtOffset source.toList i l) ∧
        ∀ {e start f s₂ w₂}, (read s₁.registry cur).found = .form e start →
          s₁.evaluate (s₁.afterReading w₁ cur) e = (.error f, s₂, w₂) → l = start

/-- Only a number with too many digits has no category. -/
theorem category?_eq_none_iff {f : ReadFault} :
    f.category? = none ↔ ∃ n, f = .tooManyDigits n := by
  cases f <;> simp [ReadFault.category?]

/-- The place where a run stops is behind the forms before, unless the reader stopped at a number
with too many digits. -/
theorem Stops.blames (h : r.Stops w cur f form) (hcur : cur.Placed)
    (hdigits : ∀ n place, f ≠ .reading (.tooManyDigits n) place)
    (hplace : Report.place form f = some l) :
    (∃ i, cur.pos ≤ i ∧ AtOffset cur.text i l) ∧
      ∀ {e start f s w'}, (read r.registry cur).found = .form e start →
        r.evaluate (r.afterReading w cur) e = (.error f, s, w') → l = start := by
  cases h with
  | @reading fault place form found named =>
    have hcategory : fault.category?.isSome = true := by
      rw [Option.isSome_iff_ne_none, ne_eq, category?_eq_none_iff]
      rintro ⟨n, rfl⟩
      exact hdigits n place rfl
    rw [Report.place, if_pos hcategory] at hplace
    cases hplace
    refine ⟨Reader.exists_faultPlace hcur found, fun found' _ => ?_⟩
    rw [found] at found'
    cases found'
  | evaluating found raised =>
    rw [place_of_not_reading (isReading_of_run raised)] at hplace
    cases hplace
    obtain ⟨i, hi, -, hstart⟩ := Reader.exists_start hcur found
    refine ⟨⟨i, hi, hstart⟩, fun found' _ => ?_⟩
    rw [found] at found'
    cases found'
    rfl

/-- The form that is named for a number with too many digits was evaluated before it. -/
theorem Stops.named_before {n : Nat} {place : Location}
    (h : r.Stops w cur (.reading (.tooManyDigits n) place) (some l)) :
    ∃ i < cur.pos, AtOffset cur.text i l := by
  generalize hf : Failure.reading (.tooManyDigits n) place = f at h
  cases h with
  | reading found named => exact named l rfl
  | evaluating found raised =>
    have hreading : f.isReading = false := isReading_of_run raised
    rw [← hf] at hreading
    cases hreading

/-- The place that is reported is behind the forms that were evaluated, and the start of the form
whose evaluation failed, exactly when the script does not fail at a number with too many digits. -/
theorem blamesNext_iff (h : (r.handle w source).1 = .ok (.failure message (some l))) :
    r.BlamesNext w source l ↔
      ∀ n place, ¬ r.Raises w source (.reading (.tooManyDigits n) place) := by
  rcases attempt_cases r w source with
    ⟨v, s, w', hattempt, -⟩ | ⟨f, form, s, w', hattempt, hraises⟩
  · rw [handle_of_ok hattempt] at h
    cases h
  have hplace : Report.place form f = some l := by
    rw [handle_of_error hattempt] at h
    split at h
    · cases h
    · exact (Outcome.failure.inj (Except.ok.inj h)).2
  obtain ⟨s₀, w₀, r₁, w₁, cur₁, hprepare, hevaluates, hstop⟩ := exists_stop_of_attempt hattempt hplace
  have htext : cur₁.text = source.toList := hevaluates.text_eq
  have hplaced : cur₁.Placed := hevaluates.placed (Cursor.placed_ofText source)
  simp only [hraises]
  constructor
  · rintro ⟨s', w'', hprepare', hblames⟩ n place rfl
    rw [hprepare] at hprepare'
    cases hprepare'
    obtain ⟨⟨i, hi, hat⟩, -⟩ := hblames hevaluates
    obtain rfl : form = some l := hplace
    obtain ⟨j, hj, hbefore⟩ := hstop.named_before
    rw [htext] at hbefore
    rw [hat.unique hbefore] at hi
    omega
  · intro hdigits
    refine ⟨s₀, w₀, hprepare, fun {s₂ w₂ cur₂} h₂ => ?_⟩
    obtain ⟨⟨i, hi, hat⟩, hstart⟩ :=
      hstop.blames hplaced (fun n place hf => hdigits n place hf.symm) hplace
    have hrest := hevaluates.of_stops hstop h₂
    have hle := hrest.pos_le (h₂.placed (Cursor.placed_ofText source))
    refine ⟨⟨i, by omega, htext ▸ hat⟩, fun found raised => ?_⟩
    obtain ⟨rfl, rfl, rfl⟩ := hrest.eq_of_raised found raised
    exact hstart found raised

theorem raises_iff_of_attempt {g : Failure}
    (h : r.attempt w source = (.error (f, form), s, w')) : r.Raises w source g ↔ g = f := by
  rcases attempt_cases r w source with
    ⟨v, s', w'', hattempt, -⟩ | ⟨f', form', s', w'', hattempt, hraises⟩
  · rw [h] at hattempt
    cases hattempt
  · rw [h] at hattempt
    cases hattempt
    exact hraises g

/-- The category of the fault of reading at which a script stops. -/
def faultCategory? (r : Runner) (w : World) (source : String) : Option ReadCategory :=
  match (r.attempt w source).1 with
  | .error (.reading f _, _) => f.category?
  | _ => none

theorem not_raises_of_faultCategory? (h : (r.faultCategory? w source).isSome = true) (n : Nat)
    (place : Location) : ¬ r.Raises w source (.reading (.tooManyDigits n) place) := by
  intro hraises
  rcases hattempt : r.attempt w source with ⟨⟨f, form⟩ | v, s, w'⟩
  · obtain rfl := (raises_iff_of_attempt hattempt).1 hraises
    rw [faultCategory?, hattempt] at h
    cases h
  · rw [faultCategory?, hattempt] at h
    cases h

/-- A vector that is open in the third line is blamed, and not the list around it or the one before
that. -/
theorem blamesNext_open :
    ∃ message, ((create .initial .extended false).1.handle (create .initial .extended false).2
        "(list 1)\n(list 2\n  #v(1 2").1 = .ok (.failure message (some ⟨3, 3⟩)) ∧
      (create .initial .extended false).1.BlamesNext (create .initial .extended false).2
        "(list 1)\n(list 2\n  #v(1 2" ⟨3, 3⟩ := by
  have hplace : ((create .initial .extended false).1.handle (create .initial .extended false).2
      "(list 1)\n(list 2\n  #v(1 2").1.toOption.bind Outcome.place? = some ⟨3, 3⟩ := by
    decide +kernel
  have hcategory : ((create .initial .extended false).1.faultCategory?
      (create .initial .extended false).2 "(list 1)\n(list 2\n  #v(1 2").isSome = true := by
    decide +kernel
  obtain ⟨message, hhandle⟩ := Outcome.exists_failure_of_place? hplace
  exact ⟨message, hhandle, (blamesNext_iff hhandle).2 (not_raises_of_faultCategory? hcategory)⟩

theorem prepare_of_plain (h : r.usesPrelude = false) :
    r.prepare w = (.ok (), { r with ready := true }, w) := by
  rw [prepare, h, Bool.not_false, Bool.or_true, if_pos rfl]

theorem evaluate_int (r : Runner) (w : World) (n : Int) :
    r.evaluate w (.int n) = (.ok (.int n), r, w) := rfl

theorem exists_attempt_of_tooManyDigits (hregistry : r.registry = .extended)
    (hprelude : r.usesPrelude = false) {ds : List Char}
    (hds : ∀ c ∈ ds, isAsciiDigit c = true) (hlen : 4300 < ds.length) :
    ∃ place w', r.attempt w (String.ofList ('1' :: ' ' :: ds))
      = (.error (.reading (.tooManyDigits ds.length) place, some ⟨1, 1⟩),
          { r with calls := [], effects := [], ready := true }, w') := by
  obtain ⟨registry, usesPrelude, ready, root, calls, effects⟩ := r
  obtain rfl : registry = .extended := hregistry
  obtain rfl : usesPrelude = false := hprelude
  have hone : (read .extended ⟨[], '1' :: ' ' :: ds, .start⟩).found = .form (.int 1) ⟨1, 1⟩ := rfl
  have hrest : (read .extended ⟨[], '1' :: ' ' :: ds, .start⟩).rest = ⟨['1'], ' ' :: ds, ⟨1, 2⟩⟩ :=
    rfl
  have hmany : (read .extended ⟨['1'], ' ' :: ds, ⟨1, 2⟩⟩).found
      = .failure (.tooManyDigits ds.length) (Location.advance ⟨1, 3⟩ ds) := by
    have hblank : Reader.step .extended ⟨1, 2⟩ Reader.State.idle ' ' = .more .idle := rfl
    rw [Reader.read, Reader.runAt, Reader.run_cons hblank]
    exact @Reader.read_tooManyDigits .extended Registry.lisp_extended [' ', '1'] ds ⟨1, 3⟩ hds hlen
  let s : Runner := ⟨.extended, false, true, root, [], []⟩
  have hrun : ∀ w last v, ∃ place w', s.runForms w v last ⟨['1'], ' ' :: ds, ⟨1, 2⟩⟩
      = (.error (.reading (.tooManyDigits ds.length) place, last), s, w') := fun w last v =>
    ⟨_, _, runForms_of_failure hmany⟩
  obtain ⟨place, w', hrun⟩ :=
    hrun (s.afterReading w ⟨[], '1' :: ' ' :: ds, .start⟩) (some ⟨1, 1⟩) (.int 1)
  refine ⟨place, w', ?_⟩
  rw [attempt, prepare_of_plain (by rfl), Cursor.ofText_ofList]
  exact (runForms_of_form (r := s) hone).trans hrun

/-- The form before a number with too many digits is blamed, although it was evaluated. -/
theorem not_blamesNext_digits :
    ∃ message, ((create .initial .extended false).1.handle (create .initial .extended false).2
        (String.ofList ('1' :: ' ' :: List.replicate 4301 '1'))).1
          = .ok (.failure message (some ⟨1, 1⟩)) ∧
      ¬ (create .initial .extended false).1.BlamesNext (create .initial .extended false).2
        (String.ofList ('1' :: ' ' :: List.replicate 4301 '1')) ⟨1, 1⟩ := by
  have hds : ∀ c ∈ List.replicate 4301 '1', isAsciiDigit c = true := by
    intro c hc
    rw [List.eq_of_mem_replicate hc]
    rfl
  have hlen : 4300 < (List.replicate 4301 '1').length := by
    rw [List.length_replicate]
    exact Nat.lt_succ_self _
  generalize List.replicate 4301 '1' = ds at hds hlen
  obtain ⟨place, w', hattempt⟩ := exists_attempt_of_tooManyDigits
    (r := (create .initial .extended false).1) (w := (create .initial .extended false).2)
    rfl rfl hds hlen
  refine ⟨_, congrArg Prod.fst (handle_of_error hattempt), ?_⟩
  rintro ⟨s, w₀, hprepare, hblames⟩
  rw [prepare_of_plain (by rfl)] at hprepare
  cases hprepare
  rw [Cursor.ofText_ofList] at hblames
  obtain ⟨⟨i, hi, hat⟩, -⟩ := hblames (.form (by rfl) (evaluate_int _ _ 1) .refl)
  have hfirst : AtOffset (String.ofList ('1' :: ' ' :: ds)).toList 0 ⟨1, 1⟩ := ⟨Nat.zero_le _, rfl⟩
  rw [hat.unique hfirst] at hi
  cases hi

end Runner

end Sigil
