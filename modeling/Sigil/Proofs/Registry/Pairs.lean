import Sigil.Proofs.Registry.History
import Sigil.Reader.Step

/-!
# Pairs and their leads

A pair is accepted only while its lead dispatches. So in the history of every registry that a
program makes, the registrations before that of a pair bind its lead to `dispatch`
(`History.Led`, which every operation keeps: `led_run`). A registration that comes later may bind
the lead to something else, since the last one wins. Where none does, the lead still dispatches and
the reader takes the pair as what it is bound to (`triggers_of_kindOf?`), except behind a blank,
which no form starts with, and except for a pair that is bound to `dispatch` itself. An extension of
a registry is made by a program too (`run_extension`).
-/

namespace Sigil

/-- A pair that a trigger names is that of its lead and some character. -/
theorem Trigger.exists_ofPair {t : Trigger} {lead : Char} {sub : String}
    (h : t.key = .ok (.pair lead sub)) : ∃ d, Key.ofPair lead d = .pair lead sub := by
  unfold Trigger.key at h
  split at h
  · split at h <;> cases h
  · split at h
    · next c d _ _ =>
      cases h
      exact ⟨d, rfl⟩
    · cases h
  · cases h

/-! ## Histories of pairs -/

namespace History

variable {log later earlier : History} {b : Binding} {lead : Char} {sub : String}

/-- The last registration of a character binds it to `dispatch`. -/
def Dispatches (log : History) (c : Char) : Prop :=
  ∃ b, log.last? (.char c) = some b ∧ b.kind = .dispatch

/-- Every pair is that of a lead that dispatched when the pair was registered, and some
character. -/
def Led : History → Prop
  | [] => True
  | b :: earlier =>
    (∀ lead sub, b.key = .pair lead sub →
      History.Dispatches earlier lead ∧ ∃ d, Key.ofPair lead d = .pair lead sub) ∧ Led earlier

theorem Led.append_right (h : Led (later ++ earlier)) : Led earlier := by
  induction later with
  | nil => exact h
  | cons b later ih => exact ih h.2

/-- Before the last registration of a pair its lead dispatched. -/
theorem Led.exists_split (h : log.Led) (hlast : log.last? (.pair lead sub) = some b) :
    ∃ later earlier, log = later ++ b :: earlier ∧ b.key = .pair lead sub ∧
      (∀ x ∈ later, x.key ≠ .pair lead sub) ∧ Dispatches earlier lead ∧
      ∃ d, Key.ofPair lead d = .pair lead sub := by
  obtain ⟨hkey, later, earlier, rfl, hlater⟩ := List.find?_eq_some_iff_append.1 hlast
  have hkey : b.key = .pair lead sub := eq_of_beq hkey
  obtain ⟨hlead, hsub⟩ := h.append_right.1 lead sub hkey
  exact ⟨later, earlier, rfl, hkey, fun x hx => by simpa using hlater x hx, hlead, hsub⟩

/-- Registrations that bind a character to nothing but `dispatch` leave it dispatching. -/
theorem Dispatches.append (h : Dispatches earlier lead)
    (hlater : ∀ x ∈ later, x.key = .char lead → x.kind = .dispatch) :
    Dispatches (later ++ earlier) lead := by
  obtain ⟨l, hl, hkind⟩ := h
  rw [Dispatches, last?, List.find?_append]
  cases hfind : later.find? (·.key == .char lead) with
  | none => exact ⟨l, hl, hkind⟩
  | some x =>
    have hkey : x.key = .char lead := by simpa using List.find?_some hfind
    exact ⟨x, rfl, hlater x (List.mem_of_find?_eq_some hfind) hkey⟩

end History

theorem Registry.led_cons {reg reg' : Registry} {log : History} {t : Trigger} {k : Key}
    {kind : HandlerKind} {terminating : Bool} (hlog : ∀ k, reg.find? k = log.last? k)
    (hled : log.Led) (hreg : reg.register t kind terminating = .ok reg') (hkey : t.key = .ok k) :
    History.Led (⟨k, kind, terminating⟩ :: log) := by
  refine ⟨fun lead sub hpair => ⟨?_, ?_⟩, hled⟩
  · obtain ⟨k', hkey', -, hlead, -⟩ := register_cases hreg
    cases hkey.symm.trans hkey'
    obtain ⟨b, hb, hkind⟩ := Option.map_eq_some_iff.1 (hlead lead sub hpair)
    exact ⟨b, (hlog (.char lead)).symm.trans hb, hkind⟩
  · cases hpair
    exact Trigger.exists_ofPair hkey

namespace Registries

variable {regs regs' : Registries} {logs : List History} {reg ext : Registry} {i base : Nat}
  {rows : List Row}

theorem led_historyOf (hled : ∀ log ∈ logs, History.Led log) (i : Nat) :
    (historyOf logs i).Led := by
  rw [historyOf]
  cases hi : logs[i]? with
  | none => exact trivial
  | some log => exact hled log (List.mem_of_getElem? hi)

/-- An operation registers no pair but one whose lead dispatches. -/
theorem led_step (h : Agree regs logs) (hled : ∀ log ∈ logs, History.Led log) (op : Op) :
    ∀ log ∈ record logs (op, (step regs op).1), History.Led log := by
  cases op with
  | new => exact List.forall_mem_append.2 ⟨hled, by simp [History.Led]⟩
  | copy i =>
    cases hi : regs[i]? with
    | some reg =>
      simp only [step, hi]
      refine List.forall_mem_append.2 ⟨hled, ?_⟩
      rw [List.forall_mem_singleton]
      exact led_historyOf hled i
    | none =>
      simp only [step, hi]
      exact hled
  | register i t kind terminating =>
    cases hi : regs[i]? with
    | some reg =>
      cases hreg : reg.register t kind terminating with
      | ok reg' =>
        obtain ⟨k, hkey, -⟩ := Registry.find?_register hreg
        simp only [step, hi, hreg, record, hkey]
        intro log hlog
        rcases List.mem_or_eq_of_mem_set hlog with hlog | rfl
        · exact hled log hlog
        · exact Registry.led_cons (h.find? hi) (led_historyOf hled i) hreg hkey
      | error f =>
        simp only [step, hi, hreg]
        exact hled
    | none =>
      simp only [step, hi]
      exact hled
  | freeze i | ask i q =>
    cases hi : regs[i]? <;> simp only [step, hi] <;> exact hled

/-- In all that a program does, pairs are registered while their leads dispatch. -/
theorem led_run (h : Agree regs logs) (hled : ∀ log ∈ logs, History.Led log) (ops : List Op) :
    ∀ log ∈ (run regs ops).1.foldl record logs, History.Led log := by
  induction ops generalizing regs logs with
  | nil => exact hled
  | cons op ops ih => exact ih (h.step op) (led_step h hled op)

/-! ## Extensions are made by programs -/

/-- The program that extends the registry `base`, when the new one has number `new`. -/
def extension (base new : Nat) (rows : List Row) : List Op :=
  .copy base :: rows.map (fun row => .register new row.trigger row.kind row.terminating)
    ++ [.freeze new]

theorem run_append (regs : Registries) (ops more : List Op) :
    (run regs (ops ++ more)).2 = (run (run regs ops).2 more).2 := by
  induction ops generalizing regs with
  | nil => rfl
  | cons op ops ih => exact ih (step regs op).2

theorem run_rows {new : Nat} (h : applyRows regs new rows = (.ok (), regs')) :
    (run regs (rows.map fun row => .register new row.trigger row.kind row.terminating)).2
      = regs' := by
  induction rows generalizing regs with
  | nil => exact congrArg Prod.snd h
  | cons row rows ih =>
    rw [applyRows] at h
    split at h
    · cases h
    · next hstep =>
      rw [List.map_cons, run, hstep]
      exact ih h

/-- The extension of a registry is the registry that its program makes. -/
theorem run_extension (hbase : regs[base]? = some reg) (h : Readtable.extend reg rows = .ok ext) :
    (run regs (extension base regs.length rows)).2 = regs ++ [ext] := by
  obtain ⟨new, hcompose, hnew⟩ := compose_eq hbase rows
  cases hnew ext h
  rw [h, compose] at hcompose
  split at hcompose
  · next regs' hrows =>
    rw [extension, List.cons_append, run]
    simp only [run_append, run_rows hrows]
    exact congrArg Prod.snd hcompose
  · cases hcompose

end Registries

/-! ## What the reader does with a pair -/

namespace Reader

variable {reg : Registry} {lead : Char} {sub : String} {kind : HandlerKind}

/-- At the start of a form, the lead and some character behind it start what the pair is bound
to. -/
def Triggers (reg : Registry) (lead : Char) (sub : String) (kind : HandlerKind) : Prop :=
  ∃ d, Key.ofPair lead d = .pair lead sub ∧
    ∀ (s : State) (place : Location), s.mode = .between → s.frames = [] →
      ∃ s', step reg place s lead = .more s' ∧
        step reg (place.step lead) s' d
          = s'.invoke kind (.pair lead d) place ((place.step lead).step d)

theorem triggers_of_kindOf? (hlead : reg.kindOf? (.char lead) = some .dispatch)
    (hpair : reg.kindOf? (.pair lead sub) = some kind) (hkind : kind ≠ .dispatch)
    (hblank : Text.isBlank lead = false) (hsub : ∃ d, Key.ofPair lead d = .pair lead sub) :
    Triggers reg lead sub kind := by
  obtain ⟨d, hd⟩ := hsub
  refine ⟨d, hd, fun s place hmode hframes => ?_⟩
  have hfirst : step reg place s lead
      = .more { s with start := place, mode := .pair lead place } := by
    simp [step, hmode, State.stepBetween, hblank, hframes, State.begin, hlead, State.invoke,
      Cue.lead]
  refine ⟨_, hfirst, ?_⟩
  simp only [step, hd, hpair]

/-- A blank lead never comes to a pair. -/
theorem not_triggers_of_isBlank (hblank : Text.isBlank lead = true)
    (hfree : ∀ d, d ≠ lead → reg.kindOf? (.char d) = none) :
    ¬ Triggers reg lead sub .vector := by
  rintro ⟨d, -, h⟩
  obtain ⟨s', hfirst, hsecond⟩ := h .idle .start rfl rfl
  have hskip : step reg .start .idle lead = .more .idle := by
    simp [step, State.idle, State.stepBetween, hblank]
  cases hskip.symm.trans hfirst
  by_cases hd : d = lead
  · subst hd
    simp [step, State.idle, State.stepBetween, hblank, State.invoke] at hsecond
  · cases hb : Text.isBlank d <;>
      simp [step, State.idle, State.stepBetween, hb, State.begin, hfree d hd, State.invoke]
        at hsecond

/-- The lead of a pair that is bound to `dispatch` waits for a character that is refused. -/
theorem not_triggers_dispatch (hlead : reg.kindOf? (.char lead) = some .dispatch)
    (hpair : reg.kindOf? (.pair lead sub) = some .dispatch) (hblank : Text.isBlank lead = false) :
    ¬ Triggers reg lead sub .dispatch := by
  rintro ⟨d, hd, h⟩
  obtain ⟨s', hfirst, hsecond⟩ := h .idle .start rfl rfl
  have hwaits : step reg .start .idle lead
      = .more { State.idle with mode := .pair lead .start } := by
    simp [step, State.idle, State.stepBetween, hblank, State.begin, hlead, State.invoke, Cue.lead]
  cases hwaits.symm.trans hfirst
  simp [step, State.idle, hd, hpair, State.invoke] at hsecond

end Reader

/-! ## Bound pairs -/

namespace Registries

/-- Whatever a program does on registries, a pair that one of them binds was registered while its
lead dispatched; and unless the lead was bound to something else later, it still dispatches, and
the reader takes the pair as what it is bound to, if the lead is no blank and the pair is not bound
to `dispatch`. The extensions of a registry and the standard registry are made by programs too. -/
theorem pair_of_dispatching_lead :
    (∀ ops (i : Nat) (reg : Registry), (run [] ops).2[i]? = some reg →
      ∀ lead sub kind, reg.kindOf? (.pair lead sub) = some kind →
        ∃ later b earlier, historyOf (histories (run [] ops).1) i = later ++ b :: earlier ∧
          b.key = .pair lead sub ∧ b.kind = kind ∧ (∀ x ∈ later, x.key ≠ .pair lead sub) ∧
          History.Dispatches earlier lead ∧
          ((∀ x ∈ later, x.key = .char lead → x.kind = .dispatch) →
            reg.kindOf? (.char lead) = some .dispatch ∧
            (Text.isBlank lead = false → kind ≠ .dispatch →
              Reader.Triggers reg lead sub kind))) ∧
    (∀ ops (i : Nat) (reg : Registry), (run [] ops).2[i]? = some reg →
      ∀ rows ext, Readtable.extend reg rows = .ok ext →
        ∃ more, (run [] (ops ++ more)).2 = (run [] ops).2 ++ [ext]) ∧
    ∃ ops, (run [] ops).2 = [Registry.standard] := by
  refine ⟨fun ops i reg hreg lead sub kind hpair => ?_, fun ops i reg hreg rows ext hext => ?_, ?_⟩
  · have hfind := (agree_run ops).find? hreg
    have hled : (historyOf (histories (run [] ops).1) i).Led :=
      led_historyOf (led_run ⟨rfl, fun hi => by cases hi⟩ (by simp) ops) i
    obtain ⟨b, hb, hkind⟩ := Option.map_eq_some_iff.1 hpair
    rw [hfind] at hb
    obtain ⟨later, earlier, hlog, hkey, hlater, hlead, hsub⟩ := hled.exists_split hb
    refine ⟨later, b, earlier, hlog, hkey, hkind, hlater, hlead, fun hkept => ?_⟩
    have hbehind : History.Dispatches (later ++ [b] ++ earlier) lead := by
      refine hlead.append fun x hx hchar => ?_
      rcases List.mem_append.1 hx with hx | hx
      · exact hkept x hx hchar
      · rw [List.mem_singleton.1 hx, hkey] at hchar
        cases hchar
    rw [List.append_assoc, List.singleton_append, ← hlog] at hbehind
    obtain ⟨l, hl, hdispatch⟩ := hbehind
    have hchar : reg.kindOf? (.char lead) = some .dispatch := by
      rw [Registry.kindOf?, hfind, hl, Option.map_some, hdispatch]
    exact ⟨hchar, fun hblank hne => Reader.triggers_of_kindOf? hchar hpair hne hblank hsub⟩
  · exact ⟨extension i (run [] ops).2.length rows,
      (run_append [] ops _).trans (run_extension hreg hext)⟩
  · exact ⟨[.new, .register 0 (.ofChar '(') .listOpen true,
      .register 0 (.ofChar ')') .listClose true, .register 0 (.ofChar '\'') .quote true,
      .register 0 (.ofChar '"') .string true, .register 0 (.ofChar ';') .lineComment true,
      .register 0 (.ofChar '#') .dispatch false, .register 0 (.ofPair '#' '\'') .function true,
      .register 0 (.ofPair '#' '|') .blockComment true, .freeze 0], by decide +kernel⟩

/-- A pair on a dispatching character, named with a capital. -/
def sharp : List Op :=
  [.new, .register 0 (.ofChar '#') .dispatch false, .register 0 (.ofPair '#' 'V') .vector true,
    .register 0 (.ofChar '(') .listOpen true]

theorem pair_of_dispatching_lead_sharp :
    ∃ reg : Registry, (run [] sharp).2[0]? = some reg ∧
      reg.kindOf? (.pair '#' "v") = some .vector ∧ Reader.Triggers reg '#' "v" .vector := by
  let reg : Registry := ⟨[⟨.char '#', .dispatch, false⟩, ⟨.pair '#' "v", .vector, true⟩,
    ⟨.char '(', .listOpen, true⟩], false⟩
  have hreg : (run [] sharp).2[0]? = some reg := by decide +kernel
  have hpair : reg.kindOf? (.pair '#' "v") = some .vector := by decide
  obtain ⟨later, b, earlier, hlog, -, -, -, -, hkept⟩ :=
    pair_of_dispatching_lead.1 sharp 0 reg hreg '#' "v" .vector hpair
  have hsharp : ∀ x ∈ historyOf (histories (run [] sharp).1) 0, x.key = .char '#' →
      x.kind = .dispatch := by decide +kernel
  obtain ⟨-, htriggers⟩ := hkept fun x hx => hsharp x (by rw [hlog]; simp [hx])
  exact ⟨reg, hreg, hpair, htriggers (by decide) (by decide)⟩

/-- The lead of a pair is bound to something else: the last registration of a key counts. -/
def rebound : List Op :=
  [.new, .register 0 (.ofChar '#') .dispatch false, .register 0 (.ofPair '#' 'v') .vector true,
    .register 0 (.ofChar '#') .quote true]

/-- The lead of a pair is a blank, and no form starts with a blank. -/
def blankLead : List Op :=
  [.new, .register 0 (.ofChar ' ') .dispatch false, .register 0 (.ofPair ' ' 'v') .vector true]

/-- A pair is bound to `dispatch`, which the reader takes no pair for. -/
def chained : List Op :=
  [.new, .register 0 (.ofChar '#') .dispatch false, .register 0 (.ofPair '#' 'x') .dispatch true]

/-- Not every bound pair has a lead that dispatches, and not every one that has is taken. -/
theorem exists_untriggered_pair :
    (∃ reg : Registry, (run [] rebound).2 = [reg] ∧
      reg.kindOf? (.pair '#' "v") = some .vector ∧ reg.kindOf? (.char '#') = some .quote) ∧
    (∃ reg : Registry, (run [] blankLead).2 = [reg] ∧
      reg.kindOf? (.pair ' ' "v") = some .vector ∧ reg.kindOf? (.char ' ') = some .dispatch ∧
      ¬ Reader.Triggers reg ' ' "v" .vector) ∧
    ∃ reg : Registry, (run [] chained).2 = [reg] ∧
      reg.kindOf? (.pair '#' "x") = some .dispatch ∧ reg.kindOf? (.char '#') = some .dispatch ∧
      ¬ Reader.Triggers reg '#' "x" .dispatch := by
  refine ⟨⟨⟨[⟨.char '#', .quote, true⟩, ⟨.pair '#' "v", .vector, true⟩], false⟩, ?_⟩,
    ⟨⟨[⟨.char ' ', .dispatch, false⟩, ⟨.pair ' ' "v", .vector, true⟩], false⟩, ?_⟩,
    ⟨⟨[⟨.char '#', .dispatch, false⟩, ⟨.pair '#' "x", .dispatch, true⟩], false⟩, ?_⟩⟩
  · decide +kernel
  · refine ⟨by decide +kernel, by decide, by decide, ?_⟩
    refine Reader.not_triggers_of_isBlank (by decide) fun d hd => ?_
    simp [Registry.kindOf?, Registry.find?, hd.symm]
  · exact ⟨by decide +kernel, by decide, by decide,
      Reader.not_triggers_dispatch (by decide) (by decide) (by decide)⟩

end Registries

end Sigil
