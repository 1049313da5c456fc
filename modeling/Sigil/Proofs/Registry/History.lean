import Mathlib.Data.List.Forall2
import Sigil.Proofs.Registry.Writes

/-!
# Registries and their histories

A program makes registries, copies, changes, freezes and asks them in any order. `Registries.run`
does such a program and gives its transcript; `histories` reads off the transcript which
registrations every registry goes back to, its own and those of the registry that it was copied
from. A registry answers as the last registration of a key in its history says
(`answers_by_history`): nothing else that the program does, to this registry or to another one, has
a part in the answer.
-/

namespace Sigil

/-! ## What a history says -/

/-- Registrations that were accepted, the last one first. -/
abbrev History := List Binding

def History.last? (log : History) (k : Key) : Option Binding := log.find? (·.key == k)

namespace Registry

variable {reg reg' : Registry} {log : History} {t : Trigger} {kind : HandlerKind}
  {terminating : Bool} {k : Key}

/-- A registry answers as the last registrations in a history say. -/
structure Reflects (reg : Registry) (log : History) : Prop where
  dispatch : ∀ t, reg.dispatch t = (t.key.toOption.bind log.last?).map (·.kind)
  terminating : ∀ c, reg.isTerminating c = true ↔
    ∃ b, log.last? (.char c) = some b ∧ b.terminating = true

theorem reflects_of_find? (h : ∀ k, reg.find? k = log.last? k) : reg.Reflects log where
  dispatch t := by
    unfold Registry.dispatch
    cases t.key with
    | ok k => exact congrArg (Option.map (·.kind)) (h k)
    | error f => rfl
  terminating c := by
    rw [isTerminating, h]
    cases log.last? (.char c) <;> simp

/-- An accepted registration is the last one from now on. -/
theorem find?_register_cons (h : ∀ k, reg.find? k = log.last? k) (hkey : t.key = .ok k)
    (hreg : reg.register t kind terminating = .ok reg') (k' : Key) :
    reg'.find? k' = History.last? (⟨k, kind, terminating⟩ :: log) k' := by
  obtain ⟨k₁, hkey₁, hfind⟩ := find?_register hreg
  cases hkey.symm.trans hkey₁
  rw [hfind, History.last?, List.find?_cons]
  by_cases hk : k = k'
  · simp [hk]
  · simp only [hk, beq_eq_false_iff_ne.2 hk, if_false]
    exact h k'

/-- A registration is refused by a frozen registry, for a malformed trigger, and for a pair whose
lead does not dispatch. -/
theorem register_eq_error_iff : (∃ f, reg.register t kind terminating = .error f) ↔
    reg.frozen = true ∨ (∃ f, t.key = .error f) ∨
      ∃ lead sub, t.key = .ok (.pair lead sub) ∧ reg.dispatch (.ofChar lead) ≠ some .dispatch := by
  have hlead : ∀ lead, reg.dispatch (.ofChar lead) = reg.kindOf? (.char lead) := fun lead => by
    rw [dispatch, Trigger.key_ofChar]
  simp only [hlead]
  unfold register
  split
  · next hfrozen => simp [hfrozen]
  · next hfrozen =>
    cases hkey : t.key with
    | error f => simp
    | ok k =>
      cases k with
      | char c => simp [hfrozen]
      | pair lead sub =>
        by_cases hdispatch : reg.kindOf? (.char lead) = some .dispatch
        · simp [hfrozen, hdispatch]
        · simp [hdispatch]

end Registry

/-! ## Rows on top of a registry -/

namespace Readtable

variable {reg : Registry} {row : Row} {rows before after : List Row} {k : Key}

def binds (row : Row) (k : Key) : Bool :=
  match row.trigger.key with
  | .ok k' => k' == k
  | .error _ => false

/-- The kind of a key after some rows: that of the last one that binds it, or else the one that it
had before. -/
def kindAfter (reg : Registry) (rows : List Row) (k : Key) : Option HandlerKind :=
  ((rows.reverse.find? (binds · k)).map (·.kind)).or (reg.kindOf? k)

/-- Every row names a key, and the lead of a pair dispatches after the rows before it. -/
def Composable (reg : Registry) (rows : List Row) : Prop :=
  ∀ before row after, rows = before ++ row :: after →
    ∃ k, row.trigger.key = .ok k ∧
      ∀ lead sub, k = .pair lead sub → kindAfter reg before (.char lead) = some .dispatch

theorem kindAfter_cons {reg' : Registry}
    (hreg : reg.register row.trigger row.kind row.terminating = .ok reg') (k : Key) :
    kindAfter reg (row :: before) k = kindAfter reg' before k := by
  obtain ⟨k₁, hkey, hfind⟩ := Registry.find?_register hreg
  have hkind : reg'.kindOf? k = if k₁ = k then some row.kind else reg.kindOf? k := by
    rw [Registry.kindOf?, hfind]
    split <;> rfl
  rw [kindAfter, kindAfter, hkind, List.reverse_cons, List.find?_append]
  cases before.reverse.find? (binds · k) with
  | some later => rfl
  | none => by_cases hk : k₁ = k <;> simp [binds, hkey, hk]

theorem composable_cons {reg' : Registry}
    (hreg : reg.register row.trigger row.kind row.terminating = .ok reg') :
    Composable reg (row :: rows) ↔ Composable reg' rows := by
  constructor
  · rintro h before row' after rfl
    simpa only [← kindAfter_cons hreg] using h (row :: before) row' after rfl
  · intro h before row' after heq
    cases before with
    | nil =>
      cases heq
      obtain ⟨k, hkey, -, hlead, -⟩ := Registry.register_cases hreg
      exact ⟨k, hkey, hlead⟩
    | cons first before =>
      cases heq
      simpa only [kindAfter_cons hreg] using h before row' after rfl

/-- Rows can be registered one after the other exactly when every one finds what it needs. -/
theorem exists_apply_iff (hopen : reg.frozen = false) :
    (∃ reg', apply reg rows = .ok reg') ↔ Composable reg rows := by
  induction rows generalizing reg with
  | nil => exact ⟨fun _ before row after heq => (by cases before <;> cases heq), fun _ => ⟨reg, rfl⟩⟩
  | cons row rows ih =>
    rw [apply]
    cases hreg : reg.register row.trigger row.kind row.terminating with
    | ok reg' =>
      obtain ⟨_, -, -, -, heq⟩ := Registry.register_cases hreg
      have hopen' : reg'.frozen = false := by rw [heq]; exact hopen
      rw [composable_cons hreg, ← ih hopen']
      rfl
    | error f =>
      refine iff_of_false (by rintro ⟨_, h⟩; cases h) fun h => ?_
      obtain ⟨k, hkey, hlead⟩ := h [] row rows rfl
      rcases Registry.register_eq_error_iff.1 ⟨f, hreg⟩ with hfrozen | ⟨f, hf⟩ | ⟨lead, sub, hp, hne⟩
      · rw [hopen] at hfrozen
        cases hfrozen
      · rw [hkey] at hf
        cases hf
      · cases hkey.symm.trans hp
        refine hne ?_
        rw [Registry.dispatch, Trigger.key_ofChar]
        exact hlead lead sub rfl

/-- A registry can be extended exactly when every row finds what it needs. -/
theorem exists_extend_iff : (∃ ext, extend reg rows = .ok ext) ↔ Composable reg rows := by
  have hcopy : Composable reg.copy rows ↔ Composable reg rows := Iff.rfl
  rw [← hcopy, ← exists_apply_iff rfl, extend]
  cases apply reg.copy rows with
  | ok reg' => exact iff_of_true ⟨_, rfl⟩ ⟨_, rfl⟩
  | error f => exact iff_of_false (by rintro ⟨_, h⟩; cases h) (by rintro ⟨_, h⟩; cases h)

end Readtable

/-! ## Programs on several registries -/

/-- Registries, numbered in the order in which they were made. -/
abbrev Registries := List Registry

namespace Registries

inductive Query where
  | dispatch (t : Trigger)
  | contains (t : Trigger)
  | isTerminating (c : Char)
  | keys
  | size
  | frozen

inductive Op where
  | new
  | copy (reg : Nat)
  | register (reg : Nat) (t : Trigger) (kind : HandlerKind) (terminating : Bool)
  | freeze (reg : Nat)
  | ask (reg : Nat) (q : Query)

inductive Answer where
  | made (reg : Nat)
  | done
  | refused (f : RegistryFault)
  | kind (kind : Option HandlerKind)
  | truth (b : Bool)
  | keys (ts : List Trigger)
  | size (n : Nat)
  /-- There is no registry of this number. -/
  | unknown

def Query.answer (reg : Registry) : Query → Answer
  | .dispatch t => .kind (reg.dispatch t)
  | .contains t => .truth (reg.dispatch t).isSome
  | .isTerminating c => .truth (reg.isTerminating c)
  | .keys => .keys reg.keys
  | .size => .size reg.size
  | .frozen => .truth reg.frozen

/-- The registry that an operation is done to. -/
def Op.target? : Op → Option Nat
  | .new | .copy _ => none
  | .register i .. | .freeze i | .ask i _ => some i

/-- Do an operation. -/
def step (regs : Registries) : Op → Answer × Registries
  | .new => (.made regs.length, regs ++ [.empty])
  | .copy i => match regs[i]? with
    | some reg => (.made regs.length, regs ++ [reg.copy])
    | none => (.unknown, regs)
  | .register i t kind terminating => match regs[i]? with
    | some reg => match reg.register t kind terminating with
      | .ok reg => (.done, regs.set i reg)
      | .error f => (.refused f, regs)
    | none => (.unknown, regs)
  | .freeze i => match regs[i]? with
    | some reg => (.done, regs.set i reg.freeze)
    | none => (.unknown, regs)
  | .ask i q => match regs[i]? with
    | some reg => (q.answer reg, regs)
    | none => (.unknown, regs)

/-- Do operations one after the other. The transcript tells what was done and answered. -/
def run (regs : Registries) : List Op → List (Op × Answer) × Registries
  | [] => ([], regs)
  | op :: ops =>
    let (answer, regs) := step regs op
    let (transcript, regs) := run regs ops
    ((op, answer) :: transcript, regs)

/-- What an operation adds to the histories: a new registry has none, a copy takes over that of the
registry that it is made of, and an accepted registration is the last one of its registry. -/
def record (logs : List History) : Op × Answer → List History
  | (.new, _) => logs ++ [[]]
  | (.copy i, .made _) => logs ++ [logs[i]?.getD []]
  | (.register i t kind terminating, .done) => match t.key with
    | .ok k => logs.set i (⟨k, kind, terminating⟩ :: logs[i]?.getD [])
    | .error _ => logs
  | _ => logs

/-- The histories of the registries that a program has made. -/
def histories (transcript : List (Op × Answer)) : List History := transcript.foldl record []

/-! ## Histories decide -/

def historyOf (logs : List History) (reg : Nat) : History := logs[reg]?.getD []

/-- The registries bind what their histories say. -/
structure Agree (regs : Registries) (logs : List History) : Prop where
  length_eq : logs.length = regs.length
  find? : ∀ {i reg}, regs[i]? = some reg → ∀ k, reg.find? k = (historyOf logs i).last? k

variable {regs : Registries} {logs : List History} {i : Nat} {reg reg' : Registry} {log : History}

theorem Agree.append (h : Agree regs logs) (hreg : ∀ k, reg.find? k = log.last? k) :
    Agree (regs ++ [reg]) (logs ++ [log]) where
  length_eq := by simp [h.length_eq]
  find? {j reg₁} hj := by
    rw [List.getElem?_append] at hj
    rw [historyOf, List.getElem?_append, h.length_eq]
    split at hj
    · next hlt =>
      rw [if_pos hlt]
      exact h.find? hj
    · next hle =>
      rw [if_neg hle]
      cases hsub : j - regs.length with
      | zero =>
        rw [hsub] at hj
        cases hj
        exact hreg
      | succ n =>
        rw [hsub] at hj
        cases hj

theorem Agree.set (h : Agree regs logs) (hreg : ∀ k, reg.find? k = log.last? k) :
    Agree (regs.set i reg) (logs.set i log) where
  length_eq := by simp [h.length_eq]
  find? {j reg₁} hj := by
    rw [List.getElem?_set] at hj
    rw [historyOf, List.getElem?_set, h.length_eq]
    split at hj
    · next heq =>
      split at hj
      · next hlt =>
        cases hj
        rw [if_pos heq, if_pos hlt]
        exact hreg
      · cases hj
    · next hne =>
      rw [if_neg hne]
      exact h.find? hj

theorem Agree.freeze (h : Agree regs logs) (hi : regs[i]? = some reg) :
    Agree (regs.set i reg.freeze) logs where
  length_eq := by simp [h.length_eq]
  find? {j reg₁} hj := by
    rw [List.getElem?_set] at hj
    split at hj
    · next heq =>
      split at hj
      · cases hj
        have hfreeze : ∀ k, reg.freeze.find? k = reg.find? k := fun _ => rfl
        exact fun k => (hfreeze k).trans (heq ▸ h.find? hi k)
      · cases hj
    · exact h.find? hj

theorem Agree.step (h : Agree regs logs) (op : Op) :
    Agree (step regs op).2 (record logs (op, (step regs op).1)) := by
  cases op with
  | new => exact h.append fun _ => rfl
  | copy i =>
    cases hi : regs[i]? with
    | some reg =>
      simp only [Registries.step, hi]
      have hcopy : ∀ k, reg.copy.find? k = reg.find? k := fun _ => rfl
      exact h.append fun k => (hcopy k).trans (h.find? hi k)
    | none =>
      simp only [Registries.step, hi]
      exact h
  | register i t kind terminating =>
    cases hi : regs[i]? with
    | some reg =>
      cases hreg : reg.register t kind terminating with
      | ok reg' =>
        obtain ⟨k, hkey, -⟩ := Registry.find?_register hreg
        simp only [Registries.step, hi, hreg, record, hkey]
        exact h.set (Registry.find?_register_cons (h.find? hi) hkey hreg)
      | error f =>
        simp only [Registries.step, hi, hreg]
        exact h
    | none =>
      simp only [Registries.step, hi]
      exact h
  | freeze i =>
    cases hi : regs[i]? with
    | some reg =>
      simp only [Registries.step, hi]
      exact h.freeze hi
    | none =>
      simp only [Registries.step, hi]
      exact h
  | ask i q =>
    cases hi : regs[i]? with
    | some reg =>
      simp only [Registries.step, hi]
      exact h
    | none =>
      simp only [Registries.step, hi]
      exact h

theorem Agree.run (h : Agree regs logs) (ops : List Op) :
    Agree (run regs ops).2 ((run regs ops).1.foldl record logs) := by
  induction ops generalizing regs logs with
  | nil => exact h
  | cons op ops ih => exact ih (h.step op)

theorem agree_run (ops : List Op) : Agree (run [] ops).2 (histories (run [] ops).1) :=
  Agree.run ⟨rfl, fun hi => by cases hi⟩ ops

/-! ## What an operation leaves alone -/

/-- An operation changes no registry but its target. -/
theorem getElem?_step (regs : Registries) (op : Op) {j : Nat} (hj : j < regs.length)
    (htarget : op.target? ≠ some j) : (step regs op).2[j]? = regs[j]? := by
  cases op with
  | new => exact List.getElem?_append_left hj
  | copy i =>
    simp only [step]
    split
    · exact List.getElem?_append_left hj
    · rfl
  | register i t kind terminating =>
    have hne : i ≠ j := fun h => htarget (congrArg some h)
    simp only [step]
    split
    · split
      · exact List.getElem?_set_ne hne
      · rfl
    · rfl
  | freeze i =>
    have hne : i ≠ j := fun h => htarget (congrArg some h)
    simp only [step]
    split
    · exact List.getElem?_set_ne hne
    · rfl
  | ask i q =>
    simp only [step]
    split <;> rfl

/-- What is refused changes nothing. -/
theorem step_of_refused {op : Op} {f : RegistryFault} (h : (step regs op).1 = .refused f) :
    (step regs op).2 = regs := by
  cases op with
  | new => cases h
  | copy i | freeze i =>
    simp only [step] at h
    split at h <;> cases h
  | register i t kind terminating =>
    simp only [step] at h ⊢
    split at h
    · split at h
      · cases h
      · rfl
    · rfl
  | ask i q =>
    simp only [step]
    split <;> rfl

/-! ## A registry made of another one and rows -/

/-- Register rows in a registry, up to the first refusal. -/
def applyRows (regs : Registries) (reg : Nat) : List Row → Except RegistryFault Unit × Registries
  | [] => (.ok (), regs)
  | row :: rows => match step regs (.register reg row.trigger row.kind row.terminating) with
    | (.refused f, regs) => (.error f, regs)
    | (_, regs) => applyRows regs reg rows

/-- Copy a registry, register rows in the copy and freeze it. -/
def compose (regs : Registries) (base : Nat) (rows : List Row) :
    Except RegistryFault Nat × Registries :=
  let copied := (step regs (.copy base)).2
  match applyRows copied regs.length rows with
  | (.ok (), regs') => (.ok regs.length, (step regs' (.freeze regs.length)).2)
  | (.error f, regs') => (.error f, regs')

theorem applyRows_append (regs : Registries) (reg : Registry) (rows : List Row) :
    ∃ new, applyRows (regs ++ [reg]) regs.length rows
        = ((Readtable.apply reg rows).map fun _ => (), regs ++ [new]) ∧
      ∀ reg', Readtable.apply reg rows = .ok reg' → new = reg' := by
  induction rows generalizing reg with
  | nil => exact ⟨reg, rfl, fun reg' h => Except.ok.inj h⟩
  | cons row rows ih =>
    simp only [applyRows, step, List.getElem?_concat_length, Readtable.apply]
    cases hreg : reg.register row.trigger row.kind row.terminating with
    | ok next =>
      simp only [List.set_append_right _ _ (Nat.le_refl _), Nat.sub_self, List.set_cons_zero]
      exact ih next
    | error f => exact ⟨reg, rfl, fun reg' h => by cases h⟩

/-- The program that composes a registry gives what the extension of its base is, and adds one
registry to those that there were. -/
theorem compose_eq {base : Nat} (hbase : regs[base]? = some reg) (rows : List Row) :
    ∃ new, compose regs base rows
        = ((Readtable.extend reg rows).map fun _ => regs.length, regs ++ [new]) ∧
      ∀ ext, Readtable.extend reg rows = .ok ext → new = ext := by
  obtain ⟨new, happly, hnew⟩ := applyRows_append regs reg.copy rows
  have hcopied : (step regs (.copy base)).2 = regs ++ [reg.copy] := by simp only [step, hbase]
  simp only [compose, hcopied, happly, Readtable.extend]
  cases hreg : Readtable.apply reg.copy rows with
  | ok reg' =>
    cases hnew reg' hreg
    refine ⟨new.freeze, ?_, fun ext h => Except.ok.inj h⟩
    simp [Except.map, step]
  | error f => exact ⟨new, rfl, nofun⟩

theorem exists_compose_iff {base : Nat} (hbase : regs[base]? = some reg) (rows : List Row) :
    (∃ new, (compose regs base rows).1 = .ok new) ↔ Readtable.Composable reg rows := by
  obtain ⟨new, hcompose, -⟩ := compose_eq hbase rows
  rw [← Readtable.exists_extend_iff, hcompose]
  cases Readtable.extend reg rows with
  | ok ext => exact iff_of_true ⟨_, rfl⟩ ⟨_, rfl⟩
  | error f => exact iff_of_false (by rintro ⟨_, h⟩; cases h) (by rintro ⟨_, h⟩; cases h)

/-! ## What registries answer -/

/-- Whatever operations are done on registries, each of them answers as the last accepted
registrations in its history say. A registration is refused only by a frozen registry, for a
malformed trigger, and for a pair whose lead does not dispatch; then nothing changes. No operation
changes another registry than its target. So rows can be put on top of a registry exactly when
every one of them finds what it needs, and the registries that there were stay as they are. -/
theorem answers_by_history (ops : List Op) :
    (∀ i (reg : Registry), (run [] ops).2[i]? = some reg →
      reg.Reflects (historyOf (histories (run [] ops).1) i)) ∧
    (∀ (regs : Registries) op f, (step regs op).1 = .refused f → (step regs op).2 = regs) ∧
    (∀ (regs : Registries) i (reg : Registry) t kind terminating, regs[i]? = some reg →
      ((∃ f, (step regs (.register i t kind terminating)).1 = .refused f) ↔
        reg.frozen = true ∨ (∃ f, t.key = .error f) ∨
          ∃ lead sub, t.key = .ok (.pair lead sub) ∧
            reg.dispatch (.ofChar lead) ≠ some .dispatch)) ∧
    (∀ (regs : Registries) op j, j < regs.length → op.target? ≠ some j →
      (step regs op).2[j]? = regs[j]?) ∧
    (∀ (regs : Registries) base (reg : Registry) rows, regs[base]? = some reg →
      ((∃ new, (compose regs base rows).1 = .ok new) ↔ Readtable.Composable reg rows) ∧
      ∃ new, (compose regs base rows).2 = regs ++ [new] ∧
        ∀ ext, Readtable.extend reg rows = .ok ext → new = ext) := by
  refine ⟨fun i reg hi => ?_, fun regs op f => step_of_refused, ?_,
    fun regs op j => getElem?_step regs op,
    fun regs base reg rows hbase => ⟨exists_compose_iff hbase rows, ?_⟩⟩
  · exact Registry.reflects_of_find? ((agree_run ops).find? hi)
  · intro regs i reg t kind terminating hi
    have hfails : (∃ f, reg.register t kind terminating = .error f) ↔ _ :=
      Registry.register_eq_error_iff
    rw [← hfails]
    simp only [step, hi]
    cases reg.register t kind terminating with
    | ok reg' => exact iff_of_false (fun ⟨_, h⟩ => nomatch h) fun ⟨_, h⟩ => nomatch h
    | error f => exact iff_of_true ⟨f, rfl⟩ ⟨f, rfl⟩
  · obtain ⟨new, hcompose, hnew⟩ := compose_eq hbase rows
    exact ⟨new, congrArg Prod.snd hcompose, hnew⟩

/-- A copy keeps what it was copied with when the registry that it was copied from is changed. -/
example :
    (run []
      [.new, .register 0 (.ofChar '#') .dispatch false, .copy 0,
        .register 0 (.ofChar '#') .quote true, .register 0 (.ofPair '#' 'V') .vector true,
        .register 1 (.ofPair '#' 'V') .vector true]).2.map
      (fun reg => (reg.dispatch (.ofChar '#'), reg.dispatch (.ofPair '#' 'v')))
      = [(some .quote, none), (some .dispatch, some .vector)] := by
  decide

end Registries

end Sigil
