import Sigil.Proofs.Registry.Lisp
import Sigil.Proofs.Registry.Pairs
import Sigil.Proofs.Registry.Tables

/-!
# Listed triggers

A registry lists its keys as triggers. Registering a trigger lowers the sub-character of a pair, and
a listed pair is lowered once more when it is named again. Lower case is its own lower case
(`lowercase_of_lowercase`), so a listed trigger names the key that it stands for. The one exception
is the capital I with a dot above: its lower case is two characters, and what the registry then lists
is no trigger at all (`key_ofKey`). Without it a registry lists triggers that it is asked for with, and
registering them again in a copy changes nothing (`relists_iff`).
-/

namespace Sigil

/-! ## Lower case -/

namespace Text

/-- The capital I with a dot above. -/
def dottedI : Char := Char.ofNat 0x130

theorem exists_lowercase {c : Char} (h : c ≠ dottedI) : ∃ d, lowercase c = [d] := by
  unfold lowercase
  split
  · exact ⟨_, rfl⟩
  · split
    · next hc => exact absurd (Char.toNat_inj.1 hc) h
    · exact ⟨_, rfl⟩

/-- No image of the run `r` is a source of the run `q`: the one lies before the other, or they are
evenly spaced and share no code point. For the sake of the kernel, the check takes no instances. -/
def CaseRun.misses (r q : CaseRun) : Bool :=
  Nat.blt q.last r.target || Nat.blt (r.target + (r.last - r.first)) q.first ||
    Nat.beq q.step 2 && (Nat.beq r.step 2 || Nat.beq r.first r.last)
      && Nat.beq ((r.target + q.first) % 2) 1

theorem CaseRun.not_source_of_misses {r q : CaseRun} {k : Nat} (h : r.misses q = true)
    (hk : k ≤ r.last - r.first) (hstep : k % r.step = 0) :
    (q.first ≤ r.target + k && r.target + k ≤ q.last
      && (r.target + k - q.first) % q.step == 0) = false := by
  simp only [misses, Bool.or_eq_true, Bool.and_eq_true, Nat.blt_eq, Nat.beq_eq] at h
  simp only [Bool.and_eq_false_iff, decide_eq_false_iff_not, beq_eq_false_iff_ne]
  rcases h with (h | h) | ⟨⟨hq, h⟩, hodd⟩
  · omega
  · omega
  · rw [hq]
    rcases h with h | h
    · rw [h] at hstep
      omega
    · omega

/-- The runs do not lead into each other. -/
theorem misses_lowerRuns : ∀ r ∈ lowerRuns, ∀ q ∈ lowerRuns, r.misses q = true := by
  have h : lowerRuns.all (fun r => lowerRuns.all r.misses) = true := by decide +kernel
  simpa using h

/-- The runs lead to characters, but not to the capital I with a dot above. -/
theorem targets_lowerRuns : ∀ r ∈ lowerRuns,
    (r.target + (r.last - r.first) < 0x130 ∨ 0x130 < r.target) ∧
    (r.target + (r.last - r.first) < 0xD800 ∨
      0xDFFF < r.target ∧ r.target + (r.last - r.first) < 0x110000) := by
  decide +kernel

/-- What a run leads to is the lower case of itself. -/
theorem lowercase_of_find? {n m : Nat} (hn : 0x80 ≤ n) (h : CaseRun.find? lowerRuns n = some m) :
    lowercase (Char.ofNat m) = [Char.ofNat m] := by
  rcases find?_lowerRuns hn h with hm | rfl
  · obtain ⟨r, hr, rfl⟩ := Option.map_eq_some_iff.1 h
    have hin := @List.find?_some _ _ r lowerRuns hr
    simp only [Bool.and_eq_true, decide_eq_true_eq, beq_iff_eq] at hin
    have hrun := List.mem_of_find?_eq_some hr
    obtain ⟨hdotted, hvalid⟩ := targets_lowerRuns r hrun
    have hnone : CaseRun.find? lowerRuns (r.target + (n - r.first)) = none := by
      rw [CaseRun.find?, Option.map_eq_none_iff, List.find?_eq_none]
      intro q hq
      rw [CaseRun.not_source_of_misses (misses_lowerRuns r hrun q hq) (by omega) hin.2]
      exact Bool.false_ne_true
    have hnat : (Char.ofNat (r.target + (n - r.first))).toNat = r.target + (n - r.first) := by
      refine congrArg Char.toNat (dif_pos ?_ : Char.ofNat _ = _)
      unfold Nat.isValidChar
      omega
    rw [lowercase, hnat, if_neg (by omega), if_neg (by omega), hnone]
    rfl
  · decide

theorem lowercase_of_lowercase {c d : Char} (h : lowercase c = [d]) : lowercase d = [d] := by
  by_cases hc : c.toNat < 0x80
  · have hascii : ∀ n < 0x80, lowercase (Char.ofNat n).toLower = [(Char.ofNat n).toLower] := by
      decide
    have hlower := hascii c.toNat hc
    rw [lowercase_of_ascii hc] at h
    cases h
    rwa [Char.ofNat_toNat] at hlower
  · have hself := h
    simp only [lowercase, hc, if_false] at h
    split at h
    · cases h
    · cases hrun : CaseRun.find? lowerRuns c.toNat with
      | none =>
        rw [hrun] at h
        cases h
        exact hself
      | some m =>
        rw [hrun] at h
        cases h
        exact lowercase_of_find? (Nat.not_lt.1 hc) hrun

end Text

/-! ## Listed keys -/

namespace Trigger

/-- A listed key is the key of its own trigger, unless it is lowered from the capital I with a dot
above. -/
theorem key_ofKey {t : Trigger} {k : Key} (h : t.key = .ok k)
    (hdotted : ∀ lead, k ≠ Key.ofPair lead Text.dottedI) : (ofKey k).key = .ok k := by
  cases k with
  | char c => exact key_ofChar c
  | pair lead sub =>
    obtain ⟨d, hd⟩ := exists_ofPair h
    obtain ⟨e, he⟩ : ∃ e, Text.lowercase d = [e] := by
      refine Text.exists_lowercase ?_
      rintro rfl
      exact hdotted lead hd.symm
    have hsub : ofKey (Key.ofPair lead d) = ofPair lead e := by
      rw [Key.ofPair, he]
      rfl
    rw [← hd, hsub, key_ofPair, Key.ofPair, Key.ofPair, he, Text.lowercase_of_lowercase he]

/-- What is listed for the capital I with a dot above is malformed. -/
theorem key_ofKey_dottedI (lead : Char) :
    (ofKey (Key.ofPair lead Text.dottedI)).key
      = .error (.notPair (ofKey (Key.ofPair lead Text.dottedI))) := by
  have htwo : Text.lowercase Text.dottedI = ['i', Char.ofNat 0x307] := by decide
  simp [ofKey, Key.ofPair, key, Plain.char?, htwo]

end Trigger

namespace Registry

variable {reg reg' : Registry} {b : Binding} {bs : List Binding} {kind : HandlerKind}
  {terminating : Bool} {t : Trigger}

/-! ## Bindings -/

theorem mem_put {x : Binding} (h : x ∈ put b bs) : x = b ∨ x ∈ bs := by
  induction bs with
  | nil => exact .inl (List.mem_singleton.1 h)
  | cons y bs ih =>
    rw [put] at h
    split at h
    · exact (List.mem_cons.1 h).imp_right (List.mem_cons_of_mem y)
    · rcases List.mem_cons.1 h with rfl | h
      · exact .inr List.mem_cons_self
      · exact (ih h).imp_right (List.mem_cons_of_mem y)

/-- Only a new key is put at the end. -/
theorem map_key_put : (put b bs).map (·.key) = if b.key ∈ bs.map (·.key) then bs.map (·.key)
    else bs.map (·.key) ++ [b.key] := by
  induction bs with
  | nil => rfl
  | cons y bs ih =>
    rw [put]
    by_cases hy : y.key = b.key
    · simp [hy]
    · have hne : b.key ≠ y.key := fun h => hy h.symm
      simp only [beq_eq_false_iff_ne.2 hy, Bool.false_eq_true, if_false, List.map_cons, ih,
        List.mem_cons, hne, false_or]
      split <;> simp

/-- A binding that is there already is put where it stands. -/
theorem put_eq_self (hdistinct : (bs.map (·.key)).Nodup) (hb : b ∈ bs) : put b bs = bs := by
  induction bs with
  | nil => cases hb
  | cons y bs ih =>
    rw [List.map_cons, List.nodup_cons] at hdistinct
    rw [put]
    rcases List.mem_cons.1 hb with rfl | hb
    · simp
    · have hne : y.key ≠ b.key := fun h => hdistinct.1 (h ▸ List.mem_map_of_mem hb)
      rw [if_neg (by simpa using hne), ih hdistinct.2 hb]

/-- The keys of a registry are different from each other, and each is the key of a trigger. -/
structure Kept (reg : Registry) : Prop where
  distinct : (reg.bindings.map (·.key)).Nodup
  named : ∀ b ∈ reg.bindings, ∃ t : Trigger, t.key = .ok b.key

theorem Kept.register (h : reg.Kept) (hreg : reg.register t kind terminating = .ok reg') :
    reg'.Kept := by
  obtain ⟨k, hkey, -, -, rfl⟩ := register_cases hreg
  constructor
  · rw [map_key_put]
    split
    · exact h.distinct
    · next hnew => exact List.nodup_append.2 ⟨h.distinct, by simp, by
        rintro x hx y hy rfl
        exact hnew (List.mem_singleton.1 hy ▸ hx)⟩
  · intro x hx
    rcases mem_put hx with rfl | hx
    · exact ⟨t, hkey⟩
    · exact h.named x hx

theorem Kept.write (h : reg.Kept) (w : Write) : (reg.write w).Kept := by
  cases w with
  | register t kind terminating =>
    simp only [Registry.write]
    split
    · next hreg => exact h.register hreg
    · exact h
  | copy | freeze => exact ⟨h.distinct, h.named⟩

theorem kept_written (writes : List Write) : (written writes).Kept :=
  List.foldlRecOn writes write ⟨List.nodup_nil, nofun⟩ fun _ h w _ => h.write w

theorem Kept.kindOf? (h : reg.Kept) (hb : b ∈ reg.bindings) : reg.kindOf? b.key = some b.kind := by
  have hfind : reg.find? b.key = some b := by
    have hput : reg.find? b.key = (put b reg.bindings).find? (·.key == b.key) := by
      rw [put_eq_self h.distinct hb]
      rfl
    rw [hput, find?_put, if_pos rfl]
  rw [Registry.kindOf?, hfind]
  rfl

/-! ## Registering listed triggers again -/

/-- The listed triggers registered again, each with the kind of its binding. -/
def relisting (reg : Registry) (ends : Binding → Bool) : List Write :=
  reg.bindings.map fun b => .register (.ofKey b.key) b.kind (ends b)

/-- A copy in which the listed triggers are registered again. -/
def relisted (reg : Registry) (ends : Binding → Bool) : Registry :=
  (reg.relisting ends).foldl write reg.copy

theorem Kept.key_ofKey (h : reg.Kept) (hb : b ∈ reg.bindings) :
    (Trigger.ofKey b.key).key = .ok b.key ∧ (∀ lead, b.key ≠ Key.ofPair lead Text.dottedI) ∨
      (∃ f, (Trigger.ofKey b.key).key = .error f) ∧ ∃ lead, b.key = Key.ofPair lead Text.dottedI := by
  by_cases hdotted : ∃ lead, b.key = Key.ofPair lead Text.dottedI
  · obtain ⟨lead, hlead⟩ := hdotted
    exact .inr ⟨⟨_, hlead ▸ Trigger.key_ofKey_dottedI lead⟩, lead, hlead⟩
  · have hdotted := not_exists.1 hdotted
    obtain ⟨t, ht⟩ := h.named b hb
    exact .inl ⟨Trigger.key_ofKey ht hdotted, hdotted⟩

/-- A trigger that names a key is put with its key, unless the registry is frozen or the key is a pair
whose lead does not dispatch. -/
theorem register_of_key {k : Key} (hkey : t.key = .ok k) (reg : Registry) (kind : HandlerKind)
    (terminating : Bool) :
    reg.frozen = true ∧ reg.register t kind terminating = .error (.frozen t) ∨
      reg.register t kind terminating
        = .ok { reg with bindings := put ⟨k, kind, terminating⟩ reg.bindings } ∨
      ∃ lead sub, k = .pair lead sub ∧ reg.kindOf? (.char lead) ≠ some .dispatch ∧
        reg.register t kind terminating = .error (.notDispatching lead) := by
  unfold Registry.register
  rw [hkey]
  by_cases hfrozen : reg.frozen = true
  · exact .inl ⟨hfrozen, if_pos hfrozen⟩
  · simp only [hfrozen, Bool.false_eq_true, if_false]
    cases k with
    | char c => exact .inr (.inl rfl)
    | pair lead sub =>
      by_cases hlead : reg.kindOf? (.char lead) = some .dispatch
      · exact .inr (.inl (if_pos hlead))
      · exact .inr (.inr ⟨lead, sub, rfl, hlead, if_neg hlead⟩)

/-- Registering a listed trigger again is refused, or puts a binding of its key. -/
theorem Kept.write_listed (h : reg.Kept) (hb : b ∈ reg.bindings) (other : Registry) :
    other.write (.register (.ofKey b.key) kind terminating) = other ∨
      other.write (.register (.ofKey b.key) kind terminating)
        = { other with bindings := put ⟨b.key, kind, terminating⟩ other.bindings } := by
  rw [Registry.write]
  split
  · next hreg =>
    obtain ⟨k, hkey, -, -, rfl⟩ := register_cases hreg
    rcases h.key_ofKey hb with ⟨hself, -⟩ | ⟨⟨f, hf⟩, -⟩
    · cases hself.symm.trans hkey
      exact .inr rfl
    · cases hf.symm.trans hkey
  · exact .inl rfl

/-- As they are, the listed triggers change nothing. -/
theorem Kept.relisted_eq_copy (h : reg.Kept) : reg.relisted (·.terminating) = reg.copy := by
  unfold relisted
  refine List.foldlRecOn _ Registry.write (motive := (· = reg.copy)) rfl ?_
  rintro _ rfl w hw
  obtain ⟨b, hb, rfl⟩ := List.mem_map.1 hw
  rcases h.write_listed hb reg.copy with hsame | hput
  · exact hsame
  · have hself : put b reg.copy.bindings = reg.copy.bindings := put_eq_self h.distinct hb
    rw [hput, hself]

/-- Whatever is to end a token, the listed triggers keep their places and their kinds. -/
theorem Kept.relisted_kinds (h : reg.Kept) (ends : Binding → Bool) :
    (reg.relisted ends).bindings.map (·.key) = reg.bindings.map (·.key) ∧
      ∀ k, (reg.relisted ends).kindOf? k = reg.kindOf? k := by
  unfold relisted
  refine List.foldlRecOn _ Registry.write (motive := fun other =>
    other.bindings.map (·.key) = reg.bindings.map (·.key) ∧
      ∀ k, other.kindOf? k = reg.kindOf? k) ⟨rfl, kindOf?_copy reg⟩ ?_
  rintro other ⟨hkeys, hkinds⟩ w hw
  obtain ⟨b, hb, rfl⟩ := List.mem_map.1 hw
  rcases h.write_listed hb other with hsame | hput
  · rw [hsame]
    exact ⟨hkeys, hkinds⟩
  · rw [hput]
    constructor
    · rw [map_key_put, hkeys, if_pos (List.mem_map_of_mem hb)]
    · intro k
      rw [kindOf?_put]
      simp only [Tables.bind, tables]
      split
      · next heq => rw [← heq, h.kindOf? hb]
      · exact hkinds k

/-! ## Listed triggers -/

/-- The trigger that is listed for a binding is contained in the registry with the kind of the
binding, and no registry refuses it as malformed. A copy accepts it again and stays as it is, unless it
is a pair whose lead was bound to something else meanwhile. -/
structure Usable (reg : Registry) (b : Binding) : Prop where
  dispatch : reg.dispatch (.ofKey b.key) = some b.kind
  wellFormed : ∀ (other : Registry) kind terminating f,
    other.register (.ofKey b.key) kind terminating ≠ .error (.trigger f)
  again : (∀ lead sub, b.key = .pair lead sub → reg.kindOf? (.char lead) = some .dispatch) →
    reg.copy.register (.ofKey b.key) b.kind b.terminating = .ok reg.copy

/-- Every trigger that a registry lists is usable. Registered again in a copy as they are, the listed
triggers change nothing; and whatever is to end a token then, the copy lists the same triggers and
dispatches alike. -/
structure Relists (reg : Registry) : Prop where
  usable : ∀ b ∈ reg.bindings, reg.Usable b
  same : reg.relisted (·.terminating) = reg.copy
  kinds : ∀ ends, (reg.relisted ends).keys = reg.keys ∧
    ∀ t, (reg.relisted ends).dispatch t = reg.dispatch t

theorem Kept.usable_iff (h : reg.Kept) (hb : b ∈ reg.bindings) :
    reg.Usable b ↔ ∀ lead, b.key ≠ Key.ofPair lead Text.dottedI := by
  rcases h.key_ofKey hb with ⟨hkey, hne⟩ | ⟨⟨f, hf⟩, lead, hlead⟩
  · refine iff_of_true ⟨?_, ?_, ?_⟩ hne
    · rw [Registry.dispatch, hkey]
      exact h.kindOf? hb
    · intro other kind terminating f hrefused
      rcases register_of_key hkey other kind terminating with
          ⟨-, hreg⟩ | hreg | ⟨_, _, -, -, hreg⟩ <;>
        cases hreg.symm.trans hrefused
    · intro hled
      have hself : put b reg.copy.bindings = reg.copy.bindings := put_eq_self h.distinct hb
      rcases register_of_key hkey reg.copy b.kind b.terminating with
        ⟨hfrozen, -⟩ | hreg | ⟨lead, sub, hpair, hlead, -⟩
      · cases hfrozen
      · rw [hreg, hself]
      · exact absurd (hled lead sub hpair) hlead
  · refine iff_of_false (fun husable => ?_) fun hne => hne lead hlead
    have hdispatch := husable.dispatch
    rw [Registry.dispatch, hf] at hdispatch
    cases hdispatch

/-- Whatever was registered, copied and frozen: a listed trigger is usable unless it is a pair with
the capital I with a dot above, so a registry can be made again from what it lists exactly when
it binds no such pair. -/
theorem relists_iff (writes : List Write) :
    let reg := written writes
    (∀ b ∈ reg.bindings, reg.Usable b ↔ ∀ lead, b.key ≠ Key.ofPair lead Text.dottedI) ∧
      (reg.Relists ↔ ∀ lead, reg.kindOf? (Key.ofPair lead Text.dottedI) = none) := by
  intro reg
  have h : reg.Kept := kept_written writes
  refine ⟨fun b hb => h.usable_iff hb, fun hlists lead => ?_, fun hnone => ?_⟩
  · cases hkind : reg.kindOf? (Key.ofPair lead Text.dottedI) with
    | none => rfl
    | some kind =>
      obtain ⟨b, hb, hkey, -⟩ := exists_binding hkind
      exact absurd hkey ((h.usable_iff hb).1 (hlists.usable b hb) lead)
  · refine ⟨fun b hb => (h.usable_iff hb).2 fun lead hkey => ?_, h.relisted_eq_copy,
      fun ends => ⟨?_, fun t => ?_⟩⟩
    · have hbound := h.kindOf? hb
      rw [hkey, hnone lead] at hbound
      cases hbound
    · have hkeys := congrArg (List.map Trigger.ofKey) (h.relisted_kinds ends).1
      rw [List.map_map, List.map_map] at hkeys
      exact hkeys
    · unfold Registry.dispatch
      cases t.key with
      | ok k => exact (h.relisted_kinds ends).2 k
      | error f => rfl

/-- A pair with the capital I with a dot above is listed as a trigger that is not bound. -/
theorem not_relists_dottedI : ¬ (written
    [.register (.ofChar '#') .dispatch false,
      .register (.ofPair '#' Text.dottedI) .vector true]).Relists := by
  intro h
  have hdispatch := (h.usable ⟨Key.ofPair '#' Text.dottedI, .vector, true⟩ (by decide)).dispatch
  rw [Registry.dispatch, Trigger.key_ofKey_dottedI] at hdispatch
  cases hdispatch

end Registry

end Sigil
