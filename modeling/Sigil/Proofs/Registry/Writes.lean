import Sigil.Registry.Readtable

/-!
# What registrations leave alone

A registration that is accepted changes the binding of one key (`find?_register`), so the rows of
a readtable change nothing but the keys that they name (`find?_extend`). Rows that name only free
keys leave every binding as it was (`extends_of_free`).
-/

namespace Sigil

variable {base ext reg reg' : Registry} {t : Trigger} {kind : HandlerKind} {terminating : Bool}
  {k : Key} {rows : List Row}

namespace Registry

/-- What an accepted registration has checked and what it puts into the registry. -/
theorem register_cases (h : reg.register t kind terminating = .ok reg') :
    ∃ k, t.key = .ok k ∧ reg.frozen = false ∧
      (∀ lead sub, k = .pair lead sub → reg.kindOf? (.char lead) = some .dispatch) ∧
      reg' = { reg with bindings := put ⟨k, kind, terminating⟩ reg.bindings } := by
  unfold register at h
  split at h
  · cases h
  · next hfrozen =>
    have hopen : reg.frozen = false := Bool.not_eq_true _ ▸ hfrozen
    split at h
    · cases h
    · next c hkey =>
      cases h
      exact ⟨.char c, hkey, hopen, nofun, rfl⟩
    · next lead sub hkey =>
      split at h
      · next hlead =>
        cases h
        refine ⟨.pair lead sub, hkey, hopen, ?_, rfl⟩
        rintro _ _ ⟨⟩
        exact hlead
      · cases h

/-- An accepted registration binds its key and leaves the others alone. -/
theorem find?_register (h : reg.register t kind terminating = .ok reg') :
    ∃ k', t.key = .ok k' ∧
      ∀ k, reg'.find? k = if k' = k then some ⟨k', kind, terminating⟩ else reg.find? k := by
  obtain ⟨k', hkey, -, -, rfl⟩ := register_cases h
  exact ⟨k', hkey, find?_put ⟨k', kind, terminating⟩ reg.bindings⟩

/-- Every binding of `base` is one of `ext`. -/
def Extends (ext base : Registry) : Prop :=
  ∀ k b, base.find? k = some b → ext.find? k = some b

theorem Extends.kindOf? (h : ext.Extends base) (hk : base.kindOf? k = some kind) :
    ext.kindOf? k = some kind := by
  obtain ⟨b, hb, rfl⟩ := Option.map_eq_some_iff.1 hk
  rw [Registry.kindOf?, h k b hb]
  rfl

end Registry

namespace Readtable

/-- The rows name only keys that `base` leaves free. -/
def Free (base : Registry) (rows : List Row) : Prop :=
  ∀ row ∈ rows, ∀ k, row.trigger.key = .ok k → base.kindOf? k = none

theorem find?_apply (h : apply reg rows = .ok reg')
    (hk : ∀ row ∈ rows, row.trigger.key ≠ .ok k) : reg'.find? k = reg.find? k := by
  induction rows generalizing reg with
  | nil => cases h; rfl
  | cons row rows ih =>
    rw [List.forall_mem_cons] at hk
    rw [apply] at h
    cases hreg : reg.register row.trigger row.kind row.terminating with
    | error f => rw [hreg] at h; cases h
    | ok next =>
      rw [hreg] at h
      obtain ⟨k', hkey, hfind⟩ := Registry.find?_register hreg
      have hne : k' ≠ k := fun heq => hk.1 (heq ▸ hkey)
      rw [ih h hk.2, hfind, if_neg hne]

theorem find?_extend (h : extend base rows = .ok ext)
    (hk : ∀ row ∈ rows, row.trigger.key ≠ .ok k) : ext.find? k = base.find? k := by
  unfold extend at h
  cases happly : apply base.copy rows with
  | error f => rw [happly] at h; cases h
  | ok reg =>
    rw [happly] at h
    cases h
    have hfind : reg.find? k = base.copy.find? k := find?_apply happly hk
    exact hfind

/-- Rows that name only free keys leave every binding as it was. -/
theorem extends_of_free (h : extend base rows = .ok ext) (hfree : Free base rows) :
    ext.Extends base := by
  intro k b hb
  rw [find?_extend h, hb]
  intro row hrow hkey
  have hnone : base.kindOf? k = none := hfree row hrow k hkey
  rw [Registry.kindOf?, hb] at hnone
  cases hnone

end Readtable

end Sigil
