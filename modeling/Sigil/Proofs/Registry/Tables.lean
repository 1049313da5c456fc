import Sigil.Registry.Basic

/-!
# Registries as two tables

A registry keeps the kind of a key and whether a character ends a token in one binding. `Tables`
keeps the two apart, as a table of kinds and a set of characters that only `register` relates to
it. Whatever is registered, copied and frozen, the tables are those of a registry
(`tables_written`), and every character that ends a token is bound (`bound_written`).
-/

namespace Sigil.Registry

variable {c : Char}

/-- The kinds of the keys and the characters that end a token. -/
structure Tables where
  kinds : Key → Option HandlerKind
  terminating : Char → Bool
  frozen : Bool

namespace Tables

def empty : Tables := ⟨fun _ => none, fun _ => false, false⟩

def bind (tables : Tables) (k : Key) (kind : HandlerKind) : Tables :=
  { tables with kinds := fun k' => if k = k' then some kind else tables.kinds k' }

/-- Whether the character `c` ends a token from now on. -/
def mark (tables : Tables) (c : Char) (terminating : Bool) : Tables :=
  { tables with
    terminating := fun c' => if c = c' then terminating else tables.terminating c' }

/-- Bind a trigger. Only a single character enters or leaves the characters that end a token. -/
def register (tables : Tables) (t : Trigger) (kind : HandlerKind) (terminating : Bool) :
    Except RegistryFault Tables :=
  if tables.frozen then .error (.frozen t)
  else match t.key with
    | .error f => .error (.trigger f)
    | .ok (.char c) => .ok ((tables.bind (.char c) kind).mark c terminating)
    | .ok (.pair lead sub) =>
      if tables.kinds (.char lead) = some .dispatch then .ok (tables.bind (.pair lead sub) kind)
      else .error (.notDispatching lead)

end Tables

inductive Write where
  | register (t : Trigger) (kind : HandlerKind) (terminating : Bool)
  | copy
  | freeze

/-- The registry after a write; a refused registration leaves it alone. -/
def write (reg : Registry) : Write → Registry
  | .register t kind terminating =>
    match reg.register t kind terminating with
    | .ok reg' => reg'
    | .error _ => reg
  | .copy => reg.copy
  | .freeze => reg.freeze

def written (writes : List Write) : Registry := writes.foldl write empty

namespace Tables

def write (tables : Tables) : Write → Tables
  | .register t kind terminating =>
    match tables.register t kind terminating with
    | .ok tables' => tables'
    | .error _ => tables
  | .copy => { tables with frozen := false }
  | .freeze => { tables with frozen := true }

def written (writes : List Write) : Tables := writes.foldl write empty

/-! ## Every character that ends a token is bound -/

def Bound (tables : Tables) : Prop :=
  ∀ c, tables.terminating c = true → (tables.kinds (.char c)).isSome = true

theorem Bound.bind {tables : Tables} (h : tables.Bound) (k : Key) (kind : HandlerKind) :
    (tables.bind k kind).Bound := by
  intro c hc
  simp only [Tables.bind]
  split
  · rfl
  · exact h c hc

theorem Bound.mark {tables : Tables} (h : tables.Bound) (terminating : Bool)
    (hc : (tables.kinds (.char c)).isSome = true) : (tables.mark c terminating).Bound := by
  intro d hd
  simp only [Tables.mark] at hd ⊢
  split at hd
  · next heq => exact heq ▸ hc
  · exact h d hd

theorem Bound.register {tables tables' : Tables} (h : tables.Bound) {t : Trigger}
    {kind : HandlerKind} {terminating : Bool}
    (hreg : tables.register t kind terminating = .ok tables') : tables'.Bound := by
  unfold Tables.register at hreg
  split at hreg
  · cases hreg
  · split at hreg
    · cases hreg
    · next c _ =>
      cases hreg
      exact (h.bind (.char c) kind).mark terminating (by simp [Tables.bind])
    · split at hreg
      · cases hreg
        exact h.bind _ kind
      · cases hreg

theorem Bound.write {tables : Tables} (h : tables.Bound) (w : Write) : (tables.write w).Bound := by
  cases w with
  | register t kind terminating =>
    simp only [Tables.write]
    split
    · next hreg => exact h.register hreg
    · exact h
  | copy | freeze => exact h

theorem bound_written (writes : List Write) : (Tables.written writes).Bound := by
  suffices ∀ tables : Tables, tables.Bound → (writes.foldl write tables).Bound from
    this empty fun _ h => nomatch h
  induction writes with
  | nil => exact fun _ h => h
  | cons w writes ih => exact fun tables h => ih (tables.write w) (h.write w)

end Tables

/-! ## The tables of a registry -/

/-- The two tables that a registry stands for. -/
def tables (reg : Registry) : Tables := ⟨reg.kindOf?, reg.isTerminating, reg.frozen⟩

section Put

variable {reg : Registry} {kind : HandlerKind} {terminating : Bool}

theorem kindOf?_put (k : Key) :
    kindOf? { reg with bindings := put ⟨k, kind, terminating⟩ reg.bindings }
      = (reg.tables.bind k kind).kinds := by
  funext k'
  simp only [kindOf?, find?, find?_put, Tables.bind, tables]
  split <;> rfl

theorem tables_put_char : tables { reg with
      bindings := put ⟨.char c, kind, terminating⟩ reg.bindings }
    = (reg.tables.bind (.char c) kind).mark c terminating := by
  have hterminating : isTerminating { reg with
        bindings := put ⟨.char c, kind, terminating⟩ reg.bindings }
      = (reg.tables.mark c terminating).terminating := by
    funext d
    simp only [isTerminating, find?, find?_put, Key.char.injEq, Tables.mark, tables]
    by_cases h : c = d <;> simp [h]
  rw [tables, hterminating, kindOf?_put]
  rfl

theorem tables_put_pair {lead : Char} {sub : String} : tables { reg with
      bindings := put ⟨.pair lead sub, kind, terminating⟩ reg.bindings }
    = reg.tables.bind (.pair lead sub) kind := by
  have hterminating : isTerminating { reg with
      bindings := put ⟨.pair lead sub, kind, terminating⟩ reg.bindings } = reg.isTerminating := by
    funext d
    simp only [isTerminating, find?, find?_put, reduceCtorEq, if_false]
  rw [tables, hterminating, kindOf?_put]
  rfl

end Put

/-- A registration changes the tables of a registry as it changes the two apart. -/
theorem tables_register (reg : Registry) (t : Trigger) (kind : HandlerKind) (terminating : Bool) :
    (reg.register t kind terminating).map tables = reg.tables.register t kind terminating := by
  have hlead : ∀ lead, reg.tables.kinds (.char lead) = reg.kindOf? (.char lead) := fun _ => rfl
  have hfrozen : reg.tables.frozen = reg.frozen := rfl
  simp only [Registry.register, Tables.register, hfrozen, hlead]
  split
  · rfl
  · cases t.key with
    | error f => rfl
    | ok k =>
      cases k with
      | char c => exact congrArg Except.ok tables_put_char
      | pair lead sub =>
        dsimp only
        split
        · exact congrArg Except.ok tables_put_pair
        · rfl

theorem tables_write (reg : Registry) (w : Write) : (reg.write w).tables = reg.tables.write w := by
  cases w with
  | register t kind terminating =>
    simp only [write, Tables.write, ← tables_register]
    cases reg.register t kind terminating <;> rfl
  | copy | freeze => rfl

/-- The tables that some writes make are those of the registry that they make. -/
theorem tables_written (writes : List Write) :
    (Registry.written writes).tables = Tables.written writes := by
  suffices ∀ reg : Registry,
      (writes.foldl Registry.write reg).tables =
        writes.foldl Tables.write reg.tables from this empty
  induction writes with
  | nil => exact fun _ => rfl
  | cons w writes ih =>
    intro reg
    rw [List.foldl_cons, List.foldl_cons, ih, tables_write]

end Sigil.Registry
