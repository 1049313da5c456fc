import Sigil.Proofs.Reader.Agreement
import Sigil.Proofs.Registry.Tables

/-!
# Reading makes progress

A form or comment takes at least one character whatever the registry binds, because a character
that starts a token does not end it: a character that ends a token is bound. So the calls of the
descent, which recur on the characters to come, end on every text, and they read what the machine
reads (`progressive_written`).
-/

namespace Sigil

namespace Cursor

variable {cur rest : Cursor}

theorem Reaches.text (h : cur.Reaches rest) : rest.text = cur.text := by
  obtain ⟨n, rfl⟩ := h
  exact text_skip cur n

/-- Where fewer characters are to come, more were read. -/
theorem Reaches.pos_lt (h : cur.Reaches rest) (hlt : rest.after.length < cur.after.length) :
    cur.pos < rest.pos := by
  have hcur := pos_add_length_after cur
  have hrest := pos_add_length_after rest
  rw [h.text] at hrest
  omega

end Cursor

namespace Reader

variable {reg : Registry}

/-- Whatever is read with the registry, it takes characters. -/
structure Progressive (reg : Registry) : Prop where
  /-- A character that ends a token is bound. -/
  bound : ∀ c, reg.isTerminating c = true → ∃ kind, reg.kindOf? (.char c) = some kind
  /-- The token of an atom is not empty. -/
  token : ∀ before c cs place, Text.isBlank c = false → reg.kindOf? (.char c) = none →
    (readToken reg ⟨before, c :: cs, place⟩).1 ≠ ""
  /-- A form or comment takes its first character, and stops in the text. -/
  once : ∀ before c cs place hblank,
    let cur : Cursor := ⟨before, c :: cs, place⟩
    let rest := (Descent.once reg before c cs place hblank).rest
    cur.pos < rest.pos ∧ rest.pos ≤ cur.text.length ∧ rest.text = cur.text
  /-- The search for a form is at the end of the text, or takes a character. -/
  next : ∀ cur,
    let o := Descent.next reg cur
    (cur.atEnd = true ∧ o.result = .ok none ∧ o.rest = cur ∨
      cur.pos < o.rest.pos ∧ o.rest.pos ≤ cur.text.length) ∧ o.rest.text = cur.text
  /-- The descent finds the forms that the machine reads. -/
  read : ∀ cur, read reg cur = (Descent.next reg cur).reading
  readAll : ∀ text, readAll reg text = Descent.all reg (.ofText text)

theorem progressive (reg : Registry) : Progressive reg where
  bound c hc := by
    obtain ⟨b, hb⟩ := Registry.find?_of_isTerminating hc
    exact ⟨b.kind, by rw [Registry.kindOf?, hb]; rfl⟩
  token before c cs place hblank hkind := by
    rw [Descent.readToken_cons (Descent.endsToken_of_unbound hblank hkind)]
    intro h
    have hnil := congrArg String.toList h
    rw [String.toList_ofList] at hnil
    cases hnil
  once before c cs place hblank := by
    have hreached := (Descent.once reg before c cs place hblank).reached
    have hcur := (Cursor.Reaches.cons before cs c place).trans hreached
    have hlt : (Descent.once reg before c cs place hblank).rest.after.length < cs.length + 1 :=
      Nat.lt_succ_of_le hreached.length_le
    exact ⟨hcur.pos_lt hlt, hcur.text ▸ Cursor.pos_le _, hcur.text⟩
  next cur := by
    have hreached := (Descent.next reg cur).reached
    refine ⟨?_, hreached.text⟩
    by_cases hend : cur.after = []
    · obtain ⟨before, after, place⟩ := cur
      obtain rfl : after = [] := hend
      left
      rw [Descent.next]
      exact ⟨rfl, rfl, rfl⟩
    · right
      exact ⟨hreached.pos_lt (Descent.after_lt_of_next hend), hreached.text ▸ Cursor.pos_le _⟩
  read := Descent.read_eq_next reg
  readAll := Descent.readAll_eq_all reg

/-- Whatever was registered, copied and frozen, starting with an empty registry: every character
that ends a token is bound, and reading makes progress. -/
theorem progressive_written (writes : List Registry.Write) :
    (Registry.written writes).tables = Registry.Tables.written writes ∧
      (Registry.Tables.written writes).Bound ∧ Progressive (Registry.written writes) :=
  ⟨Registry.tables_written writes, Registry.Tables.bound_written writes, progressive _⟩

end Reader

end Sigil
