import Sigil.Session.Runner

/-!
# Loading the prelude

The prelude is a text that is joined from its lines. Reading it needs its characters only, which are
those of the lines, each with a line feed behind it (`Prelude.ofText_text`). A world that keeps its
forms serves a runner as well as one that has yet to read them (`Runner.handle_withPrelude`), so runs
of concrete scripts can start from a world that was given these forms.
-/

namespace Sigil

namespace Prelude

def chars : List Char := lines.flatMap fun line => line.toList ++ ['\n']

theorem toList_text : text.toList = chars := by
  have hline : ∀ line : String, (line ++ "\n").toList = line.toList ++ ['\n'] := fun _ =>
    String.toList_append
  simp only [text, String.toList_join, List.flatMap_map, hline, chars]

def cursor : Cursor := ⟨[], chars, .start⟩

theorem ofText_text : Cursor.ofText text = cursor := by
  rw [Cursor.ofText, toList_text, cursor]

/-- The default extensions read all of the prelude. -/
theorem readable : (Reader.readForms .extended cursor).fault = none := by decide +kernel

end Prelude

def World.withPrelude (w : World) (reading : Reader.Forms) : World :=
  { w.noted (reading.dispatched.map .dispatch) with
    heap := (w.heap.loadAll (reading.forms.map (·.1))).2
    prelude := some (w.heap.loadAll (reading.forms.map (·.1))).1 }

theorem World.heap_withPrelude (w : World) (reading : Reader.Forms) :
    (w.withPrelude reading).heap = (w.heap.loadAll (reading.forms.map (·.1))).2 := rfl

namespace Runner

variable {w : World} {reg : Registry} {reading : Reader.Forms} {forms : List Value}

theorem keepPrelude_of_read (h : reading.fault = none) :
    keepPrelude w reading
      = (.ok (w.heap.loadAll (reading.forms.map (·.1))).1, w.withPrelude reading) := by
  rw [keepPrelude, h]
  rfl

theorem preludeForms_of_prelude (h : w.prelude = some forms) :
    preludeForms w = (.ok forms, w) := by
  rw [preludeForms, h]

theorem preludeForms_eq_keepPrelude (hprelude : w.prelude = none) (hreg : w.registry = some reg) :
    preludeForms w = keepPrelude w (Reader.readForms reg Prelude.cursor) := by
  have hdefault : w.defaultRegistry = (.ok reg, w) := by rw [World.defaultRegistry, hreg]
  rw [← Prelude.ofText_text, preludeForms, hprelude, hdefault]

theorem preludeForms_of_registry (hprelude : w.prelude = none) (hreg : w.registry = some reg)
    (hread : Reader.readForms reg Prelude.cursor = reading) (h : reading.fault = none) :
    preludeForms w = preludeForms (w.withPrelude reading) := by
  rw [preludeForms_of_prelude (w := w.withPrelude reading) rfl, ← keepPrelude_of_read h, ← hread,
    preludeForms_eq_keepPrelude hprelude hreg]

/-- A script runs the same from a world that keeps the forms of the prelude already. -/
theorem handle_withPrelude {r : Runner} (hready : r.ready = false) (huses : r.usesPrelude = true)
    (hprelude : w.prelude = none) (hreg : w.registry = some reg)
    (hread : Reader.readForms reg Prelude.cursor = reading) (h : reading.fault = none)
    (source : String) : r.handle w source = r.handle (w.withPrelude reading) source := by
  have hprepare : ∀ r : Runner, r.ready = false → r.usesPrelude = true →
      r.prepare w = r.prepare (w.withPrelude reading) := by
    intro r hready huses
    unfold prepare
    rw [hready, huses, preludeForms_of_registry hprelude hreg hread h]
    rfl
  unfold handle attempt
  rw [hprepare { r with calls := [], effects := [] } hready huses]

end Runner

end Sigil
