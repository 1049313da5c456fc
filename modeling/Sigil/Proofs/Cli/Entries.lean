import Sigil.Cli.Repl
import Sigil.Proofs.Session.Behind
import Sigil.Proofs.Session.Loading

/-!
# The entries of an interactive session

Input divides into entries by its lines and the registry alone (`divide`): a blank line before an
entry is skipped, the line that ends the loop ends the division, and an entry goes on for as long as
it is incomplete (`Divides`). The loop runs these entries one after the other, each of them once
(`submitted_session`). What comes of an entry has no part in this, unless there are no words for it:
that ends the loop (`Console.speechless`), and the lines behind it are never looked at.
-/

namespace Sigil

/-! ## The registry of a runner -/

namespace Runner

variable {r : Runner} {w : World}

theorem registry_run {α : Type} (r : Runner) (w : World) (x : Eval α) :
    (r.run w x).2.1.registry = r.registry := by
  unfold run
  split <;> rfl

theorem registry_prepare (r : Runner) (w : World) : (r.prepare w).2.1.registry = r.registry := by
  unfold prepare
  split
  · rfl
  · split
    · rfl
    · next forms w₁ _ =>
      have hrun := registry_run r w₁ ((Interp.ofDepth Eval.depthLimit).body r.root forms)
      split <;> next heq => rw [heq] at hrun; exact hrun

theorem registry_runForms (r : Runner) (w : World) (v : Value) (last : Option Location)
    (cur : Cursor) : (r.runForms w v last cur).2.1.registry = r.registry := by
  cases hfound : (Reader.read r.registry cur).found with
  | nothing => rw [runForms_of_nothing hfound]
  | failure f place => rw [runForms_of_failure hfound]
  | form e start =>
    have hlt : (Reader.read r.registry cur).rest.after.length < cur.after.length :=
      Reader.after_lt_of_read_form hfound
    rw [runForms_of_form hfound]
    have hrun : ∀ w, (r.evaluate w e).2.1.registry = r.registry := fun w => registry_run _ _ _
    split
    · next u s w₁ heq =>
      have hs : s.registry = r.registry := by rw [← hrun, heq]
      exact (registry_runForms s w₁ u (some start) (Reader.read r.registry cur).rest).trans hs
    · next f s w₁ heq => rw [← hrun, heq]
termination_by cur.after.length

theorem registry_handle (r : Runner) (w : World) (source : String) :
    (r.handle w source).2.1.registry = r.registry := by
  have hattempt : (r.attempt w source).2.1.registry = r.registry := by
    have hprepare := registry_prepare { r with calls := [], effects := [] } w
    unfold attempt
    split
    · next heq => rw [heq] at hprepare; exact hprepare
    · next s w₁ heq =>
      rw [heq] at hprepare
      exact (registry_runForms s w₁ .nil none (.ofText source)).trans hprepare
  unfold handle
  split
  · next heq => rw [heq] at hattempt; exact hattempt
  · next heq =>
    rw [heq] at hattempt
    split <;> exact hattempt

end Runner

namespace Cli

/-! ## Lines and entries -/

def text (lines : List String) : String := String.intercalate "\n" lines

def linesOf (text : String) : List String := (text.toList.splitOn '\n').map String.ofList

theorem linesOf_text {lines : List String} (hne : lines ≠ [])
    (hfeed : ∀ line ∈ lines, '\n' ∉ line.toList) : linesOf (text lines) = lines := by
  have hnot : ∀ l ∈ lines.map String.toList, '\n' ∉ l := by
    simpa only [List.forall_mem_map] using hfeed
  have hmap : lines.map String.toList ≠ [] := by simpa using hne
  have hsplit : (text lines).toList.splitOn '\n' = lines.map String.toList := by
    rw [text, String.toList_intercalate]
    exact List.splitOn_intercalate '\n' hnot hmap
  rw [linesOf, hsplit, List.map_map]
  exact (List.map_congr_left fun line _ => String.ofList_toList).trans (List.map_id' lines)

/-- How an entry ends. -/
inductive Fate where
  /-- Nothing is missing. -/
  | complete
  /-- The input ends. -/
  | cut
  /-- The limit on digits leaves no answer to whether something is missing. -/
  | unreadable
  deriving DecidableEq

/-- The lines of an entry, and how it ends. -/
structure Block where
  lines : List String
  fate : Fate
  deriving DecidableEq

def Block.isRun (b : Block) : Bool := b.fate != .unreadable

/-- The first line of an entry is not blank and does not end the loop. -/
def Begins (lines : List String) : Prop :=
  ∃ line rest, lines = line :: rest ∧ Repl.isBlankLine line = false ∧ Repl.isExit line = false

/-- Something is missing behind every one of the first lines, up to a line before the last one. -/
def OpenBefore (reg : Registry) (lines : List String) : Prop :=
  ∀ p, p ≠ [] → p <+: lines → p ≠ lines → Reader.isIncomplete reg (text p) = .ok true

/-- How input divides into entries. -/
inductive Divides (reg : Registry) : List String → List Block → Prop
  | done : Divides reg [] []
  | blank {line : String} {rest : List String} {blocks : List Block}
      (isBlank : Repl.isBlankLine line = true) (others : Divides reg rest blocks) :
      Divides reg (line :: rest) blocks
  | exit {line : String} {rest : List String} (notBlank : Repl.isBlankLine line = false)
      (isExit : Repl.isExit line = true) : Divides reg (line :: rest) []
  | complete {lines rest : List String} {blocks : List Block} (begins : Begins lines)
      (before : OpenBefore reg lines)
      (complete : Reader.isIncomplete reg (text lines) = .ok false)
      (others : Divides reg rest blocks) : Divides reg (lines ++ rest) (⟨lines, .complete⟩ :: blocks)
  | unreadable {lines rest : List String} {blocks : List Block} {f : ReadFault}
      (begins : Begins lines) (before : OpenBefore reg lines)
      (fault : Reader.isIncomplete reg (text lines) = .error f)
      (others : Divides reg rest blocks) :
      Divides reg (lines ++ rest) (⟨lines, .unreadable⟩ :: blocks)
  | cut {lines : List String} (begins : Begins lines) (before : OpenBefore reg lines)
      (incomplete : Reader.isIncomplete reg (text lines) = .ok true) :
      Divides reg lines [⟨lines, .cut⟩]

/-- The entries of input behind the first lines of an open entry. -/
def divide (reg : Registry) (entry : List String) : List String → List Block
  | [] => if entry.isEmpty then [] else [⟨entry, .cut⟩]
  | line :: rest =>
    if entry.isEmpty && Repl.isBlankLine line then divide reg [] rest
    else if entry.isEmpty && Repl.isExit line then []
    else match Reader.isIncomplete reg (text (entry ++ [line])) with
      | .ok true => divide reg (entry ++ [line]) rest
      | .ok false => ⟨entry ++ [line], .complete⟩ :: divide reg [] rest
      | .error _ => ⟨entry ++ [line], .unreadable⟩ :: divide reg [] rest

/-- Lines that begin an entry, behind which something is missing wherever one stops. -/
structure Open (reg : Registry) (lines : List String) : Prop where
  begins : Begins lines
  before : OpenBefore reg lines
  incomplete : Reader.isIncomplete reg (text lines) = .ok true

variable {reg : Registry} {line : String} {lines rest : List String} {blocks : List Block}

theorem begins_append {entry : List String} (h : entry = [] ∨ Open reg entry)
    (hblank : entry = [] → Repl.isBlankLine line = false)
    (hexit : entry = [] → Repl.isExit line = false) : Begins (entry ++ [line]) := by
  rcases h with rfl | h
  · exact ⟨line, [], rfl, hblank rfl, hexit rfl⟩
  · obtain ⟨first, others, rfl, hfirst⟩ := h.begins
    exact ⟨first, others ++ [line], rfl, hfirst⟩

theorem openBefore_append {entry : List String} (h : entry = [] ∨ Open reg entry) :
    OpenBefore reg (entry ++ [line]) := by
  intro p hne hp hproper
  have hpre : p <+: entry := (List.prefix_concat_iff.1 hp).resolve_left hproper
  rcases h with rfl | h
  · exact absurd (List.prefix_nil.1 hpre) hne
  · by_cases heq : p = entry
    · exact heq ▸ h.incomplete
    · exact h.before p hne hpre heq

/-- The entries of input are a division of it. -/
theorem divides_append (lines : List String) : ∀ {entry : List String},
    entry = [] ∨ Open reg entry → Divides reg (entry ++ lines) (divide reg entry lines) := by
  induction lines with
  | nil =>
    rintro entry (rfl | h)
    · exact .done
    · obtain ⟨first, others, rfl, -⟩ := h.begins
      rw [List.append_nil]
      exact .cut h.begins h.before h.incomplete
  | cons line rest ih =>
    intro entry h
    rw [divide]
    split
    · next hblank =>
      rw [Bool.and_eq_true, List.isEmpty_iff] at hblank
      obtain ⟨rfl, hblank⟩ := hblank
      exact .blank hblank (ih (.inl rfl))
    · next hblank =>
      split
      · next hexit =>
        rw [Bool.and_eq_true, List.isEmpty_iff] at hexit
        obtain ⟨rfl, hexit⟩ := hexit
        exact .exit (by simpa using hblank) hexit
      · next hexit =>
        have hbegins : Begins (entry ++ [line]) := by
          refine begins_append h (fun he => ?_) fun he => ?_
          · simpa [he] using hblank
          · simpa [he] using hexit
        have hbefore : OpenBefore reg (entry ++ [line]) := openBefore_append h
        rw [show entry ++ line :: rest = (entry ++ [line]) ++ rest by simp]
        split
        · next hread => exact ih (.inr ⟨hbegins, hbefore, hread⟩)
        · next hread => exact .complete hbegins hbefore hread (ih (.inl rfl))
        · next hread => exact .unreadable hbegins hbefore hread (ih (.inl rfl))

theorem divides_divide (reg : Registry) (lines : List String) :
    Divides reg lines (divide reg [] lines) :=
  divides_append lines (.inl rfl)

theorem Divides.mem (h : Divides reg lines blocks) : ∀ b ∈ blocks, ∀ l ∈ b.lines, l ∈ lines := by
  induction h with
  | done | exit => nofun
  | blank _ _ ih => exact fun b hb l hl => List.mem_cons_of_mem _ (ih b hb l hl)
  | complete _ _ _ _ ih | unreadable _ _ _ _ ih =>
    intro b hb l hl
    rw [List.mem_append]
    rcases List.mem_cons.1 hb with rfl | hb
    · exact .inl hl
    · exact .inr (ih b hb l hl)
  | cut =>
    intro b hb l hl
    rw [List.mem_singleton.1 hb] at hl
    exact hl

theorem Divides.ne_nil (h : Divides reg lines blocks) : ∀ b ∈ blocks, b.lines ≠ [] := by
  have hbegins : ∀ {lines}, Begins lines → lines ≠ [] := by
    rintro _ ⟨_, _, rfl, -⟩
    exact List.cons_ne_nil _ _
  induction h with
  | done | exit => nofun
  | blank _ _ ih => exact ih
  | complete hb _ _ _ ih | unreadable hb _ _ _ ih =>
    exact List.forall_mem_cons.2 ⟨hbegins hb, ih⟩
  | cut hb => exact List.forall_mem_singleton.2 (hbegins hb)

/-! ## Consoles that run entries -/

namespace Console

def quiet (c : Console) : Console := { c with world := c.world.quiet }

def after (c : Console) (source : String) : Console := (c.handle source).2.2

/-- The source leaves a fault for which there are no words: it has no outcome, or a value that
cannot be printed, and the complaint about that cannot be printed either. -/
def speechless (c : Console) (source : String) : Bool :=
  match c.handle source with
  | (_, .error f, _) => !(EvalFault.ofPrint f).message.isOk
  | (_, .ok (.failure _ _), _) => false
  | (_, .ok (.success v), c) => match c.world.heap.print v with
    | .ok _ => false
    | .error f => !(EvalFault.ofPrint f).message.isOk

/-- The sources up to the first one that leaves a fault without words. -/
def answered (c : Console) : List String → List String
  | [] => []
  | source :: sources =>
    source :: if c.speechless source then [] else answered (c.after source) sources

variable {c : Console} {source : String} {sources : List String}

theorem quiet_after (c : Console) (source : String) : (c.after source).quiet = c.after source := rfl

theorem registry_after (c : Console) (source : String) :
    (c.after source).runner.registry = c.runner.registry :=
  c.runner.registry_handle c.world source

/-- All sources are run exactly when none before the last one leaves a fault without words. -/
theorem answered_eq_iff : c.answered sources = sources ↔
    ∀ before source after, sources = before ++ source :: after → after ≠ [] →
      (before.foldl Console.after c).speechless source = false := by
  induction sources generalizing c with
  | nil =>
    refine iff_of_true rfl fun before source after heq => ?_
    cases before <;> cases heq
  | cons first others ih =>
    rw [answered, List.cons.injEq, eq_self_iff_true, true_and]
    cases hfirst : c.speechless first with
    | true =>
      rw [if_pos rfl]
      constructor
      · rintro rfl before source after heq hafter
        cases before with
        | nil => cases heq; exact absurd rfl hafter
        | cons _ before => cases before <;> cases heq
      · intro h
        by_contra hne
        have hspeaks := h [] first others rfl (Ne.symm hne)
        rw [List.foldl_nil, hfirst] at hspeaks
        cases hspeaks
    | false =>
      rw [if_neg Bool.false_ne_true, ih]
      constructor
      · intro h before source after heq hafter
        cases before with
        | nil => cases heq; exact hfirst
        | cons _ before => cases heq; exact h before source after rfl hafter
      · rintro h before source after rfl hafter
        exact h (first :: before) source after rfl hafter

def initial : Console :=
  let (runner, world) :=
    Runner.create { World.initial with registry := some .extended } .extended true
  ⟨world, runner, false⟩

theorem start_bundled : (start false (.ok Readtable.bundled) none).2 = .ok initial := rfl

/-- A console that keeps the forms of the prelude. -/
def withPrelude (c : Console) (reading : Reader.Forms) : Console :=
  { c with world := c.world.withPrelude reading }

theorem speechless_withPrelude {reg : Registry} {reading : Reader.Forms}
    (hready : c.runner.ready = false) (huses : c.runner.usesPrelude = true)
    (hprelude : c.world.prelude = none) (hreg : c.world.registry = some reg)
    (hread : Reader.readForms reg Prelude.cursor = reading) (h : reading.fault = none) :
    c.speechless source = (c.withPrelude reading).speechless source := by
  have hhandle : (c.withPrelude reading).handle source = c.handle source := by
    unfold handle
    rw [Runner.handle_withPrelude hready huses hprelude hreg hread h source]
    rfl
  unfold speechless
  rw [hhandle]

end Console

/-! ## The loop -/

namespace Repl

/-- The source that an input makes the loop run. -/
def runs? (r : Repl) : Option String → Option String
  | none => if r.entry.isEmpty then none else some (source r.entry)
  | some line =>
    if r.entry.isEmpty && (isBlankLine line || isExit line) then none
    else match Reader.isIncomplete r.console.runner.registry (source (line :: r.entry)) with
      | .ok false => some (source (line :: r.entry))
      | _ => none

/-- The sources that the loop runs while it takes inputs, until it ends. -/
def submitted (r : Repl) : List (Option String) → List String
  | [] => []
  | input :: inputs =>
    if r.ending.isSome then []
    else (r.runs? input).toList ++ submitted (r.feed input).2 inputs

/-- The inputs of a session. The end of the input may come twice. -/
def inputs (lines : List String) : List (Option String) := lines.map some ++ [none, none]

def feeds (r : Repl) (inputs : List (Option String)) : Repl :=
  inputs.foldl (fun r input => (r.feed input).2) r

theorem session_eq_feeds (r : Repl) (lines : List String) :
    (r.session lines).2 = r.feeds (inputs lines) := by
  have hlines : ∀ r : Repl, (r.feedAll lines).2 = r.feeds (lines.map some) := by
    induction lines with
    | nil => exact fun _ => rfl
    | cons line lines ih => exact fun r => ih (r.feed (some line)).2
  simp only [session, inputs, feeds, List.foldl_append, hlines]
  rfl

theorem feeds_of_ending {r : Repl} (h : r.ending.isSome = true) (is : List (Option String)) :
    r.feeds is = r ∧ r.submitted is = [] := by
  have hfeed : ∀ input, (r.feed input).2 = r := fun input => by rw [feed, if_pos h]
  cases is with
  | nil => exact ⟨rfl, rfl⟩
  | cons i is =>
    refine ⟨?_, by rw [submitted, if_pos h]⟩
    have hall : ∀ is : List (Option String), r.feeds is = r := by
      intro is
      induction is with
      | nil => rfl
      | cons i is ih => rw [feeds, List.foldl_cons, hfeed]; exact ih
    exact hall (i :: is)

/-! ### What an input does -/

variable {r : Repl}

theorem complain_eq (hend : r.ending = none) (f : EvalFault) :
    (r.complain f).2.console = r.console ∧ (r.complain f).2.entry = r.entry ∧
      (r.complain f).2.ending.isSome = !f.message.isOk := by
  unfold complain
  cases f.message with
  | ok s => exact ⟨rfl, rfl, by rw [hend]; rfl⟩
  | error e => exact ⟨rfl, rfl, rfl⟩

/-- Running the entry closes it, and ends the loop when there are no words for what is left. -/
theorem submit_eq (hend : r.ending = none) :
    r.submit.2.console = r.console.after (source r.entry) ∧ r.submit.2.entry = [] ∧
      r.submit.2.ending.isSome = r.console.speechless (source r.entry) := by
  unfold submit Console.after Console.speechless
  rcases r.console.handle (source r.entry) with ⟨output, outcome, console⟩
  cases outcome with
  | error f => exact complain_eq (r := ⟨console, [], r.ending⟩) hend (.ofPrint f)
  | ok o =>
    cases o with
    | failure message place => exact ⟨rfl, rfl, by rw [hend]; rfl⟩
    | success v =>
      dsimp only
      cases console.world.heap.print v with
      | ok s => exact ⟨rfl, rfl, by rw [hend]; rfl⟩
      | error f => exact complain_eq (r := ⟨console, [], r.ending⟩) hend (.ofPrint f)

/-- Whether a line is added to the entry, and what comes of the entry then. -/
theorem addLine_eq (r : Repl) (line : String) :
    (r.addLine line).2 =
      match Reader.isIncomplete r.console.runner.registry (source (line :: r.entry)) with
      | .ok true => { r with console := r.console.quiet, entry := line :: r.entry }
      | .ok false =>
        (submit { r with console := r.console.quiet, entry := line :: r.entry }).2
      | .error _ => { r with console := r.console.quiet, entry := [] } := by
  unfold addLine Reader.isIncomplete
  dsimp only [Console.flush]
  rcases Reader.Forms.isIncomplete _ with f | _ | _ <;> rfl

theorem feed_eq_react (hend : r.ending = none) (input : Option String) :
    (r.feed input).2 = (r.react input).2 := by
  rw [feed, hend, if_neg (by simp)]

/-! ### Entry after entry -/

/-- The loop runs the sources one after the other and nothing else, up to the first one that leaves a
fault without words. -/
structure RunsAll (r : Repl) (is : List (Option String)) (sources : List String) : Prop where
  submitted : r.submitted is = r.console.quiet.answered sources
  console : (r.feeds is).console.quiet
    = (r.console.quiet.answered sources).foldl Console.after r.console.quiet

variable {is : List (Option String)} {input : Option String} {r₁ : Repl} {sources : List String}

theorem RunsAll.skip (hend : r.ending = none) (hruns : r.runs? input = none)
    (hfeed : (r.feed input).2 = r₁) (hconsole : r₁.console.quiet = r.console.quiet)
    (h : r₁.RunsAll is sources) : r.RunsAll (input :: is) sources where
  submitted := by
    rw [Repl.submitted, hend, if_neg (by simp), hruns, hfeed, h.submitted, hconsole]
    rfl
  console := by
    rw [feeds, List.foldl_cons, hfeed, ← hconsole]
    exact h.console

theorem runsAll_of_ending (h : r.ending.isSome = true) (is : List (Option String)) :
    r.RunsAll is [] where
  submitted := (feeds_of_ending h is).2
  console := by rw [(feeds_of_ending h is).1]; rfl

theorem RunsAll.submit (hend : r.ending = none) (hend₁ : r₁.ending = none)
    (hconsole : r₁.console = r.console.quiet) (hruns : r.runs? input = some (source r₁.entry))
    (hfeed : (r.feed input).2 = r₁.submit.2)
    (h : ∀ r₂ : Repl, r₂.ending = none → r₂.entry = [] →
      r₂.console.runner.registry = r.console.runner.registry → r₂.RunsAll is sources) :
    r.RunsAll (input :: is) (source r₁.entry :: sources) := by
  obtain ⟨hafter, hentry, hending⟩ := submit_eq hend₁
  rw [hconsole] at hafter hending
  have hsubmitted : r.submitted (input :: is) = source r₁.entry :: r₁.submit.2.submitted is := by
    rw [Repl.submitted, hend, if_neg (by simp), hruns, hfeed]
    rfl
  have hfeeds : r.feeds (input :: is) = r₁.submit.2.feeds is := by
    rw [feeds, List.foldl_cons, hfeed]
    rfl
  suffices hrest : r₁.submit.2.RunsAll is
      (if r.console.quiet.speechless (source r₁.entry) then [] else sources) by
    have hanswered : r₁.submit.2.console.quiet.answered
          (if r.console.quiet.speechless (source r₁.entry) then [] else sources)
        = if r.console.quiet.speechless (source r₁.entry) then []
          else (r.console.quiet.after (source r₁.entry)).answered sources := by
      rw [hafter, Console.quiet_after]
      split <;> rfl
    refine ⟨?_, ?_⟩
    · rw [hsubmitted, hrest.submitted, hanswered]
      rfl
    · rw [hfeeds, hrest.console, hanswered, hafter]
      rfl
  split
  · next hspeechless => exact runsAll_of_ending (hending.trans hspeechless) is
  · next hspeaks =>
    have hopen : r₁.submit.2.ending = none := by
      rw [← Option.isNone_iff_eq_none, ← Option.not_isSome, hending]
      simpa using hspeaks
    refine h r₁.submit.2 hopen hentry ?_
    rw [hafter, Console.registry_after]
    rfl

/-- The sources among the entries of the input behind an open entry. -/
def sourcesOf (reg : Registry) (entry lines : List String) : List String :=
  ((divide reg entry lines).filter Block.isRun).map (text ·.lines)

/-- The end of the input: an open entry is run, and the loop ends. -/
theorem runsAll_end (hend : r.ending = none) (hquiet : r.entry = [] ∨ r.console.quiet = r.console) :
    r.RunsAll [none, none] (sourcesOf r.console.runner.registry r.entry.reverse []) := by
  have hclosed : ∀ r : Repl, r.ending = none → r.entry = [] → ∀ is, r.RunsAll (none :: is) [] := by
    intro r hend hentry is
    have hruns : r.runs? none = none := by rw [runs?, hentry]; rfl
    have hfeed : (r.feed none).2 = { r with ending := some .returned } := by
      rw [feed_eq_react hend, react, close, hentry]
      rfl
    exact .skip hend hruns hfeed rfl (runsAll_of_ending rfl is)
  cases hentry : r.entry with
  | nil => exact hclosed r hend hentry [none]
  | cons line entry =>
    have hne : r.entry.isEmpty = false := by rw [hentry]; rfl
    have hconsole : r.console = r.console.quiet :=
      (hquiet.resolve_left (by rw [hentry]; exact List.cons_ne_nil _ _)).symm
    have hruns : r.runs? none = some (source r.entry) := by rw [runs?, hne]; rfl
    have hfeed : (r.feed none).2 = r.submit.2 := by
      rw [feed_eq_react hend, react, close, hne]
      rfl
    have hsources : sourcesOf r.console.runner.registry (line :: entry).reverse []
        = [source r.entry] := by
      have hreverse : (line :: entry).reverse.isEmpty = false := by simp
      rw [sourcesOf, divide, hreverse, hentry]
      rfl
    rw [hsources]
    exact .submit hend hend hconsole hruns hfeed fun r₂ hend₂ hentry₂ _ =>
      hclosed r₂ hend₂ hentry₂ []

theorem isEmpty_entry_reverse (r : Repl) : r.entry.reverse.isEmpty = r.entry.isEmpty := by
  cases r.entry <;> simp

theorem text_reverse_entry (r : Repl) (line : String) :
    text (r.entry.reverse ++ [line]) = source (line :: r.entry) := by
  rw [source, text, List.reverse_cons]

/-- A line that is added to the entry: the entry goes on, is run, or is dropped. -/
theorem runsAll_addLine {line : String} {rest : List String} (hend : r.ending = none)
    (hblank : ¬(r.entry.isEmpty && isBlankLine line) = true)
    (hexit : ¬(r.entry.isEmpty && isExit line) = true)
    (hrest : ∀ r₁ : Repl, r₁.ending = none → r₁.entry = [] ∨ r₁.console.quiet = r₁.console →
      r₁.RunsAll (inputs rest) (sourcesOf r₁.console.runner.registry r₁.entry.reverse rest)) :
    r.RunsAll (inputs (line :: rest))
      (sourcesOf r.console.runner.registry r.entry.reverse (line :: rest)) := by
  have hnot : (r.entry.isEmpty && (isBlankLine line || isExit line)) = false := by
    rw [Bool.and_or_distrib_left, Bool.or_eq_false_iff]
    exact ⟨Bool.not_eq_true _ ▸ hblank, Bool.not_eq_true _ ▸ hexit⟩
  have hfeed : (r.feed (some line)).2 = (r.addLine line).2 := by
    rw [feed_eq_react hend, react, if_neg hblank, if_neg hexit]
  rw [addLine_eq] at hfeed
  rw [sourcesOf, divide, isEmpty_entry_reverse, if_neg hblank, if_neg hexit, text_reverse_entry]
  cases hread : Reader.isIncomplete r.console.runner.registry (source (line :: r.entry)) with
  | error f =>
    rw [hread] at hfeed
    exact .skip hend (by rw [runs?, hnot, hread]; rfl) hfeed rfl
      (hrest { r with console := r.console.quiet, entry := [] } hend (.inl rfl))
  | ok incomplete =>
    rw [hread] at hfeed
    cases incomplete with
    | true =>
      have hopen := hrest { r with console := r.console.quiet, entry := line :: r.entry } hend
        (.inr rfl)
      rw [List.reverse_cons] at hopen
      exact .skip hend (by rw [runs?, hnot, hread]; rfl) hfeed rfl hopen
    | false =>
      have hnext : ∀ r₂ : Repl, r₂.ending = none → r₂.entry = [] →
          r₂.console.runner.registry = r.console.runner.registry →
          r₂.RunsAll (inputs rest) (sourcesOf r.console.runner.registry [] rest) := by
        intro r₂ hend₂ hentry₂ hreg₂
        have hruns := hrest r₂ hend₂ (.inl hentry₂)
        rwa [hentry₂, hreg₂] at hruns
      show r.RunsAll (some line :: inputs rest)
        (text (r.entry.reverse ++ [line]) :: sourcesOf r.console.runner.registry [] rest)
      rw [text_reverse_entry]
      have hruns : r.runs? (some line) = some (source (line :: r.entry)) := by
        rw [runs?, hnot, hread]; rfl
      have hsubmit : (r.feed (some line)).2
          = (submit { r with console := r.console.quiet, entry := line :: r.entry }).2 := hfeed
      refine .submit hend ?_ ?_ hruns hsubmit hnext
      · exact hend
      · rfl

/-- From any state of the loop on, the entries of the input are run in order. -/
theorem runsAll_inputs (lines : List String) (r : Repl) (hend : r.ending = none)
    (hquiet : r.entry = [] ∨ r.console.quiet = r.console) :
    r.RunsAll (inputs lines) (sourcesOf r.console.runner.registry r.entry.reverse lines) := by
  induction lines generalizing r with
  | nil => exact runsAll_end hend hquiet
  | cons line rest ih =>
    by_cases hblank : (r.entry.isEmpty && isBlankLine line) = true
    · obtain ⟨hempty, hline⟩ := Bool.and_eq_true_iff.1 hblank
      have hentry : r.entry = [] := List.isEmpty_iff.1 hempty
      have hrest := ih r hend hquiet
      rw [hentry] at hrest
      rw [sourcesOf, divide, isEmpty_entry_reverse, if_pos hblank]
      refine .skip hend ?_ ?_ rfl hrest
      · rw [runs?, hentry, hline]; rfl
      · rw [feed_eq_react hend, react, if_pos hblank]
    by_cases hexit : (r.entry.isEmpty && isExit line) = true
    · obtain ⟨hempty, hline⟩ := Bool.and_eq_true_iff.1 hexit
      have hentry : r.entry = [] := List.isEmpty_iff.1 hempty
      have hfeed : (r.feed (some line)).2 = { r with ending := some .returned } := by
        rw [feed_eq_react hend, react, if_neg hblank, if_pos hexit]
      rw [sourcesOf, divide, isEmpty_entry_reverse, if_neg hblank, if_pos hexit]
      refine .skip hend ?_ hfeed rfl (runsAll_of_ending rfl _)
      rw [runs?, hentry, hline]; simp
    exact runsAll_addLine hend hblank hexit ih

/-- The entries of input are its lines but for the blank ones before an entry, each entry incomplete
before its last line. The loop runs them in order, each of them once, in the state that the ones
before it leave: all of them exactly when none but the last leaves a fault without words, and
otherwise those up to the first one that does. -/
theorem submitted_session (c : Console) (lines : List String) :
    Divides c.runner.registry lines (divide c.runner.registry [] lines) ∧
      ((∀ line ∈ lines, '\n' ∉ line.toList) →
        ∀ b ∈ divide c.runner.registry [] lines, linesOf (text b.lines) = b.lines) ∧
      (start c).2.submitted (inputs lines)
        = c.quiet.answered (sourcesOf c.runner.registry [] lines) ∧
      ((start c).2.session lines).2.console.quiet
        = ((start c).2.submitted (inputs lines)).foldl Console.after c.quiet ∧
      ((start c).2.submitted (inputs lines) = sourcesOf c.runner.registry [] lines ↔
        ∀ before source after, sourcesOf c.runner.registry [] lines = before ++ source :: after →
          after ≠ [] → (before.foldl Console.after c.quiet).speechless source = false) := by
  have hdivides := divides_divide c.runner.registry lines
  have hruns : (start c).2.RunsAll (inputs lines) (sourcesOf c.runner.registry [] lines) :=
    runsAll_inputs lines (start c).2 rfl (.inl rfl)
  have hsubmitted : (start c).2.submitted (inputs lines)
      = c.quiet.answered (sourcesOf c.runner.registry [] lines) := hruns.submitted
  refine ⟨hdivides, fun hfeed b hb => ?_, hsubmitted, ?_, ?_⟩
  · exact linesOf_text (hdivides.ne_nil b hb) fun line hline =>
      hfeed line (hdivides.mem b hb line hline)
  · rw [session_eq_feeds, hsubmitted]
    exact hruns.console
  · rw [hsubmitted]
    exact Console.answered_eq_iff

/-- An entry whose value is a map with a changed key, in which there is such a map again: the value
cannot be printed, and neither can the fault about that. -/
def speechlessEntry : String :=
  "(let ((f ^(let ((m #h(equal))) (map-put m % 0) (map-put % 0 2) m))) (f (list 1 (f (list 1)))))"

/-- The entry behind one that leaves a fault without words is complete, but it is never run. -/
theorem not_submitted_speechless :
    divide Console.initial.runner.registry [] [speechlessEntry, "1"]
        = [⟨[speechlessEntry], .complete⟩, ⟨["1"], .complete⟩] ∧
      (start Console.initial).2.submitted (inputs [speechlessEntry, "1"]) = [speechlessEntry] := by
  have hdivide : divide .extended [] [speechlessEntry, "1"]
      = [⟨[speechlessEntry], .complete⟩, ⟨["1"], .complete⟩] := by decide +kernel
  have hkept : (Console.initial.withPrelude (Reader.readForms .extended Prelude.cursor)).speechless
      speechlessEntry = true := by decide +kernel
  have hspeechless : Console.initial.quiet.speechless speechlessEntry = true :=
    (Console.speechless_withPrelude rfl rfl rfl rfl rfl Prelude.readable).trans hkept
  have hruns := runsAll_inputs [speechlessEntry, "1"] (start Console.initial).2 rfl (.inl rfl)
  refine ⟨hdivide, hruns.submitted.trans ?_⟩
  have hsources : sourcesOf .extended [] [speechlessEntry, "1"] = [speechlessEntry, "1"] := by
    rw [sourcesOf, hdivide]
    rfl
  have hanswered : Console.initial.quiet.answered [speechlessEntry, "1"] = [speechlessEntry] := by
    rw [Console.answered, hspeechless, if_pos rfl]
  exact (congrArg Console.initial.quiet.answered hsources).trans hanswered

end Repl

end Cli

end Sigil
