import Mathlib.Data.List.Induction
import Sigil.Proofs.Reader.Fresh

/-!
# Reading a text at another place

The places of a text enter a reading only as the places that its faults and forms report. When
a map of places `Tracks` a text from some place on, the text read from the image of that place
gives the same forms, and reports the images of the places (`Relocated.run`,
`relocated_readForms`). The two maps in use are the shift by some lines and, for a text that
starts inside a line, `Location.within`.
-/

namespace Sigil

namespace Location

/-- The place that is `lines` lines further down. -/
def down (lines : Nat) (l : Location) : Location := ⟨l.line + lines, l.col⟩

/-- The place `l` of a text that starts at `origin`. -/
def within (origin l : Location) : Location :=
  ⟨origin.line + (l.line - 1), if l.line = 1 then origin.col + (l.col - 1) else l.col⟩

/-- A map of places that follows every text from `place` on. -/
def Tracks (φ : Location → Location) (place : Location) : Prop :=
  ∀ cs, φ (place.advance cs) = (φ place).advance cs

theorem Tracks.step {φ : Location → Location} {place : Location} (h : Tracks φ place)
    (c : Char) : φ (place.step c) = (φ place).step c := h [c]

theorem Tracks.advance {φ : Location → Location} {place : Location} (h : Tracks φ place)
    (cs : List Char) : Tracks φ (place.advance cs) := by
  intro ds
  rw [← advance_append, h, h, advance_append]

theorem tracks_down (lines : Nat) (place : Location) : Tracks (down lines) place := by
  intro cs
  induction cs generalizing place with
  | nil => rfl
  | cons c cs ih =>
    have hstep : down lines (place.step c) = (down lines place).step c := by
      unfold Location.step
      split
      · simp only [down, mk.injEq, and_true]; omega
      · rfl
    rw [advance_cons, ih, hstep, advance_cons]

/-- Lines and columns count from one. -/
theorem one_le_advance (cs : List Char) :
    1 ≤ (start.advance cs).line ∧ 1 ≤ (start.advance cs).col := by
  rw [advance_line, advance_col]
  exact ⟨Nat.le_add_right _ _, Nat.le_add_right _ _⟩

theorem within_step {origin l : Location} (hl : 1 ≤ l.line) (hc : 1 ≤ l.col) (c : Char) :
    within origin (l.step c) = (within origin l).step c := by
  unfold Location.step
  split
  · have h1 : l.line + 1 ≠ 1 := by omega
    simp only [within, h1, if_false, mk.injEq, and_true]
    omega
  · unfold within
    split
    · simp only [mk.injEq, true_and]; omega
    · rfl

@[simp] theorem within_start (origin : Location) : within origin start = origin := by
  simp [within, start]

theorem tracks_within (origin : Location) : Tracks (within origin) start := by
  intro cs
  rw [within_start]
  induction cs using List.reverseRecOn with
  | nil => exact within_start origin
  | append_singleton cs c ih =>
    obtain ⟨hl, hc⟩ := one_le_advance cs
    simp only [advance_append, advance_cons, advance_nil]
    rw [within_step hl hc, ih]

end Location

namespace Reader

open Location (Tracks)

/-! ## States at another place -/

def Frame.relocate (φ : Location → Location) : Frame → Frame
  | .delimited shape closer opened items => .delimited shape closer (φ opened) items
  | .operand head => .operand head
  | .positional => .positional

def Mode.relocate (φ : Location → Location) : Mode → Mode
  | .between => .between
  | .token chars => .token chars
  | .path trigger place chars => .path trigger (φ place) chars
  | .string opened chars escaped => .string (φ opened) chars escaped
  | .rawString opened chars slash => .rawString (φ opened) chars slash
  | .lineComment => .lineComment
  | .blockComment opened depth last => .blockComment (φ opened) depth last
  | .pair lead place => .pair lead (φ place)
  | .opener shape trigger opened => .opener shape trigger (φ opened)

def Found.relocate (φ : Location → Location) : Found → Found
  | .form e start => .form e (φ start)
  | .nothing => .nothing
  | .failure fault place => .failure fault (φ place)

/-- `t` is `s` with every place replaced by its image. A fresh state reads on the same whatever
start it holds, and the notes on extensions do not matter at all. -/
structure Relocated (φ : Location → Location) (s t : State) : Prop where
  mode : t.mode = s.mode.relocate φ
  frames : t.frames = s.frames.map (Frame.relocate φ)
  start : s.Fresh ∨ t.start = φ s.start

/-- The verdicts of relocated states. -/
inductive Verdict.Relocated (φ : Location → Location) : Verdict → Verdict → Prop
  | more {s t : State} (h : Reader.Relocated φ s t) : Relocated φ (.more s) (.more t)
  | complete (e : Expr) (taken : Bool) : Relocated φ (.complete e taken) (.complete e taken)
  | fail (fault : ReadFault) (loc : Location) (taken : Bool) :
      Relocated φ (.fail fault loc taken) (.fail fault (φ loc) taken)

variable {reg : Registry} {φ : Location → Location} {place : Location} {s t : State}

theorem relocated_of_fresh (hs : s.Fresh) (ht : t.Fresh) : Relocated φ s t where
  mode := by rw [hs.mode, ht.mode]; rfl
  frames := by rw [hs.frames, ht.frames]; rfl
  start := .inl hs

/-! ## Steps at another place -/

/-- A form goes to the same frames wherever those were opened. -/
theorem deliver_relocate (e : Expr) (fs : List Frame) :
    deliver e (fs.map (Frame.relocate φ)) = match deliver e fs with
      | .complete e => .complete e
      | .resume frames => .resume (frames.map (Frame.relocate φ)) := by
  induction fs generalizing e with
  | nil => rfl
  | cons f fs ih =>
    cases f with
    | delimited shape closer opened items => rfl
    | operand head => exact ih _
    | positional => exact ih _

theorem relocated_close {e : Expr} {fs : List Frame} (hst : t.start = φ s.start) :
    Verdict.Relocated φ (s.close e fs) (t.close e (fs.map (Frame.relocate φ))) := by
  unfold State.close
  rw [deliver_relocate]
  cases deliver e fs with
  | complete e => exact .complete e true
  | resume frames => exact .more ⟨rfl, rfl, .inr hst⟩

theorem relocated_invoke (kind : HandlerKind) (cue : Cue) (after : Location)
    (hf : t.frames = s.frames.map (Frame.relocate φ)) (hst : t.start = φ s.start) :
    Verdict.Relocated φ (s.invoke kind cue place after)
      (t.invoke kind cue (φ place) (φ after)) := by
  cases kind with
  | listClose => exact .fail _ _ _
  | listOpen | quote | function | fixedMap | positionalLambda =>
    exact .more ⟨rfl, congrArg _ hf, .inr hst⟩
  | string | lineComment | dispatch | blockComment | vector | map | rawString | pathAccess =>
    exact .more ⟨rfl, hf, .inr hst⟩

theorem relocated_begin (hφ : Tracks φ place) (c : Char)
    (hf : t.frames = s.frames.map (Frame.relocate φ)) (hst : t.start = φ s.start) :
    Verdict.Relocated φ (State.begin reg s place c) (State.begin reg t (φ place) c) := by
  unfold State.begin
  split
  · exact .more ⟨rfl, hf, .inr hst⟩
  · rw [← hφ.step]
    exact relocated_invoke _ _ _ hf hst

theorem relocated_stepBetween (hφ : Tracks φ place) (c : Char)
    (hf : t.frames = s.frames.map (Frame.relocate φ))
    (hst : s.frames = [] ∨ t.start = φ s.start) :
    Verdict.Relocated φ (s.stepBetween reg place c) (t.stepBetween reg (φ place) c) := by
  unfold State.stepBetween
  rw [hf]
  split
  · exact .more ⟨rfl, rfl, hst.imp (fun h => ⟨rfl, h⟩) id⟩
  · cases hs : s.frames with
    | nil => exact relocated_begin hφ c (by simp) rfl
    | cons f fs =>
      have hst : t.start = φ s.start := hst.resolve_left (by simp [hs])
      have hb : Verdict.Relocated φ (State.begin reg s place c) (State.begin reg t (φ place) c) :=
        relocated_begin hφ c hf hst
      cases f with
      | delimited shape closer opened items =>
        simp only [List.map_cons, Frame.relocate]
        split
        · cases shape.build items.reverse with
          | error fault => exact .fail _ _ _
          | ok e => exact relocated_close hst
        · exact hb
      | operand head => exact hb
      | positional => exact hb

theorem relocated_endBefore (hφ : Tracks φ place) (result : Except ReadFault Expr)
    (faultPlace : Location) (c : Char) (hf : t.frames = s.frames.map (Frame.relocate φ))
    (hst : t.start = φ s.start) :
    Verdict.Relocated φ (s.endBefore reg result faultPlace place c)
      (t.endBefore reg result (φ faultPlace) (φ place) c) := by
  cases result with
  | error fault => exact .fail _ _ _
  | ok e =>
    simp only [State.endBefore]
    rw [hf, deliver_relocate]
    cases deliver e s.frames with
    | complete e => exact .complete e false
    | resume frames =>
      exact relocated_stepBetween (s := { s with frames }) hφ c rfl (.inr hst)

/-- A state that is not between forms is inside one, so its start counts. -/
theorem Relocated.start_eq (h : Relocated φ s t) (hs : s.mode ≠ .between) :
    t.start = φ s.start :=
  h.start.resolve_left fun hfr => hs hfr.mode

/-- One character leads relocated states to relocated verdicts. -/
theorem Relocated.step (h : Relocated φ s t) (hφ : Tracks φ place) (c : Char) :
    Verdict.Relocated φ (step reg place s c) (Reader.step reg (φ place) t c) := by
  unfold Reader.step
  rw [h.mode]
  cases hm : s.mode with
  | between =>
    exact relocated_stepBetween hφ c h.frames (h.start.imp State.Fresh.frames id)
  | token chars =>
    have hst := h.start_eq (by simp [hm])
    simp only [Mode.relocate]
    split
    · exact relocated_endBefore hφ _ _ c h.frames hst
    · exact .more ⟨rfl, h.frames, .inr hst⟩
  | path trigger place chars =>
    have hst := h.start_eq (by simp [hm])
    simp only [Mode.relocate]
    split
    · exact relocated_endBefore hφ _ _ c h.frames hst
    · exact .more ⟨rfl, h.frames, .inr hst⟩
  | string opened chars escaped =>
    have hst := h.start_eq (by simp [hm])
    simp only [Mode.relocate]
    split
    · exact .more ⟨rfl, h.frames, .inr hst⟩
    · split
      · exact .more ⟨rfl, h.frames, .inr hst⟩
      · split
        · rw [h.frames]; exact relocated_close hst
        · exact .more ⟨rfl, h.frames, .inr hst⟩
  | rawString opened chars slash =>
    have hst := h.start_eq (by simp [hm])
    simp only [Mode.relocate]
    split
    · rw [h.frames]; exact relocated_close hst
    · exact .more ⟨rfl, h.frames, .inr hst⟩
  | lineComment =>
    have hst := h.start_eq (by simp [hm])
    simp only [Mode.relocate]
    refine .more ⟨?_, h.frames, .inr hst⟩
    split <;> rfl
  | blockComment opened depth last =>
    have hst := h.start_eq (by simp [hm])
    simp only [Mode.relocate]
    split
    · refine .more ⟨?_, h.frames, .inr hst⟩
      simp only
      split <;> rfl
    · split
      · exact .more ⟨rfl, h.frames, .inr hst⟩
      · exact .more ⟨rfl, h.frames, .inr hst⟩
  | pair lead opened =>
    have hst := h.start_eq (by simp [hm])
    simp only [Mode.relocate]
    split
    · exact .fail _ _ _
    · exact .fail _ _ _
    · rw [← hφ.step]
      exact relocated_invoke _ _ _ h.frames hst
  | opener shape trigger opened =>
    have hst := h.start_eq (by simp [hm])
    simp only [Mode.relocate]
    split
    · exact .more ⟨rfl, by simp [h.frames, Frame.relocate], .inr hst⟩
    · exact .fail _ _ _

/-! ## Readings at another place -/

theorem cutOff_relocate (fs : List Frame) :
    cutOff (φ place) (fs.map (Frame.relocate φ)) = (cutOff place fs).relocate φ := by
  cases fs with
  | nil => rfl
  | cons f fs => cases f <;> rfl

theorem relocated_endAtEnd {result : Except ReadFault Expr} {faultPlace : Location}
    (hf : t.frames = s.frames.map (Frame.relocate φ)) (hst : t.start = φ s.start) :
    t.endAtEnd result (φ faultPlace) (φ place)
      = (s.endAtEnd result faultPlace place).relocate φ := by
  cases result with
  | error fault => rfl
  | ok e =>
    simp only [State.endAtEnd, hf, deliver_relocate]
    cases deliver e s.frames with
    | complete e => rw [hst]; rfl
    | resume frames => exact cutOff_relocate frames

theorem Relocated.finish (h : Relocated φ s t) :
    finish (φ place) t = (Reader.finish place s).relocate φ := by
  unfold Reader.finish
  rw [h.mode]
  cases hm : s.mode with
  | between => exact h.frames ▸ cutOff_relocate s.frames
  | lineComment => exact h.frames ▸ cutOff_relocate s.frames
  | token chars => exact relocated_endAtEnd h.frames (h.start_eq (by simp [hm]))
  | path trigger opened chars =>
    exact relocated_endAtEnd h.frames (h.start_eq (by simp [hm]))
  | string | rawString | blockComment | pair | opener => rfl

/-- `r'` is `r` with every place replaced by its image. -/
structure Reading.Relocated (φ : Location → Location) (r r' : Reading) : Prop where
  found : r'.found = r.found.relocate φ
  after : r'.rest.after = r.rest.after
  loc : r'.rest.loc = φ r.rest.loc

theorem Reading.Relocated.trans {ψ : Location → Location} {r r' r'' : Reading}
    (h : Relocated φ r r') (h' : Relocated ψ r' r'') : Relocated (ψ ∘ φ) r r'' where
  found := by
    rw [h'.found, h.found]
    cases r.found <;> rfl
  after := h'.after.trans h.after
  loc := by rw [h'.loc, h.loc]; rfl

theorem relocated_stopped {before before' : List Char} {c : Char} {cs : List Char}
    {taken : Bool} {f : Found} {d d' : List Dispatch} (hφ : Tracks φ place) :
    Reading.Relocated φ ⟨f, stopped before place c cs taken, d⟩
      ⟨f.relocate φ, stopped before' (φ place) c cs taken, d'⟩ := by
  cases taken with
  | true => exact ⟨rfl, rfl, (hφ.step c).symm⟩
  | false => exact ⟨rfl, rfl, rfl⟩

/-- Relocated states read every text alike. -/
theorem Relocated.run {before before' : List Char} {cs : List Char} (h : Relocated φ s t)
    (hφ : Tracks φ place) :
    Reading.Relocated φ (run reg before place s cs) (Reader.run reg before' (φ place) t cs) := by
  induction cs generalizing before before' place s t with
  | nil => exact ⟨h.finish, rfl, rfl⟩
  | cons c cs ih =>
    have hv : Verdict.Relocated φ (Reader.step reg place s c) (Reader.step reg (φ place) t c) :=
      h.step hφ c
    unfold Reader.run
    cases hs : Reader.step reg place s c with
    | more s' =>
      rw [hs] at hv
      cases ht : Reader.step reg (φ place) t c with
      | more t' =>
        rw [ht] at hv
        cases hv with
        | more h' =>
          simp only
          rw [← hφ.step c]
          exact ih h' (hφ.advance [c])
      | complete e taken => rw [ht] at hv; cases hv
      | fail fault loc taken => rw [ht] at hv; cases hv
    | complete e taken =>
      have hst : t.start = φ s.start := h.start.resolve_left (not_fresh_of_complete hs)
      rw [hs] at hv
      generalize Reader.step reg (φ place) t c = v at hv
      cases hv with
      | complete =>
        simp only [hst]
        exact relocated_stopped (f := .form e s.start) hφ
    | fail fault loc taken =>
      rw [hs] at hv
      generalize Reader.step reg (φ place) t c = v at hv
      cases hv with
      | fail => exact relocated_stopped (f := .failure fault loc) hφ

theorem relocated_read {cur cur' : Cursor} (hφ : Tracks φ cur.loc)
    (ha : cur'.after = cur.after) (hl : cur'.loc = φ cur.loc) :
    Reading.Relocated φ (read reg cur) (read reg cur') := by
  unfold read runAt
  rw [ha, hl]
  exact (relocated_of_fresh fresh_idle fresh_idle).run hφ

/-- The forms and the fault after relocated readings are the same, each at its image. -/
theorem Reading.Relocated.readForms {cur cur' : Cursor}
    (hr : Reading.Relocated φ (read reg cur) (read reg cur')) (hφ : Tracks φ cur.loc) :
    (readForms reg cur').forms = (readForms reg cur).forms.map (Prod.map id φ) ∧
      (readForms reg cur').fault = (readForms reg cur).fault.map (Prod.map id φ) := by
  have hfound := hr.found
  cases hf : (read reg cur).found with
  | form e start =>
    rw [hf] at hfound
    have hlt : (read reg cur).rest.after.length < cur.after.length := after_lt_of_read_form hf
    obtain ⟨u, -, hu⟩ := exists_run_rest reg cur.before cur.loc .idle cur.after
    have hloc : (read reg cur).rest.loc = cur.loc.advance u := congrArg Cursor.loc hu
    have hrest : Tracks φ (read reg cur).rest.loc := hloc ▸ hφ.advance u
    have ih := (relocated_read hrest hr.after hr.loc).readForms hrest
    rw [readForms_of_form hf, readForms_of_form hfound]
    exact ⟨by simp [ih.1], ih.2⟩
  | nothing =>
    rw [hf] at hfound
    rw [readForms_of_nothing hf, readForms_of_nothing hfound]
    exact ⟨rfl, rfl⟩
  | failure fault loc =>
    rw [hf] at hfound
    rw [readForms_of_failure hf, readForms_of_failure hfound]
    exact ⟨rfl, rfl⟩
termination_by cur.after.length

/-- A text read from another place has the same forms and the same fault, each at its image. -/
theorem relocated_readForms {cur cur' : Cursor} (hφ : Tracks φ cur.loc)
    (ha : cur'.after = cur.after) (hl : cur'.loc = φ cur.loc) :
    (readForms reg cur').forms = (readForms reg cur).forms.map (Prod.map id φ) ∧
      (readForms reg cur').fault = (readForms reg cur).fault.map (Prod.map id φ) :=
  (relocated_read hφ ha hl).readForms hφ

end Reader

end Sigil
