import Sigil.Proofs.Expr.Atoms
import Sigil.Proofs.Reader.Fresh

/-!
# The atoms that a reader produces

`Produces reg p` collects the sources of atoms in a reader: tokens, segments of paths, the names
that the syntax supplies, and counts. When `p` holds of all of them, every atom of every form that
is read has it (`each_of_read`). The invariant is `State.Holds`: the elements that are open have
the property, and the characters of an open token or path do not end one.
-/

namespace Sigil

namespace Reader

open Sigil.Expr

/-- The names of the symbols that the syntax supplies. -/
def suppliedNames : List String :=
  ["quote", "function", "make-vector", "list", "access-field", "access-index", "lambda",
    "&optional", "%", "%%", "declare", "ignorable", "make-map", "map-put", MapTest.default.name]

/-- The key that a cue stands for. -/
def Cue.key : Cue → Key
  | char c => .char c
  | pair lead sub => .ofPair lead sub

/-- A path may start with this trigger. -/
def StartsPath (reg : Registry) (trigger : Trigger) : Prop :=
  ∃ cue : Cue, trigger = cue.trigger ∧ reg.kindOf? cue.key = some .pathAccess

/-- Everything that becomes an atom has the property. -/
structure Produces (reg : Registry) (p : Expr → Prop) : Prop where
  token : ∀ {c cs e}, reg.kindOf? (.char c) = none → (∀ d ∈ cs, endsToken reg d = false) →
    Text.isBlank c = false → Atom.ofToken (c :: cs) = .ok e → e.Each p
  segment : ∀ {trigger cs}, StartsPath reg trigger → cs ≠ [] →
    (∀ d ∈ cs, endsToken reg d = false) → p (sym (String.ofList cs) .written)
  trigger : ∀ {trigger}, StartsPath reg trigger → p (sym trigger.written .written)
  supplied : ∀ name ∈ suppliedNames, p (known name)
  count : ∀ n : Nat, p (int n)
  string : ∀ s, p (str s)
  origin : ∀ {name o o'}, p (sym name o) → p (sym name o')

variable {reg : Registry} {p : Expr → Prop} {place : Location} {s t : State} {c : Char}
  {e : Expr} {es : List Expr} {frames fs : List Frame} {taken : Bool}

/-! ## Forms that are built -/

theorem each_quote (h : Produces reg p) (he : e.Each p) : (quote e).Each p :=
  ⟨h.supplied _ (by decide), he, trivial⟩

theorem each_function (h : Produces reg p) (he : e.Each p) :
    (list [known "function", e]).Each p :=
  ⟨h.supplied _ (by decide), he, trivial⟩

theorem each_vector (h : Produces reg p) (he : EachAll p es) : (Expr.vector es).Each p :=
  ⟨h.supplied _ (by decide), h.count _, ⟨h.supplied _ (by decide), he⟩, trivial⟩

theorem each_positionalLambda (h : Produces reg p) (he : e.Each p) :
    e.positionalLambda.Each p := by
  have hholders : EachAll p placeholders :=
    ⟨h.supplied _ (by decide), h.supplied _ (by decide), trivial⟩
  unfold positionalLambda
  refine ⟨h.supplied _ (by decide), ⟨h.supplied _ (by decide), hholders⟩,
    ⟨h.supplied _ (by decide), ⟨h.supplied _ (by decide), hholders⟩, trivial⟩, ?_⟩
  -- the body is a sequence of forms or a single form
  split
  · exact he
  · exact ⟨he, trivial⟩

/-! ### Maps -/

theorem each_pairUp (h : EachAll p es) :
    ∀ kv ∈ MapLiteral.pairUp es, kv.1.Each p ∧ kv.2.Each p := by
  induction es using MapLiteral.pairUp.induct with
  | case1 k v rest ih =>
    intro kv hkv
    rw [MapLiteral.pairUp] at hkv
    rcases List.mem_cons.1 hkv with rfl | hkv
    · exact ⟨h.1, h.2.1⟩
    · exact ih h.2.2 kv hkv
  | case2 es hes =>
    intro kv hkv
    rw [MapLiteral.pairUp] at hkv
    · cases hkv
    · exact hes

/-- The test that an element names is a symbol in it. -/
theorem sym_of_testName? {name : String} (h : Produces reg p) (he : e.Each p)
    (hname : Element.testName? e = some name) : p (sym name .written) := by
  simp only [Element.testName?] at hname
  split at hname
  · cases hname
    exact h.origin he
  · cases hname
    exact h.origin he.2.1
  · cases hname

theorem each_build_literal {m : MapLiteral Expr} {sized : Bool} (h : Produces reg p)
    (htest : p (sym m.test m.origin)) (hpairs : ∀ kv ∈ m.pairs, kv.1.Each p ∧ kv.2.Each p) :
    (m.build sized).Each p := by
  have hmake : (m.constructor sized).Each p := by
    refine ⟨h.supplied _ (by decide), ⟨h.supplied _ (by decide), htest, trivial⟩, ?_⟩
    cases sized with
    | false => trivial
    | true => exact ⟨h.count _, trivial⟩
  unfold MapLiteral.build
  generalize m.constructor sized = made at hmake
  generalize m.pairs = pairs at hpairs
  induction pairs generalizing made with
  | nil => exact hmake
  | cons kv pairs ih =>
    obtain ⟨hk, hv⟩ := hpairs kv List.mem_cons_self
    rw [List.foldl_cons]
    apply ih
    · exact ⟨h.supplied _ (by decide), hmake, hk, hv, trivial⟩
    · exact fun kv' hkv' => hpairs kv' (List.mem_cons_of_mem kv hkv')

theorem each_buildMap {label : String} {sized : Bool} (h : Produces reg p) (hes : EachAll p es)
    (he : buildMap label sized es = .ok e) : e.Each p := by
  have hdefault : p (sym MapTest.default.name .supplied) := h.supplied _ (by decide)
  unfold buildMap at he
  cases hm : MapLiteral.ofItems label es with
  | error f => rw [hm] at he; cases he
  | ok m =>
    rw [hm] at he
    cases he
    unfold MapLiteral.ofItems at hm
    split at hm
    · cases hm
      exact each_build_literal h hdefault (each_pairUp hes)
    · split at hm
      · cases hm
        exact each_build_literal h hdefault nofun
      · split at hm
        · next spec rest _ name hname =>
          cases hm
          exact each_build_literal h (sym_of_testName? h hes.1 hname) (each_pairUp hes.2)
        · cases hm

/-! ### Paths -/

theorem mem_of_mem_splitFrom {separator : Option Separator} {text cs : List Char} {seg : Segment}
    (hseg : seg ∈ Path.splitFrom separator text cs) {d : Char} (hd : d ∈ seg.text.toList) :
    d ∈ text ∨ d ∈ cs := by
  induction cs generalizing separator text with
  | nil =>
    rw [Path.splitFrom, List.mem_singleton] at hseg
    subst hseg
    rw [String.toList_ofList, List.mem_reverse] at hd
    exact .inl hd
  | cons c cs ih =>
    rw [Path.splitFrom] at hseg
    split at hseg
    · rcases List.mem_cons.1 hseg with rfl | hseg
      · rw [String.toList_ofList, List.mem_reverse] at hd
        exact .inl hd
      · rcases ih hseg with h | h
        · cases h
        · exact .inr (List.mem_cons_of_mem c h)
    · rcases ih hseg with h | h
      · rcases List.mem_cons.1 h with rfl | h
        · exact .inr List.mem_cons_self
        · exact .inl h
      · exact .inr (List.mem_cons_of_mem c h)

theorem mem_of_mem_split {cs : List Char} {seg : Segment} (hseg : seg ∈ Path.split cs) {d : Char}
    (hd : d ∈ seg.text.toList) : d ∈ cs := by
  cases cs with
  | nil =>
    rw [Path.split, List.mem_singleton] at hseg
    subst hseg
    cases hd
  | cons c cs =>
    rcases mem_of_mem_splitFrom hseg hd with h | h
    · rw [List.mem_singleton.1 h]
      exact List.mem_cons_self
    · exact List.mem_cons_of_mem c h

theorem head_splitFrom_ne_nil {separator : Option Separator} {text cs : List Char}
    (htext : text ≠ []) :
    ∀ seg ∈ (Path.splitFrom separator text cs).head?, seg.text.toList ≠ [] := by
  induction cs generalizing text with
  | nil =>
    rintro _ ⟨⟩
    rw [String.toList_ofList]
    exact fun hnil => htext (List.reverse_eq_nil_iff.1 hnil)
  | cons c cs ih =>
    rw [Path.splitFrom]
    split
    · rintro _ ⟨⟩
      rw [String.toList_ofList]
      exact fun hnil => htext (List.reverse_eq_nil_iff.1 hnil)
    · exact ih (List.cons_ne_nil c text)

/-- The texts of segments do not end a token. -/
def PlainSegment (reg : Registry) (seg : Segment) : Prop :=
  ∀ d ∈ seg.text.toList, endsToken reg d = false

theorem each_of_segment {trigger : Trigger} {seg : Segment} (h : Produces reg p)
    (htrigger : StartsPath reg trigger) (hseg : PlainSegment reg seg)
    (hne : seg.text.toList ≠ []) : (sym seg.text .written).Each p := by
  have hsym := h.segment htrigger hne hseg
  rw [String.ofList_toList] at hsym
  exact hsym

theorem each_access {trigger : Trigger} {seg : Segment} {e' : Expr} (h : Produces reg p)
    (htrigger : StartsPath reg trigger) (hseg : PlainSegment reg seg) (he : e.Each p)
    (haccess : Path.access e seg = .ok e') : e'.Each p := by
  unfold Path.access at haccess
  split at haccess
  · split at haccess
    · cases haccess
    · next hempty =>
      cases haccess
      have hne : seg.text.toList ≠ [] := by
        intro hnil
        rw [String.toList_eq_nil_iff.1 hnil] at hempty
        exact hempty rfl
      exact ⟨h.supplied _ (by decide), he,
        each_quote h (each_of_segment h htrigger hseg hne), trivial⟩
  · cases hindex : Path.index seg.text.toList with
    | error f => rw [hindex] at haccess; cases haccess
    | ok n =>
      rw [hindex] at haccess
      cases haccess
      exact ⟨h.supplied _ (by decide), he, h.count n, trivial⟩

theorem each_accesses {trigger : Trigger} {segs : List Segment} {e' : Expr} (h : Produces reg p)
    (htrigger : StartsPath reg trigger) (hsegs : ∀ seg ∈ segs, PlainSegment reg seg)
    (he : e.Each p) (haccess : Path.accesses e segs = .ok e') : e'.Each p := by
  induction segs generalizing e with
  | nil => cases haccess; exact he
  | cons seg segs ih =>
    rw [Path.accesses] at haccess
    split at haccess
    · cases haccess
    · next e₁ h₁ =>
      exact ih (fun seg' hseg' => hsegs seg' (List.mem_cons_of_mem seg hseg'))
        (each_access h htrigger (hsegs seg List.mem_cons_self) he h₁) haccess

theorem each_pathExpr {trigger : Trigger} {chars : List Char} (h : Produces reg p)
    (htrigger : StartsPath reg trigger) (hchars : ∀ d ∈ chars, endsToken reg d = false)
    (he : pathExpr trigger chars = .ok e) : e.Each p := by
  unfold pathExpr at he
  split at he
  · cases he
    exact h.trigger htrigger
  · next hempty =>
    have hne : chars.reverse ≠ [] := by
      intro hnil
      rw [List.reverse_eq_nil_iff.1 hnil] at hempty
      exact hempty rfl
    have hsegs : ∀ seg ∈ Path.split chars.reverse, PlainSegment reg seg :=
      fun seg hseg d hd => hchars d (List.mem_reverse.1 (mem_of_mem_split hseg hd))
    have hhead : ∀ seg ∈ (Path.split chars.reverse).head?, seg.text.toList ≠ [] := by
      obtain ⟨c, cs, hcs⟩ := List.exists_cons_of_ne_nil hne
      rw [hcs]
      exact head_splitFrom_ne_nil (List.cons_ne_nil c [])
    unfold Path.fold at he
    split at he
    · cases he
    · next seg segs hsplit =>
      rw [hsplit] at hsegs hhead
      split at he
      · have hrest : ∀ seg' ∈ segs, PlainSegment reg seg' :=
          fun seg' h' => hsegs seg' (List.mem_cons_of_mem seg h')
        refine each_accesses h htrigger hrest ?_ he
        exact each_of_segment h htrigger (hsegs seg List.mem_cons_self) (hhead seg rfl)
      · cases he

theorem each_build {shape : Shape} (h : Produces reg p) (hes : EachAll p es)
    (he : shape.build es = .ok e) : e.Each p := by
  cases shape with
  | list => cases he; exact hes
  | vector => cases he; exact each_vector h hes
  | map sized label => exact each_buildMap h hes he

/-! ## The invariant -/

/-- The elements of an open form have the property. -/
def Frame.Holds (p : Expr → Prop) : Frame → Prop
  | .delimited _ _ _ items => EachAll p items
  | .operand head => head = "quote" ∨ head = "function"
  | .positional => True

/-- The characters of an open token or path do not end one. -/
def Mode.Holds (reg : Registry) : Mode → Prop
  | .token chars => ∃ c cs, chars.reverse = c :: cs ∧ reg.kindOf? (.char c) = none ∧
      Text.isBlank c = false ∧ ∀ d ∈ cs, endsToken reg d = false
  | .path trigger _ chars => StartsPath reg trigger ∧ ∀ d ∈ chars, endsToken reg d = false
  | _ => True

/-- What every state of a reading keeps. -/
structure State.Holds (reg : Registry) (p : Expr → Prop) (s : State) : Prop where
  mode : s.mode.Holds reg
  frames : ∀ f ∈ s.frames, f.Holds p

/-- What a character leaves behind. -/
def Verdict.Holds (reg : Registry) (p : Expr → Prop) : Verdict → Prop
  | .more s => s.Holds reg p
  | .complete e _ => e.Each p
  | .fail .. => True

theorem holds_idle : State.idle.Holds reg p := ⟨trivial, nofun⟩

theorem each_tokenExpr {chars : List Char} (h : Produces reg p)
    (hchars : (Mode.token chars).Holds reg) (he : tokenExpr chars = .ok e) : e.Each p := by
  obtain ⟨c, cs, hcs, hkind, hblank, hends⟩ := hchars
  rw [tokenExpr, hcs] at he
  exact h.token hkind hends hblank he

theorem holds_of_deliver (h : Produces reg p) (he : e.Each p) (hfs : ∀ f ∈ fs, f.Holds p) :
    match deliver e fs with
    | .complete e => e.Each p
    | .resume frames => ∀ f ∈ frames, f.Holds p := by
  induction fs generalizing e with
  | nil => exact he
  | cons f fs ih =>
    have hrest : ∀ f' ∈ fs, f'.Holds p := fun f' hf' => hfs f' (List.mem_cons_of_mem f hf')
    have hf := hfs f List.mem_cons_self
    cases f with
    | delimited shape closer opened items =>
      intro f' hf'
      rcases List.mem_cons.1 hf' with rfl | hf'
      · exact ⟨he, hf⟩
      · exact hrest f' hf'
    | operand head =>
      refine ih ?_ hrest
      rcases hf with rfl | rfl
      · exact each_quote h he
      · exact each_function h he
    | positional => exact ih (each_positionalLambda h he) hrest

theorem holds_close (h : Produces reg p) (he : e.Each p) (hfs : ∀ f ∈ fs, f.Holds p) :
    (s.close e fs).Holds reg p := by
  have hdeliver := holds_of_deliver h he hfs
  unfold State.close
  split
  · next h' => rw [h'] at hdeliver; exact hdeliver
  · next h' => rw [h'] at hdeliver; exact ⟨trivial, hdeliver⟩

theorem holds_invoke {kind : HandlerKind} {cue : Cue} {after : Location}
    (hs : ∀ f ∈ s.frames, f.Holds p) (hkind : reg.kindOf? cue.key = some kind) :
    (s.invoke kind cue place after).Holds reg p := by
  have hpush : ∀ f : Frame, f.Holds p → ∀ f' ∈ f :: s.frames, f'.Holds p := by
    intro f hf f' hf'
    rcases List.mem_cons.1 hf' with rfl | hf'
    · exact hf
    · exact hs f' hf'
  cases kind with
  | listClose => trivial
  | listOpen => exact ⟨trivial, hpush (.delimited .list [')'] place []) trivial⟩
  | fixedMap => exact ⟨trivial, hpush (.delimited (.map true fixedMapLabel) ['}'] place []) trivial⟩
  | quote => exact ⟨trivial, hpush (.operand "quote") (.inl rfl)⟩
  | function => exact ⟨trivial, hpush (.operand "function") (.inr rfl)⟩
  | positionalLambda => exact ⟨trivial, hpush .positional trivial⟩
  | string | lineComment | dispatch | blockComment | vector | map | rawString =>
    exact ⟨trivial, hs⟩
  | pathAccess => exact ⟨⟨⟨cue, rfl, hkind⟩, nofun⟩, hs⟩

theorem holds_begin (hs : ∀ f ∈ s.frames, f.Holds p) (hblank : Text.isBlank c = false) :
    (State.begin reg s place c).Holds reg p := by
  unfold State.begin
  split
  · next hkind => exact ⟨⟨c, [], rfl, hkind, hblank, nofun⟩, hs⟩
  · next kind hkind => exact holds_invoke hs hkind

theorem holds_stepBetween (h : Produces reg p) (hs : ∀ f ∈ s.frames, f.Holds p) :
    (s.stepBetween reg place c).Holds reg p := by
  unfold State.stepBetween
  split
  · exact ⟨trivial, hs⟩
  · next hblank =>
    rw [Bool.not_eq_true] at hblank
    split
    · exact holds_begin hs hblank
    · next shape closer opened items fs hf =>
      rw [hf] at hs
      have hitems : EachAll p items := hs _ List.mem_cons_self
      have hfs : ∀ f ∈ fs, f.Holds p := fun f h' => hs f (List.mem_cons_of_mem _ h')
      split
      · split
        · trivial
        · next e he =>
          refine holds_close h (each_build h ?_ he) hfs
          rw [eachAll_iff] at hitems ⊢
          exact fun e he => hitems e (List.mem_reverse.1 he)
      · exact holds_begin (by rw [hf]; exact hs) hblank
    · exact holds_begin hs hblank

theorem holds_endBefore {result : Except ReadFault Expr} {faultPlace : Location}
    (h : Produces reg p) (hs : ∀ f ∈ s.frames, f.Holds p)
    (hresult : ∀ e, result = .ok e → e.Each p) :
    (s.endBefore reg result faultPlace place c).Holds reg p := by
  unfold State.endBefore
  split
  · trivial
  · next e =>
    have hdeliver := holds_of_deliver h (hresult e rfl) hs
    split
    · next h' => rw [h'] at hdeliver; exact hdeliver
    · next h' => rw [h'] at hdeliver; exact holds_stepBetween h hdeliver

/-- Every character keeps the invariant. -/
theorem State.Holds.step (h : Produces reg p) (hs : s.Holds reg p) :
    (Reader.step reg place s c).Holds reg p := by
  have hmode := hs.mode
  unfold Reader.step
  split
  · exact holds_stepBetween h hs.frames
  · next chars hm =>
    rw [hm] at hmode
    split
    · exact holds_endBefore h hs.frames fun e he => each_tokenExpr h hmode he
    · next hends =>
      rw [Bool.not_eq_true] at hends
      obtain ⟨c₀, cs, hcs, hkind, hblank, hall⟩ := hmode
      refine ⟨⟨c₀, cs ++ [c], by rw [List.reverse_cons, hcs]; rfl, hkind, hblank, ?_⟩, hs.frames⟩
      intro d hd
      rcases List.mem_append.1 hd with hd | hd
      · exact hall d hd
      · rw [List.mem_singleton.1 hd]; exact hends
  · next trigger opened chars hm =>
    rw [hm] at hmode
    split
    · exact holds_endBefore h hs.frames fun e he => each_pathExpr h hmode.1 hmode.2 he
    · next hends =>
      rw [Bool.or_eq_true, not_or, Bool.not_eq_true] at hends
      refine ⟨⟨hmode.1, ?_⟩, hs.frames⟩
      intro d hd
      rcases List.mem_cons.1 hd with rfl | hd
      · exact hends.1
      · exact hmode.2 d hd
  · split
    · exact ⟨trivial, hs.frames⟩
    · split
      · exact ⟨trivial, hs.frames⟩
      · split
        · exact holds_close h (h.string _) hs.frames
        · exact ⟨trivial, hs.frames⟩
  · split
    · exact holds_close h (h.string _) hs.frames
    · exact ⟨trivial, hs.frames⟩
  · refine ⟨?_, hs.frames⟩
    dsimp only
    split <;> trivial
  · split
    · refine ⟨?_, hs.frames⟩
      dsimp only
      split <;> trivial
    · split <;> exact ⟨trivial, hs.frames⟩
  · split
    · trivial
    · trivial
    · next kind hkind => exact holds_invoke hs.frames hkind
  · split
    · refine ⟨trivial, ?_⟩
      intro f hf
      rcases List.mem_cons.1 hf with rfl | hf
      · trivial
      · exact hs.frames f hf
    · trivial

theorem each_of_endAtEnd {result : Except ReadFault Expr} {faultPlace start : Location}
    (h : Produces reg p) (hs : ∀ f ∈ s.frames, f.Holds p) (hresult : ∀ e, result = .ok e → e.Each p)
    (hform : s.endAtEnd result faultPlace place = .form e start) : e.Each p := by
  cases result with
  | error f => cases hform
  | ok e₀ =>
    have hdeliver := holds_of_deliver h (hresult e₀ rfl) hs
    simp only [State.endAtEnd] at hform
    split at hform
    · next h' => rw [h'] at hdeliver; cases hform; exact hdeliver
    · exact absurd hform cutOff_ne_form

theorem each_of_finish {start : Location} (h : Produces reg p) (hs : s.Holds reg p)
    (hform : finish place s = .form e start) : e.Each p := by
  have hmode := hs.mode
  unfold finish at hform
  split at hform
  · exact absurd hform cutOff_ne_form
  · exact absurd hform cutOff_ne_form
  · next hm =>
    rw [hm] at hmode
    exact each_of_endAtEnd h hs.frames (fun e he => each_tokenExpr h hmode he) hform
  · next hm =>
    rw [hm] at hmode
    exact each_of_endAtEnd h hs.frames (fun e he => each_pathExpr h hmode.1 hmode.2 he) hform
  all_goals cases hform

/-- A reading that starts with the invariant finds a form whose atoms have the property. -/
theorem each_of_run {before cs : List Char} {start : Location} (h : Produces reg p)
    (hs : s.Holds reg p) (hform : (run reg before place s cs).found = .form e start) :
    e.Each p := by
  induction cs generalizing before place s with
  | nil => exact each_of_finish h hs hform
  | cons c cs ih =>
    have hstep := @State.Holds.step reg p place s c h hs
    rw [run] at hform
    split at hform
    · next t ht => rw [ht] at hstep; exact ih hstep hform
    · next e' taken ht => rw [ht] at hstep; cases hform; exact hstep
    · cases hform

theorem each_of_read {cur : Cursor} {start : Location} (h : Produces reg p)
    (hform : (read reg cur).found = .form e start) : e.Each p :=
  each_of_run h holds_idle hform

end Reader

end Sigil
