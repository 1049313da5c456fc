import Sigil.Proofs.Eval.ConfinedRules
import Sigil.Proofs.Eval.Growth
import Sigil.Proofs.Eval.Makes
import Sigil.Proofs.Heap.Closed
import Sigil.Proofs.Heap.Rescoped

/-!
# Evaluation in a region

Two machines that differ in their scopes only, and only in what a region does not show of them, run in
step: evaluating a form of the region in corresponding scopes has the same result, the same calls,
effects and notes, and leaves two machines that differ in the same way. The objects outside of the
region are left as they are (`Interp.agrees_ofDepth`).

How scopes correspond is left open (`Links`). Where they are the same, this is about one machine
(`Interp.stays`): an evaluation that starts in a region stays in it.
-/

namespace Sigil

open Eval

/-! ## Machines that run in step -/

/-- `L` holds of two heaps whose scopes correspond by `E`: they show the same names, but for those that
the watch `w` is over, and go on to correspond when names are bound in them. -/
structure Links (w : Watch) (ρ : Region) (E : Nat → Nat → Nat → Prop) (Up Fresh : Nat → Nat → Prop)
    (L : Heap → Heap → Prop) : Prop where
  mono : ∀ {n k s s'}, n ≤ k → E n s s' → E k s s'
  up : ∀ {n s s'}, E n s s' → Up s s'
  linked : ∀ {s s'}, Fresh s s' → E (s + 1) s s'
  own : ∀ {s}, ρ.scope s → Fresh s s
  congr : ∀ {h h' g g'}, L h h' → g.scopes = h.scopes → g'.scopes = h'.scopes → L g g'
  next : ∀ {h h'}, L h h' → Fresh h.scopes.size h'.scopes.size
  asked? : ∀ {h h' s s'} (name : String), L h h' → E h.scopes.size s s' → w.hides h s name = false →
    h'.lookup? s' name = h.lookup? s name ∧ ∀ v, h.lookup? s name = some v → ρ.Covers v
  lookup? : ∀ {h h' s} (name : String), L h h' → ρ.scope s →
    h'.lookup? s name = h.lookup? s name ∧ ∀ v, h.lookup? s name = some v → ρ.Covers v
  ownNames : ∀ {h h' s}, L h h' → ρ.scope s → h'.ownNames s = h.ownNames s
  newScope : ∀ {h h' p p'}, L h h' → Up p p' →
    L (h.newScope (some p)).2 (h'.newScope (some p')).2
  define : ∀ {h h' s s'} (name : Str) {v}, L h h' → Fresh s s' → ρ.Covers v →
    L (h.define s name v) (h'.define s' name v)
  defineRoot : ∀ {h h' s s'} (name : Str) {v}, L h h' → E h.scopes.size s s' → ρ.Covers v →
    L (h.define (h.root s) name v) (h'.define (h'.root s') name v)
  assign : ∀ {h h' s s'} (name : Str) {v}, L h h' → E h.scopes.size s s' →
    w.hides h s name.text = false → ρ.Covers v → L (h.assign s name v) (h'.assign s' name v)

/-- Corresponding scopes are the same, and belong to the region. -/
def Open (ρ : Region) (E : Nat → Nat → Nat → Prop) : Prop := ∀ n s s', E n s s' → s' = s ∧ ρ.scope s

/-- The heaps show the same of the region, which is closed, and their scopes correspond. The scope of a
function is the same one, unless the watch is over it. -/
structure Matched (w : Watch) (ρ : Region) (E : Nat → Nat → Nat → Prop) (L : Heap → Heap → Prop)
    (h h' : Heap) : Prop extends Rescoped h h' where
  closed : ρ.ClosedIn h
  scopes : ∀ {a c c'}, ρ.closure a → h.closures[a]? = some c → h'.closures[a]? = some c' →
    E h.scopes.size c.scope c'.scope
  same : ∀ {a c c'}, ρ.closure a → w.keeps a = false → h.closures[a]? = some c →
    h'.closures[a]? = some c' → c'.scope = c.scope ∧ ρ.scope c.scope
  kept : Open ρ E ∨ ∀ a, h.closures.size ≤ a → w.keeps a = true
  links : L h h'

/-- The objects outside of the region are the same in both heaps, and no scope is missing. -/
structure Region.Spares (ρ : Region) (h h' : Heap) : Prop where
  sequences : ∀ {a}, ¬ρ.sequence a → h'.sequences[a]? = h.sequences[a]?
  maps : ∀ {a}, ¬ρ.map a → h'.maps[a]? = h.maps[a]?
  closures : ∀ {a}, ¬ρ.closure a → h'.closures[a]? = h.closures[a]?
  scopes : h.scopes.size ≤ h'.scopes.size

theorem Region.Spares.of_eq (ρ : Region) {h h' : Heap} (hsequences : h'.sequences = h.sequences)
    (hmaps : h'.maps = h.maps) (hclosures : h'.closures = h.closures)
    (hscopes : h.scopes.size ≤ h'.scopes.size) : ρ.Spares h h' where
  sequences _ := by rw [hsequences]
  maps _ := by rw [hmaps]
  closures _ := by rw [hclosures]
  scopes := hscopes

theorem Region.Spares.refl (ρ : Region) (h : Heap) : ρ.Spares h h :=
  .of_eq ρ rfl rfl rfl (Nat.le_refl _)

theorem Region.Spares.trans {ρ : Region} {h h₁ h₂ : Heap} (hs : ρ.Spares h h₁)
    (hs' : ρ.Spares h₁ h₂) : ρ.Spares h h₂ where
  sequences ha := (hs'.sequences ha).trans (hs.sequences ha)
  maps ha := (hs'.maps ha).trans (hs.maps ha)
  closures ha := (hs'.closures ha).trans (hs.closures ha)
  scopes := Nat.le_trans hs.scopes hs'.scopes

/-! ## Changes of both heaps -/

namespace Region.ClosedIn

variable {ρ : Region} {h h' : Heap} {a : Nat} {vs : List Value}

theorem congr (hc : ρ.ClosedIn h) (hsequences : h'.sequences = h.sequences)
    (hmaps : h'.maps = h.maps) (hclosures : h'.closures = h.closures) (hdicts : h'.dicts = h.dicts) :
    ρ.ClosedIn h' where
  items ha := by
    rw [Heap.items, hsequences]
    exact hc.items ha
  entries ha := by
    rw [Heap.mapAt, hmaps]
    exact hc.entries ha
  closures := by
    rw [hclosures]
    exact hc.closures
  dicts ha := by
    rw [Heap.dictAt, hdicts]
    exact hc.dicts ha
  newSequences := by
    rw [hsequences]
    exact hc.newSequences
  newMaps := by
    rw [hmaps]
    exact hc.newMaps
  newClosures := by
    rw [hclosures]
    exact hc.newClosures

theorem newSequence (hc : ρ.ClosedIn h) (hvs : ρ.CoversAll vs) :
    ρ.ClosedIn (h.newSequence vs).2 := by
  refine { hc with items := fun {a} ha => ?_, newSequences := fun {a} ha => ?_ }
  · simp only [Heap.newSequence, Heap.items, Array.getElem?_push]
    split
    · exact hvs
    · exact hc.items ha
  · simp only [Heap.newSequence, Array.size_push] at ha
    exact hc.newSequences (by omega)

theorem setItems (hc : ρ.ClosedIn h) (hvs : ρ.CoversAll vs) : ρ.ClosedIn (h.setItems a vs) := by
  refine { hc with items := fun {b} hb => ?_, newSequences := fun {b} hb => ?_ }
  · simp only [Heap.setItems, Heap.items, Array.getElem?_setIfInBounds]
    split
    · split
      · exact hvs
      · exact coversAll_nil
    · exact hc.items hb
  · simp only [Heap.setItems, Array.size_setIfInBounds] at hb
    exact hc.newSequences hb

theorem newMap (hc : ρ.ClosedIn h) (test : MapTest) (hint : Option SizeHint) :
    ρ.ClosedIn (h.newMap ⟨test, hint, []⟩).2 := by
  refine { hc with entries := fun {a} ha => ?_, newMaps := fun {a} ha => ?_ }
  · simp only [Heap.newMap, Heap.mapAt, Array.getElem?_push]
    split
    · exact List.forall_mem_nil _
    · exact hc.entries ha
  · simp only [Heap.newMap, Array.size_push] at ha
    exact hc.newMaps (by omega)

theorem covers_putEntry {k : MapKey} {stored value : Value} {es : List Entry}
    (hstored : ρ.Covers stored) (hvalue : ρ.Covers value)
    (hes : ∀ e ∈ es, ρ.Covers e.stored ∧ ρ.Covers e.value) :
    ∀ e ∈ MapObject.putEntry k stored value es, ρ.Covers e.stored ∧ ρ.Covers e.value := by
  induction es with
  | nil => simpa [MapObject.putEntry] using ⟨hstored, hvalue⟩
  | cons e es ih =>
    obtain ⟨he, hes⟩ := List.forall_mem_cons.1 hes
    rw [MapObject.putEntry]
    split
    · exact List.forall_mem_cons.2 ⟨⟨he.1, hvalue⟩, hes⟩
    · exact List.forall_mem_cons.2 ⟨he, ih hes⟩

theorem setMap_put (hc : ρ.ClosedIn h) (ha : ρ.map a) (form : MapKey) {k v : Value}
    (hk : ρ.Covers k) (hv : ρ.Covers v) :
    ρ.ClosedIn (h.setMap a ((h.mapAt a).put form k v)) := by
  have hput := covers_putEntry (k := form) hk hv (hc.entries ha)
  refine { hc with entries := fun {b} hb => ?_, newMaps := fun {b} hb => ?_ }
  · simp only [Heap.setMap, Heap.mapAt, Array.getElem?_setIfInBounds]
    split
    · split
      · exact hput
      · exact List.forall_mem_nil _
    · exact hc.entries hb
  · simp only [Heap.setMap, Array.size_setIfInBounds] at hb
    exact hc.newMaps hb

theorem newClosure (hc : ρ.ClosedIn h) {c : ClosureObject} (hrequired : ρ.sequence c.required)
    (hoptional : ρ.sequence c.optional) (hbody : ρ.sequence c.body) :
    ρ.ClosedIn (h.newClosure c).2 := by
  refine { hc with closures := fun {a d} ha hd => ?_, newClosures := fun {a} ha => ?_ }
  · simp only [Heap.newClosure, Array.getElem?_push] at hd
    split at hd
    · cases hd
      exact ⟨hrequired, hoptional, hbody⟩
    · exact hc.closures ha hd
  · simp only [Heap.newClosure, Array.size_push] at ha
    exact hc.newClosures (by omega)

end Region.ClosedIn

namespace Matched

variable {w : Watch} {ρ : Region} {E : Nat → Nat → Nat → Prop} {Up Fresh : Nat → Nat → Prop}
  {L : Heap → Heap → Prop} {h h' : Heap} {a : Nat}

theorem exists_closure (hm : Matched w ρ E L h h') (ha : a < h.closures.size) :
    ∃ c c', h.closures[a]? = some c ∧ h'.closures[a]? = some c' ∧ h.closureAt a = c ∧
      h'.closureAt a = c' := by
  have ha' : a < h'.closures.size := hm.closures_size_eq ▸ ha
  have hget := Array.getElem?_eq_getElem ha
  have hget' := Array.getElem?_eq_getElem ha'
  exact ⟨_, _, hget, hget', by rw [Heap.closureAt, hget]; rfl, by rw [Heap.closureAt, hget']; rfl⟩

theorem closureAt (u : Links w ρ E Up Fresh L) (hm : Matched w ρ E L h h') (ha : ρ.closure a) :
    Up (h.closureAt a).scope (h'.closureAt a).scope := by
  by_cases hlt : a < h.closures.size
  · obtain ⟨c, c', hc, hc', rfl, rfl⟩ := hm.exists_closure hlt
    exact u.up (hm.scopes ha hc hc')
  · have hlt' : ¬a < h'.closures.size := hm.closures_size_eq ▸ hlt
    rw [Heap.closureAt, Heap.closureAt, Array.getElem?_eq_none (Nat.le_of_not_lt hlt),
      Array.getElem?_eq_none (Nat.le_of_not_lt hlt')]
    exact u.up (u.linked (u.next hm.links))

theorem scopeOf (u : Links w ρ E Up Fresh L) (hm : Matched w ρ E L h h') (ha : ρ.closure a)
    (hkeeps : w.keeps a = false) :
    (h'.closureAt a).scope = (h.closureAt a).scope ∧ ρ.scope (h.closureAt a).scope := by
  by_cases hlt : a < h.closures.size
  · obtain ⟨c, c', hc, hc', rfl, rfl⟩ := hm.exists_closure hlt
    exact hm.same ha hkeeps hc hc'
  · rcases hm.kept with hopen | hkept
    · have hlt' : ¬a < h'.closures.size := hm.closures_size_eq ▸ hlt
      rw [Heap.closureAt, Heap.closureAt, Array.getElem?_eq_none (Nat.le_of_not_lt hlt),
        Array.getElem?_eq_none (Nat.le_of_not_lt hlt')]
      exact hopen _ _ _ (u.linked (u.next hm.links))
    · rw [hkept a (Nat.le_of_not_lt hlt)] at hkeeps
      cases hkeeps

theorem names (u : Links w ρ E Up Fresh L) (hm : Matched w ρ E L h h') (s : Nat) (hs : ρ.scope s) :
    h'.ownNames s = h.ownNames s := u.ownNames hm.links hs

theorem of_links (u : Links w ρ E Up Fresh L) (hm : Matched w ρ E L h h') {xs xs' : Array ScopeObject}
    (hsize : h.scopes.size ≤ xs.size) (hlinks : L { h with scopes := xs } { h' with scopes := xs' }) :
    Matched w ρ E L { h with scopes := xs } { h' with scopes := xs' } :=
  { hm with
    closed := hm.closed.congr rfl rfl rfl rfl
    scopes := fun ha hc hc' => u.mono hsize (hm.scopes ha hc hc')
    links := hlinks }

theorem reads (u : Links w ρ E Up Fresh L) : ρ.Reads Up (Matched w ρ E L) where
  items hm ha := ⟨hm.items _, hm.closed.items ha⟩
  closureAt {h h' a} hm ha := by
    obtain ⟨s, hs⟩ := hm.exists_closureAt a
    refine ⟨s, hs, ?_, hm.closed.closureAt ha⟩
    have hscope := hm.closureAt u ha
    rwa [hs] at hscope
  dictAt {h h' a} hm ha := by
    refine ⟨hm.dictAt a, fun v hv => ?_⟩
    obtain ⟨e, he, rfl⟩ := List.mem_map.1 hv
    exact (hm.closed.dicts ha e he).1
  lookup? name hm hs := u.lookup? name hm.links hs
  ownNames hm hs := u.ownNames hm.links hs
  getKey {h h' a k} hm ha hk := by
    refine ⟨hm.mapGet a k, fun v hv => ?_⟩
    rw [Heap.mapGet] at hv
    cases he : h.entryOf (h.mapAt a) k with
    | error lapse => rw [he] at hv; cases hv
    | ok e =>
      rw [he] at hv
      cases hv
      exact hm.closed.found ha he
  mapKeys {h h' a} hm ha := by
    refine ⟨hm.mapKeys a, fun v hv => ?_⟩
    obtain ⟨e, he, rfl⟩ := List.mem_map.1 hv
    exact (hm.closed.entries ha e he).1
  view hm hv := hm.view hm.closed (hm.names u) hv
  sameKey {_ _} test {v w} hm _ _ := hm.sameKey test v w
  equal hm hv hw := hm.equal hm.closed (hm.names u) hv hw
  ordered {_ _} c {_ _} hm hv hw := hm.ordered hm.closed (hm.names u) c hv hw

end Matched

/-! ## Computations that run in step -/

namespace Eval

variable {w : Watch} {ρ : Region} {E : Nat → Nat → Nat → Prop} {Up Fresh : Nat → Nat → Prop}
  {L : Heap → Heap → Prop} {n : Nat} {α β : Type} {P : α → Prop} {Q : β → Prop} {x y : Eval α}
  {f g : α → Eval β}

/-- The results of two computations from machines of which the first one has the heap `h`: they are
the same, and the machines that are left differ in their scopes only. Or else the first one was
refused something. -/
inductive InStep (w : Watch) (ρ : Region) (E : Nat → Nat → Nat → Prop) (L : Heap → Heap → Prop)
    (P : α → Prop) (h : Heap) :
    EStateM.Result Stop Machine α → EStateM.Result Stop Machine α → Prop
  | ok {a : α} {m : Machine} {h' : Heap} (holds : P a) (matched : Matched w ρ E L m.heap h')
    (spares : ρ.Spares h m.heap) : InStep w ρ E L P h (.ok a m) (.ok a { m with heap := h' })
  | error {s : Stop} {m : Machine} {h' : Heap} (matched : Matched w ρ E L m.heap h')
    (spares : ρ.Spares h m.heap) : InStep w ρ E L P h (.error s m) (.error s { m with heap := h' })
  | refused {m : Machine} {r : EStateM.Result Stop Machine α} :
    InStep w ρ E L P h (.error (.fault Interp.refusal) m) r

/-- On machines with `n` scopes at least whose heaps match, the two computations run in step. -/
def Agrees (w : Watch) (ρ : Region) (E : Nat → Nat → Nat → Prop) (L : Heap → Heap → Prop) (n : Nat)
    {α : Type} (P : α → Prop) (x y : Eval α) : Prop :=
  ∀ (m : Machine) (h' : Heap), n ≤ m.heap.scopes.size → Matched w ρ E L m.heap h' →
    InStep w ρ E L P m.heap (x m) (y { m with heap := h' })

theorem InStep.of_ok {h : Heap} {r r' : EStateM.Result Stop Machine α} {a : α} {m : Machine}
    (ho : InStep w ρ E L P h r r') (hr : r = .ok a m) :
    ∃ h', r' = .ok a { m with heap := h' } ∧ P a ∧ Matched w ρ E L m.heap h' ∧
      ρ.Spares h m.heap := by
  cases ho with
  | ok hP hm hs =>
    cases hr
    exact ⟨_, rfl, hP, hm, hs⟩
  | error | refused => cases hr

theorem InStep.spares_trans {h h₁ : Heap} {r r' : EStateM.Result Stop Machine α}
    (hs : ρ.Spares h h₁) (hr : InStep w ρ E L P h₁ r r') : InStep w ρ E L P h r r' := by
  cases hr with
  | ok hP hm hs' => exact .ok hP hm (hs.trans hs')
  | error hm hs' => exact .error hm (hs.trans hs')
  | refused => exact .refused

theorem Agrees.bind (hx : Agrees w ρ E L n P x y) (hf : ∀ a, P a → Agrees w ρ E L n Q (f a) (g a)) :
    Agrees w ρ E L n Q (x >>= f) (y >>= g) := by
  intro m h' hn hm
  show InStep w ρ E L Q m.heap (EStateM.bind x f m) (EStateM.bind y g { m with heap := h' })
  unfold EStateM.bind
  have hresult := hx m h' hn hm
  generalize x m = r, y { m with heap := h' } = r' at hresult
  cases hresult with
  | ok hP hm hs => exact (hf _ hP _ _ (Nat.le_trans hn hs.scopes) hm).spares_trans hs
  | error hm hs => exact .error hm hs
  | refused => exact .refused

theorem agrees_onHeap {f g : Heap → α × Heap}
    (hfg : ∀ {h h'}, Matched w ρ E L h h' → n ≤ h.scopes.size → (g h').1 = (f h).1 ∧ P (f h).1 ∧
      Matched w ρ E L (f h).2 (g h').2 ∧ ρ.Spares h (f h).2) :
    Agrees w ρ E L n P (onHeap f) (onHeap g) := by
  intro m h' hn hm
  obtain ⟨hsame, hP, hmatched, hspares⟩ := hfg hm hn
  show InStep w ρ E L P m.heap (.ok (f m.heap).1 { m with heap := (f m.heap).2 })
    (.ok (g h').1 { m with heap := (g h').2 })
  rw [hsame]
  exact .ok (m := { m with heap := (f m.heap).2 }) hP hmatched hspares

theorem agrees_modifyHeap {f g : Heap → Heap}
    (hfg : ∀ {h h'}, Matched w ρ E L h h' → n ≤ h.scopes.size →
      Matched w ρ E L (f h) (g h') ∧ ρ.Spares h (f h)) :
    Agrees w ρ E L n (fun _ => True) (modifyHeap f) (modifyHeap g) := fun m _ hn hm =>
  .ok (m := { m with heap := f m.heap }) trivial (hfg hm hn).1 (hfg hm hn).2

theorem agrees_modify {f : Machine → Machine} (hheap : ∀ m, (f m).heap = m.heap)
    (hf : ∀ m h', f { m with heap := h' } = { f m with heap := h' }) :
    Agrees w ρ E L n (fun _ => True) (modify f) (modify f) := by
  intro m h' _ hm
  show InStep w ρ E L _ m.heap (.ok () (f m)) (.ok () (f { m with heap := h' }))
  rw [hf m h']
  refine .ok (P := fun _ => True) trivial (by rw [hheap]; exact hm) ?_
  rw [hheap]
  exact .refl ρ m.heap

theorem agrees_pure {a : α} (ha : P a) : Agrees w ρ E L n P (pure a) (pure a) :=
  fun m _ _ hm => .ok ha hm (.refl ρ m.heap)

theorem Agrees.inFrame {P : α → Prop} {x y : Eval α} (frame : CallFrame)
    (hx : Agrees w ρ E L n P x y) : Agrees w ρ E L n P (inFrame frame x) (inFrame frame y) := by
  have henter : Agrees w ρ E L n (fun _ => True)
      (modify fun m : Machine => { m with calls := frame :: m.calls })
      (modify fun m : Machine => { m with calls := frame :: m.calls }) :=
    agrees_modify (fun _ => rfl) fun _ _ => rfl
  have hleave : Agrees w ρ E L n (fun _ => True)
      (modify fun m : Machine => { m with calls := m.calls.tail })
      (modify fun m : Machine => { m with calls := m.calls.tail }) :=
    agrees_modify (fun _ => rfl) fun _ _ => rfl
  exact henter.bind fun _ _ => hx.bind fun _ ha => hleave.bind fun _ _ => agrees_pure ha

/-! ### The elementary computations -/

section

variable (u : Links w ρ E Up Fresh L)
include u

theorem agrees_newSequence {vs : List Value} (hvs : ρ.CoversAll vs) :
    Agrees w ρ E L n ρ.sequence (onHeap (·.newSequence vs)) (onHeap (·.newSequence vs)) :=
  agrees_onHeap fun {h h'} hm hn => by
    have hsize : h'.sequences.size = h.sequences.size := by rw [hm.sequences_eq]
    refine ⟨hsize, hm.closed.newSequences (Nat.le_refl _), ?_, ?_⟩
    · exact { hm with
        sequences_eq := congrArg (·.push vs) hm.sequences_eq
        closed := hm.closed.newSequence hvs
        links := u.congr hm.links rfl rfl }
    · refine { Region.Spares.refl ρ h with sequences := fun {a} ha => ?_ }
      have hne : a ≠ h.sequences.size :=
        fun heq => ha (hm.closed.newSequences (Nat.le_of_eq heq.symm))
      simp [Heap.newSequence, Array.getElem?_push, hne]

theorem agrees_newMap (test : MapTest) (hint : Option SizeHint) :
    Agrees w ρ E L n ρ.map (onHeap (·.newMap ⟨test, hint, []⟩)) (onHeap (·.newMap ⟨test, hint, []⟩)) :=
  agrees_onHeap fun {h h'} hm hn => by
    have hsize : h'.maps.size = h.maps.size := by rw [hm.maps_eq]
    refine ⟨hsize, hm.closed.newMaps (Nat.le_refl _), ?_, ?_⟩
    · exact { hm with
        maps_eq := congrArg (·.push ⟨test, hint, []⟩) hm.maps_eq
        closed := hm.closed.newMap test hint
        links := u.congr hm.links rfl rfl }
    · refine { Region.Spares.refl ρ h with maps := fun {a} ha => ?_ }
      have hne : a ≠ h.maps.size := fun heq => ha (hm.closed.newMaps (Nat.le_of_eq heq.symm))
      simp [Heap.newMap, Array.getElem?_push, hne]

theorem agrees_newClosure {c : ClosureObject} {s : Nat} (hrequired : ρ.sequence c.required)
    (hoptional : ρ.sequence c.optional) (hbody : ρ.sequence c.body) (hs : E n c.scope s) :
    Agrees w ρ E L n ρ.closure (onHeap (·.newClosure c))
      (onHeap (·.newClosure { c with scope := s })) :=
  agrees_onHeap fun {h h'} hm hn => by
    have hsize := hm.closures_size_eq
    refine ⟨hsize, hm.closed.newClosures (Nat.le_refl _), ?_, ?_⟩
    · refine { hm with
        closures_eq := ?_
        closed := hm.closed.newClosure hrequired hoptional hbody
        scopes := fun {a d d'} ha hd hd' => ?_
        same := fun {a d d'} ha hkeeps hd hd' => ?_
        kept := hm.kept.imp_right fun hkept a ha => hkept a ?_
        links := u.congr hm.links rfl rfl }
      · simp only [Heap.newClosure, Array.map_push, hm.closures_eq]
        rfl
      · simp only [Heap.newClosure, Array.getElem?_push, hsize] at hd hd'
        split at hd
        · rw [if_pos (by assumption)] at hd'
          cases hd
          cases hd'
          exact u.mono hn hs
        · rw [if_neg (by assumption)] at hd'
          exact hm.scopes ha hd hd'
      · simp only [Heap.newClosure, Array.getElem?_push, hsize] at hd hd'
        split at hd
        · next hnew =>
          rw [if_pos hnew] at hd'
          cases hd
          cases hd'
          rcases hm.kept with hopen | hkept
          · exact hopen _ _ _ hs
          · rw [hkept a (Nat.le_of_eq hnew.symm)] at hkeeps
            cases hkeeps
        · rw [if_neg (by assumption)] at hd'
          exact hm.same ha hkeeps hd hd'
      · simp only [Heap.newClosure, Array.size_push] at ha
        omega
    · refine { Region.Spares.refl ρ h with closures := fun {a} ha => ?_ }
      have hne : a ≠ h.closures.size :=
        fun heq => ha (hm.closed.newClosures (Nat.le_of_eq heq.symm))
      simp [Heap.newClosure, Array.getElem?_push, hne]

theorem agrees_nextFresh (φ : Nat → α) (hφ : ∀ i, P (φ i)) :
    Agrees w ρ E L n P (onHeap fun h => (φ h.fresh, { h with fresh := h.fresh + 1 }))
      (onHeap fun h => (φ h.fresh, { h with fresh := h.fresh + 1 })) :=
  agrees_onHeap fun {h h'} hm hn => by
    refine ⟨congrArg φ hm.fresh_eq, hφ _, ?_, .of_eq ρ rfl rfl rfl (Nat.le_refl _)⟩
    exact { hm with
      fresh_eq := congrArg (· + 1) hm.fresh_eq
      closed := hm.closed.congr rfl rfl rfl rfl
      links := u.congr hm.links rfl rfl }

theorem agrees_setItems {a : Nat} {vs : List Value} (ha : ρ.sequence a) (hvs : ρ.CoversAll vs) :
    Agrees w ρ E L n (fun _ => True) (modifyHeap (·.setItems a vs)) (modifyHeap (·.setItems a vs)) :=
  agrees_modifyHeap fun {h h'} hm hn => by
    refine ⟨{ hm with
        sequences_eq := congrArg (·.setIfInBounds a vs) hm.sequences_eq
        closed := hm.closed.setItems hvs
        links := u.congr hm.links rfl rfl },
      { Region.Spares.refl ρ h with sequences := fun {b} hb => ?_ }⟩
    have hne : a ≠ b := fun heq => hb (heq ▸ ha)
    simp [Heap.setItems, hne]

theorem agrees_putKey {a : Nat} {k v : Value} (ha : ρ.map a) (hk : ρ.Covers k)
    (hv : ρ.Covers v) :
    Agrees w ρ E L n (fun _ => True) (Container.putKey a k v) (Container.putKey a k v) := by
  intro m h' hn hm
  rw [Container.putKey_eq, Container.putKey_eq]
  simp only [Heap.mapPut, hm.mapAt, hm.key]
  cases m.heap.key (m.heap.mapAt a).test k with
  | none => exact .error hm (.refl ρ m.heap)
  | some form =>
    refine .ok trivial
      { hm with
        maps_eq := congrArg (·.setIfInBounds a ((m.heap.mapAt a).put form k v)) hm.maps_eq
        closed := hm.closed.setMap_put ha form hk hv
        links := u.congr hm.links rfl rfl }
      { Region.Spares.refl ρ m.heap with maps := fun {b} hb => ?_ }
    have hne : a ≠ b := fun heq => hb (heq ▸ ha)
    simp [Heap.setMap, hne]

theorem agrees_newScope {f g : Nat → Eval β} {p p' : Nat} (hp : Up p p')
    (hf : ∀ s s', n ≤ s → Fresh s s' → Agrees w ρ E L (s + 1) Q (f s) (g s')) :
    Agrees w ρ E L n Q (onHeap (·.newScope (some p)) >>= f)
      (onHeap (·.newScope (some p')) >>= g) := by
  intro m h' hn hm
  have hsize : (m.heap.newScope (some p)).2.scopes.size = m.heap.scopes.size + 1 := Array.size_push _
  have hle := Nat.le_succ m.heap.scopes.size
  rw [← Nat.add_one, ← hsize] at hle
  have hnew : Matched w ρ E L (m.heap.newScope (some p)).2 (h'.newScope (some p')).2 :=
    hm.of_links u hle (u.newScope hm.links hp)
  have hrest := hf _ _ hn (u.next hm.links) { m with heap := (m.heap.newScope (some p)).2 } _
    (Nat.le_of_eq hsize.symm) hnew
  have hspares : ρ.Spares m.heap (m.heap.newScope (some p)).2 := .of_eq ρ rfl rfl rfl hle
  exact (hrest.spares_trans hspares :)

theorem agrees_define {f f' : Heap → Nat} {name : Str} {v : Value}
    (hlinks : ∀ {h h'}, Matched w ρ E L h h' → n ≤ h.scopes.size →
      L (h.define (f h) name v) (h'.define (f' h') name v)) :
    Agrees w ρ E L n (fun _ => True) (modifyHeap fun h => h.define (f h) name v)
      (modifyHeap fun h => h.define (f' h) name v) :=
  agrees_modifyHeap fun {h h'} hm hn => by
    have hsize := Nat.le_of_eq (Heap.size_scopes_define h (f h) name v).symm
    exact ⟨hm.of_links u hsize (hlinks hm hn), .of_eq ρ rfl rfl rfl hsize⟩

/-- Every rule of evaluation runs in step. -/
theorem confined_agrees : Confined w ρ E Up Fresh (Matched w ρ E L) (Agrees w ρ E L) where
  toReads := Matched.reads u
  mono := u.mono
  up := u.up
  linked := u.linked
  own := u.own
  asked? name hm hs hhides := u.asked? name hm.links hs hhides
  scopeOf hm ha hkeeps := hm.scopeOf u ha hkeeps
  refused _ := fun _ _ _ _ => .refused
  pure := agrees_pure
  throw _ _ := fun m _ _ hm => .error hm (.refl ρ m.heap)
  bind := Agrees.bind
  readHeap hf := fun m h' hn hm => hf m.heap h' hm hn m h' (Nat.le_refl _) hm
  emit _ := agrees_modify (fun _ => rfl) fun _ _ => rfl
  note _ := agrees_modify (fun _ => rfl) fun _ _ => rfl
  inFrame := Agrees.inFrame
  newSequence := agrees_newSequence u
  newStr s := agrees_nextFresh u (Str.made · s) fun _ => trivial
  newMap := agrees_newMap u
  newClosure := agrees_newClosure u
  newPusher {_ a} ha := agrees_nextFresh u (Value.pusher a) fun _ => ha
  newScope := agrees_newScope u
  setItems := agrees_setItems u
  putKey := agrees_putKey u
  define name _ hs hv := agrees_define u fun hm _ => u.define name hm.links hs hv
  defineRoot name _ hs hv := agrees_define u fun hm hn => u.defineRoot name hm.links (u.mono hn hs) hv
  assign {n s s'} name v hs hv := by
    intro m h' hn hm
    have hread : w.assign s name v m = (if w.hides m.heap s name.text then raise Interp.refusal
      else modifyHeap (·.assign s name v) : Eval Unit) m := rfl
    rw [hread]
    by_cases hhides : w.hides m.heap s name.text = true
    · rw [if_pos hhides]
      exact .refused
    · have hlinks := u.assign name hm.links (u.mono hn hs) (Bool.eq_false_iff.2 hhides) hv
      have hsize := Nat.le_of_eq (Heap.size_scopes_define m.heap
        ((m.heap.owner? s name.text).getD (m.heap.root s)) name v).symm
      rw [if_neg hhides]
      exact .ok (m := { m with heap := m.heap.assign s name v }) trivial
        (hm.of_links u hsize hlinks) (.of_eq ρ rfl rfl rfl hsize)

end

end Eval

theorem Interp.agrees_watched {w : Watch} {ρ : Region} {E : Nat → Nat → Nat → Prop}
    {Up Fresh : Nat → Nat → Prop} {L : Heap → Heap → Prop} (u : Links w ρ E Up Fresh L) :
    ∀ depth, Interp.Confined ρ E (Agrees w ρ E L) (watched w depth) (ofDepth depth)
  | 0 => ⟨fun _ _ => (confined_agrees u).throw _ _, fun _ _ _ => (confined_agrees u).throw _ _⟩
  | depth + 1 =>
    ⟨(confined_agrees u).evalForm (agrees_watched u depth),
      (confined_agrees u).callValue (agrees_watched u depth)⟩

/-! ## One machine -/

/-- The region is closed in the heap and holds what is bound in the scopes. -/
structure Region.Encloses (ρ : Region) (h : Heap) : Prop extends ρ.ClosedIn h where
  scopes : ∀ s, ρ.scope s
  bindings : ∀ s, ∀ b ∈ (h.scopeAt s).bindings, ρ.Covers b.2

def Same (s s' : Nat) : Prop := s' = s

/-- The scopes are the same, and what is bound in them belongs to the region. -/
structure SameScopes (ρ : Region) (h h' : Heap) : Prop where
  scopes_eq : h'.scopes = h.scopes
  bindings : ∀ s, ∀ b ∈ (h.scopeAt s).bindings, ρ.Covers b.2

namespace SameScopes

variable {ρ : Region} {h h' : Heap} {s : Nat} {v : Value}

theorem define (hs : SameScopes ρ h h') (s : Nat) (name : Str) (hv : ρ.Covers v) :
    SameScopes ρ (h.define s name v) (h'.define s name v) where
  scopes_eq := by simp only [Heap.define, Heap.setScope, Heap.scopeAt, hs.scopes_eq]
  bindings t := by
    simp only [Heap.define, Heap.setScope, Heap.scopeAt, Array.getElem?_setIfInBounds]
    split
    · split
      · exact Region.covers_bind hv (hs.bindings s)
      · exact List.forall_mem_nil _
    · exact hs.bindings t

theorem owner?_eq (hs : SameScopes ρ h h') (s : Nat) (name : String) :
    h'.owner? s name = h.owner? s name := Heap.owner?_congr hs.scopes_eq s name

theorem lookup? (hs : SameScopes ρ h h') (s : Nat) (name : String) :
    h'.lookup? s name = h.lookup? s name ∧ ∀ v, h.lookup? s name = some v → ρ.Covers v := by
  have hown : ∀ t, h'.own? t name = h.own? t name := fun t => Heap.own?_congr hs.scopes_eq t name
  refine ⟨by simp only [Heap.lookup?, hs.owner?_eq, hown], fun v hv => ?_⟩
  obtain ⟨t, -, hbound⟩ := Option.bind_eq_some_iff.1 hv
  exact Region.covers_bound? (hs.bindings t) hbound

theorem root_eq (hs : SameScopes ρ h h') (s : Nat) : h'.root s = h.root s := by
  have henclosing : ∀ s, h'.enclosing? s = h.enclosing? s :=
    fun s => by simp only [Heap.enclosing?, Heap.scopeAt, hs.scopes_eq]
  fun_induction Heap.root h s with
  | case1 s p hp he ih =>
    rw [Heap.root, henclosing, he]
    exact ih
  | case2 s he => rw [Heap.root, henclosing, he]

end SameScopes

theorem links_same {ρ : Region} :
    Links .nothing ρ (fun _ => Same) Same Same (SameScopes ρ) where
  mono _ hs := hs
  up hs := hs
  linked hs := hs
  own _ := rfl
  congr hs hg hg' := by
    refine ⟨by rw [hg, hg', hs.scopes_eq], fun s => ?_⟩
    rw [Heap.scopeAt_congr hg]
    exact hs.bindings s
  next hs := congrArg Array.size hs.scopes_eq
  asked? := by
    rintro h h' s _ name hs rfl -
    exact hs.lookup? _ name
  lookup? name hs _ := hs.lookup? _ name
  ownNames hs _ := by rw [Heap.ownNames, Heap.ownNames, Heap.scopeAt_congr hs.scopes_eq]
  newScope := by
    rintro h h' p _ hs rfl
    refine ⟨by simp only [Heap.newScope, hs.scopes_eq], fun s => ?_⟩
    simp only [Heap.newScope, Heap.scopeAt, Array.getElem?_push]
    split
    · exact List.forall_mem_nil _
    · exact hs.bindings s
  define := by
    rintro h h' s _ name v hs rfl hv
    exact hs.define _ name hv
  defineRoot := by
    rintro h h' s _ name v hs rfl hv
    rw [hs.root_eq]
    exact hs.define _ name hv
  assign := by
    rintro h h' s _ name v hs rfl - hv
    rw [Heap.assign, Heap.assign, hs.owner?_eq, hs.root_eq]
    exact hs.define _ name hv

namespace Eval

variable {ρ : Region} {α : Type} {P : α → Prop} {x : Eval α} {m m' : Machine} {a : α}

/-- The relation of computations to themselves. -/
abbrev Alone (ρ : Region) (n : Nat) {α : Type} (P : α → Prop) (x y : Eval α) : Prop :=
  Agrees .nothing ρ (fun _ => Same) (SameScopes ρ) n P x y

theorem matched_self (he : ρ.Encloses m.heap) :
    Matched .nothing ρ (fun _ => Same) (SameScopes ρ) m.heap m.heap := by
  have hsame : ∀ {c c' : ClosureObject} {a : Nat}, m.heap.closures[a]? = some c →
      m.heap.closures[a]? = some c' → c' = c := by
    intro c c' a hc hc'
    rw [hc] at hc'
    cases hc'
    rfl
  exact {
    toRescoped := .refl _
    closed := he.toClosedIn
    scopes := fun _ hc hc' => congrArg ClosureObject.scope (hsame hc hc')
    same := fun _ _ hc hc' => ⟨congrArg ClosureObject.scope (hsame hc hc'), he.scopes _⟩
    kept := .inl fun _ s _ hs => ⟨hs, he.scopes s⟩
    links := ⟨rfl, he.bindings⟩ }

/-- From a machine on whose heap the region is closed, the computation leaves one on whose heap it is
closed, and does not change what is outside of it. `P` holds of the result. -/
structure Stays (ρ : Region) (P : α → Prop) (x : Eval α) : Prop where
  of_ok : ∀ {m a m'}, ρ.Encloses m.heap → x m = .ok a m' →
    ρ.Encloses m'.heap ∧ ρ.Spares m.heap m'.heap ∧ P a

theorem Agrees.stays (hx : Alone ρ 0 P x x) : Stays ρ P x where
  of_ok {m a m'} he hrun := by
    have houtcome := hx m m.heap (Nat.zero_le _) (matched_self he)
    obtain ⟨h', -, hP, hm, hs⟩ := houtcome.of_ok hrun
    exact ⟨⟨hm.closed, he.scopes, hm.links.bindings⟩, hs, hP⟩

end Eval

namespace Interp

variable {ρ : Region}

theorem agrees_ofDepth (ρ : Region) (depth : Nat) :
    Interp.Confined ρ (fun _ => Same) (Alone ρ) (ofDepth depth) (ofDepth depth) := by
  have hwatched := agrees_watched (links_same (ρ := ρ)) depth
  rwa [watched_nothing] at hwatched

/-- An evaluation that starts in a region stays in it. -/
theorem stays {form : Value} (hform : ρ.Covers form) (depth s : Nat) :
    Stays ρ ρ.Covers ((ofDepth depth).eval form s) :=
  ((agrees_ofDepth ρ depth).eval hform rfl).stays

end Interp

end Sigil
