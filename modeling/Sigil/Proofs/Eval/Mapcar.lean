import Sigil.Proofs.Eval.Stopping

/-!
# A function called with the elements of a list

`mapcar` with one list calls the function with element after element. What holds before the first call
and is kept by each call, in the heap that the one before it left, holds after all of them
(`Library.Loops.exists_yields_mapcar`), or up to the first call that stops
(`Library.Loops.stops_mapcar`). The list itself is to stay as it is meanwhile.
-/

namespace Sigil

open Eval

namespace Container.Walk

variable {h : Heap} {a i : Nat} {v : Value}

theorem yields_nextAll_of_some (hv : (h.items a)[i]? = some v) :
    Yields (nextAll [.items a i]) h (some ([v], [.items a (i + 1)])) h := by
  have hnext : Yields (Walk.next (.items a i)) h (some (v, .items a (i + 1))) h := by
    refine (yields_heap h).bind ?_
    rw [hv]
    exact yields_pure _ h
  exact hnext.bind ((yields_pure (some ([], [])) h).bind (yields_pure _ h))

theorem yields_nextAll_of_none (hnone : (h.items a)[i]? = none) :
    Yields (nextAll [.items a i]) h none h := by
  have hnext : Yields (Walk.next (.items a i)) h none h := by
    refine (yields_heap h).bind ?_
    rw [hnone]
    exact yields_pure _ h
  exact hnext.bind (yields_pure none h)

end Container.Walk

namespace Library

variable {next : Interp} {f : Value} {a : Nat} {h : Heap} {vs done rest : List Value} {stop : Stop}
  {good : Value → Prop} {P : List Value → Heap → Prop}

/-- `P` holds of the elements that were done and the heap that this left: the list is as it was, and a
call with the next element does that one if it is `good`, and stops otherwise. -/
structure Loops (next : Interp) (f : Value) (a : Nat) (vs : List Value) (good : Value → Prop)
    (stop : Stop) (P : List Value → Heap → Prop) : Prop where
  items_eq : ∀ {done h}, P done h → h.items a = vs
  call : ∀ {done v rest h}, vs = done ++ v :: rest → P done h → good v →
    ∃ r h', Yields (next.call f [v] none) h r h' ∧ P (done ++ [v]) h'
  stops : ∀ {done v rest h}, vs = done ++ v :: rest → P done h → ¬good v →
    Stops (next.call f [v] none) h stop

namespace Loops

variable (hl : Loops next f a vs good stop P)
include hl

/-- The element of a round is the first one that is not done. -/
theorem yields_nextAll {v : Value} (hvs : vs = done ++ v :: rest) (hP : P done h) :
    Yields (Container.Walk.nextAll [.items a done.length]) h
      (some ([v], [.items a (done.length + 1)])) h := by
  refine Container.Walk.yields_nextAll_of_some ?_
  rw [hl.items_eq hP, hvs, List.getElem?_append_right (Nat.le_refl _), Nat.sub_self]
  rfl

theorem exists_yields_mapRounds {rounds : Nat} (hvs : vs = done ++ rest)
    (hgood : ∀ v ∈ rest, good v) (hrounds : rest.length < rounds) (hP : P done h)
    (results : List Value) :
    ∃ rs h', Yields (mapRounds next f rounds [.items a done.length] results) h rs h' ∧ P vs h' := by
  induction rest generalizing done rounds results h with
  | nil =>
    obtain ⟨rounds, rfl⟩ := Nat.exists_eq_add_one_of_ne_zero (Nat.ne_of_gt hrounds)
    rw [List.append_nil] at hvs
    subst hvs
    have hend : (h.items a)[vs.length]? = none := by
      rw [hl.items_eq hP, List.getElem?_eq_none (Nat.le_refl _)]
    exact ⟨_, h, (Container.Walk.yields_nextAll_of_none hend).bind (yields_pure _ h), hP⟩
  | cons v rest ih =>
    obtain ⟨rounds, rfl⟩ := Nat.exists_eq_add_one_of_ne_zero (Nat.ne_of_gt (Nat.zero_lt_of_lt hrounds))
    obtain ⟨hv, hgood⟩ := List.forall_mem_cons.1 hgood
    obtain ⟨r, g, hr, hg⟩ := hl.call hvs hP hv
    obtain ⟨rs, h', hrs, hh'⟩ := ih (by rw [hvs, List.append_assoc]; rfl) hgood
      (Nat.lt_of_succ_lt_succ hrounds) hg (r :: results)
    rw [List.length_append, List.length_singleton] at hrs
    exact ⟨rs, h', (hl.yields_nextAll hvs hP).bind (hr.bind hrs), hh'⟩

theorem stops_mapRounds {rounds : Nat} (hvs : vs = done ++ rest) (hbad : ¬∀ v ∈ rest, good v)
    (hrounds : rest.length < rounds) (hP : P done h) (results : List Value) :
    Stops (mapRounds next f rounds [.items a done.length] results) h stop := by
  induction rest generalizing done rounds results h with
  | nil => exact absurd (List.forall_mem_nil good) hbad
  | cons v rest ih =>
    obtain ⟨rounds, rfl⟩ := Nat.exists_eq_add_one_of_ne_zero (Nat.ne_of_gt (Nat.zero_lt_of_lt hrounds))
    refine (hl.yields_nextAll hvs hP).bind_stops ?_
    by_cases hv : good v
    · obtain ⟨r, g, hr, hg⟩ := hl.call hvs hP hv
      have hrest := ih (by rw [hvs, List.append_assoc]; rfl)
        (fun hall => hbad (List.forall_mem_cons.2 ⟨hv, hall⟩)) (Nat.lt_of_succ_lt_succ hrounds) hg
        (r :: results)
      rw [List.length_append, List.length_singleton] at hrest
      exact hr.bind_stops hrest
    · exact (hl.stops hvs hP hv).bind _

end Loops

theorem ahead_lt_roundLimit (h : Heap) (walk : Container.Walk) :
    walk.ahead h < roundLimit h [walk] :=
  Nat.lt_add_of_pos_right (Nat.pow_pos (by decide))

/-- A list without elements is walked through as an empty text. -/
theorem yields_walks (h : Heap) (a : Nat) :
    Yields ([Value.list a].mapM walkThrough) h
      [if (h.items a).isEmpty then .chars [] else .items a 0] h := by
  have hwalk : Yields (walkThrough (.list a)) h
      (if (h.items a).isEmpty then .chars [] else .items a 0) h := by
    refine (yields_heap h).bind ?_
    rw [Container.isNothing]
    cases (h.items a).isEmpty <;> exact yields_pure _ h
  rw [List.mapM_cons]
  exact hwalk.bind ((yields_pure [] h).bind (yields_pure _ h))

namespace Loops

variable (hl : Loops next f a vs good stop P)
include hl

theorem length_lt_roundLimit (hP : P [] h) : vs.length < roundLimit h [.items a 0] := by
  simpa [Container.Walk.ahead, hl.items_eq hP] using ahead_lt_roundLimit h (.items a 0)

theorem exists_yields_mapcar (hgood : ∀ v ∈ vs, good v) (hP : P [] h) :
    ∃ rs h', Yields (mapcar next f [.list a]) h (.list (h'.newSequence rs).1)
      (h'.newSequence rs).2 ∧ P vs h' := by
  have hitems := hl.items_eq hP
  have hwalks := yields_walks h a
  cases hempty : (h.items a).isEmpty with
  | true =>
    rw [hempty, if_pos rfl] at hwalks
    have hrounds : ∀ rounds, 0 < rounds →
        Yields (mapRounds next f rounds [.chars []] []) h [] h := by
      intro rounds hpos
      obtain ⟨rounds, rfl⟩ := Nat.exists_eq_add_one_of_ne_zero (Nat.ne_of_gt hpos)
      have hend : Yields (Container.Walk.nextAll [.chars []]) h none h :=
        (yields_pure none h).bind (yields_pure none h)
      exact hend.bind (yields_pure _ h)
    have hvs : vs = [] := by rw [← hitems, List.isEmpty_iff.1 hempty]
    refine ⟨[], h, hwalks.bind ((yields_heap h).bind (Yields.bind ?_ (yields_newList [] h))),
      hvs ▸ hP⟩
    exact hrounds _ (Nat.zero_lt_of_lt (ahead_lt_roundLimit h _))
  | false =>
    rw [hempty, if_neg Bool.false_ne_true] at hwalks
    obtain ⟨rs, h', hrs, hh'⟩ := hl.exists_yields_mapRounds (List.nil_append vs).symm hgood
      (hl.length_lt_roundLimit hP) hP []
    exact ⟨rs, h', hwalks.bind ((yields_heap h).bind (hrs.bind (yields_newList rs h'))), hh'⟩

/-- The calls end with the first element that is not good. -/
theorem stops_mapcar (hbad : ¬∀ v ∈ vs, good v) (hP : P [] h) :
    Stops (mapcar next f [.list a]) h stop := by
  have hempty : (h.items a).isEmpty = false := by
    rw [hl.items_eq hP, List.isEmpty_eq_false_iff]
    rintro rfl
    exact hbad (List.forall_mem_nil good)
  have hwalks := yields_walks h a
  rw [hempty, if_neg Bool.false_ne_true] at hwalks
  refine hwalks.bind_stops ((yields_heap h).bind_stops (Stops.bind ?_ _))
  exact hl.stops_mapRounds (List.nil_append vs).symm hbad (hl.length_lt_roundLimit hP) hP []

end Loops

end Library

end Sigil
