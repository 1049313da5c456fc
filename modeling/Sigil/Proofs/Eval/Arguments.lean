import Sigil.Proofs.Eval.Bindings
import Sigil.Proofs.Eval.Runs

/-!
# Arguments of functions

A function refuses a number of arguments that its parameters do not take, before its body is begun.
Otherwise the arguments are bound in a new scope, and what the parameters are bound to there gives the
arguments back, in their order and each once (`Interp.call_binds`). The required and the optional names
take the first arguments one after the other, and the list for the rest has those left over.
-/

namespace Sigil

open Eval

namespace Form.Parameters

variable (ps : Parameters)

def names : List String := (ps.required ++ ps.optional ++ ps.rest.toList).map (·.text)

/-- The number of arguments is too small for the required names, or it is too large and nothing takes
the rest. -/
def Refuses (n : Nat) : Prop :=
  n < ps.required.length ∨ ps.required.length + ps.optional.length < n ∧ ps.rest = none

instance (n : Nat) : Decidable (ps.Refuses n) := inferInstanceAs (Decidable (_ ∨ _))

/-- The values in a scope of the required names, of as many optional names as `n` arguments supply, and
then the elements of the list for the rest. -/
def readBack (h : Heap) (scope n : Nat) : List (Option Value) :=
  (ps.required ++ ps.optional.take (n - ps.required.length)).map (h.own? scope ·.text) ++
    match ps.rest with
    | none => []
    | some x => match h.own? scope x.text with
      | some (.list a) => (h.items a).map some
      | _ => [none]

/-- The scope shows the arguments, all of them, and `nil` for each optional name without one. -/
structure Binds (h : Heap) (scope : Nat) (args : List Value) : Prop where
  arguments : ps.readBack h scope args.length = args.map some
  unsupplied : ∀ x ∈ ps.optional.drop (args.length - ps.required.length),
    h.own? scope x.text = some .nil

end Form.Parameters

structure Heap.HasParameters (h : Heap) (k : Nat) (ps : Form.Parameters) : Prop where
  required : h.items (h.closureAt k).required = ps.required.map .str
  optional : h.items (h.closureAt k).optional = ps.optional.map .str
  rest : (h.closureAt k).rest = ps.rest

/-- The function `k` has the parameters, these forms in its body, this scope and this name. -/
structure Heap.HasFunction (h : Heap) (k : Nat) (ps : Form.Parameters) (forms : List Value)
    (scope : Nat) (name : Option Str) : Prop extends h.HasParameters k ps where
  items_body : h.items (h.closureAt k).body = forms
  scope_eq : (h.closureAt k).scope = scope
  name_eq : (h.closureAt k).name = name
  bound : k < h.closures.size
  required_lt : (h.closureAt k).required < h.sequences.size
  optional_lt : (h.closureAt k).optional < h.sequences.size
  body_lt : (h.closureAt k).body < h.sequences.size

/-! ## New functions -/

namespace Heap

def newFunction (h : Heap) (ps : Form.Parameters) (forms : List Value) (scope : Nat)
    (name : Option Str) : Nat × Heap :=
  let required := h.newSequence (ps.required.map .str)
  let optional := required.2.newSequence (ps.optional.map .str)
  let body := optional.2.newSequence forms
  body.2.newClosure ⟨required.1, optional.1, ps.rest, body.1, scope, name⟩

theorem hasFunction_newFunction (h : Heap) (ps : Form.Parameters) (forms : List Value) (scope : Nat)
    (name : Option Str) :
    (h.newFunction ps forms scope name).2.HasFunction (h.newFunction ps forms scope name).1 ps forms
      scope name := by
  let required := h.newSequence (ps.required.map .str)
  let optional := required.2.newSequence (ps.optional.map .str)
  let body := optional.2.newSequence forms
  let made := h.newFunction ps forms scope name
  have hmade : made.2.closureAt made.1 = ⟨required.1, optional.1, ps.rest, body.1, scope, name⟩ := by
    simp [made, newFunction, required, optional, body, newClosure, closureAt]
  have hrequired : required.1 < required.2.sequences.size := by simp [required, newSequence]
  have hoptional : optional.1 < optional.2.sequences.size := by simp [optional, newSequence]
  have hbody : body.1 < body.2.sequences.size := by simp [body, newSequence]
  have hrequired' : required.1 < optional.2.sequences.size :=
    Nat.lt_of_lt_of_le hrequired (by simp [optional, newSequence])
  have hle : optional.2.sequences.size ≤ body.2.sequences.size := by simp [body, newSequence]
  constructor
  · constructor <;> rw [hmade]
    · show body.2.items required.1 = _
      rw [items_newSequence_of_lt hrequired', items_newSequence_of_lt hrequired]
      exact items_newSequence _ _
    · show body.2.items optional.1 = _
      rw [items_newSequence_of_lt hoptional]
      exact items_newSequence _ _
  · rw [hmade]
    exact items_newSequence _ _
  · rw [hmade]
  · rw [hmade]
  · simp [newFunction, newClosure]
  · rw [hmade]
    exact Nat.lt_of_lt_of_le hrequired' hle
  · rw [hmade]
    exact Nat.lt_of_lt_of_le hoptional hle
  · rw [hmade]
    exact hbody

end Heap

/-! ## Parameter lists -/

namespace Form

variable {m m' : Machine} {v : Value} {ps ps' : Parameters}

theorem raise_shown_ne_ok {α : Type} {a : α} {fault : String → EvalFault} :
    (shown v >>= fun text => raise (fault text)) m ≠ .ok a m' := by
  intro h
  cases hshown : shown v m with
  | ok text m₁ =>
    rw [bind_of_ok hshown] at h
    cases h
  | error stop m₁ =>
    rw [bind_of_error hshown] at h
    cases h

theorem eq_of_symbol {what : String} {s : Str} (h : symbol what v m = .ok s m') : m' = m := by
  cases v with
  | sym x => cases h; rfl
  | _ => exact absurd h raise_shown_ne_ok

/-- Sorting the names of a parameter list changes nothing. -/
theorem eq_of_sortParameters {current : Section} {vs : List Value}
    (h : sortParameters current ps vs m = .ok ps' m') : m' = m := by
  induction vs generalizing current ps with
  | nil => cases h; rfl
  | cons v vs ih =>
    rw [sortParameters] at h
    cases hsymbol : symbol "Parameter" v m with
    | error stop m₁ =>
      rw [bind_of_error hsymbol] at h
      cases h
    | ok s m₁ =>
      obtain rfl := eq_of_symbol hsymbol
      rw [bind_of_ok hsymbol] at h
      split at h
      · exact ih h
      split at h
      · exact ih h
      cases current with
      | required | optional => exact ih h
      | rest =>
        simp only at h
        split at h
        · cases h
        · exact ih h

theorem eq_of_parameters (h : parameters v m = .ok ps m') : m' = m := by
  cases hv : v.sequence? with
  | some a =>
    rw [parameters, hv] at h
    exact eq_of_sortParameters h
  | none =>
    rw [parameters, hv] at h
    exact absurd h raise_shown_ne_ok

theorem function_eq (h : parameters v m = .ok ps m) (forms : List Value) (scope : Nat)
    (name : Option Str) :
    let made := m.heap.newFunction ps (forms.dropWhile (isDeclaration m.heap)) scope name
    function v forms scope name m = .ok (.closure made.1) { m with heap := made.2 } := by
  rw [function, bind_of_ok h]
  rfl

theorem exists_function (h : parameters v m = .ok ps m') (forms : List Value) (scope : Nat)
    (name : Option Str) : ∃ k h', function v forms scope name m = .ok (.closure k) { m with heap := h' } ∧
      h'.HasParameters k ps := by
  obtain rfl := eq_of_parameters h
  exact ⟨_, _, function_eq h forms scope name,
    (Heap.hasFunction_newFunction _ _ _ _ _).toHasParameters⟩

end Form

/-! ## Bindings of parameters -/

namespace Heap

variable {h : Heap} {s : Nat} {xs : List Str} {args : List Value} {name : String}

/-- The heap in which a scope binds each name to its argument, and to `nil` when there is none. -/
def bindAll (s : Nat) : List Str → List Value → Heap → Heap
  | [], _, h => h
  | x :: xs, args, h => bindAll s xs args.tail (h.define s x (args.headD .nil))

theorem size_scopes_bindAll : (bindAll s xs args h).scopes.size = h.scopes.size := by
  induction xs generalizing args h with
  | nil => rfl
  | cons x xs ih => rw [bindAll, ih, size_scopes_define]

theorem own?_bindAll_of_not_mem (hname : name ∉ xs.map (·.text)) :
    (bindAll s xs args h).own? s name = h.own? s name := by
  induction xs generalizing args h with
  | nil => rfl
  | cons x xs ih =>
    rw [List.map_cons, List.mem_cons, not_or] at hname
    rw [bindAll, ih hname.2, own?_define_of_text_ne (Ne.symm hname.1)]

theorem own?_bindAll_cons {x : Str} (hs : s < h.scopes.size) (hx : x.text ∉ xs.map (·.text)) :
    (bindAll s (x :: xs) args h).own? s x.text = some (args.headD .nil) := by
  rw [bindAll, own?_bindAll_of_not_mem hx, own?_define hs, if_pos rfl]

theorem map_own?_bindAll (hs : s < h.scopes.size) (hxs : (xs.map (·.text)).Nodup) :
    ((xs.take args.length).map fun x => (bindAll s xs args h).own? s x.text)
      = (args.take xs.length).map some := by
  induction xs generalizing args h with
  | nil => simp
  | cons x xs ih =>
    obtain ⟨hx, hxs⟩ := List.nodup_cons.1 hxs
    cases args with
    | nil => rfl
    | cons v args =>
      have hrest := @ih (h.define s x v) args (by rwa [size_scopes_define]) hxs
      rw [List.length_cons, List.length_cons, List.take_succ_cons, List.take_succ_cons,
        List.map_cons, List.map_cons, own?_bindAll_cons hs hx, bindAll]
      exact congrArg _ hrest

/-- Names without an argument are bound to `nil`. -/
theorem own?_bindAll_of_mem_drop (hs : s < h.scopes.size) (hxs : (xs.map (·.text)).Nodup)
    {x : Str} (hx : x ∈ xs.drop args.length) :
    (bindAll s xs args h).own? s x.text = some .nil := by
  induction xs generalizing args h with
  | nil => simp at hx
  | cons y xs ih =>
    obtain ⟨hy, hxs⟩ := List.nodup_cons.1 hxs
    have hsize : s < (h.define s y (args.headD .nil)).scopes.size := by rwa [size_scopes_define]
    cases args with
    | nil =>
      rcases List.mem_cons.1 hx with rfl | hx
      · exact own?_bindAll_cons hs hy
      · exact ih hsize hxs hx
    | cons v args => exact ih hsize hxs hx

/-- The heap with a new scope in which the required and the optional names are bound. -/
def withNamed (h : Heap) (k : Nat) (ps : Form.Parameters) (args : List Value) : Heap :=
  bindAll h.scopes.size (ps.required ++ ps.optional) args
    (h.newScope (some (h.closureAt k).scope)).2

/-- The heap with a new scope in which all parameters of a function are bound. -/
def withArguments (h : Heap) (k : Nat) (ps : Form.Parameters) (args : List Value) : Heap :=
  match ps.rest with
  | none => h.withNamed k ps args
  | some x =>
    let others := (h.withNamed k ps args).newSequence
      (args.drop (ps.required.length + ps.optional.length))
    others.2.define h.scopes.size x (.list others.1)

variable {k : Nat} {ps : Form.Parameters}

theorem lt_size_scopes_withNamed : h.scopes.size < (h.withNamed k ps args).scopes.size := by
  rw [withNamed, size_scopes_bindAll]
  simp [newScope]

/-- The list for the rest takes no name away. -/
theorem own?_withArguments (hnames : ps.names.Nodup) {x : Str} (hx : x ∈ ps.required ++ ps.optional) :
    (h.withArguments k ps args).own? h.scopes.size x.text
      = (h.withNamed k ps args).own? h.scopes.size x.text := by
  rw [withArguments]
  cases hrest : ps.rest with
  | none => rfl
  | some y =>
    have hne : y.text ≠ x.text := by
      rw [Form.Parameters.names, hrest, List.map_append, List.nodup_append] at hnames
      exact (hnames.2.2 _ (List.mem_map_of_mem hx) _ (by simp)).symm
    exact (own?_define_of_text_ne hne).trans (own?_congr rfl _ _)

theorem own?_withArguments_rest {x : Str} (hrest : ps.rest = some x) :
    ∃ a, (h.withArguments k ps args).own? h.scopes.size x.text = some (.list a) ∧
      (h.withArguments k ps args).items a
        = args.drop (ps.required.length + ps.optional.length) := by
  simp only [withArguments, hrest]
  refine ⟨_, (own?_define ?_ _ _ _).trans (if_pos rfl), items_newSequence _ _⟩
  exact lt_size_scopes_withNamed

/-- The parameters show the arguments that are bound to them. -/
theorem binds_withArguments (hnames : ps.names.Nodup) (hargs : ¬ ps.Refuses args.length) :
    ps.Binds (h.withArguments k ps args) h.scopes.size args := by
  rw [Form.Parameters.Refuses, not_or, Nat.not_lt] at hargs
  obtain ⟨hleast, hmost⟩ := hargs
  have hsize : h.scopes.size < (h.newScope (some (h.closureAt k).scope)).2.scopes.size := by
    simp [newScope]
  have hnodup : ((ps.required ++ ps.optional).map (·.text)).Nodup := by
    rw [Form.Parameters.names, List.map_append] at hnames
    exact hnames.of_append_left
  have htake : (ps.required ++ ps.optional).take args.length
      = ps.required ++ ps.optional.take (args.length - ps.required.length) := by
    rw [List.take_append, List.take_of_length_le hleast]
  have hdrop : (ps.required ++ ps.optional).drop args.length
      = ps.optional.drop (args.length - ps.required.length) := by
    rw [List.drop_append, List.drop_of_length_le hleast, List.nil_append]
  constructor
  · have hnamed : (ps.required ++ ps.optional.take (args.length - ps.required.length)).map
          ((h.withArguments k ps args).own? h.scopes.size ·.text)
        = (args.take (ps.required.length + ps.optional.length)).map some := by
      rw [← htake, ← List.length_append, ← map_own?_bindAll hsize hnodup]
      exact List.map_congr_left fun x hx => own?_withArguments hnames (List.mem_of_mem_take hx)
    rw [Form.Parameters.readBack, hnamed]
    cases hrest : ps.rest with
    | none =>
      have hle : args.length ≤ ps.required.length + ps.optional.length := by
        by_contra hlt
        exact hmost ⟨Nat.lt_of_not_le hlt, hrest⟩
      rw [List.append_nil, List.take_of_length_le hle]
    | some x =>
      obtain ⟨a, hown, hitems⟩ : ∃ a,
          (h.withArguments k ps args).own? h.scopes.size x.text = some (.list a) ∧
            (h.withArguments k ps args).items a
              = args.drop (ps.required.length + ps.optional.length) :=
        own?_withArguments_rest hrest
      simp only [hown, hitems]
      rw [← List.map_append, List.take_append_drop]
  · intro x hx
    rw [own?_withArguments hnames (List.mem_append_right _ (List.mem_of_mem_drop hx))]
    exact own?_bindAll_of_mem_drop hsize hnodup (hdrop ▸ hx)

end Heap

/-! ## Calls -/

def Machine.calling (m : Machine) (k : Nat) (args : List Value) (name : Option String) : Machine :=
  { m with
    calls := ⟨nameOr name (m.heap.closureAt k).label, args⟩ :: m.calls
    notes := .call (nameOr name (Value.closure k).typeName) args.length :: m.notes }

namespace Interp

variable {m : Machine} {k : Nat} {ps : Form.Parameters} {args : List Value} {name : Option String}

/-- What ends a call that has a result. -/
def leaving (x : Eval Value) : Eval Value := do
  let v ← x
  modify fun m => { m with calls := m.calls.tail }
  return v

/-- Evaluate the body of the function `k`, as it is in the heap, in a scope, and end the call. -/
def finishCall (next : Interp) (h : Heap) (k scope : Nat) : Eval Value :=
  leaving (next.liveBody scope (h.closureAt k).body (h.items (h.closureAt k).body).length 0 .nil)

theorem bindParameters_bindAll (s : Nat) : ∀ (xs : List Str) (args : List Value) (m : Machine),
    bindParameters s (xs.map .str) args m = .ok () { m with heap := m.heap.bindAll s xs args }
  | [], _, _ => rfl
  | x :: xs, args, m =>
    bindParameters_bindAll s xs args.tail { m with heap := m.heap.define s x (args.headD .nil) }

/-- A number of arguments that the parameters do not take is refused. -/
theorem applyClosure_of_refuses (hk : m.heap.HasParameters k ps) (hargs : ps.Refuses args.length) :
    ∃ f : EvalFault, f.category = .arity ∧ ∀ next, applyClosure next k args m = .error (.fault f) m := by
  have hheap : heap m = .ok m.heap m := rfl
  by_cases hfew : args.length < ps.required.length
  · refine ⟨.tooFewArguments (m.heap.closureAt k).label ps.required.length args.length, rfl,
      fun next => ?_⟩
    refine (bind_of_ok hheap).trans ?_
    simp only [hk.required, List.length_map, hfew, if_true]
    rfl
  · obtain ⟨hmany, hrest⟩ := hargs.resolve_left hfew
    refine ⟨.tooManyArguments (m.heap.closureAt k).label
      (ps.required.length + ps.optional.length) args.length, rfl, fun next => ?_⟩
    refine (bind_of_ok hheap).trans ?_
    simp only [hk.required, hk.optional, hk.rest, hrest, List.length_map, hfew, hmany, if_false,
      Option.isNone_none, Bool.true_and, decide_true, if_true]
    rfl

/-- Other arguments are bound, and the body is evaluated in their scope. -/
theorem applyClosure_of_not_refuses (hk : m.heap.HasParameters k ps)
    (hargs : ¬ ps.Refuses args.length) (next : Interp) :
    applyClosure next k args m = next.liveBody m.heap.scopes.size (m.heap.closureAt k).body
      (m.heap.items (m.heap.closureAt k).body).length 0 .nil
      { m with heap := m.heap.withArguments k ps args } := by
  rw [Form.Parameters.Refuses, not_or] at hargs
  obtain ⟨hfew, hmany⟩ := hargs
  have hheap : heap m = .ok m.heap m := rfl
  refine (bind_of_ok hheap).trans ?_
  have hmany' : ((m.heap.closureAt k).rest.isNone
      && decide (ps.required.length + ps.optional.length < args.length)) = false := by
    rw [hk.rest, Bool.and_eq_false_iff, decide_eq_false_iff_not, Option.isNone_eq_false_iff,
      Option.isSome_iff_ne_none]
    tauto
  simp only [hk.required, hk.optional, List.length_map, hfew, hmany', if_false, Bool.false_eq_true,
    ← List.map_append]
  have hscope : onHeap (·.newScope (some (m.heap.closureAt k).scope)) m = .ok m.heap.scopes.size
      { m with heap := (m.heap.newScope (some (m.heap.closureAt k).scope)).2 } := rfl
  refine (bind_of_ok hscope).trans ((bind_of_ok (bindParameters_bindAll _ _ _ _)).trans ?_)
  rw [hk.rest, Heap.withArguments]
  cases ps.rest <;> rfl

theorem callValue_closure (next : Interp) : callValue next (.closure k) args name m =
    leaving (applyClosure next k args) (m.calling k args name) := rfl

theorem callValue_of_refuses (hk : m.heap.HasParameters k ps) (hargs : ps.Refuses args.length) :
    ∃ f : EvalFault, f.category = .arity ∧ ∀ next,
      callValue next (.closure k) args name m = .error (.fault f) (m.calling k args name) := by
  obtain ⟨f, hf, happly⟩ := applyClosure_of_refuses (m := m.calling k args name) hk hargs
  exact ⟨f, hf, fun next => (callValue_closure next).trans (bind_of_error (happly next))⟩

theorem callValue_of_not_refuses (hk : m.heap.HasParameters k ps) (hargs : ¬ ps.Refuses args.length)
    (next : Interp) : callValue next (.closure k) args name m =
      next.finishCall m.heap k m.heap.scopes.size
        { m.calling k args name with heap := m.heap.withArguments k ps args } := by
  have happly := applyClosure_of_not_refuses (m := m.calling k args name) hk hargs next
  rw [callValue_closure, finishCall, leaving, leaving]
  show EStateM.bind _ _ _ = EStateM.bind _ _ _
  rw [EStateM.bind, EStateM.bind, happly]
  rfl

/-- Where there is nothing to evaluate with, a body is no cause of a fault. -/
theorem finishCall_exhausted_ne_fault {h : Heap} {scope : Nat} {f : EvalFault} {m' : Machine} :
    exhausted.finishCall h k scope m ≠ .error (.fault f) m' := by
  intro hfault
  rw [finishCall] at hfault
  cases hlength : (h.items (h.closureAt k).body).length with
  | zero => rw [hlength] at hfault; cases hfault
  | succ n => rw [hlength] at hfault; cases hfault

/-- A function made from a parameter list with different names refuses the numbers of arguments
that are too small for its required names, or too large when nothing takes the rest: the call is an
error of arity, whatever the body would do. Otherwise the body is evaluated in a new scope that
gives the arguments back, and has `nil` for each optional name without one. -/
theorem call_binds {v : Value} {m' : Machine} (hps : Form.parameters v m = .ok ps m')
    (hnames : ps.names.Nodup) (forms : List Value) (scope : Nat) (own : Option Str) :
    ∃ k h, Form.function v forms scope own m = .ok (.closure k) { m with heap := h } ∧
      h.HasParameters k ps ∧ ∀ m₁ : Machine, m₁.heap.HasParameters k ps →
        ∀ (args : List Value) (name : Option String),
          ((∃ f : EvalFault, f.category = .arity ∧ ∀ next, callValue next (.closure k) args name m₁
              = .error (.fault f) (m₁.calling k args name)) ↔
            args.length < ps.required.length ∨
              ps.required.length + ps.optional.length < args.length ∧ ps.rest = none) ∧
          (¬ ps.Refuses args.length →
            ps.Binds (m₁.heap.withArguments k ps args) m₁.heap.scopes.size args ∧
            ∀ next, callValue next (.closure k) args name m₁
              = next.finishCall m₁.heap k m₁.heap.scopes.size
                  { m₁.calling k args name with heap := m₁.heap.withArguments k ps args }) := by
  obtain ⟨k, h, hfunction, hparameters⟩ := Form.exists_function hps forms scope own
  refine ⟨k, h, hfunction, hparameters, fun m₁ hk args name => ⟨⟨?_, ?_⟩, fun hargs => ?_⟩⟩
  · rintro ⟨f, -, hcall⟩
    by_contra hargs
    exact finishCall_exhausted_ne_fault
      ((callValue_of_not_refuses hk hargs exhausted).symm.trans (hcall exhausted))
  · exact callValue_of_refuses hk
  · exact ⟨Heap.binds_withArguments hnames hargs, callValue_of_not_refuses hk hargs⟩

/-- The rest before the optional names, and one marker twice: no arguments are too few, and four
are bound. -/
theorem call_binds_markers :
    let name (s : String) : Str := .fixed s
    let h : Heap := { Heap.empty with sequences := #[["x", "&rest", "r", "&optional", "a", "&optional",
      "b"].map fun s => .sym (name s)] }
    let ps : Form.Parameters := ⟨[name "x"], [name "a", name "b"], some (name "r")⟩
    let args : List Value := [.int 1, .int 2, .int 3, .int 4]
    Form.parameters (.list 0) ⟨h, [], [], []⟩ = .ok ps ⟨h, [], [], []⟩ ∧ ps.names.Nodup ∧
      ∃ k h', Form.function (.list 0) [] 0 none ⟨h, [], [], []⟩
          = .ok (.closure k) ⟨h', [], [], []⟩ ∧
        (∃ f : EvalFault, f.category = .arity ∧ ∀ next, callValue next (.closure k) [] none
          ⟨h', [], [], []⟩ = .error (.fault f) (Machine.calling ⟨h', [], [], []⟩ k [] none)) ∧
        ps.Binds (h'.withArguments k ps args) h'.scopes.size args := by
  intro name h ps args
  have hps : Form.parameters (.list 0) ⟨h, [], [], []⟩ = .ok ps ⟨h, [], [], []⟩ := rfl
  have hnames : ps.names.Nodup := by decide
  obtain ⟨k, h', hfunction, hk, hcall⟩ := call_binds hps hnames [] 0 none
  exact ⟨hps, hnames, k, h', hfunction, (hcall ⟨h', [], [], []⟩ hk [] none).1.2 (by decide),
    ((hcall ⟨h', [], [], []⟩ hk args none).2 (by decide)).1⟩

end Interp

end Sigil
