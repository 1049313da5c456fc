import Sigil.Eval.Container

/-!
# The standard library

What each builtin function does with its arguments, whose number has been checked.
-/

namespace Sigil.Library

open Eval

/-! ## Numbers -/

def repeated (target : Value) (count : Int) : Eval Value := do
  match target with
  | .str s =>
    let n ← ofExcept (Value.copies true s.text.length count)
    newString (String.join (List.replicate n s.text))
  | target => match target.sequence? with
    | some a =>
      let items := (← heap).items a
      let n ← ofExcept (Value.copies false items.length count)
      newList (List.replicate n items).flatten
    | none => return target

def isRepeatable : Value → Bool
  | .str _ | .list _ | .vector _ => true
  | _ => false

/-- The product of two values, of which one may be repeated as often as the other says. -/
def product (a b : Value) : Eval Value :=
  if isRepeatable a then match b.integer? with
    | some n => repeated a n
    | none => raise (.badRepetition b.typeName)
  else if isRepeatable b then match a.integer? with
    | some n => repeated b n
    | none => raise (.badRepetition a.typeName)
  else ofExcept (a.mul b)

def combine (f : Value → Value → Eval Value) : Value → List Value → Eval Value
  | a, [] => return a
  | a, b :: bs => do combine f (← f a b) bs

/-- Whether a relation holds between all neighbours, up to the first pair of which it does not. -/
def chain (relation : Heap → Value → Value → Except EvalFault Bool) : List Value → Eval Bool
  | a :: b :: rest => do
    if ← ofExcept (relation (← heap) a b) then chain relation (b :: rest) else return false
  | _ => return true

def comparison (relation : Heap → Value → Value → Except EvalFault Bool) (args : List Value) :
    Eval Value :=
  if args.isEmpty then raise .nothingToCompare else return .bool (← chain relation args)

/-! ## Functions -/

/-- Call a function with the next elements of all walks until one of them ends. -/
def mapRounds (next : Interp) (f : Value) : Nat → List Container.Walk → List Value →
    Eval (List Value)
  | 0, _, _ => throw .exhausted
  | rounds + 1, walks, results => do
    match ← Container.Walk.nextAll walks with
    | none => return results.reverse
    | some (args, walks) =>
      let v ← next.call f args none
      mapRounds next f rounds walks (v :: results)

/-- Walks take no more rounds. A vector that grows while it is walked through is given up. -/
def roundLimit (h : Heap) (walks : List Container.Walk) : Nat :=
  (walks.map (·.ahead h)).foldr Nat.add 0 + twoTo 32

/-- The walk through an argument of `mapcar`, in which nothing is an empty sequence. -/
def walkThrough (v : Value) : Eval Container.Walk := do
  if Container.isNothing (← heap) v then return .chars [] else Container.walk v

def mapcar (next : Interp) (f : Value) (sequences : List Value) : Eval Value := do
  let walks ← sequences.mapM walkThrough
  let rounds := roundLimit (← heap) walks
  newList (← mapRounds next f rounds walks [])

def spread (args : List Value) : Eval (List Value) := do
  match args.getLast? with
  | none => return []
  | some .nil => return args.dropLast
  | some (.list a) | some (.vector a) => return args.dropLast ++ (← heap).items a
  | some _ => raise .notSpreadable

/-! ## Texts and effects -/

def joined (separator : String) (texts : List String) : String := String.intercalate separator texts

def concat (args : List Value) : Eval Value := do newString (joined "" (← args.mapM bare))

def topics (v : Value) : Eval (List String) := do
  match v.sequence? with
  | some a => return (← ((← heap).items a).mapM Container.fieldName).map (·.text)
  | none => return [(← Container.fieldName v).text]

/-- A value in a printed message: a string stands for itself. -/
def printedBare : Value → Eval String
  | .str s => return s.text
  | v => printed v

/-! ## Vectors and maps -/

def makeVector (size : Value) (contents : Value) : Eval Value := do
  let bad : Eval Value := do raise (.badVectorSize (← shown size))
  match size with
  | .int n =>
    if n < 0 then bad
    else match contents with
      | .nil =>
        if !Value.fitsIndex n then raise .countTooLarge
        else if Value.lengthLimit < n.toNat then raise .outOfMemory
        else newVector (List.replicate n.toNat .nil)
      | contents =>
        let items ← Container.elements contents
        if items.length = n.toNat then newVector items
        else raise (.sizeMismatch (← shown size) (toString items.length))
  | _ => bad

/-- Append to a vector; the result is the index of the new element. -/
def pushOnto (ref : Nat) (v : Value) : Eval Value := do
  let items := (← heap).items ref
  modifyHeap (·.setItems ref (items ++ [v]))
  return .int items.length

def sizeHint (v : Value) : Eval (Option SizeHint) := do
  match v with
  | .nil => return none
  | .bool b => return some (.flag b)
  | .int n => if n < 0 then raise (.badSizeHint (← shown v)) else return some (.count n)
  | v => raise (.badSizeHint (← shown v))

def mapTest (v : Value) : Eval MapTest := do
  let named (s : String) : Eval MapTest :=
    match MapTest.ofName? s with
    | some t => return t
    | none => raise (.unknownTest s)
  match v with
  | .nil => return .default
  | .sym s | .kw s | .str s => named s.text
  | v => raise (.badTest (← shown v))

def mapGet (target key default : Value) : Eval Value := do
  match target with
  | .map a => match (← heap).mapGet a key with
    | .ok v => return v
    | .error .missing => return default
    | .error .endless => raise (.endless .key)
  | target => Container.get target key

def predicate (test : MapTest) (a b : Value) : Eval Value := do
  match (← heap).sameKey test a b with
  | some same => return .bool same
  | none => raise (.endless .key)

/-! ## Access -/

def accessIndex (target index : Value) : Eval Value := do
  match index with
  | .int _ => match target with
    | .nil => raise (.nilIndex (← shown index))
    | target => Container.get target index
  | index => raise (.badIndex (← shown index))

/-! ## All builtins -/

/-- The argument at an index; an optional one that is not given is nil. -/
def arg (args : List Value) (i : Nat) : Value := args[i]?.getD .nil

def run (next : Interp) (b : Builtin) (args : List Value) : Eval Value := do
  let a := arg args 0
  match b with
  | .add => combine (fun x y => ofExcept (x.add y)) (.int 0) args
  | .sub => match args with
    | [x] => ofExcept x.neg
    | _ => combine (fun x y => ofExcept (x.sub y)) a (args.drop 1)
  | .mul => combine product (.int 1) args
  | .div => match args with
    | [x] => ofExcept (Value.div (.int 1) x)
    | _ => combine (fun x y => ofExcept (x.div y)) a (args.drop 1)
  | .numEq => comparison Heap.equal args
  | .lt => comparison (·.ordered .lt) args
  | .gt => comparison (·.ordered .gt) args
  | .lte => comparison (·.ordered .le) args
  | .gte => comparison (·.ordered .ge) args
  | .not => return .bool (!(← heap).isTrue a)
  | .eq => predicate .eq a (arg args 1)
  | .eql => predicate .eql a (arg args 1)
  | .equal => predicate .equal a (arg args 1)
  | .equalp => predicate .equalp a (arg args 1)
  | .list => newList args
  | .length => match a with
    | .nil => return .int 0
    | a => return .int (← Container.length a)
  | .concat => concat args
  | .funcall => next.call a (args.drop 1) none
  | .apply => next.call a (← spread (args.drop 1)) none
  | .mapcar => mapcar next a (args.drop 1)
  | .emit =>
    let ts ← topics a
    emit ⟨ts, joined " " (← (args.drop 1).mapM bare)⟩
    return .nil
  | .print =>
    emit ⟨["stdout"], joined " " (← args.mapM printedBare)⟩
    return args.getLastD .nil
  | .makeVector => makeVector a (arg args 1)
  | .vectorPushExtend => match arg args 1 with
    | .vector v => pushOnto v a
    | _ => raise .notVector
  | .makeMap =>
    let hint ← sizeHint (arg args 1)
    let test ← mapTest a
    return .map (← onHeap (·.newMap ⟨test, hint, []⟩))
  | .mapPut =>
    Container.put a (arg args 1) (arg args 2)
    return a
  | .mapGet => mapGet a (arg args 1) (arg args 2)
  | .mapCount => return .int (← Container.length a)
  | .mapKeys => newList (← Container.keys a)
  | .accessField => Container.field a (← Container.fieldName (arg args 1))
  | .accessIndex => accessIndex a (arg args 1)

end Sigil.Library
