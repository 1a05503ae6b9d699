import TailLisp.Run.Arithmetic
import TailLisp.Run.World

/-!
# TailLisp.Run.Interp

**Iteration, dictionaries and sequences.** Going through the items of a value may run code of the
program, since an iterator can apply a function of the program to what it yields. An `Interp`
gives the two operations that run code: calling a value and taking the next item of an iterator.
It also says how often a loop of the program may go round.
-/

namespace TailLisp

/-- The operations that run code of the program. -/
structure Interp where
  call : Value → List Value → Exec Value
  next : Nat → Exec (Option Value)
  /-- How often a loop of the program may go round. -/
  loopLimit : Nat

namespace Interp

/-- How often anything may go round. No run comes near it; it makes every run end. -/
def roundLimit : Nat := 1000000000000

/-! ### Numbers -/

/-- The number that a value is. -/
def number? : Value → Option Number
  | .const c => c.number?
  | .complex z => some (.complex z)
  | _ => none

/-- The integer that a value is; booleans count. -/
def whole? : Value → Option Int
  | .const c => c.whole?
  | _ => none

/-- The whole part of a floating-point number. -/
def wholePart (x : Double) : Except Failure Int :=
  match x.truncate? with
  | some i => .ok i
  | none => .error (if x.isNan then .nanInteger else .infiniteInteger)

/-! ### Iteration -/

/-- The next items of iterators, in order, as long as none has ended. -/
def nextAll (self : Interp) : List Nat → Exec (Option (List Value))
  | [] => pure (some [])
  | ref :: refs => do
    match ← self.next ref with
    | none => return none
    | some v =>
      match ← nextAll self refs with
      | none => return none
      | some vs => return some (v :: vs)

/-- Take the next item of an iterator, given how to run code. -/
def nextStep (self : Interp) (ref : Nat) : Exec (Option Value) := do
  match ← Exec.iterAt ref with
  | .list list position =>
    match (← Exec.listAt list)[position]? with
    | some v =>
      Exec.setIter ref (.list list (position + 1))
      return some v
    | none =>
      Exec.setIter ref (.row "list_iterator" [])
      return none
  | .row _ [] => return none
  | .row kind (v :: vs) =>
    Exec.setIter ref (.row kind vs)
    return some v
  | .range _ _ 0 _ => return none
  | .range kind i (left + 1) step =>
    Exec.setIter ref (.range kind (i + step) left step)
    return some (.ofInt i)
  | .map fn sources =>
    match ← nextAll self sources with
    | none => return none
    | some args => return some (← self.call fn args)
  | .calls fn last =>
    let v ← self.call fn []
    if ← Exec.same last v then
      Exec.setIter ref (.row "callable_iterator" [])
      return none
    else return some v

/-- The items an iterator has left, if there is room for them: they are less than `rounds`. -/
def drainIter (self : Interp) (ref : Nat) : Nat → Exec (List Value)
  | 0 => Exec.fail .memory
  | rounds + 1 => do
    match ← self.next ref with
    | none => return []
    | some v => return v :: (← drainIter self ref rounds)

/-- The largest number of items that a collection can tell of itself. -/
def greatestLength : Nat := 9223372036854775807

/-- Check that there is room for a number of items. `tooLong` is the failure of a number that cannot
be told. -/
def checkRoom (tooLong : Failure) (n : Nat) : Exec Unit := do
  if n ≤ (← get).room then return ()
  else Exec.fail (if greatestLength < n then tooLong else .memory)

/-- The numbers of a range as values. -/
def rangeValues (start stop step : Int) : Exec (List Value) := do
  checkRoom .lengthOverflow (rangeLength start stop step)
  return (rangeItems start stop step).map .ofInt

/-- Go through a value once and keep its items. -/
def drain (self : Interp) (v : Value) : Exec (List Value) := do
  match v with
  | .list ref => Exec.items ref
  | .tuple items => return items
  | .const (.str s) => return Value.chars s
  | .dict entries => return entries.map (·.1)
  | .range start stop step => rangeValues start stop step
  | .iterator ref =>
    match ← Exec.iterAt ref with
    | .range _ _ left _ => checkRoom .lengthOverflow left
    | _ => pure ()
    drainIter self ref ((← get).room + 1)
  | v => Exec.fail (.notIterable (← Exec.typeName v))

/-- Does an integer have at most 64 bits? -/
def isShort (i : Int) : Bool := -9223372036854775808 ≤ i && i ≤ 9223372036854775807

/-- The kind of iterator that goes through a range: a short one as long as no number on the way
needs more than 64 bits. -/
def rangeKind (start stop step : Int) : String :=
  let n := rangeLength start stop step
  if isShort start && isShort stop && isShort step && n ≤ greatestLength
      && (n == 0 || isShort (if 0 < step then stop + (step - 1) else stop + (step + 1)))
  then "range_iterator" else "longrange_iterator"

/-- The kind of iterator that goes through a string. -/
def stringKind (s : String) : String :=
  if s.toList.all fun c => c.toNat < 128 then "str_ascii_iterator" else "str_iterator"

/-- An iterator over a value; an iterator is one over itself. -/
def iterate (v : Value) : Exec Nat := do
  match v with
  | .iterator ref => return ref
  | .list ref => Exec.newIter (.list ref 0)
  | .tuple items => Exec.newIter (.row "tuple_iterator" items)
  | .const (.str s) => Exec.newIter (.row (stringKind s) (Value.chars s))
  | .dict entries => Exec.newIter (.row "dict_keyiterator" (entries.map (·.1)))
  | .range start stop step =>
    Exec.newIter
      (.range (rangeKind start stop step) start (rangeLength start stop step) step)
  | v => Exec.fail (.notIterable (← Exec.typeName v))

/-- Run a step on each item that an iterator has left, at most `rounds` of them. -/
def foldIter {α : Type} (self : Interp) (ref : Nat) (step : α → Value → Exec α) :
    Nat → α → Exec α
  | 0, _ => Exec.fail .exhausted
  | rounds + 1, a => do
    match ← self.next ref with
    | none => return a
    | some v => foldIter self ref step rounds (← step a v)

/-! ### Sequences -/

/-- Is the value a sequence: a list, tuple, string or range? -/
def isSequence : Value → Bool
  | .list _ | .tuple _ | .range .. | .const (.str _) => true
  | _ => false

/-- The length of a collection. -/
def lengthOf (v : Value) : Exec Nat := do
  match v with
  | .list ref => return (← Exec.listAt ref).size
  | .tuple items => return items.length
  | .const (.str s) => return s.length
  | .dict entries => return entries.length
  | .range start stop step =>
    let n := rangeLength start stop step
    if greatestLength < n then Exec.fail .lengthOverflow else return n
  | v => Exec.fail (.noLength (← Exec.typeName v))

/-- The item of a sequence at a position. -/
def itemAt? (v : Value) (i : Nat) : Exec (Option Value) :=
  match v with
  | .list ref => return (← Exec.listAt ref)[i]?
  | .tuple items => return items[i]?
  | .const (.str s) => return (s.toList[i]?).map fun c => .ofString c.toString
  | .range start stop step =>
    return if i < rangeLength start stop step then some (.ofInt (start + i * step)) else none
  | _ => return none

/-- The two parts of a pair: a list, tuple or range of two items. -/
def pair? (v : Value) : Exec (Option (Value × Value)) := do
  match v with
  | .list ref =>
    match ← Exec.items ref with
    | [a, b] => return some (a, b)
    | _ => return none
  | .tuple [a, b] => return some (a, b)
  | .range start _ step =>
    if (← lengthOf v) == 2 then return some (.ofInt start, .ofInt (start + step))
    else return none
  | _ => return none

/-! ### Dictionaries -/

/-- A value that is to be a key has to be one that does not change. -/
def checkKey (v : Value) : Exec Unit := do
  match (← Exec.read v).unhashable? with
  | some type => Exec.fail (.unhashable type)
  | none => return ()

/-- Set a key among entries; a key that is there keeps its place and itself. -/
def setEntry (isKey : Value → Bool) (key value : Value) :
    List (Value × Value) → List (Value × Value)
  | [] => [(key, value)]
  | (k, v) :: entries =>
    if isKey k then (k, value) :: entries else (k, v) :: setEntry isKey key value entries

/-- Set a key among the entries of a dictionary. -/
def putEntry (entries : List (Value × Value)) (entry : Value × Value) :
    Exec (List (Value × Value)) := do
  checkKey entry.1
  let w ← get
  let datum := w.read entry.1
  return setEntry (fun k => (w.read k).same datum) entry.1 entry.2 entries

/-- A dictionary of keys and values, set in order. -/
def dictOf (entries : List (Value × Value)) : Exec Value := do
  return .dict (← entries.foldlM putEntry [])

/-- The value of a key. -/
def valueAt? (entries : List (Value × Value)) (key : Value) : Exec (Option Value) := do
  checkKey key
  let w ← get
  let datum := w.read key
  return (entries.find? fun e => (w.read e.1).same datum).map (·.2)

end Interp

end TailLisp
