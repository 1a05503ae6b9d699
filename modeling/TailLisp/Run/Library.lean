import TailLisp.Run.Operation

/-!
# TailLisp.Run.Library

**The library** of running programs. `seq`, `nth`, `subseq` and `lookup` are what destructuring
uses: they never fail on a value of the wrong shape but treat it as one without parts.
-/

namespace TailLisp.Interp

/-! ### Positions -/

/-- A value that can be gone through more than once: a value that can be gone through only once,
and a dictionary, become a tuple; all others stay. -/
def seq (self : Interp) (coll : Value) : Exec Value :=
  match coll with
  | .dict _ | .iterator _ => return .tuple (← drain self coll)
  | coll => return coll

/-- The item of a row whose position equals an index. -/
def itemEqual (index : Datum) (i : Nat) : List Value → Option Value
  | [] => none
  | v :: vs => if (Datum.const (.int i)).equal index then some v else itemEqual index (i + 1) vs

/-- The item of an iterator whose position equals an index; the iterator is used up to there. -/
def iterItem (self : Interp) (index : Value) (ref : Nat) (i : Nat) : Nat → Exec (Option Value)
  | 0 => Exec.fail .exhausted
  | rounds + 1 => do
    match ← self.next ref with
    | none => return none
    | some v =>
      if ← Exec.equal (.ofInt i) index then return some v
      else iterItem self index ref (i + 1) rounds

/-- The item of a sequence at an index from zero on. -/
def sequenceItem (coll index : Value) : Exec (Option Value) := do
  if ← ordered .le (.ofInt 0) index then
    if ← ordered .lt index (.ofInt (← lengthOf coll)) then
      match whole? index with
      | some i => itemAt? coll i.toNat
      | none => Exec.fail (.notIndex (← Exec.typeName coll) (← Exec.typeName index))
    else return none
  else return none

/-- The item at an index, or a default where there is none. -/
def nth (self : Interp) (coll index default : Value) : Exec Value := do
  let item ← match coll with
    | .dict entries => pure (itemEqual (← Exec.read index) 0 (entries.map (·.1)))
    | .iterator ref => iterItem self index ref 0 roundLimit
    | coll => if isSequence coll then sequenceItem coll index else pure none
  return item.getD default

/-- Where a slice begins in a row of `n` items; a negative start counts from the end. -/
def clampStart (start : Int) (n : Nat) : Nat :=
  if start < 0 then (start + n).toNat else min start.toNat n

/-- The start of a slice of a row of `n` items. -/
def sliceStart (start : Value) (n : Nat) : Exec Nat :=
  match start, whole? start with
  | .const .nil, _ => return 0
  | _, some i => return clampStart i n
  | _, none => Exec.fail .notSlice

/-- How many items of a value that is gone through once are left out. -/
def skipCount (start : Value) : Exec Nat :=
  match start, whole? start with
  | .const .nil, _ => return 0
  | _, some i =>
    if 0 ≤ i && i < 9223372036854775808 then return i.toNat else Exec.fail .sliceStart
  | _, none => Exec.fail .sliceStart

/-- The items from a start on: of a list, tuple, string or range as one of the same kind, of any
other collection as a tuple, and none of what is no collection. -/
def subseq (self : Interp) (coll start : Value) : Exec Value := do
  match coll with
  | .list ref =>
    let items ← Exec.items ref
    Exec.newList (items.drop (← sliceStart start items.length))
  | .tuple items => return .tuple (items.drop (← sliceStart start items.length))
  | .const (.str s) =>
    return .ofString (String.ofList (s.toList.drop (← sliceStart start s.length)))
  | .range first stop step =>
    let n := rangeLength first stop step
    let i ← sliceStart start n
    return .range (first + i * step) (first + n * step) step
  | .dict entries => return .tuple ((entries.map (·.1)).drop (← skipCount start))
  | .iterator ref =>
    let skipped ← skipCount start
    return .tuple ((← drainIter self ref roundLimit).drop skipped)
  | _ => return .tuple []

/-! ### Tables -/

/-- The value of the first pair whose key equals a key; items that are no pairs are skipped. -/
def assoc? (key : Value) : List Value → Exec (Option Value)
  | [] => return none
  | item :: items => do
    match ← pair? item with
    | some (k, v) => if ← Exec.equal k key then return some v else assoc? key items
    | none => assoc? key items

/-- The value of a key in a dictionary, or in a sequence of pairs. -/
def find? (table key : Value) : Exec (Option Value) := do
  match table with
  | .dict entries => valueAt? entries key
  | .list ref => assoc? key (← Exec.items ref)
  | .tuple items => assoc? key items
  | _ => return none

/-- The value of a key; where it is missing, the value of the default, which is called unless it
is nil. -/
def lookup (self : Interp) (table key default : Value) : Exec Value := do
  match ← find? table key with
  | some v => return v
  | none =>
    match default with
    | .const .nil => return .nil
    | default => self.call default []

/-- The item at an integer index of a sequence, or the value of a key, or a default. -/
def getItem (self : Interp) (coll key default : Value) : Exec Value := do
  if isSequence coll && (whole? key).isSome then nth self coll key default
  else return (← find? coll key).getD default

/-! ### Collections -/

/-- How many items a collection has; nil has none. -/
def count (coll : Value) : Exec Nat := do
  match coll with
  | .const .nil => return 0
  | coll => lengthOf coll

/-- A collection with items added at its end, as a list unless it is a tuple. -/
def conj (self : Interp) (coll : Value) (items : List Value) : Exec Value := do
  match coll with
  | .const .nil => Exec.newList items
  | .tuple front => return .tuple (front ++ items)
  | coll => Exec.newList ((← drain self coll) ++ items)

/-- Keys and values in turn as pairs; `none` if one is left over. -/
def pairUp : List Value → Option (List (Value × Value))
  | [] => some []
  | [_] => none
  | key :: value :: rest => (pairUp rest).map ((key, value) :: ·)

/-- A dictionary from keys and values in turn. -/
def hashMap (args : List Value) : Exec Value :=
  match pairUp args with
  | some entries => dictOf entries
  | none => Exec.fail .oddHashMap

/-- Print values with a blank before each. -/
def printRest : List Value → Exec Unit
  | [] => return ()
  | v :: vs => do
    Exec.print " "
    Exec.print (← Exec.text v)
    printRest vs

/-- Print values with a blank between each two, and end the line. -/
def println (args : List Value) : Exec Value := do
  match args with
  | [] => pure ()
  | v :: vs =>
    Exec.print (← Exec.text v)
    printRest vs
  Exec.print "\n"
  return .nil

/-! ### Calls -/

/-- The failure of a call with a wrong number of arguments. -/
def argumentFault? (name : String) (required : List String) (optional : Nat) (anyNumber : Bool)
    (given : Nat) : Option Failure :=
  if given < required.length then some (.missingArguments name (required.drop given))
  else if anyNumber || given ≤ required.length + optional then none
  else some (.extraArguments name required.length (required.length + optional) given)

/-- Call a function of the library with arguments that its signature admits. -/
def applyLibrary (self : Interp) (fn : LibraryFn) (args : List Value) : Exec Value := do
  match fn, args with
  | .seq, coll :: _ => seq self coll
  | .nth, coll :: index :: rest => nth self coll index (rest.headD .nil)
  | .subseq, coll :: start :: _ => subseq self coll start
  | .lookup, table :: key :: rest => lookup self table key (rest.headD .nil)
  | .first, coll :: _ => nth self coll (.ofInt 0) .nil
  | .rest, coll :: _ => subseq self coll (.ofInt 1)
  | .count, coll :: _ => return .ofInt (← count coll)
  | .isEmpty, coll :: _ => return .ofBool ((← count coll) == 0)
  | .conj, coll :: items => conj self coll items
  | .vector, items => Exec.newList items
  | .hashMap, args => hashMap args
  | .get, coll :: key :: rest => getItem self coll key (rest.headD .nil)
  | .inc, x :: _ => binary .add x (.ofInt 1)
  | .dec, x :: _ => binary .sub x (.ofInt 1)
  | .println, args => println args
  | fn, args => Exec.fail (.missingArguments fn.name (fn.signature.required.drop args.length))

/-- Call a function of the library. -/
def callLibrary (self : Interp) (fn : LibraryFn) (args : List Value) : Exec Value :=
  let s := fn.signature
  match argumentFault? fn.name s.required s.optional s.anyNumber args.length with
  | some failure => Exec.fail failure
  | none => applyLibrary self fn args

end TailLisp.Interp
