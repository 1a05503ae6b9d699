import TailLisp.Run.Format

/-!
# TailLisp.Run.Operation

**Operators on values.** Numbers are computed with; two strings, lists or tuples are joined by
`+` and repeated by `*`, and `%` fills in a string on its left. Comparisons by order exist within
numbers, strings, lists and tuples.
-/

namespace TailLisp.Interp

/-! ### Operators -/

/-- Two operands that an operator does not take. -/
def refuse {α : Type} (op : BinaryOp) (a b : Value) : Exec α := do
  Exec.fail (.operands (Number.signOf op) (← Exec.typeName a) (← Exec.typeName b))

/-- A row of items repeated a number of times; less than once is not at all. -/
def repeated {α : Type} (items : List α) (times : Int) : List α :=
  if items.isEmpty then [] else (List.replicate times.toNat items).flatten

/-- Is there room for a row of `n` items repeated a number of times? `tooLong` is the failure of
a row that is longer than can be told. -/
def checkRepeat (tooLong : Failure) (n : Nat) (times : Int) : Exec Unit :=
  if times < -9223372036854775808 || 9223372036854775807 < times then Exec.fail .countOverflow
  else checkRoom tooLong (n * times.toNat)

/-- A sequence repeated a number of times. -/
def repeat? (v : Value) (times : Int) : Exec (Option Value) := do
  match v with
  | .const (.str s) =>
    checkRepeat .textOverflow s.length times
    return some (.ofString (String.ofList (repeated s.toList times)))
  | .list ref =>
    let items ← Exec.items ref
    checkRepeat .memory items.length times
    return some (← Exec.newList (repeated items times))
  | .tuple items =>
    checkRepeat .memory items.length times
    return some (.tuple (repeated items times))
  | _ => return none

/-- Can the value be joined and repeated? -/
def isRow : Value → Bool
  | .const (.str _) | .list _ | .tuple _ => true
  | _ => false

/-- `+` of two values that are not both numbers. -/
def join (a b : Value) : Exec Value := do
  match a, b with
  | .const (.str s), .const (.str t) => return .ofString (s ++ t)
  | .list r, .list s => Exec.newList ((← Exec.items r) ++ (← Exec.items s))
  | .tuple r, .tuple s => return .tuple (r ++ s)
  | a, b =>
    if isRow a then Exec.fail (.concatenation (← Exec.typeName a) (← Exec.typeName b))
    else refuse .add a b

/-- `*` of two values that are not both numbers. -/
def multiply (a b : Value) : Exec Value := do
  match whole? a, whole? b with
  | _, some n =>
    match ← repeat? a n with
    | some v => return v
    | none => refuse .mul a b
  | some n, none =>
    match ← repeat? b n with
    | some v => return v
    | none => refuse .mul a b
  | none, none =>
    if isRow a then Exec.fail (.repetition (← Exec.typeName b))
    else if isRow b then Exec.fail (.repetition (← Exec.typeName a))
    else refuse .mul a b

/-- An operator on two values. -/
def binary (op : BinaryOp) (a b : Value) : Exec Value := do
  match number? a, number? b with
  | some m, some n =>
    match m.apply op n with
    | .ok c => Exec.ofNumber c
    | .error (.operands ..) => refuse op a b
    | .error failure => Exec.fail failure
  | _, _ =>
    match op with
    | .add => join a b
    | .mul => multiply a b
    | .mod =>
      match a with
      | .const (.str s) => return .ofString (← format s b)
      | _ => refuse op a b
    | _ => refuse op a b

/-- An operator on one value. -/
def unary (op : UnaryOp) (a : Value) : Exec Value := do
  match op with
  | .not => return .ofBool !(← Exec.truth a)
  | .neg =>
    match number? a with
    | some n => Exec.ofNumber n.neg
    | none => Exec.fail (.operand "unary -" (← Exec.typeName a))

/-! ### Comparisons -/

/-- A comparison by order. -/
def ordered (op : CompareOp) (a b : Value) : Exec Bool := do
  match (← Exec.read a).ordered op (← Exec.read b) with
  | .ok answer => return answer
  | .error (left, right) => Exec.fail (.unordered op.symbol left right)

/-- Are two values one and the same? -/
def identical (a b : Value) : Bool :=
  match a, b with
  | .const c, .const d => c == d
  | .list r, .list s => r == s
  | .tuple [], .tuple [] => true
  | .keyword _ _ i, .keyword _ _ j => i == j
  | .function f, .function g => f.id == g.id
  | .native f, .native g => f == g
  | .iterator r, .iterator s => r == s
  | _, _ => false

/-- Does a row of characters occur in another? -/
def occursIn (part : List Char) : List Char → Bool
  | [] => part.isEmpty
  | c :: cs => part.isPrefixOf (c :: cs) || occursIn part cs

/-- Is a number in a range? -/
def inRange (i start stop step : Int) : Bool :=
  let n := (i - start) / step
  0 ≤ n && n < rangeLength start stop step && start + n * step == i

/-- The integer that a number is equal to. -/
def integerEqual? : Number → Option Int
  | .int i => some i
  | .double x => if Number.isWhole x then x.floor? else none
  | .complex z => if z.im.isZero && Number.isWhole z.re then z.re.floor? else none

/-- Does an item occur in what an iterator has left? It is used up to there. -/
def searchIter (self : Interp) (item : Value) (ref : Nat) : Nat → Exec Bool
  | 0 => Exec.fail .exhausted
  | rounds + 1 => do
    match ← self.next ref with
    | none => return false
    | some v => if ← Exec.same v item then return true else searchIter self item ref rounds

/-- Is an item in a row of values? -/
def memberOf (item : Value) (items : List Value) : Exec Bool := do
  let w ← get
  let datum := w.read item
  return items.any fun v => (w.read v).same datum

/-- Is an item in a collection? -/
def contains (self : Interp) (item collection : Value) : Exec Bool := do
  match collection with
  | .const (.str s) =>
    match item with
    | .const (.str part) => return occursIn part.toList s.toList
    | _ => Exec.fail (.notSubstring (← Exec.typeName item))
  | .dict entries => return (← valueAt? entries item).isSome
  | .iterator ref => searchIter self item ref roundLimit
  | .range start stop step =>
    match (number? item).bind integerEqual? with
    | some i => return inRange i start stop step
    | none => return false
  | .list ref => memberOf item (← Exec.items ref)
  | .tuple items => memberOf item items
  | collection => Exec.fail (.notContainer (← Exec.typeName collection))

/-- The answer to a comparison. -/
def compare (self : Interp) (op : CompareOp) (a b : Value) : Exec Bool := do
  match op with
  | .eq => Exec.equal a b
  | .notEq => return !(← Exec.equal a b)
  | .same => return identical a b
  | .notSame => return !identical a b
  | .memberOf => contains self a b
  | .notMemberOf => return !(← contains self a b)
  | op => ordered op a b

end TailLisp.Interp
