import TailLisp.Run.Arithmetic
import TailLisp.Run.Native

/-!
# TailLisp.Run.Datum

**Data**: what a run-time value looks like at one moment. Data are compared, ordered and written
without a look at the state they were taken from; a list in it is the list of its items.

Two data can be one and the same (`identical`) and still not be equal: a NaN is not equal to
itself. Collections take an item for another one if it is equal or identical to it.
-/

namespace TailLisp

/-- A value at one moment. -/
inductive Datum where
  | const (value : Constant)
  | complex (value : Complex)
  | list (items : List Datum)
  | tuple (items : List Datum)
  /-- Keys and values in the order in which the keys were first set. -/
  | dict (entries : List (Datum × Datum))
  | range (start stop step : Int)
  /-- A keyword; the number tells apart keywords that were made separately. -/
  | keyword (name : Datum) (id : Nat)
  /-- A symbol with the lines and columns where it begins and ends. -/
  | symbol (name : Datum) (place : List Datum)
  /-- A function of the program; it equals only itself. -/
  | function (name : String) (doc : Option String) (id : Nat)
  | native (fn : Native)
  | bound (method : Bound)
  /-- Anything else, by its kind; it equals only itself. -/
  | object (kind : String) (id : Nat)
  /-- A list that the datum lies in, by its place. -/
  | enclosing (ref : Nat)
  deriving Repr, Inhabited

/-! ### Ranges -/

/-- How many numbers there are from `start` on, `step` apart, before `stop`. -/
def rangeLength (start stop step : Int) : Nat :=
  if 0 < step then if start < stop then ((stop - start - 1) / step + 1).toNat else 0
  else if step < 0 then if stop < start then ((start - stop - 1) / (-step) + 1).toNat else 0
  else 0

/-- The numbers of a range. -/
def rangeItems (start stop step : Int) : List Int :=
  (List.range (rangeLength start stop step)).map fun (i : Nat) => start + (i : Int) * step

namespace Datum

/-- A symbol that was read nowhere. -/
def ofName (name : String) : Datum :=
  .symbol (.const (.str name)) (List.replicate 4 (.const (.int 0)))

/-- The name of the type of a datum. -/
def typeName : Datum → String
  | .const c => c.typeName
  | .complex _ => "complex"
  | .list _ => "list"
  | .tuple _ => "tuple"
  | .dict _ => "dict"
  | .range .. => "range"
  | .keyword .. => "Keyword"
  | .symbol .. => "Symbol"
  | .function .. => "function"
  | .native fn => fn.kind
  | .bound _ => "builtin_function_or_method"
  | .object kind _ => kind
  | .enclosing _ => "list"

/-- The number that a datum is. -/
def number? : Datum → Option Number
  | .const c => c.number?
  | .complex z => some (.complex z)
  | _ => none

/-! ### Equality -/

/-- Ranges are equal when their numbers are. -/
def sameRange (a b c : Int) (d e f : Int) : Bool :=
  let n := rangeLength a b c
  n == rangeLength d e f && (n == 0 || (a == d && (n == 1 || c == f)))

/-- Are two data one and the same? Only data that need not be equal to themselves are looked at. -/
def identical : Datum → Datum → Bool
  | .const a, .const b => a == b
  | .complex z, .complex w => z == w
  | .keyword _ i, .keyword _ j => i == j
  | _, _ => false

mutual

/-- Equality of data: by value, and for what has no value by identity. -/
def equal : Datum → Datum → Bool
  | .const a, .const b => a.same b
  | .complex z, b => b.number?.any (Number.equal (.complex z))
  | .const a, .complex w => a.number?.any (Number.equal (.complex w))
  | .list as, .list bs => sameAll as bs
  | .tuple as, .tuple bs => sameAll as bs
  | .dict as, .dict bs => as.length == bs.length && sameEntries as bs
  | .range a b c, .range d e f => sameRange a b c d e f
  | .keyword m _, .keyword n _ => equal m n
  | .symbol m ps, .symbol n qs => (identical m n || equal m n) && sameAll ps qs
  | .function _ _ i, .function _ _ j => i == j
  | .native f, .native g => f == g
  | .bound f, .bound g => f == g
  | .object k i, .object l j => k == l && i == j
  | .enclosing i, .enclosing j => i == j
  | _, _ => false

/-- Rows are equal when they are as long and equal or identical in each place. -/
def sameAll : List Datum → List Datum → Bool
  | [], [] => true
  | a :: as, b :: bs => (identical a b || equal a b) && sameAll as bs
  | _, _ => false

/-- Is each entry of the first row among the second? -/
def sameEntries : List (Datum × Datum) → List (Datum × Datum) → Bool
  | [], _ => true
  | (key, value) :: as, bs =>
    (bs.any fun b => (identical key b.1 || equal key b.1)
      && (identical value b.2 || equal value b.2)) && sameEntries as bs

end

/-- May a datum in a collection be taken for another one? -/
def same (a b : Datum) : Bool := identical a b || equal a b

/-! ### Order -/

/-- Does an order stand in the relation that an operator asks for? -/
def holds (op : CompareOp) (order : Option Ordering) : Bool :=
  match op, order with
  | .lt, some .lt => true
  | .le, some .lt => true
  | .le, some .eq => true
  | .gt, some .gt => true
  | .ge, some .gt => true
  | .ge, some .eq => true
  | _, _ => false

/-- The order of two numbers, booleans counting as numbers; `none` within if one is a NaN. -/
def numberOrder? (a b : Constant) : Option (Option Ordering) :=
  match a, b with
  | .double x, .double y => some (x.compare? y)
  | .double x, b => b.whole?.map fun j => (Double.compareInt? j x).map Ordering.swap
  | a, .double y => a.whole?.map fun i => Double.compareInt? i y
  | a, b =>
    match a.whole?, b.whole? with
    | some i, some j => some (some (compare i j))
    | _, _ => none

mutual

/-- The answer to a comparison by order, or the names of two types that have none. -/
def ordered (op : CompareOp) : Datum → Datum → Except (String × String) Bool
  | .const (.str s), .const (.str t) => .ok (holds op (some (compare s t)))
  | .const a, .const b =>
    match numberOrder? a b with
    | some order => .ok (holds op order)
    | none => .error (a.typeName, b.typeName)
  | .list as, .list bs => orderedAll op as bs
  | .tuple as, .tuple bs => orderedAll op as bs
  | a, b => .error (a.typeName, b.typeName)

/-- Rows compare by the first place where they differ, and else by length. -/
def orderedAll (op : CompareOp) : List Datum → List Datum → Except (String × String) Bool
  | [], [] => .ok (holds op (some .eq))
  | [], _ :: _ => .ok (holds op (some .lt))
  | _ :: _, [] => .ok (holds op (some .gt))
  | a :: as, b :: bs => if same a b then orderedAll op as bs else ordered op a b

end

/-! ### Keys -/

mutual

/-- The type that keeps a datum from being a key: lists, dictionaries and symbols do, also inside
a tuple or as the name of a keyword. -/
def unhashable? : Datum → Option String
  | .list _ | .enclosing _ => some "list"
  | .dict _ => some "dict"
  | .symbol .. => some "Symbol"
  | .tuple items => unhashableIn? items
  | .keyword name _ => unhashable? name
  | _ => none

/-- The first type among items that keeps them from being keys. -/
def unhashableIn? : List Datum → Option String
  | [] => none
  | item :: items =>
    match unhashable? item with
    | some type => some type
    | none => unhashableIn? items

end

/-! ### Text -/

mutual

/-- What keeps a datum from being written: an integer must not be too long, and a symbol has to have
a string as its name. The failure of a symbol tells the type of its name, and if it was to be
written by itself or inside a collection. -/
def unwritable? (alone : Bool) : Datum → Option Failure
  | .const c => if c.isWritable then none else some .longInteger
  | .range start stop step =>
    if intFits start && intFits stop && intFits step then none else some .longInteger
  | .list items => unwritableIn? items
  | .tuple items => unwritableIn? items
  | .dict entries => unwritableInEntries? entries
  | .keyword name _ => unwritable? true name
  | .symbol (.const (.str _)) _ => none
  | .symbol name _ => some (.unwritable alone name.typeName)
  | _ => none

/-- The first thing among items that keeps them from being written. -/
def unwritableIn? : List Datum → Option Failure
  | [] => none
  | item :: items => (unwritable? false item).or (unwritableIn? items)

/-- The first thing among keys and values that keeps them from being written. -/
def unwritableInEntries? : List (Datum × Datum) → Option Failure
  | [] => none
  | (key, value) :: entries =>
    (unwritable? false key).or
      ((unwritable? false value).or (unwritableInEntries? entries))

end

/-- The text of a constant inside a collection. -/
def constText : Constant → String
  | .nil => "None"
  | .bool b => if b then "True" else "False"
  | .int i => intText i
  | .double x => x.text
  | .str s => Text.quoted s

/-- The text of a range. -/
def rangeText (start stop step : Int) : String :=
  "range(" ++ intText start ++ ", " ++ intText stop
    ++ (if step = 1 then "" else ", " ++ intText step) ++ ")"

mutual

/-- The text of a datum inside a collection. -/
def shown : Datum → String
  | .const c => constText c
  | .complex z => z.text
  | .list items => "[" ++ shownAll items ++ "]"
  | .tuple [] => "()"
  | .tuple [item] => "(" ++ shown item ++ ",)"
  | .tuple (item :: items) => "(" ++ shown item ++ ", " ++ shownAll items ++ ")"
  | .dict entries => "\x7b" ++ shownEntries entries ++ "\x7d"
  | .range start stop step => rangeText start stop step
  | .keyword (.const (.str name)) _ => ":" ++ name
  | .keyword name _ => ":" ++ shown name
  | .symbol (.const (.str name)) _ => name
  | .symbol .. => ""
  | .function name _ _ => "<function " ++ name ++ ">"
  | .native fn => fn.text
  | .bound (.upper _) => "<built-in method upper of str object>"
  | .bound (.append _) => "<built-in method append of list object>"
  | .object kind _ => "<" ++ kind ++ " object>"
  | .enclosing _ => "[...]"

/-- The texts of items with commas between them. -/
def shownAll : List Datum → String
  | [] => ""
  | [item] => shown item
  | item :: next :: items => shown item ++ ", " ++ shownAll (next :: items)

/-- The texts of keys and values with commas between the entries. -/
def shownEntries : List (Datum × Datum) → String
  | [] => ""
  | [(key, value)] => shown key ++ ": " ++ shown value
  | (key, value) :: next :: entries =>
    shown key ++ ": " ++ shown value ++ ", " ++ shownEntries (next :: entries)

end

/-- The text of a datum by itself; a string stands for itself. -/
def text : Datum → String
  | .const (.str s) => s
  | d => shown d

end Datum

end TailLisp
