import TailLisp.Run.Datum
import TailLisp.Run.Failure
import TailLisp.Target.Names

/-!
# TailLisp.Run.World

**Run-time values and the state they live in.** Lists can grow, iterators are used up, and the
variables of a function are shared by the functions defined in it. These three live in the
`World` and values refer to them; all other values are themselves.
-/

namespace TailLisp

/-- A function of the program together with the frames that its free names are looked up in,
innermost first. -/
structure Function where
  name : String
  /-- The name after those of the functions that it is defined in. -/
  title : String
  params : List String
  rest : Option String
  /-- The names that are local to the function. -/
  locals : List String
  body : List Stmt
  frames : List Nat
  id : Nat
  deriving Repr

/-- A run-time value. -/
inductive Value where
  | const (value : Constant)
  | complex (value : Complex)
  /-- A list, by its place among the lists of the world. -/
  | list (ref : Nat)
  | tuple (items : List Value)
  | dict (entries : List (Value × Value))
  | range (start stop step : Int)
  /-- A keyword with the lines and columns where it begins and ends; the number tells apart keywords
  of one name that were made separately. -/
  | keyword (name : Value) (place : List Value) (id : Nat)
  /-- A symbol with the lines and columns where it begins and ends. -/
  | symbol (name : Value) (place : List Value)
  | function (fn : Function)
  | native (fn : Native)
  | bound (method : Bound)
  /-- An iterator, by its place among the iterators of the world. -/
  | iterator (ref : Nat)
  deriving Repr, Inhabited

/-- What an iterator has left. -/
inductive Iter where
  /-- The items of a list from a position on, as the list is when they are reached. -/
  | list (ref position : Nat)
  /-- The remaining items of something that does not change, with the kind of the iterator. -/
  | row (kind : String) (items : List Value)
  /-- The numbers of a range, with the kind of the iterator. -/
  | range (kind : String) (next : Int) (left : Nat) (step : Int)
  /-- The values of a function on the items of other iterators. -/
  | map (fn : Value) (sources : List Nat)
  /-- What a function returns call after call, up to a value that ends it. -/
  | calls (fn last : Value)
  deriving Repr, Inhabited

/-- The variables of one call; a variable without a value is not assigned yet. -/
structure Frame where
  /-- The title of the function that was called. -/
  title : String
  vars : List (String × Option Value)
  deriving Inhabited

/-- The state of a run. -/
structure World where
  globals : List (String × Value) := []
  frames : Array Frame := #[]
  lists : Array (Array Value) := #[]
  iters : Array Iter := #[]
  /-- How many marks were given out, to functions, keywords and NaNs. -/
  made : Nat := 0
  /-- How many items there is room for in a collection. -/
  room : Nat := 134217728
  /-- What was printed. -/
  output : String := ""
  deriving Inhabited

/-- A part of a run. -/
abbrev Exec := EStateM Failure World

/-- Give a name a value in an association list; a name that is there keeps its place. -/
def assign {α : Type} (name : String) (value : α) : List (String × α) → List (String × α)
  | [] => [(name, value)]
  | (other, old) :: rest =>
    if other = name then (name, value) :: rest else (other, old) :: assign name value rest

namespace Value

/-- The value nil. -/
protected def nil : Value := .const .nil

/-- A boolean as a value. -/
def ofBool (b : Bool) : Value := .const (.bool b)

/-- An integer as a value. -/
def ofInt (i : Int) : Value := .const (.int i)

/-- A string as a value. -/
def ofString (s : String) : Value := .const (.str s)

/-- The characters of a string as values. -/
def chars (s : String) : List Value := s.toList.map fun c => ofString c.toString

/-- The built-in names as a dictionary. -/
def builtins : Value := .dict (Native.builtins.map fun (name, fn) => (ofString name, .native fn))

end Value

/-- The documentation of a function: a string that begins its body. -/
def Function.doc (fn : Function) : Option String :=
  match fn.body with
  | .eval (.const (.str s) _) _ :: _ => some s
  | _ => none

/-- The kind of an iterator. -/
def Iter.kind : Iter → String
  | .list .. => "list_iterator"
  | .row kind _ => kind
  | .range kind .. => kind
  | .map .. => "map"
  | .calls .. => "callable_iterator"

namespace World

/-! ### Reading values -/

mutual

/-- The datum of a value, given the data of lists and the kinds of iterators. -/
def readWith (listAt : Nat → Datum) (kindAt : Nat → String) : Value → Datum
  | .const c => .const c
  | .list ref => listAt ref
  | .tuple items => .tuple (readAllWith listAt kindAt items)
  | .dict entries => .dict (readEntriesWith listAt kindAt entries)
  | .range start stop step => .range start stop step
  | .complex z => .complex z
  | .keyword name _ id => .keyword (readWith listAt kindAt name) id
  | .symbol name place =>
    .symbol (readWith listAt kindAt name) (readAllWith listAt kindAt place)
  | .function fn => .function fn.name fn.doc fn.id
  | .native fn => .native fn
  | .bound method => .bound method
  | .iterator ref => .object (kindAt ref) ref

/-- The data of values. -/
def readAllWith (listAt : Nat → Datum) (kindAt : Nat → String) : List Value → List Datum
  | [] => []
  | v :: vs => readWith listAt kindAt v :: readAllWith listAt kindAt vs

/-- The data of keys and values. -/
def readEntriesWith (listAt : Nat → Datum) (kindAt : Nat → String) :
    List (Value × Value) → List (Datum × Datum)
  | [] => []
  | (k, v) :: es =>
    (readWith listAt kindAt k, readWith listAt kindAt v) :: readEntriesWith listAt kindAt es

end

/-- A list by its place. -/
def listAt (w : World) (ref : Nat) : Array Value := w.lists.getD ref #[]

/-- The items of a list. -/
def items (w : World) (ref : Nat) : List Value := (w.listAt ref).toList

/-- The variables of a call. -/
def varsOf (w : World) (ref : Nat) : List (String × Option Value) :=
  (w.frames.getD ref default).vars

/-- The kind of an iterator. -/
def iterKind (w : World) (ref : Nat) : String := (w.iters.getD ref (.row "" [])).kind

/-- The datum of a list that lies in the lists of a path; lists nest at most `depth` deep. -/
def listDatum (w : World) : Nat → List Nat → Nat → Datum
  | 0, _, ref => .enclosing ref
  | depth + 1, path, ref =>
    if path.contains ref then .enclosing ref
    else .list (readAllWith (listDatum w depth (ref :: path)) w.iterKind (w.items ref))

/-- The datum of a value. Lists nest at most as deep as there are lists. -/
def read (w : World) (v : Value) : Datum :=
  readWith (w.listDatum (w.lists.size + 1) []) w.iterKind v

/-- The name of the type of a value. -/
def typeName (w : World) : Value → String
  | .const c => c.typeName
  | .complex _ => "complex"
  | .list _ => "list"
  | .tuple _ => "tuple"
  | .dict _ => "dict"
  | .range .. => "range"
  | .keyword .. => "Keyword"
  | .symbol .. => "Symbol"
  | .function _ => "function"
  | .native fn => fn.kind
  | .bound _ => "builtin_function_or_method"
  | .iterator ref => w.iterKind ref

/-- Does a value count as true? Nil, false, zero and what is empty do not. -/
def truth (w : World) : Value → Bool
  | .const .nil => false
  | .const (.bool b) => b
  | .const (.int i) => i != 0
  | .const (.double x) => !x.isZero
  | .const (.str s) => !s.isEmpty
  | .complex z => !z.isZero
  | .list ref => !(w.listAt ref).isEmpty
  | .tuple items => !items.isEmpty
  | .dict entries => !entries.isEmpty
  | .range start stop step => rangeLength start stop step != 0
  | _ => true

end World

namespace Exec

/-- End the run. -/
def fail {α : Type} (failure : Failure) : Exec α := throw failure

/-- Go on with the result of a pure computation. -/
def lift {α : Type} : Except Failure α → Exec α
  | .ok a => pure a
  | .error failure => fail failure

/-- The datum of a value at this moment. -/
def read (v : Value) : Exec Datum := return (← get).read v

/-- The name of the type of a value. -/
def typeName (v : Value) : Exec String := return (← get).typeName v

/-- Does a value count as true at this moment? -/
def truth (v : Value) : Exec Bool := return (← get).truth v

/-- Are two values equal at this moment? -/
def equal (a b : Value) : Exec Bool := return (← read a).equal (← read b)

/-- May a value in a collection be taken for another one at this moment? -/
def same (a b : Value) : Exec Bool := return (← read a).same (← read b)

/-- The text of a value at this moment. -/
def text (v : Value) : Exec String := do
  let datum ← read v
  match datum.unwritable? true with
  | some failure => fail failure
  | none => return datum.text

/-- The text of a value inside a collection at this moment. -/
def shown (v : Value) : Exec String := do
  let datum ← read v
  match datum.unwritable? false with
  | some failure => fail failure
  | none => return datum.shown

/-- A mark that was not given out before. -/
def newId : Exec Nat := modifyGet fun w => (w.made, { w with made := w.made + 1 })

/-- A new list. -/
def newList (items : List Value) : Exec Value :=
  modifyGet fun w => (.list w.lists.size, { w with lists := w.lists.push items.toArray })

/-- A list by its place. -/
def listAt (ref : Nat) : Exec (Array Value) := return (← get).listAt ref

/-- The items of a list. -/
def items (ref : Nat) : Exec (List Value) := return (← get).items ref

/-- A new iterator. -/
def newIter (iter : Iter) : Exec Nat :=
  modifyGet fun w => (w.iters.size, { w with iters := w.iters.push iter })

/-- What an iterator has left. -/
def iterAt (ref : Nat) : Exec Iter := return (← get).iters.getD ref (.row "" [])

/-- Change what an iterator has left. -/
def setIter (ref : Nat) (iter : Iter) : Exec Unit :=
  modify fun w => { w with iters := w.iters.setIfInBounds ref iter }

/-- The place of a name that was read nowhere. -/
def nowhere : List Value := List.replicate 4 (.ofInt 0)

/-- A new keyword that was read nowhere. -/
def newKeyword (name : String) : Exec Value := return .keyword (.ofString name) nowhere (← newId)

/-- A number as a value. Each NaN that is computed is a new one. -/
def ofNumber (n : Number) : Exec Value := do
  let n ← if n.hasNan then pure (n.marked (← newId)) else pure n
  match n with
  | .int i => return .const (.int i)
  | .double x => return .const (.double x)
  | .complex z => return .complex z

/-- Print text. -/
def print (text : String) : Exec Unit := modify fun w => { w with output := w.output ++ text }

end Exec

end TailLisp
