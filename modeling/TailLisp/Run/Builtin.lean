import TailLisp.Run.Library
import TailLisp.Text.Numeral
import TailLisp.Text.Upper

/-!
# TailLisp.Run.Builtin

**Built-in functions, types and methods** of the target language that programs can use.
-/

namespace TailLisp.Interp

/-! ### Integers -/

/-- The integer that a text writes in a base. -/
def integerOf (base : Nat) (s : String) : Exec Int :=
  match Text.integer? base s with
  | some i =>
    let digits := Text.limitedDigits base s
    if digitLimit < digits then Exec.fail (.longNumeral digits) else return i
  | none => Exec.fail (.notIntegerText base s)

/-- A value as an integer: a number is cut toward zero, a text is read in decimal. -/
def toInteger (v : Value) : Exec Int := do
  match v, number? v with
  | .const (.str s), _ => integerOf 10 s
  | _, some (.int i) => return i
  | _, some (.double x) => Exec.lift (wholePart x)
  | v, _ => Exec.fail (.notIntegerType (← Exec.typeName v))

/-- A value that has to be an integer. -/
def requireInteger (v : Value) : Exec Int := do
  match whole? v with
  | some i => return i
  | none => Exec.fail (.notInteger (← Exec.typeName v))

/-- Read a text as an integer in a base. -/
def readInteger (v base : Value) : Exec Int := do
  let base ← requireInteger base
  if base < 0 || base = 1 || 36 < base then Exec.fail .numeralBase
  else
    match v with
    | .const (.str s) => integerOf base.toNat s
    | _ => Exec.fail .baseWithoutText

/-! ### Functions -/

/-- The first of the values so far that none precedes by the given order, with one more value. -/
def better (op : CompareOp) (best : Option Value) (v : Value) : Exec (Option Value) := do
  match best with
  | none => return some v
  | some u => return some (if ← ordered op v u then v else u)

/-- The greatest or least of the arguments, or of the items of a single one. -/
def extremumOf (self : Interp) (fn : String) (op : CompareOp) (args : List Value) :
    Exec Value := do
  let best ← match args with
    | [] => Exec.fail (.tooFewArguments fn 1 0)
    | [coll] => foldIter self (← iterate coll) (better op) roundLimit none
    | args => args.foldlM (better op) none
  match best with
  | some v => return v
  | none => Exec.fail (.emptyExtremum fn)

/-- The sum of items, from a start on. -/
def sum (self : Interp) (coll start : Value) : Exec Value := do
  let ref ← iterate coll
  match start, number? start with
  | .const (.str _), _ => Exec.fail .sumOfStrings
  | _, some n => foldIter self ref (binary .add) roundLimit (← Exec.ofNumber n)
  | start, none => foldIter self ref (binary .add) roundLimit start

/-- Can the value be called? -/
def isCallable : Value → Bool
  | .function _ | .native _ | .bound _ | .keyword .. => true
  | _ => false

/-- Call a built-in function. -/
def callBuiltin (self : Interp) (fn : BuiltinFn) (args : List Value) : Exec Value := do
  match fn, args with
  | .abs, [v] =>
    match number? v with
    | some n => Exec.ofNumber (← Exec.lift n.abs)
    | none => Exec.fail (.operand "abs()" (← Exec.typeName v))
  | .abs, args => Exec.fail (.oneArgument "abs" args.length)
  | .iter, [v] => return .iterator (← iterate v)
  | .iter, [fn, last] =>
    if isCallable fn then return .iterator (← Exec.newIter (.calls fn last))
    else Exec.fail .notRepeatable
  | .iter, [] => Exec.fail (.tooFewArguments "iter" 1 0)
  | .iter, args => Exec.fail (.tooManyArguments "iter" 2 args.length)
  | .len, [v] => return .ofInt (← lengthOf v)
  | .len, args => Exec.fail (.oneArgument "len" args.length)
  | .max, args => extremumOf self "max" .gt args
  | .min, args => extremumOf self "min" .lt args
  | .sum, [coll] => sum self coll (.ofInt 0)
  | .sum, [coll, start] => sum self coll start
  | .sum, [] => Exec.fail (.takesAtLeast "sum" 1 0)
  | .sum, args => Exec.fail (.takesAtMost "sum" 2 args.length)

/-! ### Types -/

/-- A range by its bounds and step. -/
def newRange (args : List Value) : Exec Value := do
  match args with
  | [stop] => return .range 0 (← requireInteger stop) 1
  | [start, stop] => return .range (← requireInteger start) (← requireInteger stop) 1
  | [start, stop, step] =>
    let start ← requireInteger start
    let stop ← requireInteger stop
    let step ← requireInteger step
    if step = 0 then Exec.fail .zeroStep else return .range start stop step
  | [] => Exec.fail (.tooFewArguments "range" 1 0)
  | args => Exec.fail (.tooManyArguments "range" 3 args.length)

/-- An argument of `str` that names how bytes are read. -/
def requireCodec (parameter : String) (v : Value) : Exec Unit := do
  match v with
  | .const (.str s) =>
    if s.toList.contains (Char.ofNat 0) then Exec.fail .nullCharacter else return ()
  | .const .nil => Exec.fail (.notCodec parameter "None")
  | v => Exec.fail (.notCodec parameter (← Exec.typeName v))

/-- Text from bytes; no value of a program is bytes. -/
def decodeBytes (v encoding : Value) (errors : Option Value) : Exec Value := do
  requireCodec "encoding" encoding
  match errors with
  | some errors => requireCodec "errors" errors
  | none => pure ()
  match v with
  | .const (.str _) => Exec.fail .alreadyText
  | v => Exec.fail (.notBytes (← Exec.typeName v))

/-- The parts of a keyword or symbol: its name and where it was read. -/
def namedParts (type : TypeName) (args : List Value) : Exec (Value × List Value) :=
  match args with
  | [] => Exec.fail (.missingArguments (type.name ++ ".__init__") ["name"])
  | name :: place =>
    if place.length ≤ 4 then return (name, place ++ Exec.nowhere.drop place.length)
    else Exec.fail (.extraArguments (type.name ++ ".__init__") 2 6 (args.length + 1))

/-- Make a value of a type. -/
def construct (self : Interp) (type : TypeName) (args : List Value) : Exec Value := do
  match type, args with
  | .int, [] => return .ofInt 0
  | .int, [v] => return .ofInt (← toInteger v)
  | .int, [v, base] => return .ofInt (← readInteger v base)
  | .int, args => Exec.fail (.takesAtMost "int" 2 args.length)
  | .list, [] => Exec.newList []
  | .list, [v] => Exec.newList (← drain self v)
  | .list, args => Exec.fail (.tooManyArguments "list" 1 args.length)
  | .tuple, [] => return .tuple []
  | .tuple, [v] => return .tuple (← drain self v)
  | .tuple, args => Exec.fail (.tooManyArguments "tuple" 1 args.length)
  | .str, [] => return .ofString ""
  | .str, [v] => return .ofString (← Exec.text v)
  | .str, [v, encoding] => decodeBytes v encoding none
  | .str, [v, encoding, errors] => decodeBytes v encoding (some errors)
  | .str, args => Exec.fail (.takesAtMost "str" 3 args.length)
  | .range, args => newRange args
  | .map, fn :: source :: sources => do
    let refs ← (source :: sources).mapM iterate
    return .iterator (← Exec.newIter (.map fn refs))
  | .map, _ => Exec.fail .noSources
  | .keyword, args =>
    let (name, place) ← namedParts .keyword args
    return .keyword name place (← Exec.newId)
  | .symbol, args =>
    let (name, place) ← namedParts .symbol args
    return .symbol name place

/-! ### Methods and fields -/

/-- Call a method of the value it was taken from. -/
def callBound (method : Bound) (args : List Value) : Exec Value :=
  match method, args with
  | .upper text, [] => return .ofString (Text.upper text)
  | .upper _, args => Exec.fail (.noArguments Method.upper.fullName args.length)
  | .append ref, [v] => do
    modify fun w => { w with lists := w.lists.modify ref (·.push v) }
    return .nil
  | .append _, args => Exec.fail (.oneArgument Method.append.fullName args.length)

/-- A method of a value. -/
def bind (method : Method) (receiver : Value) : Exec Bound := do
  match method, receiver with
  | .upper, .const (.str s) => return .upper s
  | .append, .list ref => return .append ref
  | method, receiver =>
    Exec.fail (.notReceiver method.name method.owner.name (← Exec.typeName receiver))

/-- Where in the place of a name a field stands. -/
def placeIndex? (field : String) : Option Nat :=
  ["line", "col", "end_line", "end_col"].idxOf? field

/-- A field of a keyword or symbol. -/
def namedField (type : TypeName) (name : Value) (place : List Value) (field : String) :
    Exec Value :=
  if field = "name" then return name
  else
    match (placeIndex? field).bind (place[·]?) with
    | some v => return v
    | none => Exec.fail (.noField type.name field)

/-- A field of a value. -/
def fieldOf (v : Value) (field : String) : Exec Value := do
  match v, field with
  | .const (.str s), "upper" => return .bound (.upper s)
  | .list ref, "append" => return .bound (.append ref)
  | .keyword name place _, field => namedField .keyword name place field
  | .symbol name place, field => namedField .symbol name place field
  | .native (.type .str), "upper" => return .native (.method .upper)
  | .native (.type .list), "append" => return .native (.method .append)
  | .native (.type t), field =>
    if (t == .keyword || t == .symbol) && (placeIndex? field).isSome then return .ofInt 0
    else Exec.fail (.noTypeField t.name field)
  | v, field => Exec.fail (.noField (← Exec.typeName v) field)

/-- Call what is not written in the program. -/
def callNative (self : Interp) (fn : Native) (args : List Value) : Exec Value := do
  match fn with
  | .library fn => callLibrary self fn args
  | .builtin fn => callBuiltin self fn args
  | .type type => construct self type args
  | .method method =>
    match args with
    | receiver :: args => callBound (← bind method receiver) args
    | [] => Exec.fail (.noReceiver method.fullName)

/-- Call a keyword: it looks itself up in a dictionary. -/
def callKeyword (keyword : Value) (args : List Value) : Exec Value := do
  match args with
  | coll :: rest =>
    if rest.length ≤ 1 then
      let default := rest.headD .nil
      match coll with
      | .dict entries => return (← valueAt? entries keyword).getD default
      | _ => return default
    else Exec.fail (.extraArguments "Keyword.__call__" 2 3 (args.length + 1))
  | [] => Exec.fail (.missingArguments "Keyword.__call__" ["coll"])

end TailLisp.Interp
