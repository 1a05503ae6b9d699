import TailLisp.Number.Layout
import TailLisp.Run.Interp

/-!
# TailLisp.Run.Format

**Filling in strings.** In a string, `%` begins a place for a value: flags, a width, a precision
and a conversion follow it, as in `%-8.3f`. Values are taken from a tuple in order; a single value
is the only one. A name in parentheses, as in `%(name)s`, takes the value of that key from a
dictionary instead.
-/

namespace TailLisp.Interp

/-- How a value is to be written. -/
structure Spec where
  /-- Padding stands on the right. -/
  left : Bool := false
  /-- A number that is not negative has a plus sign. -/
  plus : Bool := false
  /-- A number that is not negative has a blank for a sign. -/
  blank : Bool := false
  alternate : Bool := false
  /-- A number is padded with zeros. -/
  zero : Bool := false
  width : Nat := 0
  precision : Option Nat := none

/-- The values that are left to be filled in. -/
structure Supply where
  items : List Value
  /-- The collection that keys are looked up in. -/
  table : Option Value := none

/-- The values that the right operand stands for. -/
def Supply.ofValue (v : Value) : Supply :=
  match v with
  | .tuple items => { items }
  | .list _ | .dict _ | .range .. => { items := [v], table := some v }
  | v => { items := [v] }

/-- The next value. -/
def Supply.next (supply : Supply) : Exec (Value × Supply) :=
  match supply.items with
  | [] => Exec.fail .missingFormatArgument
  | v :: items => return (v, { supply with items })

/-! ### Reading a place -/

/-- The characters of a key up to the parenthesis that closes it, and those after that. -/
def takeKey (depth : Nat) (key : List Char) : List Char → Option (List Char × List Char)
  | [] => none
  | c :: cs =>
    if c = ')' then
      if depth = 0 then some (key.reverse, cs) else takeKey (depth - 1) (c :: key) cs
    else takeKey (if c = '(' then depth + 1 else depth) (c :: key) cs

/-- The value of a key of the collection. -/
def Supply.find (supply : Supply) (key : String) : Exec Supply := do
  match supply.table with
  | some (.dict entries) =>
    match ← valueAt? entries (.ofString key) with
    | some v => return { supply with items := [v] }
    | none => Exec.fail (.missingKey key)
  | some table => Exec.fail (.notIndex (← Exec.typeName table) "str")
  | none => Exec.fail .noFormatTable

/-- Take a key, if there is one. -/
def readKey (supply : Supply) : List Char → Exec (Supply × List Char)
  | '(' :: cs => do
    if supply.table.isNone then Exec.fail .noFormatTable
    else
      match takeKey 0 [] cs with
      | some (key, cs) => return (← supply.find (String.ofList key), cs)
      | none => Exec.fail .incompleteKey
  | cs => return (supply, cs)

/-- Take the flags. -/
def readFlags (spec : Spec) : List Char → Spec × List Char
  | '-' :: cs => readFlags { spec with left := true } cs
  | '+' :: cs => readFlags { spec with plus := true } cs
  | ' ' :: cs => readFlags { spec with blank := true } cs
  | '#' :: cs => readFlags { spec with alternate := true } cs
  | '0' :: cs => readFlags { spec with zero := true } cs
  | cs => (spec, cs)

/-- Take the digits of a size that is at most a limit. -/
def readSize (limit : Nat) (tooBig : Failure) (n : Nat) : List Char → Exec (Nat × List Char)
  | [] => return (n, [])
  | c :: cs =>
    if '0' ≤ c && c ≤ '9' then
      let d := c.toNat - '0'.toNat
      if (limit - d) / 10 < n then Exec.fail tooBig else readSize limit tooBig (10 * n + d) cs
    else return (n, c :: cs)

/-- A size that is the next value. -/
def starSize (limit : Int) (overflow : Failure) (supply : Supply) : Exec (Int × Supply) := do
  let (v, supply) ← supply.next
  match whole? v with
  | none => Exec.fail .notFormatSize
  | some i => if i < -limit - 1 || limit < i then Exec.fail overflow else return (i, supply)

/-- Take the width. -/
def readWidth (spec : Spec) (supply : Supply) : List Char → Exec (Spec × Supply × List Char)
  | '*' :: cs => do
    let (i, supply) ← starSize greatestLength .widthOverflow supply
    return ({ spec with left := spec.left || i < 0, width := i.natAbs }, supply, cs)
  | cs => do
    let (width, cs) ← readSize greatestLength .widthTooBig 0 cs
    return ({ spec with width }, supply, cs)

/-- Take the precision, if there is one. -/
def readPrecision (spec : Spec) (supply : Supply) : List Char → Exec (Spec × Supply × List Char)
  | '.' :: '*' :: cs => do
    let (i, supply) ← starSize 2147483647 .precisionOverflow supply
    return ({ spec with precision := some i.toNat }, supply, cs)
  | '.' :: cs => do
    let (n, cs) ← readSize 2147483647 .precisionTooBig 0 cs
    return ({ spec with precision := some n }, supply, cs)
  | cs => return (spec, supply, cs)

/-- Leave out a letter that says how large a number is. -/
def skipSize : List Char → List Char
  | 'h' :: cs => cs
  | 'l' :: cs => cs
  | 'L' :: cs => cs
  | cs => cs

/-! ### Writing a value -/

/-- Text in its width. The sign of a number and the mark of its base stand before zeros and after
blanks. -/
def pad (spec : Spec) (sign mark body : List Char) (zeros : Bool) : List Char :=
  let missing := spec.width - (sign.length + mark.length + body.length)
  if spec.left then sign ++ mark ++ body ++ List.replicate missing ' '
  else if zeros then sign ++ mark ++ List.replicate missing '0' ++ body
  else List.replicate missing ' ' ++ sign ++ mark ++ body

/-- A number in its width, given the text of its magnitude. -/
def padNumber (spec : Spec) (negative : Bool) (mark body : List Char) : List Char :=
  let sign := if negative then ['-'] else if spec.plus then ['+']
    else if spec.blank then [' '] else []
  pad spec sign mark body spec.zero

/-- A text in its width, cut to its precision. -/
def padText (spec : Spec) (text : String) : List Char :=
  let cs := text.toList
  pad spec [] [] (match spec.precision with | some n => cs.take n | none => cs) false

/-- Letters of the basic alphabet in capitals. -/
def capitals (cs : List Char) : List Char := cs.map Char.toUpper

/-- An integer in a base, with at least as many digits as the precision says. -/
def writeInteger (spec : Spec) (conversion : Char) (i : Int) : List Char :=
  let (base, mark) := match conversion with
    | 'o' => (8, ['0', 'o'])
    | 'x' => (16, ['0', 'x'])
    | 'X' => (16, ['0', 'x'])
    | _ => (10, [])
  let digits := Nat.toDigits base i.natAbs
  let digits := List.replicate (spec.precision.getD 0 - digits.length) '0' ++ digits
  let mark := if spec.alternate then mark else []
  if conversion = 'X' then padNumber spec (i < 0) (capitals mark) (capitals digits)
  else padNumber spec (i < 0) mark digits

/-- The integer that a conversion writes a value as. -/
def integerFor (conversion : Char) (v : Value) : Exec Int := do
  match number? v with
  | some (.int i) => return i
  | some (.double x) =>
    if ['o', 'x', 'X'].contains conversion then
      Exec.fail (.conversionInteger conversion (← Exec.typeName v))
    else Exec.lift (wholePart x)
  | _ =>
    let type ← Exec.typeName v
    if ['o', 'x', 'X'].contains conversion then Exec.fail (.conversionInteger conversion type)
    else Exec.fail (.conversionNumber conversion type)

/-- A floating-point number by a conversion. -/
def writeDouble (spec : Spec) (conversion : Char) (x : Double) : List Char :=
  let precision := spec.precision.getD 6
  let body := match conversion.toLower with
    | 'e' => x.abs.exponent spec.alternate precision
    | 'f' => x.abs.fixed spec.alternate precision
    | _ => x.abs.general spec.alternate precision
  padNumber spec x.isNegative [] (if conversion.isUpper then capitals body else body)

/-- The floating-point number that a value is. -/
def doubleFor (v : Value) : Exec Double := do
  match number? v with
  | some (.int i) => Exec.lift (Number.intToDouble i)
  | some (.double x) => return x
  | _ => Exec.fail (.notReal (← Exec.typeName v))

/-- The character that a value is or stands for. -/
def characterFor (v : Value) : Exec Char := do
  match v, whole? v with
  | .const (.str s), _ =>
    match s.toList with
    | [c] => return c
    | _ => Exec.fail .notCharacter
  | _, some i =>
    if i < 0 || 1114111 < i then Exec.fail .characterRange else return Char.ofNat i.toNat
  | _, none => Exec.fail .notCharacter

/-- A text with what is not of the basic alphabet written by number. -/
def basicText (s : String) : String :=
  String.ofList (s.toList.flatMap fun c => if c.toNat < 128 then [c] else Text.escapeCode c)

/-- Write a value by a conversion that stands at an index of the string. -/
def convert (spec : Spec) (conversion : Char) (index : Nat) (v : Value) : Exec (List Char) := do
  checkRoom .lengthOverflow (max spec.width (spec.precision.getD 0))
  if conversion = 's' then return padText spec (← Exec.text v)
  else if conversion = 'r' then return padText spec (← Exec.shown v)
  else if conversion = 'a' then return padText spec (basicText (← Exec.shown v))
  else if ['d', 'i', 'u', 'o', 'x', 'X'].contains conversion then
    let i ← integerFor conversion v
    if intFits i || ['o', 'x', 'X'].contains conversion then return writeInteger spec conversion i
    else Exec.fail .longInteger
  else if ['e', 'E', 'f', 'F', 'g', 'G'].contains conversion then
    return writeDouble spec conversion (← doubleFor v)
  else if conversion = 'c' then return pad spec [] [] [← characterFor v] false
  else Exec.fail (.unknownConversion conversion index)

/-- Fill in one place: what is written, and what is left of values and characters. `total` is the
length of the whole string. -/
def fillPlace (total : Nat) (supply : Supply) (cs : List Char) :
    Exec (List Char × Supply × List Char) := do
  let (supply, cs) ← readKey supply cs
  let (spec, cs) := readFlags {} cs
  let (spec, supply, cs) ← readWidth spec supply cs
  let (spec, supply, cs) ← readPrecision spec supply cs
  match skipSize cs with
  | [] => Exec.fail .incompleteFormat
  | conversion :: cs =>
    let (v, supply) ← supply.next
    return (← convert spec conversion (total - cs.length - 1) v, supply, cs)

/-- Fill in all places, at most `places` of them. -/
def fillAll (total : Nat) (supply : Supply) : Nat → List Char → Exec (List Char × Supply)
  | 0, cs => return (cs, supply)
  | places + 1, cs => do
    let front := cs.takeWhile (· != '%')
    match cs.dropWhile (· != '%') with
    | [] => return (front, supply)
    | _ :: '%' :: cs =>
      let (rest, supply) ← fillAll total supply places cs
      return (front ++ '%' :: rest, supply)
    | _ :: cs =>
      let (piece, supply, cs) ← fillPlace total supply cs
      let (rest, supply) ← fillAll total supply places cs
      return (front ++ piece ++ rest, supply)

/-- Fill a value into a string. All values of a tuple, and a single one that is no collection, have
to be used. -/
def format (s : String) (v : Value) : Exec String := do
  let cs := s.toList
  let (filled, supply) ← fillAll cs.length (.ofValue v) (cs.length + 1) cs
  if supply.items.isEmpty || supply.table.isSome then return String.ofList filled
  else Exec.fail .unusedFormatArgument

end TailLisp.Interp
