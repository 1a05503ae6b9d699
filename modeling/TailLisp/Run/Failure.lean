import TailLisp.Text.Quoted

/-!
# TailLisp.Run.Failure

**What can go wrong while a program runs.** `Failure.kind` sorts the failures into classes and
`Failure.message` words them.
-/

namespace TailLisp

/-- The classes of failures. -/
inductive FailureKind where
  | name
  | unboundLocal
  | type
  | value
  | attribute
  | zeroDivision
  | overflow
  | key
  | memory
  /-- The program ran for longer, or called more deeply, than any run is given. -/
  | limit
  deriving DecidableEq, Repr

/-- Why a run ends early. Types are given by name. -/
inductive Failure where
  -- names
  | undefined (name : String)
  | unassignedLocal (name : String)
  | unassignedOuter (name : String)
  | noField (type name : String)
  | noTypeField (type name : String)
  -- operators
  | operands (op left right : String)
  | operand (op type : String)
  | concatenation (left right : String)
  | repetition (type : String)
  | unordered (op left right : String)
  | notContainer (type : String)
  | notSubstring (type : String)
  | zeroDivision (message : String)
  | zeroPower
  | noPower
  | powerOverflow
  | complexOverflow
  | quotientOverflow
  | magnitudeOverflow
  | intOverflow
  | countOverflow
  | textOverflow
  | memory
  -- formats
  | unusedFormatArgument
  | missingFormatArgument
  | noFormatTable
  | missingKey (key : String)
  | incompleteKey
  | incompleteFormat
  | notFormatSize
  | widthOverflow
  | precisionOverflow
  | widthTooBig
  | precisionTooBig
  | unknownConversion (conversion : Char) (index : Nat)
  | conversionInteger (conversion : Char) (type : String)
  | conversionNumber (conversion : Char) (type : String)
  | notReal (type : String)
  | notCharacter
  | characterRange
  -- calls
  | notCallable (type : String)
  | missingArguments (fn : String) (names : List String)
  | extraArguments (fn : String) (least most given : Nat)
  | tooFewArguments (fn : String) (least given : Nat)
  | tooManyArguments (fn : String) (most given : Nat)
  | takesAtLeast (fn : String) (least given : Nat)
  | takesAtMost (fn : String) (most given : Nat)
  | noSources
  | noArguments (fn : String) (given : Nat)
  | oneArgument (fn : String) (given : Nat)
  | noReceiver (fn : String)
  | notReceiver (method owner type : String)
  -- collections
  | notIterable (type : String)
  | noLength (type : String)
  | lengthOverflow
  | unhashable (type : String)
  | notIndex (sequence type : String)
  | notSlice
  | sliceStart
  | oddHashMap
  | emptyExtremum (fn : String)
  | notInteger (type : String)
  | notIntegerText (base : Nat) (text : String)
  | notIntegerType (type : String)
  | numeralBase
  | baseWithoutText
  | infiniteInteger
  | nanInteger
  | zeroStep
  | sumOfStrings
  | notRepeatable
  | notCodec (parameter type : String)
  | nullCharacter
  | alreadyText
  | notBytes (type : String)
  | unwritable (alone : Bool) (type : String)
  | longNumeral (digits : Nat)
  | longInteger
  -- limits
  | exhausted
  deriving DecidableEq, Repr

namespace Failure

/-- The class of a failure. -/
def kind : Failure → FailureKind
  | .undefined _ | .unassignedOuter _ => .name
  | .unassignedLocal _ => .unboundLocal
  | .noField .. | .noTypeField .. => .attribute
  | .zeroDivision _ | .zeroPower | .noPower => .zeroDivision
  | .powerOverflow | .complexOverflow | .quotientOverflow | .magnitudeOverflow | .intOverflow
  | .countOverflow | .textOverflow | .lengthOverflow | .widthOverflow | .precisionOverflow
  | .characterRange | .infiniteInteger => .overflow
  | .sliceStart | .oddHashMap | .emptyExtremum _ | .notIntegerText .. | .numeralBase
  | .nanInteger | .nullCharacter | .zeroStep | .incompleteKey | .incompleteFormat | .widthTooBig
  | .precisionTooBig | .unknownConversion .. | .longNumeral _ | .longInteger => .value
  | .missingKey _ => .key
  | .memory => .memory
  | .exhausted => .limit
  | _ => .type

/-- Names in quotes, with commas and a word before the last. -/
def listed : List String → String
  | [] => ""
  | [a] => quote a
  | [a, b] => quote a ++ " and " ++ quote b
  | names => String.intercalate ", " ((names.dropLast).map quote)
      ++ ", and " ++ quote (names.getLastD "")
where
  quote (name : String) : String := "'" ++ name ++ "'"

/-- A noun in the number that a count asks for. -/
def plural (n : Nat) (noun : String) : String := if n = 1 then noun else noun ++ "s"

/-- How many positional arguments a function takes. -/
def takes (least most : Nat) : String :=
  if least = most then natText most ++ " positional " ++ plural most "argument"
  else "from " ++ natText least ++ " to " ++ natText most ++ " positional arguments"

/-- The wording of a failure. -/
def message : Failure → String
  | .undefined x => "name '" ++ x ++ "' is not defined"
  | .unassignedLocal x =>
    "cannot access local variable '" ++ x ++ "' where it is not associated with a value"
  | .unassignedOuter x =>
    "cannot access free variable '" ++ x
      ++ "' where it is not associated with a value in enclosing scope"
  | .noField t x => "'" ++ t ++ "' object has no attribute '" ++ x ++ "'"
  | .noTypeField t x => "type object '" ++ t ++ "' has no attribute '" ++ x ++ "'"
  | .operands op l r =>
    "unsupported operand type(s) for " ++ op ++ ": '" ++ l ++ "' and '" ++ r ++ "'"
  | .operand op t => "bad operand type for " ++ op ++ ": '" ++ t ++ "'"
  | .concatenation l r =>
    "can only concatenate " ++ l ++ " (not \"" ++ r ++ "\") to " ++ l
  | .repetition t => "can't multiply sequence by non-int of type '" ++ t ++ "'"
  | .unordered op l r =>
    "'" ++ op ++ "' not supported between instances of '" ++ l ++ "' and '" ++ r ++ "'"
  | .notContainer t => "argument of type '" ++ t ++ "' is not iterable"
  | .notSubstring t => "'in <string>' requires string as left operand, not " ++ t
  | .zeroDivision m => m
  | .zeroPower => "0.0 cannot be raised to a negative power"
  | .noPower => "0.0 to a negative or complex power"
  | .complexOverflow => "complex exponentiation"
  | .powerOverflow => "(34, 'Numerical result out of range')"
  | .quotientOverflow => "integer division result too large for a float"
  | .magnitudeOverflow => "absolute value too large"
  | .intOverflow => "int too large to convert to float"
  | .countOverflow => "cannot fit 'int' into an index-sized integer"
  | .textOverflow => "repeated string is too long"
  | .memory => ""
  | .unusedFormatArgument => "not all arguments converted during string formatting"
  | .missingFormatArgument => "not enough arguments for format string"
  | .noFormatTable => "format requires a mapping"
  | .missingKey key => Text.quoted key
  | .incompleteKey => "incomplete format key"
  | .incompleteFormat => "incomplete format"
  | .notFormatSize => "* wants int"
  | .widthOverflow => "Python int too large to convert to C ssize_t"
  | .precisionOverflow => "Python int too large to convert to C int"
  | .widthTooBig => "width too big"
  | .precisionTooBig => "precision too big"
  | .unknownConversion c index =>
    let shown := if 31 ≤ c.toNat && c.toNat ≤ 126 then c else '?'
    "unsupported format character '" ++ shown.toString ++ "' (0x"
      ++ String.ofList (Nat.toDigits 16 c.toNat) ++ ") at index " ++ natText index
  | .conversionInteger c t =>
    "%" ++ c.toString ++ " format: an integer is required, not " ++ t
  | .conversionNumber c t =>
    "%" ++ c.toString ++ " format: a real number is required, not " ++ t
  | .notReal t => "must be real number, not " ++ t
  | .notCharacter => "%c requires int or char"
  | .characterRange => "%c arg not in range(0x110000)"
  | .notCallable t => "'" ++ t ++ "' object is not callable"
  | .missingArguments fn names =>
    fn ++ "() missing " ++ natText names.length ++ " required positional "
      ++ plural names.length "argument" ++ ": " ++ listed names
  | .extraArguments fn least most given =>
    fn ++ "() takes " ++ takes least most ++ " but " ++ natText given
      ++ (if given = 1 then " was" else " were") ++ " given"
  | .tooFewArguments fn least given =>
    fn ++ " expected at least " ++ natText least ++ " " ++ plural least "argument" ++ ", got "
      ++ natText given
  | .tooManyArguments fn most given =>
    fn ++ " expected at most " ++ natText most ++ " " ++ plural most "argument" ++ ", got "
      ++ natText given
  | .takesAtLeast fn least given =>
    fn ++ "() takes at least " ++ natText least ++ " positional " ++ plural least "argument"
      ++ " (" ++ natText given ++ " given)"
  | .takesAtMost fn most given =>
    fn ++ "() takes at most " ++ natText most ++ " " ++ plural most "argument" ++ " ("
      ++ natText given ++ " given)"
  | .noSources => "map() must have at least two arguments."
  | .noArguments fn given =>
    fn ++ "() takes no arguments (" ++ natText given ++ " given)"
  | .oneArgument fn given =>
    fn ++ "() takes exactly one argument (" ++ natText given ++ " given)"
  | .noReceiver fn => "unbound method " ++ fn ++ "() needs an argument"
  | .notReceiver m owner t =>
    "descriptor '" ++ m ++ "' for '" ++ owner ++ "' objects doesn't apply to a '" ++ t
      ++ "' object"
  | .notIterable t => "'" ++ t ++ "' object is not iterable"
  | .noLength t => "object of type '" ++ t ++ "' has no len()"
  | .lengthOverflow => "Python int too large to convert to C ssize_t"
  | .unhashable t => "unhashable type: '" ++ t ++ "'"
  | .notIndex s t =>
    if s = "str" then "string indices must be integers, not '" ++ t ++ "'"
    else s ++ " indices must be integers or slices, not " ++ t
  | .notSlice => "slice indices must be integers or None or have an __index__ method"
  | .sliceStart =>
    "Indices for islice() must be None or an integer: 0 <= x <= sys.maxsize."
  | .oddHashMap => "hash-map requires an even number of arguments"
  | .emptyExtremum fn => fn ++ "() arg is an empty sequence"
  | .notInteger t => "'" ++ t ++ "' object cannot be interpreted as an integer"
  | .notIntegerText base s =>
    "invalid literal for int() with base " ++ natText base ++ ": "
      ++ String.ofList ((Text.quoted s).toList.take 200)
  | .notIntegerType t =>
    "int() argument must be a string, a bytes-like object or a real number, not '" ++ t ++ "'"
  | .numeralBase => "int() base must be >= 2 and <= 36, or 0"
  | .baseWithoutText => "int() can't convert non-string with explicit base"
  | .infiniteInteger => "cannot convert float infinity to integer"
  | .nanInteger => "cannot convert float NaN to integer"
  | .zeroStep => "range() arg 3 must not be zero"
  | .sumOfStrings => "sum() can't sum strings [use ''.join(seq) instead]"
  | .notRepeatable => "iter(v, w): v must be callable"
  | .notCodec parameter t =>
    "str() argument '" ++ parameter ++ "' must be str, not " ++ t
  | .nullCharacter => "embedded null character"
  | .alreadyText => "decoding str is not supported"
  | .notBytes t => "decoding to str: need a bytes-like object, " ++ t ++ " found"
  | .unwritable alone t =>
    (if alone then "__str__" else "__repr__") ++ " returned non-string (type " ++ t ++ ")"
  | .longNumeral digits => longNumeralText digits
  | .longInteger => longIntegerText
  | .exhausted => "maximum recursion depth exceeded"

end Failure

end TailLisp
