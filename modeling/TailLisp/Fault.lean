import TailLisp.Form.Text

/-!
# TailLisp.Fault

**What can be wrong with a program.** A `Fault` is a cause, the place it is reported at and the
form that shows it. `Cause.message` words each cause, `Cause.kind` sorts the causes into the
classes that callers tell apart, and `Fault.message` joins the parts:
`wording[ at line L, column C][: FORM]`.

Integers are read and written in decimal up to a number of digits. What goes beyond that is no fault
of the syntax, and a fault whose form cannot be written turns into one of that kind.
-/

namespace TailLisp

/-- The classes of faults. -/
inductive FaultKind where
  /-- The text is not a row of forms. -/
  | reader
  /-- A form is used against its rules. -/
  | compile
  /-- A binding pattern is malformed. -/
  | pattern
  /-- The `:or` clause of a table pattern is malformed. -/
  | defaultClause
  /-- A binding position holds neither a name nor a pattern. -/
  | unsupportedShape
  /-- A self-call stands outside tail position. -/
  | tailPosition
  /-- An integer has too many digits. -/
  | digits
  deriving DecidableEq, Repr

/-- The forms that begin with a vector of bindings. -/
inductive BindingHead where
  | letForm
  | loopForm
  deriving DecidableEq, Repr

/-- The name of a binding form. -/
def BindingHead.name : BindingHead → String
  | .letForm => "let"
  | .loopForm => "loop"

/-- Why a program is rejected. -/
inductive Cause where
  -- reading
  | invalidCharacter
  | unterminatedString
  | unexpectedEnd
  | unexpectedCloser (closer : Char)
  | unterminatedLiteral (closer : Char)
  | mismatchedCloser (expected found : Char)
  | oddMap
  -- macros
  | macroArguments (macroName : String)
  | ifNotShape
  | expansionDepth (limit : Int)
  -- binding patterns
  | unreadablePattern (cause : Cause)
  | patternCount (count : Nat)
  | restName
  | aliasName
  | duplicateAlias
  | secondRest
  | restNotLast
  | sequenceElement
  | bindingName
  | missingKey
  | tableKey
  | tableBinder
  | strayRest
  | duplicateDefaults
  | defaultsMap
  | defaultKey
  | duplicateDefaultKey
  | unusedDefaultKey
  | unsupportedBinding
  -- self-calls
  | selfCallNotTail
  | recurOutside
  | recurArity (expected found : Nat)
  | exitOutsideLoop
  -- special forms
  | bindingsMissing (head : BindingHead)
  | bindingsNotVector (head : BindingHead)
  | bindingsOdd (head : BindingHead)
  | loopBinder
  | ifShape
  | condOdd
  | caseEmpty
  | caseKeys
  | defShape
  | defnShape
  | fnShape
  | notShape
  | quoteShape
  | parametersNotVector
  | restParameterMissing
  | restParameterNotLast
  | statementOnly (head : String)
  | operatorEmpty (operator : String)
  | comparisonShort (operator : String)
  | invalidSymbol
  -- limits
  | nesting
  | longNumeral (digits : Nat)
  | longInteger
  deriving DecidableEq, Repr

namespace Cause

/-- The class of a cause. -/
def kind : Cause → FaultKind
  | .invalidCharacter | .unterminatedString | .unexpectedEnd | .unexpectedCloser _
  | .unterminatedLiteral _ | .mismatchedCloser .. | .oddMap => .reader
  | .unreadablePattern _ | .patternCount _ | .restName | .aliasName | .duplicateAlias
  | .secondRest | .restNotLast | .sequenceElement | .bindingName | .missingKey | .tableKey
  | .tableBinder | .strayRest => .pattern
  | .duplicateDefaults | .defaultsMap | .defaultKey | .duplicateDefaultKey
  | .unusedDefaultKey => .defaultClause
  | .unsupportedBinding => .unsupportedShape
  | .selfCallNotTail | .recurOutside => .tailPosition
  | .longNumeral _ | .longInteger => .digits
  | _ => .compile

/-- The wording of a cause. -/
def message : Cause → String
  | .invalidCharacter => "invalid character"
  | .unterminatedString => "unterminated string"
  | .unexpectedEnd => "unexpected end of input"
  | .unexpectedCloser c => "unexpected '" ++ c.toString ++ "'"
  | .unterminatedLiteral c => "unterminated literal, expected " ++ c.toString
  | .mismatchedCloser c d =>
    "expected '" ++ c.toString ++ "', found '" ++ d.toString ++ "'"
  | .oddMap => "map literal must have an even number of forms"
  | .macroArguments name => "bad arguments to macro " ++ name
  | .ifNotShape => "if-not requires test, then, optional else"
  | .expansionDepth limit => "macro expansion exceeded maximum depth of " ++ intText limit
  | .unreadablePattern cause => cause.message
  | .patternCount n => "expected exactly one pattern, got " ++ natText n ++ " forms"
  | .restName => "& must be followed by exactly one name"
  | .aliasName => ":as must be followed by a name"
  | .duplicateAlias => "duplicate :as alias"
  | .secondRest => "only one rest binder is allowed"
  | .restNotLast => "rest binder must be the last positional element"
  | .sequenceElement => "sequence pattern elements must be names or patterns"
  | .bindingName => "invalid binding name"
  | .missingKey => "odd binder/key count: binder has no key"
  | .tableKey => "table key must be a constant"
  | .tableBinder => "table binder must be a name or a nested pattern"
  | .strayRest => "& is only valid inside a sequence pattern"
  | .duplicateDefaults => "duplicate :or clause"
  | .defaultsMap => ":or must be followed by a map of key defaults"
  | .defaultKey => ":or keys must be constants"
  | .duplicateDefaultKey => "duplicate :or key"
  | .unusedDefaultKey => ":or key is not looked up by this pattern"
  | .unsupportedBinding => "unsupported binding form"
  | .selfCallNotTail => "recur is not in tail position"
  | .recurOutside => "recur outside of loop or function"
  | .recurArity expected found =>
    "recur requires " ++ natText expected ++ " arguments, got " ++ natText found
  | .exitOutsideLoop => "loop exit compiled outside of rewrite_loop"
  | .bindingsMissing head => head.name ++ " requires bindings vector"
  | .bindingsNotVector head => head.name ++ " bindings must be a vector"
  | .bindingsOdd head => head.name ++ " bindings must have even number of forms"
  | .loopBinder => "loop binding must be a name or a pattern"
  | .ifShape => "if requires test, then, optional else"
  | .condOdd => "cond requires even number of forms (test expr pairs)"
  | .caseEmpty => "case requires an expression"
  | .caseKeys => "case keys must be constants"
  | .defShape => "def requires a name and an optional value"
  | .defnShape => "defn requires a name and a parameter vector"
  | .fnShape => "fn requires parameter vector"
  | .notShape => "not requires exactly 1 argument"
  | .quoteShape => "quote requires exactly 1 argument"
  | .parametersNotVector => "parameters must be a vector"
  | .restParameterMissing => "& must be followed by a parameter"
  | .restParameterNotLast => "rest parameter must be the last parameter"
  | .statementOnly head => head ++ " is only allowed at statement level"
  | .operatorEmpty op => "binary operator " ++ op ++ " requires at least 1 argument"
  | .comparisonShort op => "comparison operator " ++ op ++ " requires at least 2 arguments"
  | .invalidSymbol => "invalid symbol"
  | .nesting => "form nested too deeply"
  | .longNumeral digits => longNumeralText digits
  | .longInteger => longIntegerText

end Cause

/-- A rejected program: why, where, and the form that shows it. -/
structure Fault where
  cause : Cause
  span? : Option Span := none
  form? : Option Form := none
  deriving Repr

namespace Fault

/-- A fault at a place of the source. -/
def atPosition (cause : Cause) (p : Position) : Fault := { cause, span? := some (.ofPosition p) }

/-- A fault shown by a form and reported where the form stands. Nil shows nothing. -/
def ofForm (cause : Cause) (form : Form) : Fault :=
  let shown := if form.isNil then none else some form
  { cause, span? := shown.bind Form.span?, form? := shown }

/-- A fault of one item of a container: reported at the item if it has a span, else at the
container, and shown by the item unless that is nil. -/
def ofItem (cause : Cause) (item container : Form) : Fault :=
  { cause
    span? := item.span? <|> container.span?
    form? := some (if item.isNil then container else item) }

/-- The class of a fault. -/
def kind (fault : Fault) : FaultKind := fault.cause.kind

/-- The place a fault is reported at, if it has one in a source. -/
def place? (fault : Fault) : Option Position :=
  match fault.span? with
  | some s => if s.isReal then some ⟨s.line, s.col⟩ else none
  | none => none

/-- Can the form that shows the fault be written? -/
def isWritable (fault : Fault) : Bool := fault.form?.all Form.isWritable

/-- Is it a fault of the syntax, and can it be shown as one? -/
def isSyntactic (fault : Fault) : Bool := fault.kind != .digits && fault.isWritable

/-- The full message. -/
def message (fault : Fault) : String :=
  let place := match fault.place? with
    | some p => " at line " ++ natText p.line ++ ", column " ++ natText p.col
    | none => ""
  let shown := match fault.form? with
    | some form => ": " ++ form.text
    | none => ""
  if fault.isWritable then fault.cause.message ++ place ++ shown else longIntegerText

end Fault

end TailLisp
