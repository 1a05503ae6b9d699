import TailLisp.Text.Digit

/-!
# TailLisp.Command.Arguments

**Reading the command line.** Words are first sorted into options and arguments (`Word.read`) and
then taken from left to right. An option that takes a value has it attached (`--config=p`, `-ccode`)
or as the next word. Long options may be cut short as long as one option is meant; short options
without a value may be joined, also by an equals sign (`-vh`, `-v=h`). The first argument is a
subcommand, to which all words after it belong.
-/

namespace TailLisp.Command

/-- What an option asks for. -/
inductive Flag where
  | help
  | command
  | exportFile
  | config
  | verbose
  deriving DecidableEq, Repr

/-- Does an option take a value? -/
def Flag.takesValue : Flag → Bool
  | .command | .exportFile | .config => true
  | .help | .verbose => false

/-- The subcommands. -/
inductive Subcommand where
  | exportFile
  | checkFile
  deriving DecidableEq, Repr

/-- The name of a subcommand. -/
def Subcommand.name : Subcommand → String
  | .exportFile => "export"
  | .checkFile => "check"

/-- The subcommand of a name. -/
def Subcommand.ofName? (name : String) : Option Subcommand :=
  [Subcommand.exportFile, .checkFile].find? (·.name == name)

/-- The ways to write options. -/
abbrev Spellings := List (String × Flag)

/-- The options before a subcommand. -/
def mainSpellings : Spellings :=
  [("-h", .help), ("--help", .help), ("-c", .command), ("--command", .command),
   ("-e", .exportFile), ("--export", .exportFile), ("--config", .config), ("-v", .verbose),
   ("--verbose", .verbose)]

/-- The options after a subcommand. -/
def subSpellings : Spellings := [("-h", .help), ("--help", .help)]

/-- What the command line asks for. -/
structure Arguments where
  command : Option String := none
  exportFile : Option String := none
  config : Option String := none
  verbose : Bool := false
  /-- A subcommand and its file. -/
  subcommand : Option (Subcommand × String) := none
  deriving DecidableEq, Repr

/-- Why nothing is done after reading the command line. -/
inductive Stop where
  /-- The words do not fit the rules. -/
  | misuse
  /-- Help was asked for, on a subcommand or on all. -/
  | help (topic : Option Subcommand)
  deriving DecidableEq, Repr

/-! ### Single words -/

/-- What a word is. -/
inductive Word where
  | argument
  /-- `--`, after which all words are arguments. -/
  | separator
  | option (spelling : String) (flag : Flag) (attached : Option String)
  /-- A word that is written like an option. -/
  | unknown
  deriving DecidableEq, Repr

/-- A word cut at its first equals sign. -/
def cutAtSign (word : String) : String × Option String :=
  let cs := word.toList
  match cs.dropWhile (· != '=') with
  | [] => (word, none)
  | _ :: value => (String.ofList (cs.takeWhile (· != '=')), some (String.ofList value))

/-- Digits and nothing else, at least one. -/
def isDigits (cs : List Char) : Bool := !cs.isEmpty && cs.all Text.isDigit

/-- Is a word a negative number: digits, perhaps with a point before the last of them? -/
def isNegativeNumber (word : String) : Bool :=
  match word.toList with
  | '-' :: cs =>
    let cs := if cs.getLast? == some '\n' then cs.dropLast else cs
    isDigits cs
      || (match cs.dropWhile Text.isDigit with
        | '.' :: rest => isDigits rest
        | _ => false)
  | _ => false

/-- The options that a word may be a shortened form of. -/
def candidates (spellings : Spellings) (word : String) : List Word :=
  if word.startsWith "--" then
    let (start, value) := cutAtSign word
    (spellings.filter fun (spelling, _) => spelling.startsWith start).map fun (spelling, flag) =>
      .option spelling flag value
  else
    (spellings.filter fun (spelling, _) => spelling.toList == word.toList.take 2).map
      fun (spelling, flag) => .option spelling flag (some (String.ofList (word.toList.drop 2)))

/-- Sort one word. -/
def Word.read (spellings : Spellings) (word : String) : Except Stop Word :=
  if !word.startsWith "-" || word = "-" then .ok .argument
  else
    match spellings.lookup word with
    | some flag => .ok (.option word flag none)
    | none =>
      let (start, value) := cutAtSign word
      match value, spellings.lookup start with
      | some value, some flag => .ok (.option start flag (some value))
      | _, _ =>
        match candidates spellings word with
        | [only] => .ok only
        | _ :: _ => .error .misuse
        | [] =>
          if isNegativeNumber word || word.toList.contains ' ' then .ok .argument
          else .ok .unknown

/-- Sort words. -/
def readWords (spellings : Spellings) : List String → Except Stop (List (String × Word))
  | [] => .ok []
  | "--" :: words => .ok (("--", .separator) :: words.map (·, .argument))
  | word :: words => do
    let kind ← Word.read spellings word
    let rest ← readWords spellings words
    return (word, kind) :: rest

/-! ### Options -/

/-- What one word asks for. -/
structure Taken where
  /-- Options with their values. -/
  flags : List (Flag × Option String) := []
  /-- An option whose value is the next word. -/
  pending : Option Flag := none

/-- What is taken with an option put before it. -/
def Taken.after (flag : Flag) (taken : Taken) : Taken :=
  { taken with flags := (flag, none) :: taken.flags }

/-- An option with nothing attached. -/
def takeBare (flag : Flag) : Taken :=
  if flag.takesValue then { pending := some flag } else { flags := [(flag, none)] }

/-- The value that is attached to an option. The separator stands for none. -/
def attachedValue (cs : List Char) : String := if cs = ['-', '-'] then "" else String.ofList cs

/-- An option with something attached: its value or, for a short option without a value, further
short options. -/
def takeAttached (spellings : Spellings) (flag : Flag) (short : Bool) :
    List Char → Except Stop Taken
  | [] => if flag.takesValue then .ok { flags := [(flag, some "")] } else .error .misuse
  | c :: cs =>
    if flag.takesValue then .ok { flags := [(flag, some (attachedValue (c :: cs)))] }
    else if !short then .error .misuse
    else
      match spellings.lookup (String.ofList ['-', c]), cs with
      | none, _ => .error .misuse
      | some next, [] => .ok ((takeBare next).after flag)
      | some next, d :: ds => (takeAttached spellings next true (d :: ds)).map (·.after flag)

/-- What an option word asks for. -/
def takeOption (spellings : Spellings) (spelling : String) (flag : Flag) :
    Option String → Except Stop Taken
  | none => .ok (takeBare flag)
  | some attached => takeAttached spellings flag (!spelling.startsWith "--") attached.toList

/-- Carry out one option. -/
def applyFlag (topic : Option Subcommand) (args : Arguments) (flag : Flag × Option String) :
    Except Stop Arguments :=
  match flag with
  | (.help, _) => .error (.help topic)
  | (.command, value) => .ok { args with command := value }
  | (.exportFile, value) => .ok { args with exportFile := value }
  | (.config, value) => .ok { args with config := value }
  | (.verbose, _) => .ok { args with verbose := true }

/-! ### Subcommands -/

/-- The words after a subcommand: its file, and nothing else but a request for help. `extra` says
whether words were left over so far. -/
def readFile (sub : Subcommand) (file : Option String) (extra : Bool) :
    List (String × Word) → Except Stop String
  | [] =>
    match file with
    | some file => if extra then .error .misuse else .ok file
    | none => .error .misuse
  | (_, .option spelling flag attached) :: words => do
    let taken ← takeOption subSpellings spelling flag attached
    let _ ← taken.flags.foldlM (applyFlag (some sub)) {}
    readFile sub file extra words
  | (_, .unknown) :: words => readFile sub file true words
  | (word, .argument) :: (_, .separator) :: words =>
    match file with
    | none => readFile sub (some word) extra words
    | some _ => readFile sub file true words
  | (word, .argument) :: words =>
    match file with
    | none => readFile sub (some word) extra words
    | some _ => readFile sub file true words
  | (_, .separator) :: words => readFile sub file (extra || file.isSome || words.isEmpty) words

/-! ### The command line -/

/-- Take words from left to right. -/
def readOptions (args : Arguments) (extra : Bool) :
    List (String × Word) → Except Stop Arguments
  | [] => if extra then .error .misuse else .ok args
  | (_, .option spelling flag attached) :: words => do
    let taken ← takeOption mainSpellings spelling flag attached
    match taken.pending, words with
    | none, words =>
      let args ← taken.flags.foldlM (applyFlag none) args
      readOptions args extra words
    | some flag, (value, .argument) :: words =>
      let args ← (taken.flags ++ [(flag, some value)]).foldlM (applyFlag none) args
      readOptions args extra words
    | some _, _ => .error .misuse
  | (_, .unknown) :: words => readOptions args true words
  | (_, .separator) :: _ => .error .misuse
  | (word, .argument) :: words =>
    match Subcommand.ofName? word with
    | none => .error .misuse
    | some sub => do
      let file ← readFile sub none false (← readWords subSpellings (words.map (·.1)))
      if extra then .error .misuse
      else return { args with subcommand := some (sub, file) }

/-- Read a command line. -/
def Arguments.read (words : List String) : Except Stop Arguments := do
  readOptions {} false (← readWords mainSpellings words)

/-! ### The file to run -/

/-- The options whose next word is their value. -/
def valueOptions : List String := ["-c", "--command", "-e", "--export", "--config"]

/-- Take out the file to run: the first word that is no option, no value of an option and no
subcommand. -/
def splitFile : List String → Option String × List String
  | [] => (none, [])
  | word :: words =>
    if valueOptions.contains word then
      match words with
      | [] => (none, [word])
      | value :: rest =>
        let (file, others) := splitFile rest
        (file, word :: value :: others)
    else if word.startsWith "-" then
      let (file, others) := splitFile words
      (file, word :: others)
    else if (Subcommand.ofName? word).isSome then (none, word :: words)
    else (some word, words)

end TailLisp.Command
