import TailLisp.FileTree
import TailLisp.Form.Data
import TailLisp.Program
import TailLisp.Text.Identifier
import TailLisp.Text.Upper

/-!
# TailLisp.Settings

**Settings** of the compiler and its command line. They stand in a file of their own as a map,

    {:gensym-prefix "__ll_"
     :max-expansion-depth 100
     :log-level "WARNING"}

in which every key may be left out. The file is looked for from a folder upward.
-/

namespace TailLisp

/-- What can be set. -/
structure Settings extends Options where
  /-- The least level of events that are shown, by name. -/
  logLevel : String := "WARNING"
  /-- The file that the settings were read from. -/
  file : Option String := none
  /-- The settings as they were written. -/
  written : Datum := .dict []
  deriving Inhabited

/-- Why settings are not accepted. -/
inductive SettingsFault where
  | missingPath (path : String)
  | unreadable (file : String) (fault : Fault)
  | noMap (file : String)
  | unhashable (type : String)
  | unknownKeys (file : String) (keys : List Datum)
  | tempPrefix (got : Datum)
  | tempPrefixStart (got : Datum)
  | maxDepth (got : Datum)
  | logLevel (got : Datum)
  deriving Repr

/-- What a text about data says, if they can be written. -/
def Datum.tell (data : List Datum) (text : String) : String :=
  if (unwritableIn? data).isNone then text else longIntegerText

/-- The wording of a fault. -/
def SettingsFault.message : SettingsFault → String
  | .missingPath path => "Path does not exist: " ++ path
  | .unreadable file fault =>
    if fault.isSyntactic then "Failed to parse " ++ file ++ ": " ++ fault.message else fault.message
  | .noMap file => file ++ " must contain a map as the main form"
  | .unhashable type => (Failure.unhashable type).message
  | .unknownKeys file keys =>
    let names := (keys.map Datum.text).mergeSort fun a b => !(b < a)
    Datum.tell keys
      (file ++ " has unknown keys: " ++ String.intercalate ", " (names.map (":" ++ ·)))
  | .tempPrefix got =>
    Datum.tell [got] (":gensym-prefix must be an identifier string, got " ++ got.shown)
  | .tempPrefixStart got =>
    Datum.tell [got] (":gensym-prefix must start with '_', got " ++ got.shown)
  | .maxDepth got =>
    Datum.tell [got] (":max-expansion-depth must be a positive integer, got " ++ got.shown)
  | .logLevel got =>
    Datum.tell [got] (":log-level must be a logging level name, got " ++ got.shown)

namespace Settings

/-- The name of the file that settings are read from. -/
def fileName : String := "letloop.it"

/-- The levels of events with their weights. -/
def levels : List (String × Nat) :=
  [("CRITICAL", 50), ("FATAL", 50), ("ERROR", 40), ("WARN", 30), ("WARNING", 30), ("INFO", 20),
   ("DEBUG", 10), ("NOTSET", 0)]

/-- The weight of the level that is shown. -/
def levelValue (settings : Settings) : Nat := (levels.lookup settings.logLevel).getD 30

/-! ### Checking settings -/

/-- The key of the beginning of temporaries. -/
def tempPrefixKey : String := "gensym-prefix"

/-- The key of the limit of macro expansion. -/
def maxDepthKey : String := "max-expansion-depth"

/-- The key of the level of events. -/
def logLevelKey : String := "log-level"

/-- The keys that may be set. -/
def knownKeys : List String := [tempPrefixKey, maxDepthKey, logLevelKey]

/-- Is a key one that may be set? -/
def isKnown : Datum → Bool
  | .const (.str key) => knownKeys.contains key
  | _ => false

/-- The value of a key, or a default. -/
def valueOf (entries : List (Datum × Datum)) (key : String) (default : Constant) : Datum :=
  ((entries.find? fun e => e.1.equal (.const (.str key))).map (·.2)).getD (.const default)

/-- The keys that may not be set. -/
def unknownKeys (entries : List (Datum × Datum)) : List Datum :=
  (entries.map (·.1)).filter (!isKnown ·)

/-- Check the beginning of temporaries: an identifier that begins with an underscore, which names
in programs cannot clash with. -/
def checkTempPrefix (got : Datum) : Except SettingsFault String :=
  match got with
  | .const (.str s) =>
    if !Text.isIdentifier s then .error (.tempPrefix got)
    else if !s.startsWith "_" then .error (.tempPrefixStart got)
    else .ok s
  | got => .error (.tempPrefix got)

/-- Check the limit of macro expansion: an integer from one on. -/
def checkMaxDepth (got : Datum) : Except SettingsFault Int :=
  match got with
  | .const (.int i) => if i < 1 then .error (.maxDepth got) else .ok i
  | got => .error (.maxDepth got)

/-- Check a level, in capitals or not. -/
def checkLogLevel (got : Datum) : Except SettingsFault String :=
  match got with
  | .const (.str s) =>
    let level := Text.upper s
    if (levels.lookup level).isSome then .ok level else .error (.logLevel got)
  | got => .error (.logLevel got)

/-- The settings that entries say. Unknown keys are reported first, then the first setting that is
not accepted. -/
def ofEntries (entries : List (Datum × Datum)) (file : Option String) :
    Except SettingsFault Settings := do
  let place := (file.filter (!·.isEmpty)).getD fileName
  match unknownKeys entries with
  | [] => pure ()
  | keys => throw (.unknownKeys place keys)
  let base : Settings := {}
  let tempPrefix ← checkTempPrefix (valueOf entries tempPrefixKey (.str base.tempPrefix))
  let maxDepth ← checkMaxDepth (valueOf entries maxDepthKey (.int base.maxDepth))
  let logLevel ← checkLogLevel (valueOf entries logLevelKey (.str base.logLevel))
  return { tempPrefix, maxDepth, logLevel, file, written := .dict entries }

/-! ### Finding settings -/

/-- The entries of the first map among forms. -/
def firstMap? : List Form → Option (List (Form × Form))
  | [] => none
  | .map entries _ :: _ => some entries
  | _ :: forms => firstMap? forms

/-- The settings in the text of a file. -/
def ofText (file text : String) : Except SettingsFault Settings := do
  let forms ← match Form.readAll text with
    | .ok forms => pure forms
    | .error fault => throw (.unreadable file fault)
  match firstMap? forms with
  | none => throw (.noMap file)
  | some entries =>
    match Form.toDatum (.map entries .none) with
    | .ok (.dict entries) => ofEntries entries (some file)
    | .ok _ => throw (.noMap file)
    | .error type => throw (.unhashable type)

/-- The folder that holds the settings for a path: the innermost from there upward with a file of
settings. A path to a file stands for its folder, no path for the current folder. -/
def findRoot (tree : FileTree) (path : Option String) : Option Path :=
  let start := match path with
    | none => { parts := tree.here : Path }
    | some path => if tree.isFile path then (tree.absolute path).parent else tree.absolute path
  tree.findUp fileName start

/-- Read the settings in a file. -/
def ofFile (tree : FileTree) (file : String) : Except SettingsFault Settings :=
  match tree.read file with
  | .ok text => ofText file text
  | .error _ => .error (.missingPath file)

/-- The settings for a path, which is a file of settings or a folder to look from upward; the
usual ones if no file is found. -/
def load (tree : FileTree) (path : Option String) : Except SettingsFault Settings :=
  match path with
  | none => search none
  | some p =>
    if !tree.pathExists p then .error (.missingPath p)
    else if tree.isFile p then ofFile tree (tree.absolute p).text
    else search path
where
  search (path : Option String) : Except SettingsFault Settings :=
    match findRoot tree path with
    | none => .ok {}
    | some root => ofFile tree (root.child fileName).text

end Settings

end TailLisp
