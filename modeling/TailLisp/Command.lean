import TailLisp.Command.Help
import TailLisp.Run.Session
import TailLisp.Settings

/-!
# TailLisp.Command

**The command line**: run a file or a piece of code, print the target program of a file, or check a
file without running it. `Command.run` says what is printed and how the command ends, given the
files it can see.
-/

namespace TailLisp.Command

/-- How the command ends. -/
inductive Ending where
  | exit (code : Nat)
  /-- The command line did not fit the rules. -/
  | misuse
  /-- A trouble that the command does not report itself. -/
  | escaped (trouble : Trouble)
  deriving Repr

/-- What the command leaves behind. -/
structure Report where
  output : String := ""
  errors : String := ""
  ending : Ending := .exit 0
  deriving Repr

/-! ### Events and troubles -/

/-- The weight of the events that the compiler reports. -/
def eventLevel : Nat := 10

/-- The line that shows an event. -/
def eventLine (event : Event) : String :=
  "DEBUG " ++ event.source ++ ": " ++ event.message ++ "\n"

/-- The lines of events, if they are to be shown. -/
def eventLines (shown : Bool) (events : List Event) : String :=
  if shown then String.join (events.map eventLine) else ""

/-- Does a name of a source stand for no file? -/
def isNameless (file : String) : Bool := file.startsWith "<" && file.endsWith ">"

/-- What is said about a warning: where it is, what it says, and the line of the file. -/
def warningText (file source : String) (warning : Warning) : String :=
  let shown := if isNameless file then none else (source.splitOn "\n")[warning.line - 1]?
  file ++ ":" ++ natText warning.line ++ ": SyntaxWarning: " ++ warning.message ++ "\n"
    ++ (match shown with
      | some line => "  " ++ Text.strip line ++ "\n"
      | none => "")

/-- What is said about a trouble with a source. -/
def troubleText (verbose : Bool) (source : String) (trouble : Trouble) : String :=
  let message := trouble.message source
  "Error: " ++ message ++ "\n"
    ++ (if verbose then
      "Traceback (most recent call last):\n  File " ++ Text.quoted source ++ "\n" ++ message ++ "\n"
    else "")

/-- How the command was set up. -/
structure Setup where
  settings : Settings
  verbose : Bool
  /-- Are events shown? -/
  logged : Bool

/-- The report of a trouble that ends the command. -/
def troubled (setup : Setup) (source : String) (trouble : Trouble) : Report :=
  { errors := troubleText setup.verbose source trouble, ending := .exit 1 }

/-- A report with the lines of events before it. -/
def Report.after (report : Report) (setup : Setup) (events : List Event) : Report :=
  { report with errors := eventLines setup.logged events ++ report.errors }

/-- A report with what is said about warnings before it. -/
def Report.warned (report : Report) (file source : String) (warnings : List Warning) : Report :=
  { report with
    errors := String.join (warnings.map (warningText file source)) ++ report.errors }

/-! ### What the command does -/

/-- Run a source under a name. -/
def runSource (setup : Setup) (file source : String) : Report :=
  let world : World :=
    { globals := [("__name__", .ofString "__main__"), ("__file__", .ofString file)] }
  let ran := world.runSource setup.settings.toOptions file source
  let report : Report := match ran.trouble? with
    | none => {}
    | some trouble => troubled setup file trouble
  ({ report with output := ran.world.output }.warned file source ran.warnings).after setup
    ran.events

/-- Run a file. -/
def runFile (tree : FileTree) (setup : Setup) (file : String) : Report :=
  match tree.read file with
  | .error fault => troubled setup file (.file fault)
  | .ok source => runSource setup file source

/-- Print the target program of a file. -/
def exportFile (tree : FileTree) (setup : Setup) (file : String) : Report :=
  match tree.read file with
  | .error fault => troubled setup file (.file fault)
  | .ok source =>
    let outcome := Program.text setup.settings.toOptions file source
    let report : Report := match outcome.result with
      | .ok text => { output := text ++ "\n" }
      | .error fault => troubled setup file (.fault fault)
    report.after setup outcome.events

/-- Compile a file without running it. -/
def checkFile (tree : FileTree) (setup : Setup) (file : String) : Report :=
  match tree.read file with
  | .error fault =>
    if fault.isExternal then troubled setup file (.file fault)
    else { ending := .escaped (.file fault) }
  | .ok source =>
    let outcome := Program.runnable setup.settings.toOptions file source
    match outcome.result with
    | .ok program =>
      (({ output := file ++ ": ok\n" } : Report).warned file source
        (Program.warnings program)).after setup outcome.events
    | .error trouble =>
      if trouble.isSyntactic then
        let message := trouble.message file
        ({ errors := file ++ ": " ++ message ++ "\n", ending := .exit 1 } : Report).after setup
          (outcome.events ++ [.checkFailed file message])
      else ({ ending := .escaped trouble } : Report).after setup outcome.events

/-! ### The command line -/

/-- A text that is given and not empty. -/
def given (text : Option String) : Option String := text.filter (!·.isEmpty)

/-- The file that the settings are looked for from. -/
def targetOf (file : Option String) (args : Arguments) : Option String :=
  given file <|> given (args.subcommand.map (·.2)) <|> given args.exportFile

/-- The settings for a command line: those that it names, or else those for its file. -/
def settingsFor (tree : FileTree) (args : Arguments) (target : Option String) :
    Except SettingsFault Settings :=
  match given args.config, target.filter tree.pathExists with
  | some path, _ => Settings.load tree (some path)
  | none, some target => Settings.load tree (some (tree.absolute target).parent.text)
  | none, none => Settings.load tree none

/-- Do what the command line asks for. -/
def perform (tree : FileTree) (setup : Setup) (file : Option String) (args : Arguments) : Report :=
  match args.subcommand, given args.command, given args.exportFile, given file with
  | some (.exportFile, file), _, _, _ => exportFile tree setup file
  | some (.checkFile, file), _, _, _ => checkFile tree setup file
  | none, some code, _, _ => runSource setup "<command>" code
  | none, none, some file, _ => exportFile tree setup file
  | none, none, none, some file => runFile tree setup file
  | none, none, none, none => { output := mainHelp, ending := .exit 2 }

/-- Run the command on its words. -/
def run (tree : FileTree) (words : List String) : Report :=
  let (file, words) := splitFile words
  match Arguments.read words with
  | .error .misuse => { errors := misuseText, ending := .misuse }
  | .error (.help topic) => { output := help topic }
  | .ok args =>
    match settingsFor tree args (targetOf file args) with
    | .error (.unhashable type) => { ending := .escaped (.failed (.unhashable type)) }
    | .error fault =>
      { errors := "Error in " ++ Settings.fileName ++ ": " ++ fault.message ++ "\n"
        ending := .exit 1 }
    | .ok settings =>
      let logged := args.verbose || settings.levelValue ≤ eventLevel
      let setup : Setup := { settings, verbose := args.verbose, logged }
      (perform tree setup file args).after setup (settings.file.map .usingSettings).toList

/-- The code that the command ends with. -/
def Ending.code : Ending → Nat
  | .exit code => code
  | .misuse => 2
  | .escaped _ => 1

/-! ### What the command looks at -/

/-- The texts in a word that may be a path: the word, and what may be attached to an option. -/
def pathsIn (word : String) : List String :=
  [word, String.ofList (word.toList.drop 2)] ++ ((cutAtSign word).2).toList

/-- The places that a path goes through. -/
def placesOn (here : Place) (path : String) : List Place :=
  let parts := path.splitOn "/"
  let start := if path.startsWith "/" then [] else here
  (List.range (parts.length + 1)).map fun n => (parts.take n).foldl FileTree.joinPart start

/-- The places that the command may look at: those on the way to every path, and a file of
settings in each folder above them. -/
def lookedAt (here : Place) (words : List String) : List Place :=
  let places := ("." :: words.flatMap pathsIn).flatMap (placesOn here)
  let folders := (places.flatMap fun place => (FileTree.ancestors ⟨place, false⟩).map (·.parts))
  (places ++ folders.map (· ++ [Settings.fileName])).eraseDups

end TailLisp.Command
