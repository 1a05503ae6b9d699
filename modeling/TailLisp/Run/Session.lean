import TailLisp.Program
import TailLisp.Run.Machine
import TailLisp.Target.Warning

/-!
# TailLisp.Run.Session

**Running sources one after the other** in one world. A source that cannot be compiled runs not at
all; one that fails while it runs keeps what it has done by then.
-/

namespace TailLisp

/-- What a run led to. -/
structure Ran where
  world : World
  trouble? : Option Trouble := none
  events : List Event := []
  warnings : List Warning := []

/-- The warnings about a program. Operators on constants are folded before. -/
def Program.warnings (program : List Stmt) : List Warning :=
  match (Interp.foldStmts program).run {} with
  | .ok program _ => Stmt.warningsOfAll Tree.origin program
  | .error _ _ => []

namespace World

/-- Give the library its names; names that have a value keep it. -/
def install (w : World) : World :=
  { w with globals := Native.installed.foldl (fun globals (name, fn) =>
      if (globals.lookup name).isSome then globals else globals ++ [(name, .native fn)]) w.globals }

/-- Run a program. -/
def runProgram (w : World) (program : List Stmt) : Ran :=
  match (Interp.run program).run w with
  | .ok _ w => { world := w }
  | .error failure w => { world := w, trouble? := some (.failed failure) }

/-- Compile the source text of a file and run it. -/
def runSource (w : World) (options : Options) (file source : String) : Ran :=
  let w := w.install
  let outcome := Program.runnable options file source
  match outcome.result with
  | .ok program =>
    { w.runProgram program with
      events := outcome.events, warnings := Program.warnings program }
  | .error trouble => { world := w, trouble? := some trouble, events := outcome.events }

/-- Does a name still mean what the library gave it? -/
def isInstalled (name : String) (value : Value) : Bool :=
  match value, Native.installed.lookup name with
  | .native fn, some given => fn == given
  | _, _ => false

/-- The names that programs gave a value, in the order in which they first did. -/
def vars (w : World) : List (String × Datum) :=
  (w.globals.filter fun (name, value) => !isInstalled name value).map fun (name, value) =>
    (name, w.read value)

end World

end TailLisp
