import TailLisp.Form.Reader
import TailLisp.Lowering.Stmt
import TailLisp.Macro
import TailLisp.Target.Printer
import TailLisp.Target.Tree
import TailLisp.Trouble

/-!
# TailLisp.Program

**Whole programs.** A source text is read, its macros are expanded, and its forms are lowered one
after the other to the statements of a target program.
-/

namespace TailLisp

/-- What a compilation can be asked for. -/
structure Options where
  /-- What every temporary begins with. -/
  tempPrefix : String := "__ll_"
  /-- How often the head of a form may be replaced by macros. -/
  maxDepth : Int := 100
  deriving DecidableEq, Repr, Inhabited

/-- The context a compilation begins in. -/
def Options.context (options : Options) : Context := { tempPrefix := options.tempPrefix }

/-- The outcome of a step that was run, with the events it reported in order. -/
structure Outcome (ε α : Type) where
  result : Except ε α
  events : List Event

namespace Compile

/-- Run a step from a context. -/
def outcome {α : Type} (step : Compile α) (ctx : Context) : Outcome Fault α :=
  match step.run ctx with
  | .ok a ctx => ⟨.ok a, ctx.events.reverse⟩
  | .error fault ctx => ⟨.error fault, ctx.events.reverse⟩

end Compile

namespace Program

/-- Read a source and expand its macros. -/
def forms (options : Options) (source : String) : Compile (List Form) := do
  let forms ← Compile.lift (Form.readAll source)
  let forms ← Compile.lift (Macro.expandAll Macro.standard options.maxDepth forms)
  Compile.report (.expandedMacros forms.length)
  return forms

/-- Lower the forms of a file in order. -/
def lower (file : String) (forms : List Form) : Compile (List Stmt) := do
  let program ← Lowering.stmts (Lowering.forForms forms) forms
  Compile.report (.compiled forms.length file)
  return program

/-- Compile the source text of a file. -/
def compile (options : Options) (file source : String) : Outcome Fault (List Stmt) :=
  Compile.outcome (do lower file (← forms options source)) options.context

/-- The text of a program, if its constants can be written. -/
def write (program : List Stmt) : Except Fault String :=
  if Tree.allWritable (Stmt.programTrees program) then .ok (Stmt.programText program)
  else .error { cause := .longInteger }

/-- The target program of a source text as text. -/
def text (options : Options) (file source : String) : Outcome Fault String :=
  let outcome := compile options file source
  ⟨outcome.result.bind write, outcome.events⟩

/-- A program, if the target language accepts it. -/
def accept (program : List Stmt) : Except Trouble (List Stmt) :=
  match Stmt.rejection? program with
  | some rejection => .error (.rejected rejection)
  | none => .ok program

/-- Compile the source text of a file to a program that can be run. -/
def runnable (options : Options) (file source : String) : Outcome Trouble (List Stmt) :=
  let outcome := compile options file source
  match outcome.result with
  | .ok program => ⟨accept program, outcome.events⟩
  | .error fault => ⟨.error (.fault fault), outcome.events⟩

end Program

end TailLisp
