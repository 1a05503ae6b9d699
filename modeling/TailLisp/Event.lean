import TailLisp.Fault

/-!
# TailLisp.Event

**Events** that the stages of a compilation report. Nothing depends on them; they are shown to a
user who wants to follow the compiler.
-/

namespace TailLisp

/-- Something that a stage reports. -/
inductive Event where
  | expandedMacros (forms : Nat)
  | expandedPattern (span : Option Span) (bindings : Nat)
  | tailViolation (fault : Fault)
  | tailCalls (count : Nat)
  | loweredLoop (vars : List String) (flag : String)
  | compiled (forms : Nat) (file : String)
  | checkFailed (file : String) (message : String)
  | usingSettings (path : String)
  deriving Repr

namespace Event

/-- The stage that an event comes from. -/
def source : Event → String
  | .expandedMacros _ => "letloop.compiler.macros"
  | .expandedPattern _ _ => "letloop.compiler.destructure"
  | .tailViolation _ => "letloop.compiler.tail"
  | .tailCalls _ => "letloop.compiler.tail"
  | .loweredLoop _ _ => "letloop.compiler.loops"
  | .compiled _ _ => "letloop.compiler.codegen"
  | .checkFailed _ _ => "letloop.compiler.codegen"
  | .usingSettings _ => "letloop"

/-- Where a pattern stands, as reports show it. -/
def spanText : Option Span → String
  | none => "None"
  | some s => "SourceLocation(" ++ natText s.line ++ ":" ++ natText s.col ++ ")"

/-- The wording of an event. -/
def message : Event → String
  | .expandedMacros n => "macro-expanded " ++ natText n ++ " top-level forms"
  | .expandedPattern span n =>
    "expanded pattern at " ++ spanText span ++ " into " ++ natText n ++ " bindings"
  | .tailViolation fault => "tail analysis failed: " ++ fault.message
  | .tailCalls n => "tail analysis found " ++ natText n ++ " self-calls"
  | .loweredLoop vars flag =>
    let names := match vars with
      | [] => "()"
      | names => String.intercalate ", " names
    "rewrote loop over " ++ names ++ " into " ++ flag
  | .compiled n file => "compiled " ++ natText n ++ " forms from " ++ file
  | .checkFailed file message => "check of " ++ file ++ " failed: " ++ message
  | .usingSettings path => "using settings from " ++ path

end Event

end TailLisp
