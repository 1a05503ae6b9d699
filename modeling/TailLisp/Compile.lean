import TailLisp.Context

/-!
# TailLisp.Compile

**Compilation steps.** A step reads and changes the `Context` and may end in a `Fault`; the
context survives a fault, so that what was reported before it can still be shown.
-/

namespace TailLisp

/-- A step of a compilation. -/
abbrev Compile := EStateM Fault Context

/-- How a binder is turned into the target name that it assigns. -/
inductive BindMode where
  /-- The name as it is, in no scope. -/
  | asIs
  /-- The name as it is, in the innermost scope. -/
  | scoped
  /-- A temporary of its own, in the innermost scope. -/
  | fresh
  deriving DecidableEq, Repr

namespace Compile

/-- End in a fault. -/
def fail {α : Type} (fault : Fault) : Compile α := throw fault

/-- Go on with the result of a pure step. -/
def lift {α : Type} : Except Fault α → Compile α
  | .ok a => pure a
  | .error fault => fail fault

/-- A new temporary. -/
def fresh (stem : String) : Compile String := modifyGet (·.fresh stem)

/-- The target name that a reference means. -/
def resolve (name : String) : Compile String := return (← get).resolve name

/-- The target name that a binder assigns. -/
def bind (mode : BindMode) (name : String) : Compile String :=
  match mode with
  | .asIs => pure name
  | .scoped => do
    modify (·.declare name name)
    return name
  | .fresh => do
    let target ← fresh (name ++ "_")
    modify (·.declare name target)
    return target

/-- A mode stands for what it does with a name. -/
instance : Coe BindMode (String → Compile String) := ⟨bind⟩

/-- Run a step in a scope of its own. -/
def inScope {α : Type} (step : Compile α) : Compile α := do
  modify Context.enter
  let result ← step
  modify Context.leave
  return result

/-- Add a helper function. -/
def hoist (helper : Stmt) : Compile Unit := modify (·.hoist helper)

/-- Run a step and take out the helpers that it added. -/
def collect {α : Type} (step : Compile α) : Compile (α × List Stmt) := do
  let mark := (← get).mark
  let result ← step
  let helpers ← modifyGet (·.takeSince mark)
  return (result, helpers)

/-- Report an event. -/
def report (event : Event) : Compile Unit := modify (·.report event)

end Compile

end TailLisp
