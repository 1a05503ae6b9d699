import TailLisp.Binding
import TailLisp.Compile
import TailLisp.Tail

/-!
# TailLisp.Lowering

**Lowering of forms** to the target language. A form is lowered in one of three positions: as an
expression, as statements whose value is dropped, or as the tail of a loop. A `Lowering` is a
triple of functions for the three positions; the modules below this one say for each construct
what it is lowered to, given a `Lowering` for its parts, and `Lowering.upTo` ties them together.
-/

namespace TailLisp

/-- The names that end a loop: the flag that keeps it going and the variable of its result. -/
structure LoopExit where
  flag : String
  result : String
  deriving DecidableEq, Repr

/-- What a self-call jumps to. -/
structure LoopTarget where
  /-- The names that a self-call assigns, one for each argument. -/
  vars : List String := []
  /-- What is bound once before the loop; nothing for a function, whose call binds its
  parameters. -/
  inits : List Binding := []
  /-- The bindings of the patterns over the variables, made again by every self-call. -/
  rebind : List Binding := []
  /-- The head of a self-call. -/
  selfCall : String := "recur"
  /-- How the loop ends, once it has been given its names. -/
  exit : Option LoopExit := none
  deriving Repr, Inhabited

/-- Lowering in each of the three positions. -/
structure Lowering where
  expr : Form → Compile Expr
  stmt : Form → Compile (List Stmt)
  tail : LoopTarget → Form → Compile (List Stmt)

namespace Lowering

/-- Check the self-calls of a body and report what was found. -/
def analyze (body : List Form) : Compile Verdict := do
  let verdict := Verdict.ofBody "recur" true body
  match verdict.violation with
  | some fault =>
    if fault.isWritable then Compile.report (.tailViolation fault)
    Compile.fail fault
  | none =>
    Compile.report (.tailCalls verdict.calls.length)
    return verdict

/-- The binders and initializers of a binding vector. -/
def bindingPairs (head : BindingHead) (bindings : Form) : Compile (List (Form × Form)) :=
  match bindings with
  | .vector items _ =>
    match Form.pairUp items with
    | some pairs => pure pairs
    | none => Compile.fail (.ofForm (.bindingsOdd head) bindings)
  | _ => Compile.fail (.ofForm (.bindingsNotVector head) bindings)

/-- Define a helper function before the current statement and call it in place. -/
def callHelper (stem : String) (params : List String) (args : List Expr) (body : List Stmt)
    (place : Option Span) : Compile Expr := do
  let name ← Compile.fresh stem
  Compile.hoist (.define name params none body place)
  return .call (.load name) args place

/-- Lower all forms but the last as statements and return the last. Helpers of the last stand
right before its statement. -/
def returning (self : Lowering) : List Form → Compile (List Stmt)
  | [] => last .nil
  | [form] => last form
  | form :: next :: forms => do
    let stmts ← self.stmt form
    let rest ← returning self (next :: forms)
    return stmts ++ rest
where
  last (form : Form) : Compile (List Stmt) := do
    let (value, helpers) ← Compile.collect (self.expr form)
    return helpers ++ [.ret value form.place?]

end Lowering

end TailLisp
