import TailLisp.Lowering.Clause
import TailLisp.Lowering.Pattern

/-!
# TailLisp.Lowering.Loop

**Loops.** A body whose self-calls are all in tail position becomes the body of a `while` loop
that a flag keeps going. Each tail position of it becomes one of two exits: a jump assigns the
loop variables and continues, an exit stores the result and lowers the flag.

    (loop [a 0 n 10]
      (if (= n 0) a (recur (+ a n) (dec n))))

    a = 0
    n = 10
    flag = True
    result = None
    while flag:
        if n == 0:
            result = a
            flag = False
        else:
            t1 = a + n
            t2 = dec(n)
            a = t1
            n = t2
            continue

All arguments of a jump are evaluated before any variable is assigned, so `(recur b a)` swaps.
-/

namespace TailLisp.Lowering

/-! ### The two exits -/

/-- Leave the loop with a value. -/
def exitWith (target : LoopTarget) (value : Expr) (span : Option Span) : Compile (List Stmt) :=
  match target.exit with
  | some exit =>
    pure [.assign exit.result value (span.filter Span.isReal),
      .assign exit.flag (.constant (.bool false)) (span.filter Span.isReal)]
  | none => Compile.fail { cause := .exitOutsideLoop, span? := span }

/-- A temporary for an argument of a jump, and the assignment to it. -/
def jumpArgument (self : Lowering) (place : Option Span) (arg : Form) :
    Compile (String × Stmt) := do
  let temp ← Compile.fresh "recur_"
  let value ← self.expr arg
  return (temp, .assign temp value place)

/-- Jump back to the start of the loop. -/
def jump (self : Lowering) (target : LoopTarget) (form : Form) (args : List Form) :
    Compile (List Stmt) :=
  if args.length = target.vars.length then do
    let place := form.place?
    let temps ← args.mapM (jumpArgument self place)
    return temps.map (·.2)
      ++ (target.vars.zip temps).map (fun (var, temp) =>
        Stmt.assign var (.load temp.1) place)
      ++ Binding.assigns form.span? target.rebind
      ++ [.next place]
  else Compile.fail (.ofForm (.recurArity target.vars.length args.length) form)

/-! ### Bodies and tails -/

/-- The body of a loop: all forms but the last are statements, the last is a tail. -/
def loopBody (self : Lowering) (target : LoopTarget) : List Form → Compile (List Stmt)
  | [] => exitWith target (.constant .nil) none
  | [form] => self.tail target form
  | form :: next :: forms => do
    let stmts ← self.stmt form
    let rest ← loopBody self target (next :: forms)
    return stmts ++ rest

/-- `if` in tail position. -/
def tailIf (self : Lowering) (target : LoopTarget) (form : Form) (args : List Form) :
    Compile (List Stmt) :=
  match args with
  | [test, yes] => build test yes .nil
  | [test, yes, no] => build test yes no
  | _ => Compile.fail (.ofForm .ifShape form)
where
  build (test yes no : Form) : Compile (List Stmt) := do
    let test ← self.expr test
    let yes ← self.tail target yes
    let no ← self.tail target no
    return [.branch test yes no form.place?]

/-- `cond` in tail position, built from the last clause on. -/
def tailCond (self : Lowering) (target : LoopTarget) (form : Form) (args : List Form) :
    Compile (List Stmt) := do
  let (clauses, default) ← condClauses form args
  let last ← self.tail target default
  clauses.foldrM (fun (test, result) no => do
    let test ← self.expr test
    let yes ← self.tail target result
    return [.branch test yes no form.place?]) last

/-- `case` in tail position. The selector is evaluated once. -/
def tailCase (self : Lowering) (target : LoopTarget) (form : Form) (args : List Form) :
    Compile (List Stmt) := do
  let parts ← caseParts form args
  let selector ← Compile.fresh "case_"
  let value ← self.expr parts.selector
  let last ← self.tail target parts.default
  let stmts ← parts.clauses.foldrM (fun (keys, result) no => do
    let yes ← self.tail target result
    return [.branch (caseTest selector keys) yes no form.place?]) last
  return .assign selector value form.place? :: stmts

/-- The bindings of a `let` in a block. Each name gets a temporary of its own, so that the
assignments neither outlive the `let` nor overwrite a binding of the same name. -/
def letBindings (self : Lowering) (bindings : Form) : Compile (List Stmt) := do
  let pairs ← bindingPairs .letForm bindings
  let blocks ← pairs.mapM fun (binder, init) => do
    let (bindings, helpers) ← Compile.collect do
      let value ← self.expr init
      expand self.expr .fresh binder value []
    return helpers ++ Binding.assigns binder.span? bindings
  return blocks.flatten

/-- `let` in tail position. -/
def tailLet (self : Lowering) (target : LoopTarget) (form : Form) (args : List Form) :
    Compile (List Stmt) :=
  match args with
  | [] => Compile.fail (.ofForm (.bindingsMissing .letForm) form)
  | bindings :: body => Compile.inScope do
    let stmts ← letBindings self bindings
    let rest ← loopBody self target body
    return stmts ++ rest

/-- `and` and `or` in tail position: every operand but the last is evaluated into a temporary,
and the loop is left with it when it settles the answer. -/
def tailLogical (self : Lowering) (target : LoopTarget) (op : LogicalOp) (form : Form) :
    List Form → Compile (List Stmt)
  | [] =>
    exitWith target (.constant (match op with | .and => .bool true | .or => .nil)) form.span?
  | [operand] => self.tail target operand
  | operand :: next :: operands => do
    let temp ← Compile.fresh "test_"
    let value ← self.expr operand
    let settled ← exitWith target (.load temp) form.span?
    let undecided ← tailLogical self target op form (next :: operands)
    let test : Expr := match op with
      | .and => .unary .not (.load temp) none
      | .or => .load temp
    return [.assign temp value form.place?, .branch test settled undecided form.place?]

/-! ### Whole loops -/

/-- The target of a loop with the given binding vector. Bindings are sequential. A pattern is
bound through a variable of its own, which a jump assigns before the pattern is bound again. -/
def loopTarget (self : Lowering) (mode : BindMode) (bindings : Form) : Compile LoopTarget := do
  let pairs ← bindingPairs .loopForm bindings
  pairs.foldlM (fun target (binder, init) => do
    let value ← self.expr init
    match binder with
    | .symbol s =>
      let var ← Compile.bind mode (Name.spell s.name)
      return { target with
        vars := target.vars ++ [var]
        inits := target.inits ++ [⟨var, value, binder.span?⟩] }
    | .vector .. =>
      let var ← Compile.fresh "loop_"
      let bindings ← expand self.expr mode binder (.load var) []
      return { target with
        vars := target.vars ++ [var]
        inits := target.inits ++ [⟨var, value, binder.span?⟩] ++ bindings
        rebind := target.rebind ++ bindings }
    | _ => Compile.fail (.ofForm .loopBinder binder)) {}

/-- The `while` loop of a body that has passed the check of its self-calls, and the names that
end it. Afterwards the result stands in the result variable. -/
def whileLoop (self : Lowering) (target : LoopTarget) (body : List Form) (span : Option Span) :
    Compile (List Stmt × LoopExit) := do
  let flag ← Compile.fresh "continue_"
  let result ← Compile.fresh "result_"
  let exit : LoopExit := ⟨flag, result⟩
  let (stmts, helpers) ← Compile.collect (loopBody self { target with exit := some exit } body)
  Compile.report (.loweredLoop target.vars flag)
  let place := span.filter Span.isReal
  return (Binding.assigns span target.inits ++
    [.assign flag (.constant (.bool true)) place,
     .assign result (.constant .nil) place,
     .loop (.load flag) (helpers ++ stmts) place], exit)

end TailLisp.Lowering
