import TailLisp.Lowering.Function

/-!
# TailLisp.Lowering.Expr

**Forms as expressions.** A form that needs statements (`let`, `loop`, `case`, `do` with more than
one form, `fn`) becomes a helper function that is defined before the current statement, and a
call or a name in place.
-/

namespace TailLisp.Lowering

/-! ### Constants, names and quoted data -/

mutual

/-- The expression that builds a quoted form as data. -/
def quoted : Form → Expr
  | .const c => .constant c
  | .symbol s => .callOf "Symbol" [.constant (.str s.name)]
  | .keyword k => (Key.keyword k).expr
  | .list items _ => .list (quotedAll items) none
  | .vector items _ => .list (quotedAll items) none
  | .map entries _ => .dict (quotedEntries entries) none

/-- The expressions that build quoted forms. -/
def quotedAll : List Form → List Expr
  | [] => []
  | form :: forms => quoted form :: quotedAll forms

/-- The expressions that build quoted keys and values. -/
def quotedEntries : List (Form × Form) → List (Expr × Expr)
  | [] => []
  | (key, value) :: entries => (quoted key, quoted value) :: quotedEntries entries

end

/-- A symbol as a name, and the parts after points as fields of what it means. -/
def symbolExpr (s : Symbol) : Compile Expr :=
  let place := (Form.symbol s).place?
  match Name.parts s.name with
  | [] => Compile.fail (.ofForm .invalidSymbol (.symbol s))
  | first :: fields =>
    if (first :: fields).contains "" then Compile.fail (.ofForm .invalidSymbol (.symbol s))
    else do
      let name ← Compile.resolve (Name.spell first)
      return fields.foldl (fun value field => .field value (Name.spell field) place)
        (.name name place)

/-! ### Branches -/

/-- `if` as a conditional expression. -/
def ifExpr (self : Lowering) (form : Form) (args : List Form) : Compile Expr :=
  match args with
  | [test, yes] => build test yes .nil
  | [test, yes, no] => build test yes no
  | _ => Compile.fail (.ofForm .ifShape form)
where
  build (test yes no : Form) : Compile Expr := do
    let test ← self.expr test
    let yes ← self.expr yes
    let no ← self.expr no
    return .conditional test yes no form.place?

/-- `cond` as nested conditional expressions, built from the last clause on. -/
def condExpr (self : Lowering) (form : Form) (args : List Form) : Compile Expr := do
  let (clauses, default) ← condClauses form args
  let last ← self.expr default
  clauses.foldrM (fun (test, result) no => do
    let test ← self.expr test
    let yes ← self.expr result
    return .conditional test yes no form.place?) last

/-- `case` as a helper that takes the value of the selector. -/
def caseExpr (self : Lowering) (form : Form) (args : List Form) : Compile Expr := do
  let parts ← caseParts form args
  let value ← self.expr parts.selector
  let selector ← Compile.fresh "case_"
  let (stmts, helpers) ← Compile.collect do
    let last ← self.expr parts.default
    parts.clauses.foldrM (fun (keys, result) no => do
      let yes ← self.expr result
      return [.branch (caseTest selector keys) [.ret yes none] no form.place?])
      [.ret last none]
  callHelper "case_fn_" [selector] [value] (helpers ++ stmts) form.place?

/-- `and` and `or`. -/
def logicalExpr (self : Lowering) (op : LogicalOp) (form : Form) (args : List Form) :
    Compile Expr :=
  match args with
  | [] => pure (.constant (match op with | .and => .bool true | .or => .nil))
  | [operand] => self.expr operand
  | operands => return .logical op (← operands.mapM self.expr) form.place?

/-! ### Helpers -/

/-- `do`: one form stands for itself, more become a helper. -/
def doExpr (self : Lowering) (form : Form) (args : List Form) : Compile Expr :=
  match args with
  | [] => pure (.constant .nil)
  | [only] => self.expr only
  | forms => do
    let (stmts, helpers) ← Compile.collect (returning self forms)
    callHelper "do_" [] [] (helpers ++ stmts) form.place?

/-- One binding of a `let` in a helper: its statements and its steps. -/
def letBinding (self : Lowering) (binding : Form × Form) :
    Compile (List Stmt × List Binding.Step) := do
  let (bindings, helpers) ← Compile.collect do
    let value ← self.expr binding.2
    expand self.expr .scoped binding.1 value []
  return (helpers ++ Binding.assigns binding.1.span? bindings, Binding.steps helpers bindings)

/-- A helper with the given parameters, which is called with the names they have outside. -/
def callWithNames (stem : String) (params : List String) (body : List Stmt)
    (place : Option Span) : Compile Expr :=
  callHelper stem params (params.map .load) body place

/-- `let` as a helper whose local names are the bound names. -/
def letExpr (self : Lowering) (form : Form) (args : List Form) : Compile Expr :=
  match args with
  | [] => Compile.fail (.ofForm (.bindingsMissing .letForm) form)
  | bindings :: body => do
    let (stmts, steps) ← Compile.inScope do
      let pairs ← bindingPairs .letForm bindings
      let parts ← pairs.mapM (letBinding self)
      let (stmts, helpers) ← Compile.collect (returning self body)
      return (parts.flatMap (·.1) ++ helpers ++ stmts, parts.flatMap (·.2))
    callWithNames "let_" (Binding.readBeforeBound steps) stmts form.place?

/-- `loop` as a helper that returns the result of the loop. -/
def loopExpr (self : Lowering) (form : Form) (args : List Form) : Compile Expr :=
  match args with
  | [] => Compile.fail (.ofForm (.bindingsMissing .loopForm) form)
  | bindings :: body => do
    let _ ← analyze body
    let (stmts, steps) ← Compile.inScope do
      let (target, initHelpers) ← Compile.collect (loopTarget self .scoped bindings)
      let ((stmts, exit), helpers) ← Compile.collect (whileLoop self target body form.span?)
      return (initHelpers ++ helpers ++ stmts ++ [Stmt.ret (.load exit.result) none],
        Binding.steps initHelpers target.inits)
    callWithNames "loop_" (Binding.readBeforeBound steps) stmts form.place?

/-- `fn`: the function is defined before the current statement under its own name or a temporary,
and the name stands in place. -/
def fnExpr (self : Lowering) (form : Form) (args : List Form) : Compile Expr :=
  match args with
  | .symbol s :: args => define (Name.spell s.name) args
  | args => do define (← Compile.fresh "fn_") args
where
  define (name : String) (args : List Form) : Compile Expr :=
    match args with
    | [] => Compile.fail (.ofForm .fnShape form)
    | params :: body => do
      let helper ← function self name params body form.span? none
      Compile.hoist helper
      return .name name form.place?

/-! ### Operators and calls -/

/-- An operator on any number of operands, applied from left to right. -/
def binaryExpr (self : Lowering) (op : BinaryOp) (head : String) (form : Form)
    (args : List Form) : Compile Expr :=
  match args with
  | [] => Compile.fail (.ofForm (.operatorEmpty head) form)
  | [operand] =>
    if op = .sub then return .unary .neg (← self.expr operand) form.place?
    else self.expr operand
  | first :: operands => do
    let first ← self.expr first
    operands.foldlM (fun left operand => do
      return .binary op left (← self.expr operand) form.place?) first

/-- A chain of comparisons. -/
def compareExpr (self : Lowering) (op : CompareOp) (head : String) (form : Form)
    (args : List Form) : Compile Expr :=
  match args with
  | first :: second :: others => do
    let first ← self.expr first
    let others ← (second :: others).mapM self.expr
    return .compare op first others form.place?
  | _ => Compile.fail (.ofForm (.comparisonShort head) form)

/-- A call. -/
def callExpr (self : Lowering) (form head : Form) (args : List Form) : Compile Expr := do
  let callee ← self.expr head
  let args ← args.mapM self.expr
  return .call callee args form.place?

/-! ### Any form -/

/-- A special form as an expression. -/
def specialExpr (self : Lowering) (special : Special) (head : String) (form : Form)
    (args : List Form) : Compile Expr :=
  match special with
  | .ifForm => ifExpr self form args
  | .condForm => condExpr self form args
  | .caseForm => caseExpr self form args
  | .doForm => doExpr self form args
  | .letForm => letExpr self form args
  | .loopForm => loopExpr self form args
  | .fnForm => fnExpr self form args
  | .andForm => logicalExpr self .and form args
  | .orForm => logicalExpr self .or form args
  | .notForm =>
    match args with
    | [operand] => return .unary .not (← self.expr operand) form.place?
    | _ => Compile.fail (.ofForm .notShape form)
  | .quoteForm =>
    match args with
    | [data] => pure ((quoted data).placed form.place?)
    | _ => Compile.fail (.ofForm .quoteShape form)
  | .recurForm => Compile.fail (.ofForm .recurOutside form)
  | .defForm => Compile.fail (.ofForm (.statementOnly head) form)
  | .defnForm => Compile.fail (.ofForm (.statementOnly head) form)

/-- A list with a symbol as its head. -/
def headedExpr (self : Lowering) (form : Form) (head : Symbol) (args : List Form) :
    Compile Expr :=
  match Special.ofName? head.name, BinaryOp.ofName? head.name, CompareOp.ofName? head.name with
  | some special, _, _ => specialExpr self special head.name form args
  | none, some op, _ => binaryExpr self op head.name form args
  | none, none, some op => compareExpr self op head.name form args
  | none, none, none => callExpr self form (.symbol head) args

/-- A form as an expression, given the lowering of its parts. -/
def exprStep (self : Lowering) (form : Form) : Compile Expr :=
  match form with
  | .const c => pure (.constant c)
  | .symbol s => symbolExpr s
  | .keyword k => pure ((Key.keyword k).expr.placed form.place?)
  | .vector items _ => return .list (← items.mapM self.expr) form.place?
  | .map entries _ => do
    let keys ← entries.mapM fun entry => self.expr entry.1
    let values ← entries.mapM fun entry => self.expr entry.2
    return .dict (keys.zip values) form.place?
  | .list [] _ => pure (.constant .nil)
  | .list (.symbol head :: args) _ => headedExpr self form head args
  | .list (head :: args) _ => callExpr self form head args

end TailLisp.Lowering
