import TailLisp.Lowering.Expr

/-!
# TailLisp.Lowering.Stmt

**Forms as statements and as tails.** Where the value of a form is dropped, branches, blocks and
bindings become statements of the surrounding block; where it is the value of a loop, they pass
the tail position on to their parts. All other forms are lowered as expressions.
-/

namespace TailLisp.Lowering

/-- `pass` for a block without statements. -/
def block (stmts : List Stmt) : List Stmt := if stmts.isEmpty then [.skip none] else stmts

/-- `if` as a statement. -/
def ifStmt (self : Lowering) (form : Form) (args : List Form) : Compile (List Stmt) :=
  match args with
  | [test, yes] => do
    let test ← self.expr test
    let yes ← self.stmt yes
    return [.branch test (block yes) [] form.place?]
  | [test, yes, no] => do
    let test ← self.expr test
    let yes ← self.stmt yes
    let no ← self.stmt no
    return [.branch test (block yes) no form.place?]
  | _ => Compile.fail (.ofForm .ifShape form)

/-- Forms as statements, one after the other. -/
def stmts (self : Lowering) (forms : List Form) : Compile (List Stmt) := do
  return (← forms.mapM self.stmt).flatten

/-- `def` of a name or of the names of a pattern. -/
def defStmt (self : Lowering) (form : Form) (args : List Form) : Compile (List Stmt) :=
  match args with
  | [binder] => destructure self.expr binder (.constant .nil) form.span?
  | [binder, init] => do
    let value ← self.expr init
    destructure self.expr binder value form.span?
  | _ => Compile.fail (.ofForm .defShape form)

/-- `defn`, with an optional string of documentation before the parameters. -/
def defnStmt (self : Lowering) (form : Form) (args : List Form) : Compile (List Stmt) :=
  match args with
  | .symbol s :: .const (.str doc) :: params :: body =>
    return [← function self (Name.spell s.name) params body form.span? (some doc)]
  | .symbol s :: params :: body =>
    return [← function self (Name.spell s.name) params body form.span? none]
  | _ => Compile.fail (.ofForm .defnShape form)

/-- `let` as a statement. -/
def letStmt (self : Lowering) (form : Form) (args : List Form) : Compile (List Stmt) :=
  match args with
  | [] => Compile.fail (.ofForm (.bindingsMissing .letForm) form)
  | bindings :: body => Compile.inScope do
    let head ← letBindings self bindings
    let rest ← stmts self body
    return head ++ rest

/-- `loop` as a statement; its result is dropped. -/
def loopStmt (self : Lowering) (form : Form) (args : List Form) : Compile (List Stmt) :=
  match args with
  | [] => Compile.fail (.ofForm (.bindingsMissing .loopForm) form)
  | bindings :: body => do
    let _ ← analyze body
    Compile.inScope do
      let target ← loopTarget self .fresh bindings
      return (← whileLoop self target body form.span?).1

/-- An expression whose value is dropped. -/
def exprStmt (self : Lowering) (form : Form) : Compile (List Stmt) := do
  return [.eval (← exprStep self form) form.place?]

/-- A form as statements, its helpers left to be placed. -/
def bareStmt (self : Lowering) (form : Form) : Compile (List Stmt) :=
  match form with
  | .list (.symbol head :: args) _ =>
    match Special.ofName? head.name with
    | some .ifForm => ifStmt self form args
    | some .doForm => if args.isEmpty then pure [.skip form.place?] else stmts self args
    | some .defForm => defStmt self form args
    | some .defnForm => defnStmt self form args
    | some .letForm => letStmt self form args
    | some .loopForm => loopStmt self form args
    | some .recurForm => Compile.fail (.ofForm .recurOutside form)
    | _ => exprStmt self form
  | _ => exprStmt self form

/-- A form as statements after its helpers, given the lowering of its parts. -/
def stmtStep (self : Lowering) (form : Form) : Compile (List Stmt) := do
  let (stmts, helpers) ← Compile.collect (bareStmt self form)
  return helpers ++ stmts

/-- Leave the loop with the value of a form. -/
def exitStep (self : Lowering) (target : LoopTarget) (form : Form) : Compile (List Stmt) := do
  exitWith target (← exprStep self form) form.span?

/-- A form as the tail of a loop, given the lowering of its parts. -/
def tailStep (self : Lowering) (target : LoopTarget) (form : Form) : Compile (List Stmt) :=
  match form with
  | .list (.symbol head :: args) _ =>
    if head.name = target.selfCall then jump self target form args
    else match Special.ofName? head.name with
      | some .ifForm => tailIf self target form args
      | some .condForm => tailCond self target form args
      | some .caseForm => tailCase self target form args
      | some .letForm => tailLet self target form args
      | some .doForm => loopBody self target args
      | some .andForm => tailLogical self target .and form args
      | some .orForm => tailLogical self target .or form args
      | _ => exitStep self target form
  | _ => exitStep self target form

/-! ### Tying the positions together -/

/-- The lowering of a form, given the lowering of its parts. -/
def step (self : Lowering) : Lowering := ⟨exprStep self, stmtStep self, tailStep self⟩

/-- No form can be lowered. -/
def exhausted : Lowering :=
  ⟨fun form => Compile.fail (.ofForm .nesting form),
   fun form => Compile.fail (.ofForm .nesting form),
   fun _ form => Compile.fail (.ofForm .nesting form)⟩

/-- The lowering of all forms of a depth less than `n`. -/
def upTo : Nat → Lowering
  | 0 => exhausted
  | n + 1 => step (upTo n)

/-- The lowering of forms as deep as the given ones. Every part of a form is less deep than the
form, so the depth never runs out. -/
def forForms (forms : List Form) : Lowering := upTo (Form.depthOfAll forms + 1)

end TailLisp.Lowering
