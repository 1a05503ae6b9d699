import TailLisp.Run.Operation

/-!
# TailLisp.Run.Folding

**Constant folding.** Before a program runs, operators on number constants and negations of
constants are replaced by their values, from the inside out, and negations of comparisons by the
opposite comparisons. What a program computes depends on it in one way only: a NaN is told apart
from other NaNs by where it was made, so one that is folded is the same each time its place in the
program is reached, and one that is computed is new each time.
-/

namespace TailLisp

/-- Is the value of an operator small enough to be folded? Products and powers of integers have at
most 128 bits. -/
def BinaryOp.folds (op : BinaryOp) (a b : Number) : Bool :=
  match op, a, b with
  | .mul, .int i, .int j => i == 0 || j == 0 || Number.bitLength i + Number.bitLength j ≤ 128
  | .pow, .int i, .int j => i == 0 || j ≤ 0 || Number.bitLength i ≤ 128 / j.toNat
  | _, _, _ => true

/-- The comparison that holds where another does not, for those of identity and membership. -/
def CompareOp.opposite? : CompareOp → Option CompareOp
  | .same => some .notSame
  | .notSame => some .same
  | .memberOf => some .notMemberOf
  | .notMemberOf => some .memberOf
  | _ => none

/-- The number that an expression is, if it is a constant. -/
def Expr.number? : Expr → Option Number
  | .const c _ => c.number?
  | _ => none

namespace Interp

/-- A computed number as a constant, or the expression that computes it. -/
def settled (result : Except Failure Number) (place : Option Span) (e : Expr) : Exec Expr := do
  match result with
  | .ok n =>
    match ← Exec.ofNumber n with
    | .const c => return .const c place
    | _ => return e
  | .error _ => return e

/-- Fold an operator on two folded operands. -/
def foldBinary (op : BinaryOp) (left right : Expr) (place : Option Span) : Exec Expr :=
  let e := .binary op left right place
  match left.number?, right.number? with
  | some a, some b => if op.folds a b then settled (a.apply op b) place e else return e
  | _, _ => return e

/-- Fold an operator on a folded operand. -/
def foldUnary (op : UnaryOp) (operand : Expr) (place : Option Span) : Exec Expr := do
  let e := .unary op operand place
  match op, operand with
  | .neg, operand =>
    match operand.number? with
    | some n => settled (.ok n.neg) place e
    | none => return e
  | .not, .const c _ => return .const (.bool !(← Exec.truth (.const c))) place
  | .not, .compare op first [other] p =>
    match op.opposite? with
    | some op => return .compare op first [other] p
    | none => return e
  | _, _ => return e

mutual

/-- Fold an expression. -/
def foldExpr : Expr → Exec Expr
  | .const c p => return .const c p
  | .name id p => return .name id p
  | .field value member p => return .field (← foldExpr value) member p
  | .call callee args p => return .call (← foldExpr callee) (← foldExprs args) p
  | .list items p => return .list (← foldExprs items) p
  | .dict entries p => return .dict (← foldEntries entries) p
  | .binary op left right p => do foldBinary op (← foldExpr left) (← foldExpr right) p
  | .unary op operand p => do foldUnary op (← foldExpr operand) p
  | .logical op operands p => return .logical op (← foldExprs operands) p
  | .compare op first others p => return .compare op (← foldExpr first) (← foldExprs others) p
  | .conditional test yes no p =>
    return .conditional (← foldExpr test) (← foldExpr yes) (← foldExpr no) p
  | .thunk body p => return .thunk (← foldExpr body) p

/-- Fold expressions. -/
def foldExprs : List Expr → Exec (List Expr)
  | [] => return []
  | e :: es => return (← foldExpr e) :: (← foldExprs es)

/-- Fold keys and values. -/
def foldEntries : List (Expr × Expr) → Exec (List (Expr × Expr))
  | [] => return []
  | (key, value) :: es => return (← foldExpr key, ← foldExpr value) :: (← foldEntries es)

end

mutual

/-- Fold the expressions of a statement. -/
def foldStmt : Stmt → Exec Stmt
  | .assign target value p => return .assign target (← foldExpr value) p
  | .eval value p => return .eval (← foldExpr value) p
  | .ret value p => return .ret (← foldExpr value) p
  | .branch test yes no p =>
    return .branch (← foldExpr test) (← foldStmts yes) (← foldStmts no) p
  | .loop test body p => return .loop (← foldExpr test) (← foldStmts body) p
  | .define name params rest body p => return .define name params rest (← foldStmts body) p
  | .skip p => return .skip p
  | .next p => return .next p

/-- Fold the expressions of statements. -/
def foldStmts : List Stmt → Exec (List Stmt)
  | [] => return []
  | s :: ss => return (← foldStmt s) :: (← foldStmts ss)

end

end Interp

end TailLisp
