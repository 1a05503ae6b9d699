import TailLisp.Constant
import TailLisp.Operator
import TailLisp.Span

/-!
# TailLisp.Target

**The target language**: the expressions and statements of Python that compiled programs consist
of. An expression never holds a statement, which is why the compiler hoists helper functions. A
node carries the place in the source it stands for, if it has one of its own.
-/

namespace TailLisp

/-- An expression of the target language. -/
inductive Expr where
  | const (value : Constant) (place : Option Span)
  | name (id : String) (place : Option Span)
  /-- `value.name` -/
  | field (value : Expr) (name : String) (place : Option Span)
  /-- `callee(args…)` -/
  | call (callee : Expr) (args : List Expr) (place : Option Span)
  /-- `[items…]` -/
  | list (items : List Expr) (place : Option Span)
  /-- `{key: value, …}` -/
  | dict (entries : List (Expr × Expr)) (place : Option Span)
  | binary (op : BinaryOp) (left right : Expr) (place : Option Span)
  | unary (op : UnaryOp) (operand : Expr) (place : Option Span)
  /-- A chain of operands between which the same logical operator stands. -/
  | logical (op : LogicalOp) (operands : List Expr) (place : Option Span)
  /-- A chain of comparisons by one operator: `first op second op …`. -/
  | compare (op : CompareOp) (first : Expr) (others : List Expr) (place : Option Span)
  /-- `yes if test else no` -/
  | conditional (test yes no : Expr) (place : Option Span)
  /-- `lambda: body` -/
  | thunk (body : Expr) (place : Option Span)
  deriving Repr, Inhabited

/-- A statement of the target language. -/
inductive Stmt where
  /-- `target = value` -/
  | assign (target : String) (value : Expr) (place : Option Span)
  /-- An expression whose value is dropped. -/
  | eval (value : Expr) (place : Option Span)
  /-- `return value` -/
  | ret (value : Expr) (place : Option Span)
  /-- `if test: yes… else: no…`; an empty `no` is left out. -/
  | branch (test : Expr) (yes no : List Stmt) (place : Option Span)
  /-- `while test: body…` -/
  | loop (test : Expr) (body : List Stmt) (place : Option Span)
  /-- `def name(params…, *rest): body…` -/
  | define (name : String) (params : List String) (rest : Option String) (body : List Stmt)
      (place : Option Span)
  /-- `pass` -/
  | skip (place : Option Span)
  /-- `continue` -/
  | next (place : Option Span)
  deriving Repr, Inhabited

namespace Expr

/-- A name without a place of its own. -/
def load (id : String) : Expr := .name id none

/-- A call of a named function without a place of its own. -/
def callOf (name : String) (args : List Expr) : Expr := .call (load name) args none

/-- A constant without a place of its own. -/
def constant (value : Constant) : Expr := .const value none

/-- The place an expression carries itself. -/
def place? : Expr → Option Span
  | .const _ p | .name _ p | .field _ _ p | .call _ _ p | .list _ p | .dict _ p
  | .binary _ _ _ p | .unary _ _ p | .logical _ _ p | .compare _ _ _ p
  | .conditional _ _ _ p | .thunk _ p => p

/-- The expression with the place `p`, unless `p` is none. -/
def placed (p : Option Span) (e : Expr) : Expr :=
  match p with
  | none => e
  | some _ =>
    match e with
    | .const c _ => .const c p
    | .name x _ => .name x p
    | .field v a _ => .field v a p
    | .call f args _ => .call f args p
    | .list items _ => .list items p
    | .dict entries _ => .dict entries p
    | .binary op l r _ => .binary op l r p
    | .unary op x _ => .unary op x p
    | .logical op xs _ => .logical op xs p
    | .compare op x ys _ => .compare op x ys p
    | .conditional t y n _ => .conditional t y n p
    | .thunk b _ => .thunk b p

end Expr

/-- The place a statement carries itself. -/
def Stmt.place? : Stmt → Option Span
  | .assign _ _ p | .eval _ p | .ret _ p | .branch _ _ _ p | .loop _ _ p
  | .define _ _ _ _ p | .skip p | .next p => p

end TailLisp
