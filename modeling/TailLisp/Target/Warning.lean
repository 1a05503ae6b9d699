import TailLisp.Target.Tree

/-!
# TailLisp.Target.Warning

**Warnings about programs** that can be run but are likely to be mistakes: a literal is called, or
the identity of a literal is asked for. They come in the order in which the program is gone
through, each with the line of its node.
-/

namespace TailLisp

/-- A likely mistake. -/
inductive Warning where
  /-- A literal of a type is called. -/
  | calledLiteral (type : String) (line : Nat)
  /-- A literal is compared by identity, or by its negation. -/
  | literalIdentity (negated : Bool) (line : Nat)
  deriving DecidableEq, Repr

namespace Warning

/-- The line that a warning is about. -/
def line : Warning → Nat
  | .calledLiteral _ line => line
  | .literalIdentity _ line => line

/-- The wording of a warning. -/
def message : Warning → String
  | .calledLiteral type _ => "'" ++ type ++ "' object is not callable; perhaps you missed a comma?"
  | .literalIdentity negated _ =>
    if negated then "\"is not\" with a literal. Did you mean \"!=\"?"
    else "\"is\" with a literal. Did you mean \"==\"?"

end Warning

namespace Expr

/-- The type of a literal. -/
def literalType? : Expr → Option String
  | .const c _ => some c.typeName
  | .list _ _ => some "list"
  | .dict _ _ => some "dict"
  | _ => none

/-- Is the expression a constant that has no identity to rely on? -/
def isPlainLiteral : Expr → Bool
  | .const .nil _ => false
  | .const (.bool _) _ => false
  | .const _ _ => true
  | _ => false

/-- The warning about a comparison. -/
def compareWarning? (op : CompareOp) (operands : List Expr) (line : Nat) : Option Warning :=
  if (op == .same || op == .notSame) && operands.any isPlainLiteral then
    some (.literalIdentity (op == .notSame) line)
  else none

mutual

/-- The warnings about an expression below a node at `above`. -/
def warnings (above : Span) : Expr → List Warning
  | .const _ _ => []
  | .name _ _ => []
  | .field value _ p => warnings (p.getD above) value
  | .call callee args p =>
    (callee.literalType?.map (Warning.calledLiteral · (p.getD above).line)).toList
      ++ warnings (p.getD above) callee ++ warningsOfAll (p.getD above) args
  | .list items p => warningsOfAll (p.getD above) items
  | .dict entries p => warningsOfEntries (p.getD above) entries
  | .binary _ left right p => warnings (p.getD above) left ++ warnings (p.getD above) right
  | .unary _ operand p => warnings (p.getD above) operand
  | .logical _ operands p => warningsOfAll (p.getD above) operands
  | .compare op first others p =>
    (compareWarning? op (first :: others) (p.getD above).line).toList
      ++ warnings (p.getD above) first ++ warningsOfAll (p.getD above) others
  | .conditional test yes no p =>
    warnings (p.getD above) test ++ warnings (p.getD above) yes ++ warnings (p.getD above) no
  | .thunk body p => warnings (p.getD above) body

/-- The warnings about expressions. -/
def warningsOfAll (above : Span) : List Expr → List Warning
  | [] => []
  | e :: es => warnings above e ++ warningsOfAll above es

/-- The warnings about keys and values. -/
def warningsOfEntries (above : Span) : List (Expr × Expr) → List Warning
  | [] => []
  | (key, value) :: es => warnings above key ++ warnings above value ++ warningsOfEntries above es

end

end Expr

namespace Stmt

mutual

/-- The warnings about a statement below a node at `above`. The test of a loop is gone through
before and after its body. -/
def warnings (above : Span) : Stmt → List Warning
  | .assign _ value p => value.warnings (p.getD above)
  | .eval value p => value.warnings (p.getD above)
  | .ret value p => value.warnings (p.getD above)
  | .branch test yes no p =>
    test.warnings (p.getD above) ++ warningsOfAll (p.getD above) yes
      ++ warningsOfAll (p.getD above) no
  | .loop test body p =>
    test.warnings (p.getD above) ++ warningsOfAll (p.getD above) body
      ++ test.warnings (p.getD above)
  | .define _ _ _ body p => warningsOfAll (p.getD above) body
  | .skip _ => []
  | .next _ => []

/-- The warnings about statements. -/
def warningsOfAll (above : Span) : List Stmt → List Warning
  | [] => []
  | s :: ss => warnings above s ++ warningsOfAll above ss

end

end Stmt

end TailLisp
