/-!
# TailLisp.Operator

**Operators**, which the source language writes as heads of lists and the target language between
or before their operands.
-/

namespace TailLisp

/-- Operators that combine two operands. -/
inductive BinaryOp where
  | add
  | sub
  | mul
  | div
  | floorDiv
  | mod
  | pow
  deriving DecidableEq, Repr

/-- Operators that compare two operands. -/
inductive CompareOp where
  | eq
  | notEq
  | lt
  | le
  | gt
  | ge
  | same
  | notSame
  | memberOf
  | notMemberOf
  deriving DecidableEq, Repr

/-- Operators on one operand. -/
inductive UnaryOp where
  | not
  | neg
  deriving DecidableEq, Repr

/-- Operators that stop at the operand which settles them. -/
inductive LogicalOp where
  | and
  | or
  deriving DecidableEq, Repr

/-- The operator that a source name stands for as the head of a list. -/
def BinaryOp.ofName? : String → Option BinaryOp
  | "+" => some .add
  | "-" => some .sub
  | "*" => some .mul
  | "/" => some .div
  | "//" => some .floorDiv
  | "%" => some .mod
  | "**" => some .pow
  | _ => none

/-- The comparison that a source name stands for as the head of a list. -/
def CompareOp.ofName? : String → Option CompareOp
  | "=" => some .eq
  | "!=" => some .notEq
  | "not=" => some .notEq
  | "<" => some .lt
  | "<=" => some .le
  | ">" => some .gt
  | ">=" => some .ge
  | "is" => some .same
  | "is-not" => some .notSame
  | "in" => some .memberOf
  | "not-in" => some .notMemberOf
  | _ => none

/-- How the target language writes an operator. -/
def BinaryOp.symbol : BinaryOp → String
  | .add => "+"
  | .sub => "-"
  | .mul => "*"
  | .div => "/"
  | .floorDiv => "//"
  | .mod => "%"
  | .pow => "**"

/-- How the target language writes a comparison. -/
def CompareOp.symbol : CompareOp → String
  | .eq => "=="
  | .notEq => "!="
  | .lt => "<"
  | .le => "<="
  | .gt => ">"
  | .ge => ">="
  | .same => "is"
  | .notSame => "is not"
  | .memberOf => "in"
  | .notMemberOf => "not in"

/-- How the target language writes an operator on one operand, the blank included. -/
def UnaryOp.symbol : UnaryOp → String
  | .not => "not "
  | .neg => "-"

/-- How the target language writes a logical operator. -/
def LogicalOp.symbol : LogicalOp → String
  | .and => "and"
  | .or => "or"

end TailLisp
