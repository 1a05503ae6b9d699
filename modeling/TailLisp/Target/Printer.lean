import TailLisp.Target
import TailLisp.Text.Quoted

/-!
# TailLisp.Target.Printer

**Source text of the target language.** An expression is printed at a required level of
precedence and put between parentheses when that is higher than the level of the expression
itself. Statements are printed as lines, indented by four blanks a block; an empty line stands
before every function but one that begins the text.
-/

namespace TailLisp

/-- A constant as a literal. An infinite number is written as one that is too large. -/
def Constant.literal : Constant → String
  | .nil => "None"
  | .bool b => if b then "True" else "False"
  | .int i => intText i
  | .double (.nan _) => "(1e309-1e309)"
  | .double (.infinite negative) => if negative then "-1e309" else "1e309"
  | .double x => x.text
  | .str s => Text.quoted s

/-! ### Levels of precedence -/

/-- A level of precedence; a higher one binds more tightly. -/
abbrev Level := Nat

namespace Level

/-- The value of an expression statement. -/
def statement : Level := 2
/-- Conditional expressions and thunks; also the parts of a call, a collection or a statement. -/
def test : Level := 3
def or : Level := 4
def and : Level := 5
def not : Level := 6
def comparison : Level := 7
/-- Operands of comparisons. -/
def operand : Level := 8
def sum : Level := 12
def term : Level := 13
def factor : Level := 14
def power : Level := 15
def atom : Level := 17

/-- The level above. -/
def next (l : Level) : Level := min (l + 1) atom

end Level

/-- The level of an operator. -/
def BinaryOp.level : BinaryOp → Level
  | .add | .sub => Level.sum
  | .mul | .div | .floorDiv | .mod => Level.term
  | .pow => Level.power

/-- The level required of the left operand; only a power associates to the right. -/
def BinaryOp.leftLevel (op : BinaryOp) : Level := if op = .pow then op.level.next else op.level

/-- The level required of the right operand. -/
def BinaryOp.rightLevel (op : BinaryOp) : Level := if op = .pow then op.level else op.level.next

/-- The level of an operator on one operand. -/
def UnaryOp.level : UnaryOp → Level
  | .not => Level.not
  | .neg => Level.factor

/-- The level of a logical operator. -/
def LogicalOp.level : LogicalOp → Level
  | .and => Level.and
  | .or => Level.or

/-! ### Expressions -/

namespace Expr

/-- Parentheses around a text of level `own` where `required` is higher. -/
def enclose (own required : Level) (text : String) : String :=
  if own < required then "(" ++ text ++ ")" else text

mutual

/-- The text of an expression at a required level. -/
def text (required : Level) : Expr → String
  | .const c _ => c.literal
  | .name id _ => id
  | .field value member _ => text Level.atom value ++ "." ++ member
  | .call callee args _ => text Level.atom callee ++ "(" ++ textOfAll args ++ ")"
  | .list items _ => "[" ++ textOfAll items ++ "]"
  | .dict entries _ => "\x7b" ++ textOfEntries entries ++ "\x7d"
  | .binary op left right _ =>
    enclose op.level required
      (text op.leftLevel left ++ " " ++ op.symbol ++ " " ++ text op.rightLevel right)
  | .unary op operand _ => enclose op.level required (op.symbol ++ text op.level operand)
  | .logical op operands _ => enclose op.level required (textOfChain op op.level.next operands)
  | .compare op first others _ =>
    enclose Level.comparison required (text Level.operand first ++ textOfOthers op others)
  | .conditional test yes no _ =>
    enclose Level.test required
      (text Level.or yes ++ " if " ++ text Level.or test ++ " else " ++ text Level.test no)
  | .thunk body _ => enclose Level.test required ("lambda: " ++ text Level.test body)

/-- Expressions with commas between them. -/
def textOfAll : List Expr → String
  | [] => ""
  | [e] => text Level.test e
  | e :: next :: es => text Level.test e ++ ", " ++ textOfAll (next :: es)

/-- Keys and values with commas between the entries. -/
def textOfEntries : List (Expr × Expr) → String
  | [] => ""
  | [(key, value)] => text Level.test key ++ ": " ++ text Level.test value
  | (key, value) :: next :: es =>
    text Level.test key ++ ": " ++ text Level.test value ++ ", " ++ textOfEntries (next :: es)

/-- Operands of a logical operator; each next one is required to bind more tightly. -/
def textOfChain (op : LogicalOp) (required : Level) : List Expr → String
  | [] => ""
  | [e] => text required e
  | e :: next :: es =>
    text required e ++ " " ++ op.symbol ++ " " ++ textOfChain op required.next (next :: es)

/-- The further operands of a comparison, each after its operator. -/
def textOfOthers (op : CompareOp) : List Expr → String
  | [] => ""
  | e :: es => " " ++ op.symbol ++ " " ++ text Level.operand e ++ textOfOthers op es

end

end Expr

/-! ### Statements -/

namespace Stmt

/-- The blanks before a line of a block at a depth. -/
def indent (depth : Nat) : String := String.ofList (List.replicate (4 * depth) ' ')

/-- A parameter list. -/
def paramsText (params : List String) (rest : Option String) : String :=
  String.intercalate ", " (params ++ (rest.map ("*" ++ ·)).toList)

mutual

/-- The lines of a statement in a block at a depth. -/
def lines (depth : Nat) : Stmt → List String
  | .assign target value _ => [indent depth ++ target ++ " = " ++ value.text Level.test]
  | .eval value _ => [indent depth ++ value.text Level.statement]
  | .ret value _ => [indent depth ++ "return " ++ value.text Level.test]
  | .branch test yes no _ =>
    (indent depth ++ "if " ++ test.text Level.test ++ ":")
      :: linesOfAll (depth + 1) yes ++ linesOfElse depth no
  | .loop test body _ =>
    (indent depth ++ "while " ++ test.text Level.test ++ ":") :: linesOfAll (depth + 1) body
  | .define name params rest body _ =>
    "" :: (indent depth ++ "def " ++ name ++ "(" ++ paramsText params rest ++ "):")
      :: linesOfBody (depth + 1) body
  | .skip _ => [indent depth ++ "pass"]
  | .next _ => [indent depth ++ "continue"]

/-- The lines of a block. -/
def linesOfAll (depth : Nat) : List Stmt → List String
  | [] => []
  | s :: ss => lines depth s ++ linesOfAll depth ss

/-- The lines of an alternative; one that is a branch itself is joined to the branch before. -/
def linesOfElse (depth : Nat) : List Stmt → List String
  | [] => []
  | [.branch test yes no _] =>
    (indent depth ++ "elif " ++ test.text Level.test ++ ":")
      :: linesOfAll (depth + 1) yes ++ linesOfElse depth no
  | s :: ss =>
    (indent depth ++ "else:") :: lines (depth + 1) s ++ linesOfAll (depth + 1) ss

/-- The lines of a function or program, where a string in front is documentation. -/
def linesOfBody (depth : Nat) : List Stmt → List String
  | [] => []
  | .eval (.const (.str s) _) _ :: ss => (indent depth ++ Text.docText s) :: linesOfAll depth ss
  | s :: ss => lines depth s ++ linesOfAll depth ss

end

/-- The text of a program. -/
def programText (program : List Stmt) : String :=
  match linesOfBody 0 program with
  | "" :: lines => String.intercalate "\n" lines
  | lines => String.intercalate "\n" lines

end Stmt

end TailLisp
