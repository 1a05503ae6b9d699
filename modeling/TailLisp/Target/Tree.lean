import TailLisp.Target

/-!
# TailLisp.Target.Tree

**The tree view of a program**: every node with its kind, its place and its named parts, as tools
that walk programs without knowing their grammar see it. A node that has no place of its own
takes that of the node above it; the whole program begins at the start of the source.
-/

namespace TailLisp

/-- A part of a program. -/
inductive Tree where
  /-- A node by its kind; a parameter list has no place. -/
  | node (kind : String) (place : Option Span) (parts : List (String × Tree))
  | row (items : List Tree)
  /-- A name, an operator, or the way a name is used. -/
  | word (text : String)
  | const (value : Constant)
  deriving Repr, Inhabited

namespace Tree

mutual

/-- Can all constants in the tree be written? -/
def isWritable : Tree → Bool
  | .node _ _ parts => partsWritable parts
  | .row items => allWritable items
  | .word _ => true
  | .const c => c.isWritable

/-- Can all constants in the parts of a node be written? -/
def partsWritable : List (String × Tree) → Bool
  | [] => true
  | (_, tree) :: parts => isWritable tree && partsWritable parts

/-- Can all constants in the trees be written? -/
def allWritable : List Tree → Bool
  | [] => true
  | tree :: trees => isWritable tree && allWritable trees

end

/-- Where a program begins. -/
def origin : Span := ⟨1, 0, 1, 0⟩

/-- A name that is read or written at a place. -/
def nameAt (id use : String) (place : Span) : Tree :=
  .node "Name" (some place) [("id", .word id), ("ctx", .word use)]

/-- A parameter at a place. -/
def param (place : Span) (name : String) : Tree := .node "arg" (some place) [("arg", .word name)]

/-- A parameter list at a place. -/
def params (place : Span) (names : List String) (rest : Option String) : Tree :=
  .node "arguments" none
    ([("posonlyargs", .row []), ("args", .row (names.map (param place)))]
      ++ (rest.map fun name => ("vararg", param place name)).toList
      ++ [("kwonlyargs", .row []), ("kw_defaults", .row []), ("defaults", .row [])])

end Tree

/-- The name of an operator in the tree. -/
def BinaryOp.treeName : BinaryOp → String
  | .add => "Add"
  | .sub => "Sub"
  | .mul => "Mult"
  | .div => "Div"
  | .floorDiv => "FloorDiv"
  | .mod => "Mod"
  | .pow => "Pow"

/-- The name of a comparison in the tree. -/
def CompareOp.treeName : CompareOp → String
  | .eq => "Eq"
  | .notEq => "NotEq"
  | .lt => "Lt"
  | .le => "LtE"
  | .gt => "Gt"
  | .ge => "GtE"
  | .same => "Is"
  | .notSame => "IsNot"
  | .memberOf => "In"
  | .notMemberOf => "NotIn"

/-- The name of an operator on one operand in the tree. -/
def UnaryOp.treeName : UnaryOp → String
  | .not => "Not"
  | .neg => "USub"

/-- The name of a logical operator in the tree. -/
def LogicalOp.treeName : LogicalOp → String
  | .and => "And"
  | .or => "Or"

namespace Expr

mutual

/-- The tree of an expression below a node at `above`. -/
def tree (above : Span) : Expr → Tree
  | .const c p => .node "Constant" (some (p.getD above)) [("value", .const c)]
  | .name id p => .nameAt id "Load" (p.getD above)
  | .field value member p =>
    .node "Attribute" (some (p.getD above))
      [("value", tree (p.getD above) value), ("attr", .word member), ("ctx", .word "Load")]
  | .call callee args p =>
    .node "Call" (some (p.getD above))
      [("func", tree (p.getD above) callee), ("args", .row (treesOf (p.getD above) args)),
       ("keywords", .row [])]
  | .list items p =>
    .node "List" (some (p.getD above))
      [("elts", .row (treesOf (p.getD above) items)), ("ctx", .word "Load")]
  | .dict entries p =>
    .node "Dict" (some (p.getD above))
      [("keys", .row (treesOfKeys (p.getD above) entries)),
       ("values", .row (treesOfValues (p.getD above) entries))]
  | .binary op left right p =>
    .node "BinOp" (some (p.getD above))
      [("left", tree (p.getD above) left), ("op", .word op.treeName),
       ("right", tree (p.getD above) right)]
  | .unary op operand p =>
    .node "UnaryOp" (some (p.getD above))
      [("op", .word op.treeName), ("operand", tree (p.getD above) operand)]
  | .logical op operands p =>
    .node "BoolOp" (some (p.getD above))
      [("op", .word op.treeName), ("values", .row (treesOf (p.getD above) operands))]
  | .compare op first others p =>
    .node "Compare" (some (p.getD above))
      [("left", tree (p.getD above) first),
       ("ops", .row (others.map fun _ => .word op.treeName)),
       ("comparators", .row (treesOf (p.getD above) others))]
  | .conditional test yes no p =>
    .node "IfExp" (some (p.getD above))
      [("test", tree (p.getD above) test), ("body", tree (p.getD above) yes),
       ("orelse", tree (p.getD above) no)]
  | .thunk body p =>
    .node "Lambda" (some (p.getD above))
      [("args", .params (p.getD above) [] none), ("body", tree (p.getD above) body)]

/-- The trees of expressions below a node. -/
def treesOf (above : Span) : List Expr → List Tree
  | [] => []
  | e :: es => tree above e :: treesOf above es

/-- The trees of the keys of entries. -/
def treesOfKeys (above : Span) : List (Expr × Expr) → List Tree
  | [] => []
  | (key, _) :: es => tree above key :: treesOfKeys above es

/-- The trees of the values of entries. -/
def treesOfValues (above : Span) : List (Expr × Expr) → List Tree
  | [] => []
  | (_, value) :: es => tree above value :: treesOfValues above es

end

end Expr

namespace Stmt

mutual

/-- The tree of a statement below a node at `above`. -/
def tree (above : Span) : Stmt → Tree
  | .assign target value p =>
    .node "Assign" (some (p.getD above))
      [("targets", .row [.nameAt target "Store" (p.getD above)]),
       ("value", value.tree (p.getD above))]
  | .eval value p => .node "Expr" (some (p.getD above)) [("value", value.tree (p.getD above))]
  | .ret value p => .node "Return" (some (p.getD above)) [("value", value.tree (p.getD above))]
  | .branch test yes no p =>
    .node "If" (some (p.getD above))
      [("test", test.tree (p.getD above)), ("body", .row (treesOf (p.getD above) yes)),
       ("orelse", .row (treesOf (p.getD above) no))]
  | .loop test body p =>
    .node "While" (some (p.getD above))
      [("test", test.tree (p.getD above)), ("body", .row (treesOf (p.getD above) body)),
       ("orelse", .row [])]
  | .define name params rest body p =>
    .node "FunctionDef" (some (p.getD above))
      [("name", .word name), ("args", .params (p.getD above) params rest),
       ("body", .row (treesOf (p.getD above) body)), ("decorator_list", .row [])]
  | .skip p => .node "Pass" (some (p.getD above)) []
  | .next p => .node "Continue" (some (p.getD above)) []

/-- The trees of statements below a node. -/
def treesOf (above : Span) : List Stmt → List Tree
  | [] => []
  | s :: ss => tree above s :: treesOf above ss

end

/-- The trees of the statements of a program. -/
def programTrees (program : List Stmt) : List Tree := treesOf Tree.origin program

end Stmt

end TailLisp
