import TailLisp.Target.Tree

/-!
# TailLisp.Target.Validity

**Which programs the target language accepts.** Every tree can be written down, but not every tree
can be run: constants are no names, the parameters of a function have different names, `__debug__`
is never assigned, and loops nest only so deep within one function. The first two rules are checked
over the whole program one after the other, then the last two together, and the first place that
breaks one is reported.
-/

namespace TailLisp

/-- Why the target language does not accept a program. -/
inductive Rejection where
  /-- The name of a constant is used as a variable. -/
  | reservedName (name : String)
  /-- A function has two parameters of one name. -/
  | repeatedParam (name : String) (place : Span)
  /-- `__debug__` is assigned. -/
  | assignedDebug (place : Span)
  /-- A loop lies in too many others. -/
  | nestedLoop (place : Span)
  deriving DecidableEq, Repr

namespace Rejection

/-- The wording of a rejection. -/
def message : Rejection → String
  | .reservedName name => "identifier field can't represent '" ++ name ++ "' constant"
  | .repeatedParam name _ => "duplicate argument '" ++ name ++ "' in function definition"
  | .assignedDebug _ => "cannot assign to __debug__"
  | .nestedLoop _ => "too many statically nested blocks"

/-- The place that a rejection is reported at. -/
def place? : Rejection → Option Span
  | .reservedName _ => none
  | .repeatedParam _ place => some place
  | .assignedDebug place => some place
  | .nestedLoop place => some place

end Rejection

namespace Expr

mutual

/-- The variables in an expression, in the order in which they are checked. -/
def vars : Expr → List String
  | .const _ _ => []
  | .name id _ => [id]
  | .field value _ _ => vars value
  | .call callee args _ => vars callee ++ varsOfAll args
  | .list items _ => varsOfAll items
  | .dict entries _ => varsOfKeys entries ++ varsOfValues entries
  | .binary _ left right _ => vars left ++ vars right
  | .unary _ operand _ => vars operand
  | .logical _ operands _ => varsOfAll operands
  | .compare _ first others _ => varsOfAll others ++ vars first
  | .conditional test yes no _ => vars test ++ vars yes ++ vars no
  | .thunk body _ => vars body

/-- The variables in expressions. -/
def varsOfAll : List Expr → List String
  | [] => []
  | e :: es => vars e ++ varsOfAll es

/-- The variables in the keys of entries. -/
def varsOfKeys : List (Expr × Expr) → List String
  | [] => []
  | (key, _) :: es => vars key ++ varsOfKeys es

/-- The variables in the values of entries. -/
def varsOfValues : List (Expr × Expr) → List String
  | [] => []
  | (_, value) :: es => vars value ++ varsOfValues es

end

end Expr

namespace Stmt

mutual

/-- The variables in a statement, in the order in which they are checked. The names of functions
and parameters are not among them. -/
def vars : Stmt → List String
  | .assign target value _ => target :: value.vars
  | .eval value _ => value.vars
  | .ret value _ => value.vars
  | .branch test yes no _ => test.vars ++ varsOfAll yes ++ varsOfAll no
  | .loop test body _ => test.vars ++ varsOfAll body
  | .define _ _ _ body _ => varsOfAll body
  | .skip _ => []
  | .next _ => []

/-- The variables in statements. -/
def varsOfAll : List Stmt → List String
  | [] => []
  | s :: ss => vars s ++ varsOfAll ss

end

/-- The first name that occurs a second time. -/
def firstRepeated? (seen : List String) : List String → Option String
  | [] => none
  | name :: names => if seen.contains name then some name else firstRepeated? (name :: seen) names

mutual

/-- The functions with a repeated parameter, outer ones before inner ones, each with the name and
its place. -/
def repeatedParams (above : Span) : Stmt → List (String × Span)
  | .branch _ yes no p =>
    repeatedParamsOfAll (p.getD above) yes ++ repeatedParamsOfAll (p.getD above) no
  | .loop _ body p => repeatedParamsOfAll (p.getD above) body
  | .define _ params rest body p =>
    ((firstRepeated? [] (params ++ rest.toList)).map (·, p.getD above)).toList
      ++ repeatedParamsOfAll (p.getD above) body
  | _ => []

/-- The functions with a repeated parameter in statements. -/
def repeatedParamsOfAll (above : Span) : List Stmt → List (String × Span)
  | [] => []
  | s :: ss => repeatedParams above s ++ repeatedParamsOfAll above ss

end

/-- How many loops may lie in each other within one function. -/
def loopDepthLimit : Nat := 20

/-- The rejection of a place where a name is `__debug__`. -/
def debugAt (place : Span) (names : List String) : List Rejection :=
  if names.contains "__debug__" then [.assignedDebug place] else []

mutual

/-- The places in a statement inside of `loops` loops where `__debug__` is assigned or a loop lies
too deep, in the order in which they are checked. A function takes its parameters before its body,
and is assigned to its name after that. -/
def misplaced (above : Span) (loops : Nat) : Stmt → List Rejection
  | .assign target _ p => debugAt (p.getD above) [target]
  | .branch _ yes no p =>
    misplacedOfAll (p.getD above) loops yes ++ misplacedOfAll (p.getD above) loops no
  | .loop _ body p =>
    (if loops < loopDepthLimit then [] else [.nestedLoop (p.getD above)])
      ++ misplacedOfAll (p.getD above) (loops + 1) body
  | .define name params rest body p =>
    debugAt (p.getD above) (params ++ rest.toList) ++ misplacedOfAll (p.getD above) 0 body
      ++ debugAt (p.getD above) [name]
  | _ => []

/-- The places in statements where `__debug__` is assigned or a loop lies too deep. -/
def misplacedOfAll (above : Span) (loops : Nat) : List Stmt → List Rejection
  | [] => []
  | s :: ss => misplaced above loops s ++ misplacedOfAll above loops ss

end

/-- The constants that are written like names. -/
def reservedNames : List String := ["None", "True", "False"]

/-- Why the target language does not accept a program, if it does not. -/
def rejection? (program : List Stmt) : Option Rejection :=
  ((varsOfAll program).find? reservedNames.contains).map .reservedName
    <|> (repeatedParamsOfAll Tree.origin program).head?.map (fun (name, p) => .repeatedParam name p)
    <|> (misplacedOfAll Tree.origin 0 program).head?

end Stmt

end TailLisp
