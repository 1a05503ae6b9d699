import TailLisp.Target

/-!
# TailLisp.Target.Names

**Names that code reads and binds.** A block binds its assignment targets and the parameters of
the functions in it; it reads all other names that occur. What it reads and does not bind is
free in it (`freeNames`). Names that are `assigned` anywhere in a function are local to it.
-/

namespace TailLisp

namespace Expr

mutual

/-- The names an expression reads. -/
def reads : Expr → List String
  | .const _ _ => []
  | .name id _ => [id]
  | .field value _ _ => reads value
  | .call callee args _ => reads callee ++ readsOfAll args
  | .list items _ => readsOfAll items
  | .dict entries _ => readsOfEntries entries
  | .binary _ left right _ => reads left ++ reads right
  | .unary _ operand _ => reads operand
  | .logical _ operands _ => readsOfAll operands
  | .compare _ first others _ => reads first ++ readsOfAll others
  | .conditional test yes no _ => reads test ++ reads yes ++ reads no
  | .thunk body _ => reads body

/-- The names that expressions read. -/
def readsOfAll : List Expr → List String
  | [] => []
  | e :: es => reads e ++ readsOfAll es

/-- The names that keys and values read. -/
def readsOfEntries : List (Expr × Expr) → List String
  | [] => []
  | (key, value) :: es => reads key ++ reads value ++ readsOfEntries es

end

end Expr

namespace Stmt

mutual

/-- The names a statement reads, at any depth. -/
def reads : Stmt → List String
  | .assign _ value _ => value.reads
  | .eval value _ => value.reads
  | .ret value _ => value.reads
  | .branch test yes no _ => test.reads ++ readsOfAll yes ++ readsOfAll no
  | .loop test body _ => test.reads ++ readsOfAll body
  | .define _ _ _ body _ => readsOfAll body
  | .skip _ => []
  | .next _ => []

/-- The names that statements read. -/
def readsOfAll : List Stmt → List String
  | [] => []
  | s :: ss => reads s ++ readsOfAll ss

end

mutual

/-- The assignment targets and parameters of a statement, at any depth. -/
def binds : Stmt → List String
  | .assign target _ _ => [target]
  | .eval _ _ => []
  | .ret _ _ => []
  | .branch _ yes no _ => bindsOfAll yes ++ bindsOfAll no
  | .loop _ body _ => bindsOfAll body
  | .define _ params rest body _ => params ++ rest.toList ++ bindsOfAll body
  | .skip _ => []
  | .next _ => []

/-- The assignment targets and parameters of statements. -/
def bindsOfAll : List Stmt → List String
  | [] => []
  | s :: ss => binds s ++ bindsOfAll ss

end

mutual

/-- The names a statement assigns in its own function: the targets and the functions it defines,
without what inner functions assign. -/
def assigned : Stmt → List String
  | .assign target _ _ => [target]
  | .eval _ _ => []
  | .ret _ _ => []
  | .branch _ yes no _ => assignedOfAll yes ++ assignedOfAll no
  | .loop _ body _ => assignedOfAll body
  | .define name _ _ _ _ => [name]
  | .skip _ => []
  | .next _ => []

/-- The names that statements assign in their own function. -/
def assignedOfAll : List Stmt → List String
  | [] => []
  | s :: ss => assigned s ++ assignedOfAll ss

end

/-- The names a statement reads and does not bind itself. -/
def freeNames (s : Stmt) : List String := s.reads.filter fun name => !s.binds.contains name

end Stmt

end TailLisp
