import TailLisp.Pattern
import TailLisp.Target.Names

/-!
# TailLisp.Binding

**Sequential bindings.** A pattern is lowered to a row of bindings, each of which may read the
targets of those before it, and a row of bindings to a row of assignments.
-/

namespace TailLisp

/-- One step of a sequential binding: the target is assigned the value. -/
structure Binding where
  target : String
  value : Expr
  /-- The span of the binder behind it. -/
  span : Option Span := none
  deriving Repr, Inhabited

namespace Binding

/-- A binding as an assignment at the place of its binder; a binder without a span takes the span
of the surrounding form. -/
def assign (outer : Option Span) (b : Binding) : Stmt :=
  .assign b.target b.value ((b.span <|> outer).filter Span.isReal)

/-- Bindings as assignments in order. -/
def assigns (outer : Option Span) (bs : List Binding) : List Stmt := bs.map (assign outer)

/-! ### Names that are read before they are bound -/

/-- A target together with the names that are read for it. -/
abbrev Step := String × List String

/-- The steps of bindings; the helpers stand before them, so what helpers read is read for the
first binding. -/
def steps (helpers : List Stmt) : List Binding → List Step
  | [] => []
  | b :: bs =>
    (b.target, b.value.reads ++ helpers.flatMap Stmt.freeNames)
      :: bs.map fun b => (b.target, b.value.reads)

/-- Go through the steps; `bound` are the targets so far, `found` the answer so far. -/
def readBeforeBoundFrom (targets bound found : List String) : List Step → List String
  | [] => found
  | (target, names) :: rest =>
    let isNew (found : List String) (name : String) : Bool :=
      targets.contains name && !bound.contains name && !found.contains name
    let found := (names.mergeSort fun a b => !(b < a)).foldl
      (fun found name => if isNew found name then found ++ [name] else found) found
    readBeforeBoundFrom targets (target :: bound) found rest

/-- The targets that are read before they are bound, in order of reading and, within one step,
by name. A helper function that assigns such a name has to take it as a parameter, since the name
would otherwise be local to it and without a value at the first read. -/
def readBeforeBound (steps : List Step) : List String :=
  readBeforeBoundFrom (steps.map (·.1)) [] [] steps

end Binding

/-- The expression that gives a key. -/
def Key.expr : Key → Expr
  | .const c => .constant c
  | .keyword k => .callOf "Keyword" [.constant (.str k.name)]

end TailLisp
