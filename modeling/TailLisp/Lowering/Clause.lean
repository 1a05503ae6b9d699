import TailLisp.Lowering

/-!
# TailLisp.Lowering.Clause

**Clauses of `cond` and `case`**, split up before anything is lowered.
-/

namespace TailLisp.Lowering

/-- Is the form a test that always holds: `:else` or `true`? -/
def isElse : Form → Bool
  | .keyword k => k.name == "else"
  | .const (.bool b) => b
  | _ => false

/-- The clauses before the first test that always holds, and the result of that test; nil when
there is none. -/
def untilElse : List (Form × Form) → List (Form × Form) × Form
  | [] => ([], .nil)
  | (test, result) :: rest =>
    if isElse test then ([], result)
    else ((test, result) :: (untilElse rest).1, (untilElse rest).2)

/-- The clauses of a `cond` and its default. -/
def condClauses (form : Form) (args : List Form) : Compile (List (Form × Form) × Form) :=
  match Form.pairUp args with
  | some pairs => pure (untilElse pairs)
  | none => Compile.fail (.ofForm .condOdd form)

/-- The constant that a form writes, where every keyword counts. -/
def caseKey? : Form → Option Key
  | .const c => some (.const c)
  | .keyword k => some (.keyword k)
  | _ => none

/-- The alternatives that a key of a `case` stands for: the members of a list, or itself. -/
def caseKeys? : Form → Option (List Key)
  | .list [] _ => none
  | .list items _ => items.mapM caseKey?
  | form => (caseKey? form).map ([·])

/-- Keys and results in turn, and the default that may follow. -/
def splitCase : List Form → List (Form × Form) × Form
  | [] => ([], .nil)
  | [default] => ([], default)
  | key :: result :: rest => ((key, result) :: (splitCase rest).1, (splitCase rest).2)

/-- A clause of a `case`, its key taken apart. -/
def caseClause (clause : Form × Form) : Compile (List Key × Form) :=
  match caseKeys? clause.1 with
  | some keys => pure (keys, clause.2)
  | none => Compile.fail (.ofForm .caseKeys clause.1)

/-- The parts of a `case`. -/
structure CaseParts where
  selector : Form
  clauses : List (List Key × Form)
  default : Form

/-- Split the arguments of a `case`. -/
def caseParts (form : Form) : List Form → Compile CaseParts
  | [] => Compile.fail (.ofForm .caseEmpty form)
  | selector :: rest => do
    let (clauses, default) := splitCase rest
    return ⟨selector, ← clauses.mapM caseClause, default⟩

/-- The test that a selector equals one of the keys. -/
def caseTest (selector : String) (keys : List Key) : Expr :=
  match keys.map fun key => Expr.compare .eq (.load selector) [key.expr] none with
  | [test] => test
  | tests => .logical .or tests none

end TailLisp.Lowering
