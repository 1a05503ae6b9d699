import TailLisp.Lowering
import TailLisp.Pattern.Parser

/-!
# TailLisp.Lowering.Pattern

**Expansion of patterns** into bindings, in pre-order: a compound pattern first binds the whole
value to its alias or to a temporary, then each part of it binds what it takes from there.

    [[a b] :as whole] = v
        whole = seq(v)
        t = seq(nth(whole, 0))
        a = nth(t, 0)
        b = nth(t, 1)

A sequence pattern passes its value through `seq`, so that a value which can be gone through only
once is gone through once.
-/

namespace TailLisp.Lowering

/-- A binder and the value it takes. -/
abbrev Work := Form × Expr

/-- The parts of a sequence pattern, taken from `holder` by position. -/
def sequenceParts (p : SequencePattern) (holder : String) : List Work :=
  p.items.zipIdx.map (fun (item, i) =>
    (item, Expr.callOf "nth" [.load holder, .constant (.int i)]))
  ++ (p.rest.map fun s =>
    (Form.symbol s, Expr.callOf "subseq" [.load holder, .constant (.int p.items.length)])).toList

/-- One part of a table pattern, taken from `holder` by key. A default is wrapped in a thunk, so
that it is evaluated only when the key is missing. -/
def tablePart (expr : Form → Compile Expr) (p : TablePattern) (holder : String)
    (entry : Form × Key) : Compile Work :=
  match p.default? entry.2 with
  | none => pure (entry.1, .callOf "lookup" [.load holder, entry.2.expr])
  | some form => do
    let body ← expr form
    return (entry.1, .callOf "lookup" [.load holder, entry.2.expr, .thunk body none])

/-- The name that holds the whole value of a compound pattern. -/
def holder (bind : String → Compile String) : Option Symbol → Compile String
  | some s => bind (Name.spell s.name)
  | none => Compile.fresh "destructure_"

/-- Expand the first binder of the work, put its parts in its place, and go on. Each name and alias
is turned into the target that it assigns by `bind`. -/
def expandWork (expr : Form → Compile Expr) (bind : String → Compile String) :
    Nat → List Work → Compile (List Binding)
  | _, [] => pure []
  | 0, _ :: _ => Compile.fail { cause := .nesting }
  | fuel + 1, (binder, value) :: work => do
    let pattern ← Compile.lift (Pattern.ofForm binder)
    match pattern with
    | .name s =>
      let target ← bind (Name.spell s.name)
      let rest ← expandWork expr bind fuel work
      return ⟨target, value, binder.span?⟩ :: rest
    | .sequence p =>
      let target ← holder bind p.whole
      let rest ← expandWork expr bind fuel (sequenceParts p target ++ work)
      return ⟨target, .callOf "seq" [value], binder.span?⟩ :: rest
    | .table p =>
      let target ← holder bind p.whole
      let parts ← p.entries.mapM (tablePart expr p target)
      let rest ← expandWork expr bind fuel (parts ++ work)
      return ⟨target, value, binder.span?⟩ :: rest

/-- The given bindings, followed by those of a pattern against a value. Every binder of the work
is a form inside the pattern, so the size of the pattern bounds the number of steps. -/
def expandWith (expr : Form → Compile Expr) (bind : String → Compile String) (pattern : Form)
    (value : Expr) (given : List Binding) : Compile (List Binding) := do
  let bindings ← expandWork expr bind pattern.size [(pattern, value)]
  Compile.report (.expandedPattern pattern.span? bindings.length)
  return given ++ bindings

/-- The expansion of a pattern whose names are bound as `mode` says. -/
def expand (expr : Form → Compile Expr) (mode : BindMode) (pattern : Form) (value : Expr)
    (given : List Binding) : Compile (List Binding) :=
  expandWith expr (Compile.bind mode) pattern value given

/-- A destructuring assignment at the level of the surrounding block. -/
def destructure (expr : Form → Compile Expr) (pattern : Form) (value : Expr)
    (outer : Option Span) : Compile (List Stmt) := do
  return Binding.assigns outer (← expand expr .asIs pattern value [])

end TailLisp.Lowering
