import TailLisp.Lowering.Loop

/-!
# TailLisp.Lowering.Function

**Functions and their parameters.** A parameter that is a pattern arrives in a temporary and is
taken apart on entry. A body with self-calls becomes a loop over the parameters; any other body
returns its last form.
-/

namespace TailLisp.Lowering

/-- A parameter list. -/
structure Params where
  /-- The target names of the parameters by position. -/
  names : List String := []
  /-- The target name of the parameter that takes what is left. -/
  rest : Option String := none
  /-- The patterns among the parameters, each with the name it arrives in. -/
  patterns : List (Form × String) := []
  deriving Repr, Inhabited

namespace Params

/-- All target names, in the order of the parameters. -/
def vars (p : Params) : List String := p.names ++ p.rest.toList

/-- The name of one parameter, and the patterns with that of the parameter added. -/
def bindParam (p : Params) (form : Form) : Compile (String × List (Form × String)) := do
  let pattern ← Compile.lift (Pattern.ofForm form)
  match pattern with
  | .name s => return (← Compile.bind .scoped (Name.spell s.name), p.patterns)
  | _ =>
    let temp ← Compile.fresh "arg_"
    return (temp, p.patterns ++ [(form, temp)])

/-- Add a parameter by position. -/
def addParam (p : Params) (form : Form) : Compile Params := do
  let (name, patterns) ← p.bindParam form
  return { p with names := p.names ++ [name], patterns }

/-- Add the parameter that takes what is left; nothing may follow it. -/
def addRest (p : Params) (form : Form) : List Form → Compile Params
  | next :: _ => Compile.fail (.ofForm .restParameterNotLast next)
  | [] => do
    let (name, patterns) ← p.bindParam form
    return { p with rest := some name, patterns }

/-- Add the parameters that the items of a vector write. -/
def addAll (p : Params) : List Form → Compile Params
  | [] => pure p
  | .symbol s :: items =>
    if Pattern.isRestName s.name then
      if s.name = "&" then
        match items with
        | [] => Compile.fail (.ofForm .restParameterMissing (.symbol s))
        | param :: items => p.addRest param items
      else p.addRest (.symbol (Pattern.fusedRest s)) items
    else do
      let p ← p.addParam (.symbol s)
      p.addAll items
  | item :: items => do
    let p ← p.addParam item
    p.addAll items

/-- The parameters that a vector writes. -/
def ofForm : Form → Compile Params
  | .vector items _ => addAll {} items
  | form => Compile.fail (.ofForm .parametersNotVector form)

end Params

/-- Take the patterns among the parameters apart. -/
def entryBindings (self : Lowering) (params : Params) : Compile (List Binding) :=
  params.patterns.foldlM (fun bindings (pattern, name) =>
    expand self.expr .scoped pattern (.load name) bindings) []

/-- The statements of a function after its parameters are bound. -/
def functionBody (self : Lowering) (params : Params) (body : List Form) (span : Option Span)
    (recurs : Bool) : Compile (List Stmt) := do
  let entry ← entryBindings self params
  if recurs then
    let (stmts, exit) ←
      whileLoop self { vars := params.vars, rebind := entry } body span
    return Binding.assigns span entry ++ stmts ++ [.ret (.load exit.result) none]
  else
    let stmts ← returning self body
    return Binding.assigns span entry ++ stmts

/-- Documentation as the first statement of a function. -/
def withDoc (doc : Option String) (stmts : List Stmt) : List Stmt :=
  match doc with
  | some text => .eval (.constant (.str text)) none :: stmts
  | none => stmts

/-- The definition of a function. Its own name and its parameters are bound in its body. -/
def function (self : Lowering) (name : String) (params : Form) (body : List Form)
    (span : Option Span) (doc : Option String) : Compile Stmt := do
  let (params, stmts) ← Compile.inScope do
    let _ ← Compile.bind .scoped name
    let params ← Params.ofForm params
    let verdict ← analyze body
    let (stmts, helpers) ← Compile.collect (functionBody self params body span verdict.hasCalls)
    return (params, helpers ++ stmts)
  return .define name params.names params.rest (withDoc doc stmts) (span.filter Span.isReal)

end TailLisp.Lowering
