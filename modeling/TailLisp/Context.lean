import TailLisp.Event
import TailLisp.Target

/-!
# TailLisp.Context

**The state of one compilation**: the counter that makes temporaries distinct and the temporaries
that there are, the open scopes that say which target name a source name means, and the helper
functions that wait to be placed before the statement under construction.
-/

namespace TailLisp

/-- The names bound in one scope, each with the target name it means. -/
abbrev Scope := List (String × String)

/-- Bind a name; an earlier binding of it in the same scope is replaced. -/
def Scope.insert (scope : Scope) (name target : String) : Scope :=
  match scope with
  | [] => [(name, target)]
  | (other, t) :: rest =>
    if other = name then (name, target) :: rest else (other, t) :: Scope.insert rest name target

/-- The state of one compilation. -/
structure Context where
  /-- What every temporary begins with. -/
  tempPrefix : String := "__ll_"
  /-- How many temporaries there are so far. -/
  counter : Nat := 0
  /-- The temporaries so far, newest first. No step looks at them. -/
  temps : List String := []
  /-- The open scopes, innermost first. -/
  scopes : List Scope := []
  /-- Helper functions that are not placed yet, oldest first. -/
  helpers : List Stmt := []
  /-- What was reported so far, newest first. -/
  events : List Event := []
  deriving Repr, Inhabited

namespace Context

/-- A new temporary: the counter goes up and ends its name. -/
def fresh (ctx : Context) (stem : String) : String × Context :=
  let temp := ctx.tempPrefix ++ stem ++ natText (ctx.counter + 1)
  (temp, { ctx with counter := ctx.counter + 1, temps := temp :: ctx.temps })

/-- Let a name mean a target name in the innermost scope; without a scope nothing changes. -/
def declare (ctx : Context) (name target : String) : Context :=
  match ctx.scopes with
  | [] => ctx
  | scope :: outer => { ctx with scopes := scope.insert name target :: outer }

/-- The target name that a source name means: that of the innermost scope which binds it, else
the name itself. -/
def resolve (ctx : Context) (name : String) : String :=
  (ctx.scopes.findSome? fun scope => scope.lookup name).getD name

/-- Open a scope. -/
def enter (ctx : Context) : Context := { ctx with scopes := [] :: ctx.scopes }

/-- Close the innermost scope. -/
def leave (ctx : Context) : Context := { ctx with scopes := ctx.scopes.tail }

/-- Add a helper function. -/
def hoist (ctx : Context) (helper : Stmt) : Context :=
  { ctx with helpers := ctx.helpers ++ [helper] }

/-- How many helpers wait, to take later ones out by. -/
def mark (ctx : Context) : Nat := ctx.helpers.length

/-- Take out the helpers that were added after a mark. -/
def takeSince (ctx : Context) (mark : Nat) : List Stmt × Context :=
  (ctx.helpers.drop mark, { ctx with helpers := ctx.helpers.take mark })

/-- Report an event. -/
def report (ctx : Context) (event : Event) : Context :=
  { ctx with events := event :: ctx.events }

end Context

end TailLisp
