import TailLisp.Fault

/-!
# TailLisp.Macro

**Macros** and their expansion into the core forms that the later stages know.

    (when test body…)      is  (if test (do body…) nil)
    (when-not test body…)  is  (if test nil (do body…))
    (if-not test then else) is (if test else then)
    (-> x (f a) g)         is  (g (f x a))
    (->> x (f a) g)        is  (g (f a x))

`expandHead` replaces a call until its head is no macro, at most `limit` times. `expandDeep`
does so at every depth outside of quoted forms. A step of a macro above takes one macro name
out of the form and brings none in, so the number of macro names (`nameCount`) bounds how often
the walk has to start again on a replaced form.
-/

namespace TailLisp

/-- What a macro does with its arguments. -/
inductive Macro where
  | when
  | whenNot
  | ifNot
  | threadFirst
  | threadLast
  /-- A macro that stands for its own call. It never settles, so expanding it always reaches the
  depth limit. -/
  | again
  deriving DecidableEq, Repr

/-- Macros by name; the first entry of a name counts. -/
abbrev MacroTable := List (String × Macro)

namespace Macro

/-- The macros every program has. -/
def standard : MacroTable :=
  [("when", .when), ("when-not", .whenNot), ("if-not", .ifNot), ("->", .threadFirst),
   ("->>", .threadLast)]

/-- Pass `x` through the steps: a list that is not empty takes it as its first or last argument,
anything else is called with it. -/
def thread (last : Bool) (x : Form) : List Form → Form
  | [] => x
  | .list (head :: args) _ :: steps =>
    thread last (.made (if last then head :: args ++ [x] else head :: x :: args)) steps
  | step :: steps => thread last (.made [step, x]) steps

/-- The form a call stands for, by its name and arguments. -/
def replace (m : Macro) (name : String) (args : List Form) : Except Cause Form :=
  match m, args with
  | .when, test :: body =>
    .ok (.made [.named "if", test, .made (.named "do" :: body), .nil])
  | .whenNot, test :: body =>
    .ok (.made [.named "if", test, .nil, .made (.named "do" :: body)])
  | .ifNot, [test, yes] => .ok (.made [.named "if", test, .nil, yes])
  | .ifNot, [test, yes, no] => .ok (.made [.named "if", test, no, yes])
  | .ifNot, _ :: _ :: _ => .error .ifNotShape
  | .threadFirst, x :: steps => .ok (thread false x steps)
  | .threadLast, x :: steps => .ok (thread true x steps)
  | .again, args => .ok (.made (.named name :: args))
  | _, _ => .error (.macroArguments name)

/-- The macro that a form calls. -/
def ofCall? (table : MacroTable) (form : Form) : Option Macro :=
  match form.head? with
  | some s => table.lookup s.name
  | none => none

/-- A list made by a macro takes the place of the call. -/
def placed (span : Option Span) : Form → Form
  | .list items none => .list items span
  | form => form

/-- Replace a macro call once; any other form stays. -/
def expandOnce (table : MacroTable) (form : Form) : Except Fault Form :=
  match form with
  | .list (.symbol s :: args) span =>
    match table.lookup s.name with
    | some m =>
      match m.replace s.name args with
      | .ok made => .ok (placed span made)
      | .error cause => .error (.ofForm cause form)
    | none => .ok form
  | form => .ok form

/-- Replace calls until the head is no macro, at most `steps` times. A form that would need more
is a fault of the form that the expansion began with. -/
def expandSteps (table : MacroTable) (limit : Int) (whole : Form) :
    Nat → Form → Except Fault Form
  | steps, form =>
    if (ofCall? table form).isSome then
      match steps with
      | 0 => .error (.ofForm (.expansionDepth limit) whole)
      | steps + 1 => do
        let next ← expandOnce table form
        expandSteps table limit whole steps next
    else .ok form

/-- Expand the head of a form within the depth limit. -/
def expandHead (table : MacroTable) (limit : Int) (form : Form) : Except Fault Form :=
  expandSteps table limit form limit.toNat form

/-! ### At every depth -/

mutual

/-- How many macro names occur in a form, quoted parts included. -/
def nameCount (table : MacroTable) : Form → Nat
  | .const _ => 0
  | .symbol s => if (table.lookup s.name).isSome then 1 else 0
  | .keyword _ => 0
  | .list items _ => nameCountOfAll table items
  | .vector items _ => nameCountOfAll table items
  | .map entries _ => nameCountOfEntries table entries

/-- How many macro names occur in a row of forms. -/
def nameCountOfAll (table : MacroTable) : List Form → Nat
  | [] => 0
  | form :: forms => nameCount table form + nameCountOfAll table forms

/-- How many macro names occur in the entries of a map. -/
def nameCountOfEntries (table : MacroTable) : List (Form × Form) → Nat
  | [] => 0
  | (key, value) :: entries =>
    nameCount table key + nameCount table value + nameCountOfEntries table entries

end

mutual

/-- Walk a form. A macro call is expanded and handed to `resume`; a quoted form stays; the parts
of any other form are walked in order. -/
def walk (table : MacroTable) (limit : Int) (resume : Form → Except Fault Form) :
    Form → Except Fault Form
  | .list items span =>
    if (ofCall? table (.list items span)).isSome then do
      resume (← expandHead table limit (.list items span))
    else if (Form.list items span).isCallOf "quote" then .ok (.list items span)
    else do return .list (← walkAll table limit resume items) span
  | .vector items span => do return .vector (← walkAll table limit resume items) span
  | .map entries span => do return .map (← walkEntries table limit resume entries) span
  | .const c => .ok (.const c)
  | .symbol s => .ok (.symbol s)
  | .keyword k => .ok (.keyword k)

/-- Walk a row of forms. -/
def walkAll (table : MacroTable) (limit : Int) (resume : Form → Except Fault Form) :
    List Form → Except Fault (List Form)
  | [] => .ok []
  | form :: forms => do
    let form ← walk table limit resume form
    let forms ← walkAll table limit resume forms
    return form :: forms

/-- Walk the entries of a map, each key before its value. -/
def walkEntries (table : MacroTable) (limit : Int) (resume : Form → Except Fault Form) :
    List (Form × Form) → Except Fault (List (Form × Form))
  | [] => .ok []
  | (key, value) :: entries => do
    let key ← walk table limit resume key
    let value ← walk table limit resume value
    let entries ← walkEntries table limit resume entries
    return (key, value) :: entries

end

/-- Walk a form, starting again on a replaced call at most `rounds` times in a chain. -/
def expandRounds (table : MacroTable) (limit : Int) : Nat → Form → Except Fault Form
  | 0 => walk table limit fun form => .error (.ofForm (.expansionDepth limit) form)
  | rounds + 1 => walk table limit (expandRounds table limit rounds)

/-- Expand every macro call of a form outside of its quoted parts. -/
def expandDeep (table : MacroTable) (limit : Int) (form : Form) : Except Fault Form :=
  expandRounds table limit (nameCount table form) form

/-- Expand every macro call of a row of forms. -/
def expandAll (table : MacroTable) (limit : Int) (forms : List Form) :
    Except Fault (List Form) :=
  forms.mapM (expandDeep table limit)

end Macro

end TailLisp
