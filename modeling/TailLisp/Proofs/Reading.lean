import TailLisp.Lowering.Stmt
import TailLisp.Run.Machine

/-!
# TailLisp.Proofs.Reading

**What forms mean, without target code.** A form is evaluated directly: a name that a `let`, a
`loop` or a pattern binds stands for a value, and a self-call starts the body again with new
values. There are no assignments and no flags here. The only variables are those of the code
around the form, which are read when their name is.

Like the lowering, the reading of a form depends on its position: `value` is for expressions,
`run` for statements and `tail` for tails of a loop. It covers the forms that need no helper
function as expressions (`Form.isPlain`); the others have no value here.

Calls are made by an interpreter `self`. The default of a table pattern is evaluated by a call of
its own two levels further down, so what it calls is run by another interpreter, `inner`.
-/

namespace TailLisp

/-- What a name stands for: a value that is bound to it, or a variable of the surrounding code. -/
inductive Meaning where
  | value (v : Value)
  | outer (target : String)

/-- What each name, as spelled in target code, stands for. -/
abbrev Env := String → Meaning

namespace Env

/-- Bind a name to a value. -/
def bind (ρ : Env) (x : String) (v : Value) : Env := fun y => if y = x then .value v else ρ y

/-- Bind the alias of a pattern, if it has one. -/
def bindAlias (ρ : Env) (alias? : Option Symbol) (v : Value) : Env :=
  match alias? with
  | some s => ρ.bind (Name.spell s.name) v
  | none => ρ

end Env

/-- The names of a context stand for the variables that they mean in target code. -/
def Context.env (c : Context) : Env := fun x => .outer (c.resolve x)

namespace Reading

open Interp (valueOf fieldOf putEntry eagerEntries)

/-! ### Evaluating in order -/

/-- The values of computations, one after the other. -/
def inOrder : List (Exec Value) → Exec (List Value)
  | [] => pure []
  | m :: ms => do
    let v ← m
    let vs ← inOrder ms
    return v :: vs

/-- The values of pairs of computations, one after the other. -/
def pairsInOrder : List (Exec Value × Exec Value) → Exec (List (Value × Value))
  | [] => pure []
  | (key, value) :: ms => do
    let k ← key
    let v ← value
    let rest ← pairsInOrder ms
    return (k, v) :: rest

/-- The entries of a dictionary: the first `eager` ones are added as soon as they have a value, the
others when all have theirs. -/
def entries (eager : Nat) (given : List (Value × Value)) :
    List (Exec Value × Exec Value) → Exec (List (Value × Value))
  | [] => pure given
  | (key, value) :: ms => do
    let k ← key
    let v ← value
    match eager with
    | 0 => ((k, v) :: (← pairsInOrder ms)).foldlM putEntry given
    | eager + 1 => entries eager (← putEntry given (k, v)) ms

/-- One of two computations, by the truth of a value. -/
def choose {α : Type} (test : Exec Value) (yes no : Exec α) : Exec α := do
  if ← Exec.truth (← test) then yes else no

/-- Does an operand settle a logical operator? -/
def settles (op : LogicalOp) (v : Value) : Exec Bool := return (← Exec.truth v) == (op == .or)

/-- The value of a logical operator without operands. -/
def neutral : LogicalOp → Value
  | .and => .ofBool true
  | .or => .nil

/-- The first operand that settles a logical operator, or the last. -/
def logical (op : LogicalOp) : List (Exec Value) → Exec Value
  | [] => pure (neutral op)
  | [m] => m
  | m :: next :: ms => do
    let v ← m
    if ← settles op v then return v else logical op (next :: ms)

/-- An operator between values, from left to right. -/
def combine (op : BinaryOp) : List (Exec Value) → Exec Value
  | [] => Exec.fail .exhausted
  | [m] => do
    let v ← m
    if op = .sub then Interp.unary .neg v else return v
  | first :: ms => do
    ms.foldlM (fun left m => do Interp.binary op left (← m)) (← first)

/-- A chain of comparisons, as long as they hold. -/
def chain (self : Interp) (op : CompareOp) (left : Value) : List (Exec Value) → Exec Value
  | [] => pure (.ofBool true)
  | m :: ms => do
    let right ← m
    if ← Interp.compare self op left right then chain self op right ms
    else return .ofBool false

/-! ### Names and constants -/

/-- The value of what a name stands for. -/
def valueOfMeaning (frames : List Nat) : Meaning → Exec Value
  | .value v => pure v
  | .outer x => valueOf frames x

/-- The value of a symbol: the parts after points are fields. -/
def symbolValue (frames : List Nat) (ρ : Env) (s : Symbol) : Exec Value :=
  match Name.parts s.name with
  | [] => Exec.fail .exhausted
  | first :: fields => do
    fields.foldlM (fun v field => fieldOf v (Name.spell field))
      (← valueOfMeaning frames (ρ (Name.spell first)))

/-- The value of a key. -/
def keyValue (self : Interp) : Key → Exec Value
  | .const c => pure (.const c)
  | .keyword k => self.call (.native (.type .keyword)) [.ofString k.name]

mutual

/-- A quoted form as data. -/
def datum (self : Interp) (frames : List Nat) : Form → Exec Value
  | .const c => pure (.const c)
  | .symbol s => do self.call (← valueOf frames "Symbol") [.ofString s.name]
  | .keyword k => keyValue self (.keyword k)
  | .list items _ => do Exec.newList (← inOrder (data self frames items))
  | .vector items _ => do Exec.newList (← inOrder (data self frames items))
  | .map es _ => do
    return .dict (← entries (eagerEntries es.length) [] (dataOfEntries self frames es))

/-- Quoted forms as data. -/
def data (self : Interp) (frames : List Nat) : List Form → List (Exec Value)
  | [] => []
  | form :: forms => datum self frames form :: data self frames forms

/-- Quoted keys and values as data. -/
def dataOfEntries (self : Interp) (frames : List Nat) :
    List (Form × Form) → List (Exec Value × Exec Value)
  | [] => []
  | (key, value) :: es =>
    (datum self frames key, datum self frames value) :: dataOfEntries self frames es

end

/-! ### Expressions -/

/-- The result of the first clause whose test holds. -/
def firstHolding : List Form → List (Exec Value) → Exec Value
  | test :: _ :: forms, holds :: result :: ms =>
    if Lowering.isElse test then result else choose holds result (firstHolding forms ms)
  | _, _ => pure .nil

/-- The value of a special form, given its arguments and their values. -/
def special (self : Interp) (frames : List Nat) (sp : Special) (args : List Form)
    (ms : List (Exec Value)) : Exec Value :=
  match sp, ms with
  | .ifForm, [test, yes] => choose test yes (pure .nil)
  | .ifForm, [test, yes, no] => choose test yes no
  | .condForm, ms => firstHolding args ms
  | .doForm, [] => pure .nil
  | .doForm, [m] => m
  | .andForm, ms => logical .and ms
  | .orForm, ms => logical .or ms
  | .notForm, [m] => do Interp.unary .not (← m)
  | .quoteForm, _ =>
    match args with
    | [form] => datum self frames form
    | _ => Exec.fail .exhausted
  | _, _ => Exec.fail .exhausted

/-- The value of a call. -/
def call (self : Interp) (callee : Exec Value) (args : List (Exec Value)) : Exec Value := do
  let fn ← callee
  let vs ← inOrder args
  self.call fn vs

/-- The value of a list with a symbol as its head. -/
def headed (self : Interp) (frames : List Nat) (ρ : Env) (head : Symbol) (args : List Form)
    (ms : List (Exec Value)) : Exec Value :=
  match Special.ofName? head.name, BinaryOp.ofName? head.name, CompareOp.ofName? head.name with
  | some sp, _, _ => special self frames sp args ms
  | none, some op, _ => combine op ms
  | none, none, some op =>
    match ms with
    | first :: ms => do chain self op (← first) ms
    | [] => Exec.fail .exhausted
  | none, none, none => call self (symbolValue frames ρ head) ms

mutual

/-- The value of a form. -/
def value (self : Interp) (frames : List Nat) (ρ : Env) : Form → Exec Value
  | .const c => pure (.const c)
  | .symbol s => symbolValue frames ρ s
  | .keyword k => keyValue self (.keyword k)
  | .vector items _ => do Exec.newList (← inOrder (values self frames ρ items))
  | .map es _ => do
    return .dict (← entries (eagerEntries es.length) [] (valuesOfEntries self frames ρ es))
  | .list [] _ => pure .nil
  | .list (.symbol head :: args) _ => headed self frames ρ head args (values self frames ρ args)
  | .list (head :: args) _ => call self (value self frames ρ head) (values self frames ρ args)

/-- The values of forms. -/
def values (self : Interp) (frames : List Nat) (ρ : Env) : List Form → List (Exec Value)
  | [] => []
  | form :: forms => value self frames ρ form :: values self frames ρ forms

/-- The values of keys and values. -/
def valuesOfEntries (self : Interp) (frames : List Nat) (ρ : Env) :
    List (Form × Form) → List (Exec Value × Exec Value)
  | [] => []
  | (key, value') :: es =>
    (value self frames ρ key, value self frames ρ value') :: valuesOfEntries self frames ρ es

end

/-! ### Patterns -/

/-- What the binders of a sequence pattern take from a sequence: the items by position, and the
binder of the rest what follows them. -/
def sequenceTakes (self : Interp) (p : SequencePattern) (s : Value) : List (Form × Exec Value) :=
  p.items.zipIdx.map (fun (item, i) =>
    (item, self.call (.native (.library .nth)) [s, .ofInt i]))
  ++ (p.rest.map fun r =>
    (Form.symbol r, self.call (.native (.library .subseq)) [s, .ofInt p.items.length])).toList

/-- A computation in a call of its own: a frame without variables is added to the others. -/
def inCall {α : Type} (title : String) (m : Nat → Exec α) : Exec α := do
  let ref ← modifyGet fun w => (w.frames.size, { w with frames := w.frames.push ⟨title, []⟩ })
  m ref

/-- The value of a key in a table, or that of the default where the key is missing. A default gets a
mark like any function, and is evaluated in a call of its own and only when it is needed. -/
def lookup (self inner : Interp) (frames : List Nat) (ρ : Env) (table key : Value) :
    Option Form → Exec Value
  | none => self.call (.native (.library .lookup)) [table, key]
  | some default => do
    let title ← Interp.titleIn frames "<lambda>"
    let _ ← Exec.newId
    match ← Interp.find? table key with
    | some v => return v
    | none => inCall title fun ref => value inner (ref :: frames) ρ default

/-- What the binders of a table pattern take from a table. The names in the defaults stand for what
they did before any binder of the table was bound. -/
def tableTakes (self inner : Interp) (frames : List Nat) (ρ : Env) (p : TablePattern)
    (table : Value) : List (Form × Exec Value) :=
  p.entries.map fun (binder, key) =>
    (binder, do
      let k ← keyValue self key
      lookup self inner frames ρ table k (p.default? key))

/-- Bind the names of a pattern to the parts of a value, from left to right. Patterns nest at most
`depth` deep. -/
def bindTo (self inner : Interp) (frames : List Nat) : Nat → Form → Value → Env → Exec Env
  | 0, _, _, _ => Exec.fail .exhausted
  | depth + 1, form, v, ρ =>
    match Pattern.ofForm form with
    | .error _ => Exec.fail .exhausted
    | .ok (.name s) => pure (ρ.bind (Name.spell s.name) v)
    | .ok (.sequence p) => do
      let s ← self.call (.native (.library .seq)) [v]
      (sequenceTakes self p s).foldlM
        (fun ρ part => do bindTo self inner frames depth part.1 (← part.2) ρ)
        (ρ.bindAlias p.whole s)
    | .ok (.table p) =>
      (tableTakes self inner frames (ρ.bindAlias p.whole v) p v).foldlM
        (fun ρ part => do bindTo self inner frames depth part.1 (← part.2) ρ)
        (ρ.bindAlias p.whole v)

/-- Bind a pattern; no pattern nests deeper than its size. -/
def bindPattern (self inner : Interp) (frames : List Nat) (form : Form) (v : Value) (ρ : Env) :
    Exec Env :=
  bindTo self inner frames form.size form v ρ

/-- Binders and their initial values in turn; each sees the names bound before it. -/
def bindPairs (self inner : Interp) (frames : List Nat) : List Form → Env → Exec Env
  | pattern :: init :: rest, ρ => do
    let v ← value self frames ρ init
    let ρ ← bindPattern self inner frames pattern v ρ
    bindPairs self inner frames rest ρ
  | _, ρ => pure ρ

/-! ### Statements -/

mutual

/-- Evaluate a form and drop its value. -/
def run (self inner : Interp) (frames : List Nat) : Form → Env → Exec Unit
  | .list (.symbol head :: args) span, ρ =>
    match Special.ofName? head.name with
    | some .ifForm =>
      match args with
      | [test, yes] => choose (value self frames ρ test) (run self inner frames yes ρ) (pure ())
      | [test, yes, no] =>
        choose (value self frames ρ test) (run self inner frames yes ρ)
          (run self inner frames no ρ)
      | _ => Exec.fail .exhausted
    | some .doForm => runAll self inner frames args ρ
    | some .letForm =>
      match args with
      | .vector items _ :: body => do
        let ρ ← bindPairs self inner frames items ρ
        runAll self inner frames body ρ
      | _ => Exec.fail .exhausted
    | _ => do
      let _ ← value self frames ρ (.list (.symbol head :: args) span)
  | form, ρ => do
    let _ ← value self frames ρ form

/-- Evaluate forms one after the other and drop their values. -/
def runAll (self inner : Interp) (frames : List Nat) : List Form → Env → Exec Unit
  | [], _ => pure ()
  | form :: forms, ρ => do
    run self inner frames form ρ
    runAll self inner frames forms ρ

end

/-! ### Tails -/

/-- How one pass through the body of a loop ends. -/
inductive Outcome where
  /-- The loop ends with a value. -/
  | exit (v : Value)
  /-- A self-call starts the body again with new meanings of its names. -/
  | again (ρ : Env)

/-- Does a value equal one of the keys? They are tried in order. -/
def equalsOne (self : Interp) (v : Value) : List Key → Exec Bool
  | [] => pure false
  | key :: keys => do
    let k ← keyValue self key
    if ← Exec.equal v k then return true else equalsOne self v keys

section Tail

variable (self inner : Interp) (frames : List Nat) (enter : List Value → Exec Env)

mutual

/-- Evaluate a form in tail position; `enter` says what a self-call does with its arguments. -/
def tail : Form → Env → Exec Outcome
  | .list (.symbol head :: args) span, ρ =>
    if head.name = "recur" then do
      let vs ← inOrder (values self frames ρ args)
      return .again (← enter vs)
    else
      match Special.ofName? head.name with
      | some .ifForm =>
        match args with
        | [test, yes] =>
          choose (value self frames ρ test) (tail yes ρ) (return .exit .nil)
        | [test, yes, no] => choose (value self frames ρ test) (tail yes ρ) (tail no ρ)
        | _ => Exec.fail .exhausted
      | some .condForm => tailCond args ρ
      | some .caseForm =>
        match args with
        | selector :: clauses => do
          let v ← value self frames ρ selector
          tailCase v clauses ρ
        | [] => Exec.fail .exhausted
      | some .letForm =>
        match args with
        | .vector items _ :: body => do
          let ρ ← bindPairs self inner frames items ρ
          tailBody body ρ
        | _ => Exec.fail .exhausted
      | some .doForm => tailBody args ρ
      | some .andForm => tailLogical .and args ρ
      | some .orForm => tailLogical .or args ρ
      | _ => do return .exit (← value self frames ρ (.list (.symbol head :: args) span))
  | form, ρ => do return .exit (← value self frames ρ form)

/-- Evaluate a body; its last form is in tail position. -/
def tailBody : List Form → Env → Exec Outcome
  | [], _ => return .exit .nil
  | [form], ρ => tail form ρ
  | form :: next :: forms, ρ => do
    run self inner frames form ρ
    tailBody (next :: forms) ρ

/-- Evaluate the clauses of a `cond` in tail position. -/
def tailCond : List Form → Env → Exec Outcome
  | test :: result :: forms, ρ =>
    if Lowering.isElse test then tail result ρ
    else choose (value self frames ρ test) (tail result ρ) (tailCond forms ρ)
  | _, _ => return .exit .nil

/-- Evaluate the clauses of a `case` in tail position, given the value of the selector. -/
def tailCase (v : Value) : List Form → Env → Exec Outcome
  | key :: result :: forms, ρ => do
    if ← equalsOne self v ((Lowering.caseKeys? key).getD []) then tail result ρ
    else tailCase v forms ρ
  | [default], ρ => tail default ρ
  | [], _ => return .exit .nil

/-- Evaluate the operands of `and` or `or`; the last one is in tail position. -/
def tailLogical (op : LogicalOp) : List Form → Env → Exec Outcome
  | [], _ => return .exit (neutral op)
  | [operand], ρ => tail operand ρ
  | operand :: next :: operands, ρ => do
    let v ← value self frames ρ operand
    if ← settles op v then return .exit v else tailLogical op (next :: operands) ρ

end

end Tail

/-! ### Loops -/

/-- Pass through a body until it ends with a value, at most `left` times. -/
def passes (self inner : Interp) (frames : List Nat) (enter : List Value → Exec Env)
    (body : List Form) : Nat → Env → Exec Value
  | 0, _ => Exec.fail .exhausted
  | left + 1, ρ => do
    match ← tailBody self inner frames enter body ρ with
    | .exit v => return v
    | .again ρ => passes self inner frames enter body left ρ

/-- Bind one binder of a loop. -/
def bindLoopVar (self inner : Interp) (frames : List Nat) (binder : Form) (v : Value) (ρ : Env) :
    Exec Env :=
  match binder with
  | .symbol s => pure (ρ.bind (Name.spell s.name) v)
  | form => bindPattern self inner frames form v ρ

/-- Bind the binders of a loop to their initial values; each sees the names bound before it. -/
def startLoop (self inner : Interp) (frames : List Nat) : List Form → Env → Exec Env
  | binder :: init :: rest, ρ => do
    let v ← value self frames ρ init
    let ρ ← bindLoopVar self inner frames binder v ρ
    startLoop self inner frames rest ρ
  | _, ρ => pure ρ

/-- Bind the binders of a loop to the arguments of a self-call, from left to right. -/
def enterLoop (self inner : Interp) (frames : List Nat) : List Form → List Value → Env → Exec Env
  | binder :: _ :: rest, v :: vs, ρ => do
    let ρ ← bindLoopVar self inner frames binder v ρ
    enterLoop self inner frames rest vs ρ
  | _, _, ρ => pure ρ

/-- The value of a loop with a binding vector of the given items, which may go round `limit`
times. -/
def loop (self inner : Interp) (frames : List Nat) (limit : Nat) (items body : List Form)
    (ρ : Env) : Exec Value := do
  let start ← startLoop self inner frames items ρ
  passes self inner frames (fun vs => enterLoop self inner frames items vs ρ) body limit start

/-- Bind the parameters of a function to arguments. -/
def bindParams (ρ : Env) : List String → List Value → Env
  | x :: xs, v :: vs => bindParams (ρ.bind x v) xs vs
  | _, _ => ρ

/-- What the parameters of a function are bound to: arguments by position, and a tuple of those that
are left for the parameter that takes them. -/
def arguments (params : List String) (rest : Option String) (args : List Value) : List Value :=
  args.take params.length ++ (rest.map fun _ => .tuple (args.drop params.length)).toList

/-- The value of a call of a function that calls itself, in a call of its own. A self-call binds
every parameter to one argument. -/
def callRecursive (self inner : Interp) (outer : List Nat) (limit : Nat) (title : String)
    (params : List String) (rest : Option String) (body : List Form) (ρ : Env)
    (args : List Value) : Exec Value :=
  match Interp.argumentFault? title params 0 rest.isSome args.length with
  | some failure => Exec.fail failure
  | none => inCall title fun ref =>
    passes self inner (ref :: outer) (fun vs => pure (bindParams ρ (params ++ rest.toList) vs))
      body limit (bindParams ρ (params ++ rest.toList) (arguments params rest args))

end Reading

/-! ### The forms that have a reading -/

namespace Form

/-- Is every part of a symbol between points a name? -/
def isProper (s : Symbol) : Bool := !(Name.parts s.name).contains ""

/-- Can a list with the given head be an expression that needs no helper? `all` says whether its
arguments are such expressions, `clauses` whether the clauses up to the first one that always holds
are. -/
def isPlainHeaded (head : Symbol) (count : Nat) (all clauses : Bool) : Bool :=
  match Special.ofName? head.name, BinaryOp.ofName? head.name, CompareOp.ofName? head.name with
  | some .ifForm, _, _ => (count == 2 || count == 3) && all
  | some .condForm, _, _ => count % 2 == 0 && clauses
  | some .doForm, _, _ => count ≤ 1 && all
  | some .andForm, _, _ => all
  | some .orForm, _, _ => all
  | some .notForm, _, _ => count == 1 && all
  | some .quoteForm, _, _ => count == 1
  | some _, _, _ => false
  | none, some _, _ => 1 ≤ count && all
  | none, none, some _ => 2 ≤ count && all
  | none, none, none => isProper head && all

mutual

/-- Is the form an expression that needs no helper function? -/
def isPlain : Form → Bool
  | .const _ => true
  | .symbol s => isProper s
  | .keyword _ => true
  | .vector items _ => arePlain items
  | .map entries _ => arePlainEntries entries
  | .list [] _ => true
  | .list (.symbol head :: args) _ =>
    isPlainHeaded head args.length (arePlain args) (arePlainClauses args)
  | .list (head :: args) _ => isPlain head && arePlain args

/-- Are the forms expressions that need no helper function? -/
def arePlain : List Form → Bool
  | [] => true
  | form :: forms => isPlain form && arePlain forms

/-- Are keys and values expressions that need no helper function? -/
def arePlainEntries : List (Form × Form) → Bool
  | [] => true
  | (key, value) :: entries => isPlain key && isPlain value && arePlainEntries entries

/-- Are the tests and results up to a test that always holds expressions that need no helper
function? -/
def arePlainClauses : List Form → Bool
  | test :: result :: forms =>
    if Lowering.isElse test then isPlain result
    else isPlain test && isPlain result && arePlainClauses forms
  | _ => true

end

/-- Do all levels of a pattern parse, and are all defaults admitted? Patterns nest at most `depth`
deep. -/
def binds (admits : Form → Bool) : Nat → Form → Bool
  | 0, _ => false
  | depth + 1, form =>
    match Pattern.ofForm form with
    | .error _ => false
    | .ok (.name _) => true
    | .ok (.sequence p) => (p.items ++ (p.rest.map Form.symbol).toList).all (binds admits depth)
    | .ok (.table p) =>
      p.entries.all fun entry => binds admits depth entry.1 && (p.default? entry.2).all admits

/-- Is the form a pattern all of whose levels parse and whose defaults need no helper function? -/
def isPattern (form : Form) : Bool := binds isPlain form.size form

/-- Are the forms in turn patterns and expressions that need no helper function? -/
def arePlainPairs : List Form → Bool
  | [] => true
  | [_] => false
  | pattern :: init :: rest => isPattern pattern && isPlain init && arePlainPairs rest

/-- Is the form a name, or a pattern as above that is a vector? -/
def isLoopBinder : Form → Bool
  | .symbol _ => true
  | .vector items span => isPattern (.vector items span)
  | _ => false

/-- Are the forms in turn binders of a loop and expressions that need no helper function? -/
def arePlainLoopPairs : List Form → Bool
  | [] => true
  | [_] => false
  | binder :: init :: rest => isLoopBinder binder && isPlain init && arePlainLoopPairs rest

mutual

/-- Is the form a statement all of whose expressions need no helper function? -/
def isPlainStmt : Form → Bool
  | .list (.symbol head :: args) span =>
    match Special.ofName? head.name with
    | some .ifForm =>
      match args with
      | [test, yes] => isPlain test && isPlainStmt yes
      | [test, yes, no] => isPlain test && isPlainStmt yes && isPlainStmt no
      | _ => false
    | some .doForm => arePlainStmts args
    | some .letForm =>
      match args with
      | .vector items _ :: body => arePlainPairs items && arePlainStmts body
      | _ => false
    | _ => isPlain (.list (.symbol head :: args) span)
  | form => isPlain form

/-- Are the forms statements all of whose expressions need no helper function? -/
def arePlainStmts : List Form → Bool
  | [] => true
  | form :: forms => isPlainStmt form && arePlainStmts forms

end

mutual

/-- Is the form a tail all of whose expressions need no helper function, and has each self-call
`arity` arguments? -/
def isPlainTail (arity : Nat) : Form → Bool
  | .list (.symbol head :: args) span =>
    if head.name = "recur" then args.length == arity && arePlain args
    else
      match Special.ofName? head.name with
      | some .ifForm =>
        match args with
        | [test, yes] => isPlain test && isPlainTail arity yes
        | [test, yes, no] => isPlain test && isPlainTail arity yes && isPlainTail arity no
        | _ => false
      | some .condForm => args.length % 2 == 0 && isPlainTailCond arity args
      | some .caseForm =>
        match args with
        | selector :: clauses => isPlain selector && isPlainTailCase arity clauses
        | [] => false
      | some .letForm =>
        match args with
        | .vector items _ :: body => arePlainPairs items && isPlainTailBody arity body
        | _ => false
      | some .doForm => isPlainTailBody arity args
      | some .andForm => isPlainTailLogical arity args
      | some .orForm => isPlainTailLogical arity args
      | _ => isPlain (.list (.symbol head :: args) span)
  | form => isPlain form

/-- Is the last form a tail as above, and are the others statements as above? -/
def isPlainTailBody (arity : Nat) : List Form → Bool
  | [] => true
  | [form] => isPlainTail arity form
  | form :: next :: forms => isPlainStmt form && isPlainTailBody arity (next :: forms)

/-- Are the results up to a test that always holds tails as above, and the tests expressions? -/
def isPlainTailCond (arity : Nat) : List Form → Bool
  | test :: result :: forms =>
    if Lowering.isElse test then isPlainTail arity result
    else isPlain test && isPlainTail arity result && isPlainTailCond arity forms
  | _ => true

/-- Are the results and the default tails as above, and the keys constants? -/
def isPlainTailCase (arity : Nat) : List Form → Bool
  | key :: result :: forms =>
    (Lowering.caseKeys? key).isSome && isPlainTail arity result && isPlainTailCase arity forms
  | [default] => isPlainTail arity default
  | [] => true

/-- Is the last operand a tail as above, and are the others expressions? -/
def isPlainTailLogical (arity : Nat) : List Form → Bool
  | [] => true
  | [operand] => isPlainTail arity operand
  | operand :: next :: operands => isPlain operand && isPlainTailLogical arity (next :: operands)

end

end Form

end TailLisp
