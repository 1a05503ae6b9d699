import TailLisp.Run.Builtin
import TailLisp.Run.Folding

/-!
# TailLisp.Run.Machine

**Running target code.** A name that is assigned anywhere in a function is local to it; any other
name is looked up in the enclosing functions, then among the global names, then among the
built-in ones. Functions share the variables of the functions around them.

Expressions and statements are run by recursion on their structure, given an `Interp` for the
calls in them; `Interp.upTo` bounds how deeply calls may nest.
-/

namespace TailLisp.Interp

/-! ### Names -/

/-- The value of a name in the frames, if it is a variable of one. -/
def frameValue? (w : World) (name : String) : List Nat → Option (Option Value)
  | [] => none
  | ref :: refs =>
    match (w.varsOf ref).lookup name with
    | some value => some value
    | none => frameValue? w name refs

/-- Is a name a variable of the innermost frame? -/
def isLocal (w : World) (name : String) : List Nat → Bool
  | [] => false
  | ref :: _ => ((w.varsOf ref).lookup name).isSome

/-- The value of a name. -/
def valueOf (frames : List Nat) (name : String) : Exec Value := do
  if name = "__debug__" then return .ofBool true
  let w ← get
  match frameValue? w name frames with
  | some (some v) => return v
  | some none =>
    if isLocal w name frames then Exec.fail (.unassignedLocal name)
    else Exec.fail (.unassignedOuter name)
  | none =>
    match w.globals.lookup name with
    | some v => return v
    | none =>
      match Native.builtins.lookup name with
      | some fn => return .native fn
      | none => Exec.fail (.undefined name)

/-- Assign a name in the innermost frame, or globally outside of functions. -/
def assignName (frames : List Nat) (name : String) (value : Value) : Exec Unit :=
  match frames with
  | [] => modify fun w => { w with globals := assign name value w.globals }
  | ref :: _ =>
    modify fun w => { w with frames := w.frames.modify ref fun frame =>
      { frame with vars := assign name (some value) frame.vars } }

/-- The title of a function that is defined in the innermost frame. -/
def titleIn (frames : List Nat) (name : String) : Exec String := do
  match frames with
  | [] => return name
  | ref :: _ => return ((← get).frames.getD ref default).title ++ ".<locals>." ++ name

/-! ### Expressions -/

/-- How many entries of a dictionary are added one by one. Entries come in rows of 17; those of a
row that is left over with less than 16 are added together. -/
def eagerEntries (n : Nat) : Nat := if n % 17 = 16 then n else n - n % 17

mutual

/-- The value of an expression. -/
def eval (self : Interp) (frames : List Nat) : Expr → Exec Value
  | .const c _ => pure (.const c)
  | .name id _ => valueOf frames id
  | .field value member _ => do fieldOf (← eval self frames value) member
  | .call callee args _ => do
    let fn ← eval self frames callee
    let args ← evalAll self frames args
    self.call fn args
  | .list items _ => do Exec.newList (← evalAll self frames items)
  | .dict entries _ => do
    return .dict (← evalEntries self frames (eagerEntries entries.length) [] entries)
  | .binary op left right _ => do
    let a ← eval self frames left
    let b ← eval self frames right
    binary op a b
  | .unary op operand _ => do unary op (← eval self frames operand)
  | .logical op operands _ => evalLogical self frames op operands
  | .compare op first others _ => do
    evalCompare self frames op (← eval self frames first) others
  | .conditional test yes no _ => do
    if ← Exec.truth (← eval self frames test) then eval self frames yes
    else eval self frames no
  | .thunk body _ => do
    return .function
      { name := "<lambda>", title := ← titleIn frames "<lambda>", params := [], rest := none
        locals := [], body := [.ret body none], frames, id := ← Exec.newId }

/-- The values of expressions, from left to right. -/
def evalAll (self : Interp) (frames : List Nat) : List Expr → Exec (List Value)
  | [] => pure []
  | e :: es => do
    let v ← eval self frames e
    let vs ← evalAll self frames es
    return v :: vs

/-- The values of keys and values, each key before its value. -/
def evalPairs (self : Interp) (frames : List Nat) :
    List (Expr × Expr) → Exec (List (Value × Value))
  | [] => pure []
  | (key, value) :: es => do
    let k ← eval self frames key
    let v ← eval self frames value
    let rest ← evalPairs self frames es
    return (k, v) :: rest

/-- Add entries to a dictionary: the first `eager` ones as soon as they have a value, the others
when all have theirs. -/
def evalEntries (self : Interp) (frames : List Nat) (eager : Nat)
    (entries : List (Value × Value)) : List (Expr × Expr) → Exec (List (Value × Value))
  | [] => pure entries
  | (key, value) :: es => do
    let k ← eval self frames key
    let v ← eval self frames value
    match eager with
    | 0 => ((k, v) :: (← evalPairs self frames es)).foldlM putEntry entries
    | eager + 1 => evalEntries self frames eager (← putEntry entries (k, v)) es

/-- The first operand that settles a logical operator, or the last. -/
def evalLogical (self : Interp) (frames : List Nat) (op : LogicalOp) : List Expr → Exec Value
  | [] => pure .nil
  | [e] => eval self frames e
  | e :: next :: es => do
    let v ← eval self frames e
    if (← Exec.truth v) == (op == .or) then return v
    else evalLogical self frames op (next :: es)

/-- A chain of comparisons, as long as they hold. -/
def evalCompare (self : Interp) (frames : List Nat) (op : CompareOp) (left : Value) :
    List Expr → Exec Value
  | [] => pure (.ofBool true)
  | e :: es => do
    let right ← eval self frames e
    if ← compare self op left right then evalCompare self frames op right es
    else return .ofBool false

end

/-! ### Statements -/

/-- How a block ends. -/
inductive Signal where
  | done
  /-- The next round of the innermost loop begins. -/
  | next
  | returned (value : Value)

/-- Go round a loop while its test holds, at most `left` times. -/
def rounds (test : Exec Bool) (body : Exec Signal) : Nat → Exec Signal
  | 0 => do
    if ← test then Exec.fail .exhausted else return .done
  | left + 1 => do
    if ← test then
      match ← body with
      | .returned v => return .returned v
      | _ => rounds test body left
    else return .done

/-- The function that a definition makes. -/
def newFunction (frames : List Nat) (name : String) (params : List String)
    (rest : Option String) (body : List Stmt) : Exec Value := do
  let locals := params ++ rest.toList ++ Stmt.assignedOfAll body
  return .function
    { name, title := ← titleIn frames name, params, rest, locals, body, frames
      id := ← Exec.newId }

mutual

/-- Run a statement. -/
def exec (self : Interp) (frames : List Nat) : Stmt → Exec Signal
  | .assign target value _ => do
    let v ← eval self frames value
    assignName frames target v
    return .done
  | .eval value _ => do
    let _ ← eval self frames value
    return .done
  | .ret value _ => do return .returned (← eval self frames value)
  | .branch test yes no _ => do
    if ← Exec.truth (← eval self frames test) then execAll self frames yes
    else execAll self frames no
  | .loop test body _ =>
    rounds (do Exec.truth (← eval self frames test)) (execAll self frames body) self.loopLimit
  | .define name params rest body _ => do
    assignName frames name (← newFunction frames name params rest body)
    return .done
  | .skip _ => return .done
  | .next _ => return .next

/-- Run statements in order, up to one that leaves the block. -/
def execAll (self : Interp) (frames : List Nat) : List Stmt → Exec Signal
  | [] => pure .done
  | s :: ss => do
    match ← exec self frames s with
    | .done => execAll self frames ss
    | signal => return signal

end

/-! ### Calls -/

/-- The variables of a call: all local names, the parameters with their arguments. -/
def frameOf (fn : Function) (args : List Value) : Frame :=
  let vars := fn.locals.map (·, none)
  let vars := (fn.params.zip args).foldl (fun vars (name, v) => assign name (some v) vars) vars
  let vars := match fn.rest with
    | some name => assign name (some (.tuple (args.drop fn.params.length))) vars
    | none => vars
  ⟨fn.title, vars⟩

/-- Call a function of the program. -/
def callFunction (self : Interp) (fn : Function) (args : List Value) : Exec Value := do
  match argumentFault? fn.title fn.params 0 fn.rest.isSome args.length with
  | some failure => Exec.fail failure
  | none =>
    let ref ← modifyGet fun w =>
      (w.frames.size, { w with frames := w.frames.push (frameOf fn args) })
    match ← execAll self (ref :: fn.frames) fn.body with
    | .returned v => return v
    | _ => return .nil

/-- Call a value, given how to run code. -/
def callStep (self : Interp) (fn : Value) (args : List Value) : Exec Value := do
  match fn with
  | .function fn => callFunction self fn args
  | .native fn => callNative self fn args
  | .bound method => callBound method args
  | .keyword .. => callKeyword fn args
  | fn => Exec.fail (.notCallable (← Exec.typeName fn))

/-- Calls may nest at most `n` deep. -/
def upTo : Nat → Interp
  | 0 => ⟨fun _ _ => Exec.fail .exhausted, fun _ => Exec.fail .exhausted, roundLimit⟩
  | n + 1 =>
    let inner := upTo n
    ⟨callStep inner, nextStep inner, roundLimit⟩

/-- How deeply calls may nest in a run. -/
def depthLimit : Nat := 3000

/-- The interpreter of programs. -/
def program : Interp := upTo depthLimit

/-! ### Programs -/

/-- Fold a program and run it at the outermost level. A string that begins it is its
documentation. -/
def run (statements : List Stmt) : Exec Unit := do
  match statements with
  | .eval (.const (.str doc) _) _ :: _ => assignName [] "__doc__" (.ofString doc)
  | _ => pure ()
  let _ ← execAll program [] (← foldStmts statements)

end TailLisp.Interp
