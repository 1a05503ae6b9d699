import TailLisp.Fault
import TailLisp.Special

/-!
# TailLisp.Tail

**Tail positions.** A self-call of a loop or function body may only stand where its value would
be the value of the whole body. `Verdict.ofBody` walks a body once, from left to right, and
collects its self-calls until it meets one outside of tail position.

The last form of a body inherits the position of the body, and so do the branches of `if`, the
results of `cond` and `case`, and the last form of `do`, `let`, `and` and `or`. Everything else
that is evaluated on the way is not in tail position. The bodies of inner functions and loops
have self-calls of their own and are not entered.
-/

namespace TailLisp

/-- A self-call found in tail position. -/
structure SelfCall where
  form : Form
  args : List Form
  deriving Repr

/-- What a walk over a body has found. -/
structure Verdict where
  /-- The self-calls in tail position, in source order. -/
  calls : List SelfCall := []
  /-- The self-call outside of tail position that ended the walk. -/
  violation : Option Fault := none
  deriving Repr

namespace Verdict

/-- One walk after another; a violation ends the walk. -/
def andThen (a b : Verdict) : Verdict :=
  match a.violation with
  | some _ => a
  | none => { calls := a.calls ++ b.calls, violation := b.violation }

/-- Does the body pass? -/
def ok (v : Verdict) : Bool := v.violation.isNone

/-- Does the body have self-calls? -/
def hasCalls (v : Verdict) : Bool := !v.calls.isEmpty

/-- The verdict on a self-call itself, its arguments left out. -/
def ofCall (isTail : Bool) (form : Form) (args : List Form) : Verdict :=
  if isTail then { calls := [⟨form, args⟩] }
  else { violation := some (.ofForm .selfCallNotTail form) }

mutual

/-- Walk a form in or outside of tail position; a self-call is a list headed by `self`. -/
def ofForm (self : String) (isTail : Bool) : Form → Verdict
  | .const _ => {}
  | .symbol _ => {}
  | .keyword _ => {}
  | .vector items _ => ofParts self items
  | .map entries _ => ofEntries self entries
  | .list [] _ => {}
  | .list (.symbol s :: args) span =>
    if s.name = self then
      (ofCall isTail (.list (.symbol s :: args) span) args).andThen (ofParts self args)
    else match Special.ofName? s.name with
      | some .doForm | some .andForm | some .orForm => ofBody self isTail args
      | some .ifForm =>
        match args with
        | [] => {}
        | test :: branches => (ofForm self false test).andThen (ofBranches self isTail branches)
      | some .condForm => ofTests self isTail args
      | some .caseForm =>
        match args with
        | [] => {}
        | selector :: clauses =>
          (ofForm self false selector).andThen (ofClauses self isTail clauses)
      | some .letForm =>
        match args with
        | [] => {}
        | bindings :: body => (ofForm self false bindings).andThen (ofBody self isTail body)
      | some .loopForm =>
        match args with
        | [] => {}
        | bindings :: _ => ofForm self false bindings
      | some .fnForm | some .defnForm | some .quoteForm => {}
      | _ => ofParts self args
  | .list (head :: args) _ => (ofForm self false head).andThen (ofParts self args)

/-- Walk forms none of which is in tail position. -/
def ofParts (self : String) : List Form → Verdict
  | [] => {}
  | form :: forms => (ofForm self false form).andThen (ofParts self forms)

/-- Walk the keys and values of a map. -/
def ofEntries (self : String) : List (Form × Form) → Verdict
  | [] => {}
  | (key, value) :: entries =>
    ((ofForm self false key).andThen (ofForm self false value)).andThen (ofEntries self entries)

/-- Walk a body: its last form inherits the position. -/
def ofBody (self : String) (isTail : Bool) : List Form → Verdict
  | [] => {}
  | [last] => ofForm self isTail last
  | form :: next :: forms =>
    (ofForm self false form).andThen (ofBody self isTail (next :: forms))

/-- Walk branches, each of which inherits the position. -/
def ofBranches (self : String) (isTail : Bool) : List Form → Verdict
  | [] => {}
  | form :: forms => (ofForm self isTail form).andThen (ofBranches self isTail forms)

/-- Walk tests and results in turn; the keyword `:else` is no test. -/
def ofTests (self : String) (isTail : Bool) : List Form → Verdict
  | [] => {}
  | [test] => if test.isKeyword "else" then {} else ofForm self false test
  | test :: result :: forms =>
    ((if test.isKeyword "else" then {} else ofForm self false test).andThen
      (ofForm self isTail result)).andThen (ofTests self isTail forms)

/-- Walk the results among keys and results in turn, and a default at the end. -/
def ofClauses (self : String) (isTail : Bool) : List Form → Verdict
  | [] => {}
  | [default] => ofForm self isTail default
  | _ :: result :: forms => (ofForm self isTail result).andThen (ofClauses self isTail forms)

end

end Verdict

end TailLisp
