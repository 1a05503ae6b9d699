import TailLisp.Proofs.HelperOrder

/-!
# TailLisp.Proofs.ContextBalance

**What is open and what waits after a form is lowered.** Scopes are opened and closed and helpers
are cut off at marks in a dozen places of lowering. Seen from outside, each position has one rule. A
form in a block places the helpers that it makes, and so does the definition of a function: the
context *returns* to what it was. An expression or the tail of a loop hands its helpers on to the
statement around it: the context is *extended*. Temporaries stay counted in both cases.

That the context grows is `Lowering.upTo_balanced`; what is added here is that nothing waits after a
function, whose parameters are bound outside of the part that collects helpers.
-/

namespace TailLisp

namespace Context

/-- From `c` to `c'` scopes and waiting helpers are as they were; temporaries may have been made. -/
structure Returns (c c' : Context) : Prop where
  scopes : c'.scopes = c.scopes
  helpers : c'.helpers = c.helpers
  counter : c.counter ≤ c'.counter

/-- From `c` to `c'` scopes are as they were and helpers were added behind the waiting ones;
temporaries may have been made. -/
structure Extends (c c' : Context) : Prop where
  scopes : c'.scopes = c.scopes
  helpers : c.helpers <+: c'.helpers
  counter : c.counter ≤ c'.counter

end Context

namespace Compile

variable {α : Type}

/-- A step that keeps the context in order extends it. -/
theorem Keeps.extends {m : Compile α} (hm : Keeps id m) {c c' : Context} {a : α}
    (h : m c = .ok a c') : c.Extends c' := by
  have hgrows := hm.grows h
  obtain ⟨new, hnew, -⟩ := hgrows.helpers
  exact ⟨hgrows.scopes, ⟨new, hnew.symm⟩, hgrows.counter⟩

/-- A step that leaves no helper waiting returns to the context. -/
theorem Settles.returns {m : Compile α} (hm : Settles m) (hkeeps : Keeps id m) {c c' : Context}
    {a : α} (h : m c = .ok a c') : c.Returns c' :=
  ⟨(hkeeps.grows h).scopes, hm h, (hkeeps.grows h).counter⟩

namespace Settles

theorem fresh (stem : String) : Settles (fresh stem) := by
  intro c name c' h
  cases h
  rfl

theorem bindScoped (name : String) : Settles (Compile.bind .scoped name) := by
  have hdeclare : Settles (modify (·.declare name name) : Compile Unit) := by
    intro c _ c' h
    cases h
    change (c.declare name name).helpers = c.helpers
    unfold Context.declare
    split <;> rfl
  exact .bind hdeclare fun _ => .pure name

theorem inScope {m : Compile α} (hm : Settles m) : Settles (inScope m) := by
  intro c a c' h
  obtain ⟨c₁, hrun, rfl⟩ := inScope_ok h
  -- opening and closing a scope do not touch the helpers
  have hsettled := hm hrun
  exact hsettled

end Settles

end Compile

namespace Lowering

open Compile

/-! ### Parameters -/

namespace Params

/-- A parameter may make a temporary, but no helper. -/
theorem bindParam_settles (p : Params) (form : Form) : Settles (p.bindParam form) := by
  refine .bind (.still (.lift _)) fun pattern => ?_
  cases pattern with
  | name s => exact .bind (.bindScoped _) fun _ => .pure _
  | _ => exact .bind (.fresh _) fun _ => .pure _

theorem addParam_settles (p : Params) (form : Form) : Settles (p.addParam form) :=
  .bind (bindParam_settles p form) fun ⟨_, _⟩ => .pure _

theorem addRest_settles (p : Params) (form : Form) (items : List Form) :
    Settles (p.addRest form items) := by
  cases items with
  | nil => exact .bind (bindParam_settles p form) fun ⟨_, _⟩ => .pure _
  | cons next items => exact .still (.fail _)

/-- Parameters make no helpers, by recursion on the items. -/
theorem addAll_settles (p : Params) (items : List Form) : Settles (p.addAll items) := by
  fun_induction addAll p items with
  | case1 => exact .pure _
  | case2 => exact .still (.fail _)
  | case3 p => exact addRest_settles p _ _
  | case4 p => exact addRest_settles p _ _
  | case5 p s items _ ih => exact .bind (addParam_settles p _) ih
  | case6 p item items _ ih => exact .bind (addParam_settles p _) ih

theorem ofForm_settles (form : Form) : Settles (ofForm form) := by
  cases form with
  | vector items span => exact addAll_settles {} items
  | _ => exact .still (.fail _)

end Params

/-! ### Functions, and all positions -/

/-- A function takes all the helpers of its body into its definition. -/
theorem function_settles {self : Lowering} (h : self.Balanced) (name : String) (params : Form)
    (body : List Form) (span : Option Span) (doc : Option String) :
    Settles (function self name params body span doc) :=
  .bind (.inScope (.bind (.bindScoped name) fun _ =>
    .bind (Params.ofForm_settles params) fun params =>
    .bind (.still (analyze_still body)) fun _ =>
      .bind (.collect (functionBody_keeps h params body span _)) fun ⟨_, _⟩ => .pure _))
    fun ⟨_, _⟩ => .pure _

/-- **Lowering leaves the context balanced**, whatever scopes are open, helpers wait and temporaries
were made before. -/
theorem lowering_balances (n : Nat) (c c' : Context) :
    (∀ form stmts, (upTo n).stmt form c = .ok stmts c' → c.Returns c') ∧
    (∀ form e, (upTo n).expr form c = .ok e c' → c.Extends c') ∧
    (∀ target form stmts, (upTo n).tail target form c = .ok stmts c' → c.Extends c') ∧
    (∀ target body stmts, loopBody (upTo n) target body c = .ok stmts c' → c.Extends c') ∧
    ∀ name params body span doc s, function (upTo n) name params body span doc c = .ok s c' →
      c.Returns c' := by
  have hbalanced := upTo_balanced n
  refine ⟨fun form _ h => ?_, fun form _ h => ?_, fun target form _ h => ?_,
    fun target body _ h => ?_, fun name params body span doc _ h => ?_⟩
  · exact (stmt_settles n form).returns (hbalanced.stmt form) h
  · exact (hbalanced.expr form).extends h
  · exact (hbalanced.tail target form).extends h
  · exact (loopBody_keeps hbalanced target body).extends h
  · exact (function_settles hbalanced name params body span doc).returns
      (function_keeps hbalanced name params body span doc) h

/-- Lowering under way: a scope is open, a helper waits, and seven temporaries were made. -/
def openContext : Context where
  counter := 7
  scopes := [[("x", "x")]]
  helpers := [.define "__ll_fn_7" [] none [.skip none] none]

/-- `(let [y (fn [] x)] (loop [i y] (if i (recur (do i y)) i)))` -/
def nestedLet : Form :=
  .made [.named "let",
    .vector [.named "y", .made [.named "fn", .vector [] .none, .named "x"]] .none,
    .made [.named "loop", .vector [.named "i", .named "y"] .none,
      .made [.named "if", .named "i",
        .made [.named "recur", .made [.named "do", .named "i", .named "y"]], .named "i"]]]

/-- As a statement the form leaves the waiting helper alone, as an expression it adds one. -/
theorem lowering_balances_nestedLet :
    (∃ stmts c', (upTo 9).stmt nestedLet openContext = .ok stmts c' ∧ openContext.Returns c') ∧
      ∃ e c', (upTo 9).expr nestedLet openContext = .ok e c' ∧ openContext.Extends c'
        ∧ c'.helpers.length = 2 := by
  have hstmt : (match (upTo 9).stmt nestedLet openContext with
      | .ok _ _ => true | .error _ _ => false) = true := by decide +kernel
  have hexpr : (match (upTo 9).expr nestedLet openContext with
      | .ok _ c' => some c'.helpers.length | .error _ _ => none) = some 2 := by decide +kernel
  constructor
  · cases hrun : (upTo 9).stmt nestedLet openContext with
    | ok stmts c' => exact ⟨stmts, c', rfl, (lowering_balances 9 _ _).1 _ _ hrun⟩
    | error => cases hrun ▸ hstmt
  · cases hrun : (upTo 9).expr nestedLet openContext with
    | ok e c' =>
      rw [hrun] at hexpr
      exact ⟨e, c', rfl, (lowering_balances 9 _ _).2.1 _ _ hrun, Option.some.inj hexpr⟩
    | error => cases hrun ▸ hexpr

end Lowering

end TailLisp
