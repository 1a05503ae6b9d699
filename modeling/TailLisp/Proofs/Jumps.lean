import Mathlib.Data.List.Forall2
import Mathlib.Data.List.Sort
import TailLisp.Proofs.Balance
import TailLisp.Proofs.Occurrence

/-!
# TailLisp.Proofs.Jumps

**The walk over a body and its lowering agree on the jumps.** In the lowered body of a loop, each
self-call that the walk has recorded stands as one block that ends in a `continue` of that loop,
and the blocks stand in source order. The one exception are self-calls that come after a clause of
a `cond` which always holds: that part of the `cond` is not lowered.

The proof goes along rows of forms, as the walk does: every construct in tail position emits the
jumps of the arguments that the table of the special forms puts in tail position (`Emits`), and
everything else is lowered to code without a jump of its own (`Quiet`).
-/

namespace TailLisp

/-! ### Jumps in lowered code -/

namespace Stmt

mutual

/-- The blocks of `size` statements that end in a jump of the surrounding loop, where `before`
stands before the statement. Inner loops and functions have jumps of their own. -/
def jumps (size : Nat) (before : List Stmt) : Stmt → List (List Stmt)
  | .next place => [(before ++ [Stmt.next place]).drop (before.length + 1 - size)]
  | .branch _ yes no _ => jumpsOfAll size [] yes ++ jumpsOfAll size [] no
  | _ => []

/-- The blocks of statements that end in a jump of the surrounding loop, in order. -/
def jumpsOfAll (size : Nat) (before : List Stmt) : List Stmt → List (List Stmt)
  | [] => []
  | s :: ss => jumps size before s ++ jumpsOfAll size (before ++ [s]) ss

end

theorem jumpsOfAll_append (size : Nat) (before ss ss' : List Stmt) :
    jumpsOfAll size before (ss ++ ss')
      = jumpsOfAll size before ss ++ jumpsOfAll size (before ++ ss) ss' := by
  induction ss generalizing before with
  | nil => simp [jumpsOfAll]
  | cons s ss ih => simp [jumpsOfAll, ih]

theorem jumpsOfAll_branch (size : Nat) (before : List Stmt) (test : Expr) (yes no : List Stmt)
    (place : Option Span) :
    jumpsOfAll size before [.branch test yes no place]
      = jumpsOfAll size [] yes ++ jumpsOfAll size [] no := by
  simp [jumpsOfAll, jumps]

/-- There is no jump of the surrounding loop in the statements. -/
def Quiet (ss : List Stmt) : Prop := ∀ size before, jumpsOfAll size before ss = []

theorem Quiet.nil : Quiet [] := fun _ _ => rfl

theorem Quiet.append {ss ss' : List Stmt} (h : Quiet ss) (h' : Quiet ss') : Quiet (ss ++ ss') :=
  fun size before => by rw [jumpsOfAll_append, h, h', List.append_nil]

theorem Quiet.branch {test : Expr} {yes no : List Stmt} {place : Option Span} (h : Quiet yes)
    (h' : Quiet no) : Quiet [.branch test yes no place] :=
  fun size before => by rw [jumpsOfAll_branch, h, h', List.append_nil]

theorem Quiet.of_forall {ss : List Stmt} (h : ∀ s ∈ ss, Quiet [s]) : Quiet ss := by
  induction ss with
  | nil => exact .nil
  | cons s ss ih =>
    exact (h s List.mem_cons_self).append (ih fun s' hs' => h s' (List.mem_cons_of_mem _ hs'))

theorem Quiet.flatten {blocks : List (List Stmt)} (h : ∀ ss ∈ blocks, Quiet ss) :
    Quiet blocks.flatten := by
  induction blocks with
  | nil => exact .nil
  | cons ss blocks ih =>
    exact (h ss List.mem_cons_self).append (ih fun ss' hs' => h ss' (List.mem_cons_of_mem _ hs'))

theorem quiet_assign (target : String) (value : Expr) (place : Option Span) :
    Quiet [.assign target value place] := fun _ _ => rfl

theorem quiet_loop (test : Expr) (body : List Stmt) (place : Option Span) :
    Quiet [.loop test body place] := fun _ _ => rfl

theorem quiet_of_isDefine {ss : List Stmt} (h : ∀ s ∈ ss, s.isDefine = true) : Quiet ss := by
  refine .of_forall fun s hs => ?_
  have hdef := h s hs
  cases s with
  | define => exact fun _ _ => rfl
  | _ => cases hdef

/-- A row of assignments has no jumps. -/
theorem quiet_assigns (outer : Option Span) (bs : List Binding) :
    Quiet (Binding.assigns outer bs) := by
  refine .of_forall fun s hs => ?_
  obtain ⟨b, -, rfl⟩ := List.mem_map.mp hs
  exact quiet_assign _ _ _

end Stmt

namespace Compile

variable {α β : Type}

/-- Every result of the step has the property `Q`. -/
def Yields (Q : α → Prop) (m : Compile α) : Prop := ∀ ⦃c a c'⦄, m c = .ok a c' → Q a

namespace Yields

protected theorem pure {Q : α → Prop} {a : α} (h : Q a) : Yields Q (pure a : Compile α) := by
  intro c b c' hrun
  obtain ⟨rfl, -⟩ := pure_ok hrun
  exact h

protected theorem fail {Q : α → Prop} (fault : Fault) : Yields Q (fail fault : Compile α) :=
  fun _ _ _ h => (not_fail_ok h).elim

theorem anything (m : Compile α) : Yields (fun _ => True) m := fun _ _ _ _ => trivial

protected theorem bind {P : α → Prop} {Q : β → Prop} {m : Compile α} {f : α → Compile β}
    (hm : Yields P m) (hf : ∀ a, P a → Yields Q (f a)) : Yields Q (m >>= f) := by
  intro c b c' h
  obtain ⟨a, c₁, h₁, h₂⟩ := bind_ok h
  exact hf a (hm h₁) h₂

/-- Where the result of the first step does not matter. -/
theorem after {Q : β → Prop} {m : Compile α} {f : α → Compile β}
    (hf : ∀ a, Yields Q (f a)) : Yields Q (m >>= f) :=
  .bind (.anything m) fun a _ => hf a

protected theorem mapM {Q : β → Prop} {f : α → Compile β} :
    ∀ {xs : List α}, (∀ x ∈ xs, Yields Q (f x)) → Yields (fun ys => ∀ y ∈ ys, Q y) (xs.mapM f)
  | [], _ => .pure (by simp)
  | x :: xs, h => by
    rw [List.mapM_cons]
    refine .bind (h x List.mem_cons_self) fun y hy =>
      .bind (.mapM fun x' hx' => h x' (List.mem_cons_of_mem _ hx')) fun ys hys => .pure ?_
    exact List.forall_mem_cons.mpr ⟨hy, hys⟩

theorem inScope {Q : α → Prop} {m : Compile α} (h : Yields Q m) : Yields Q (inScope m) :=
  .after fun _ => .bind h fun _ ha => .after fun _ => .pure ha

/-- The helpers that `collect` takes out are definitions of functions. -/
theorem collect {Q : α → Prop} {view : List Scope → List Scope} {m : Compile α}
    (hm : Keeps view m) (h : Yields Q m) :
    Yields (fun result => Q result.1 ∧ ∀ s ∈ result.2, s.isDefine = true) (collect m) := by
  rintro c ⟨a, helpers⟩ c' hrun
  refine ⟨?_, collect_isDefine hm hrun⟩
  obtain ⟨c₁, hm, -⟩ := collect_ok hrun
  exact h hm

end Yields

end Compile

namespace Lowering

open Compile Stmt

variable {self : Lowering}

/-! ### Statements have no jumps -/

/-- Forms whose value is dropped are lowered to code without jumps of its own. -/
def QuietStmts (self : Lowering) : Prop := ∀ form, Yields Quiet (self.stmt form)

theorem stmts_quiet (hq : self.QuietStmts) (forms : List Form) :
    Yields Quiet (stmts self forms) :=
  .bind (.mapM fun form _ => hq form) fun _ hblocks => .pure (.flatten hblocks)

/-- The bindings of a `let` are assignments and definitions. -/
theorem letBindings_quiet (hb : self.Balanced) (bindings : Form) :
    Yields Quiet (letBindings self bindings) := by
  refine .after fun pairs => .bind (.mapM fun pair _ => ?_) fun _ hblocks =>
    .pure (.flatten hblocks)
  obtain ⟨binder, init⟩ := pair
  have hkeeps : Keeps List.tail (do
      let value ← self.expr init
      expand self.expr .fresh binder value []) :=
    .bind (hb.expr init).weaken fun value =>
      expand_keeps (fun form => (hb.expr form).weaken) (.binder .fresh) binder value []
  refine .bind (.collect hkeeps (.anything _)) fun result hresult => .pure ?_
  exact (quiet_of_isDefine hresult.2).append (quiet_assigns _ _)

/-- Jumps inside of a loop are its own and do not count outside. -/
theorem whileLoop_quiet (target : LoopTarget) (body : List Form) (span : Option Span) :
    Yields (fun result => Quiet result.1) (whileLoop self target body span) :=
  .after fun _ => .after fun _ => .after fun _ => .after fun _ => .pure
    ((quiet_assigns _ _).append
      (.append (quiet_assign _ _ _) (.append (quiet_assign _ _ _) (quiet_loop _ _ _))))

theorem destructure_quiet (expr : Form → Compile Expr) (pattern : Form) (value : Expr)
    (outer : Option Span) : Yields Quiet (destructure expr pattern value outer) :=
  .after fun _ => .pure (quiet_assigns _ _)

theorem block_quiet {ss : List Stmt} (h : Quiet ss) : Quiet (block ss) := by
  unfold block
  split
  · exact fun _ _ => rfl
  · exact h

theorem ifStmt_quiet (hq : self.QuietStmts) (form : Form) (args : List Form) :
    Yields Quiet (ifStmt self form args) := by
  unfold ifStmt
  split
  · exact .after fun _ => .bind (hq _) fun _ hyes => .pure (.branch (block_quiet hyes) .nil)
  · exact .after fun _ => .bind (hq _) fun _ hyes => .bind (hq _) fun _ hno =>
      .pure (.branch (block_quiet hyes) hno)
  · exact .fail _

theorem defnStmt_quiet (form : Form) (args : List Form) :
    Yields Quiet (defnStmt self form args) := by
  have define {name : String} {params : Form} {body : List Form} {doc : Option String} :
      Yields Quiet (do return [← function self name params body form.span? doc]) :=
    .bind (P := fun s => s.isDefine = true) (fun _ _ _ h => function_isDefine h)
      fun _ hs => .pure (quiet_of_isDefine (by simpa using hs))
  unfold defnStmt
  split
  · exact define
  · exact define
  · exact .fail _

/-- Forms in a block are lowered without jumps of the loop around them. -/
theorem bareStmt_quiet (hb : self.Balanced) (hq : self.QuietStmts) (form : Form) :
    Yields Quiet (bareStmt self form) := by
  have expr : Yields Quiet (exprStmt self form) := .after fun _ => .pure fun _ _ => rfl
  unfold bareStmt
  split
  · split
    · exact ifStmt_quiet hq _ _
    · split
      · exact .pure fun _ _ => rfl
      · exact stmts_quiet hq _
    · unfold defStmt
      split
      · exact destructure_quiet _ _ _ _
      · exact .after fun _ => destructure_quiet _ _ _ _
      · exact .fail _
    · exact defnStmt_quiet _ _
    · unfold letStmt
      split
      · exact .fail _
      · exact .inScope (.bind (letBindings_quiet hb _) fun _ hhead =>
          .bind (stmts_quiet hq _) fun _ hrest => .pure (hhead.append hrest))
    · unfold loopStmt
      split
      · exact .fail _
      · exact .after fun _ => .inScope (.after fun _ =>
          .bind (whileLoop_quiet _ _ _) fun _ hloop => .pure hloop)
    · exact .fail _
    · exact expr
  · exact expr

theorem upTo_quietStmts : ∀ n : Nat, (upTo n).QuietStmts
  | 0 => fun _ => .fail _
  | n + 1 => fun form =>
    .bind (.collect (bareStmt_keeps (upTo_balanced n) form)
      (bareStmt_quiet (upTo_balanced n) (upTo_quietStmts n) form))
      fun _ ⟨hss, hhelpers⟩ => .pure ((quiet_of_isDefine hhelpers).append hss)

end Lowering

/-! ### Self-calls that are lowered -/

/-- Is there a test that always holds among the clauses of a `cond` before that of item `i`? -/
def elseBefore : List Form → Nat → Bool
  | test :: _ :: rest, i + 2 => Lowering.isElse test || elseBefore rest i
  | _, _ => false

/-- Does the way lead into a clause of a `cond` after one that always holds? -/
def Form.afterElse : List Nat → Form → Bool
  | (i + 1) :: path, .list (.symbol s :: args) _ =>
    Special.ofName? s.name = some .condForm && elseBefore args i
      || args[i]?.any (afterElse path)
  | _, _ => false

/-- The self-call occurs in the form, and not after a clause that always holds. -/
def Live (self : String) (isTail : Bool) (form : Form) (o : Occurrence) : Prop :=
  Occurs self isTail form o ∧ form.afterElse o.path = false

/-- All self-calls with the property `P` are in tail position. -/
def AllTail (P : Occurrence → Prop) : Prop := ∀ o, P o → o.isTail = true

section Rows

variable {self : String} {visit : Nat → Option Bool} {d k : Nat} {form : Form}
  {forms : List Form} {t : Bool} {P : Bool → Form → Occurrence → Prop}

theorem Special.position_false {sp : Special} {n i : Nat} {t : Bool}
    (h : sp.position false n i = some t) : t = false := by
  cases sp with
  | caseForm | loopForm => grind [position]
  | fnForm | defnForm | quoteForm => cases h
  | _ => simpa [position] using h.symm

/-- Nothing inside of a form outside of tail position is in tail position. -/
theorem Occurs.nonTail {o : Occurrence} (h : Occurs self t form o) (ht : t = false) :
    o.isTail = false := by
  induction h with
  | call => exact ht
  | special _ _ _ hpos _ ih =>
    subst ht
    exact ih (Special.position_false hpos)
  | argument _ _ _ ih | operand _ _ _ _ ih | application _ _ _ ih | item _ _ ih | key _ _ ih
  | value _ _ ih => exact ih rfl

theorem AllTail.not_occurs (h : AllTail (Occurs self false form)) (o : Occurrence) :
    ¬ Occurs self false form o := by
  intro ho
  have htail := h o ho
  rw [ho.nonTail rfl] at htail
  cases htail

theorem AllTail.head (h : AllTail (InRow (Occurs self) visit d k (form :: forms)))
    (ht : visit k = some t) : AllTail (Occurs self t form) :=
  fun o ho => h (o.under d) (inRow_cons.mpr (Or.inl ⟨o, ⟨t, ht, ho⟩, rfl⟩))

theorem AllTail.tail (h : AllTail (InRow (Occurs self) visit d k (form :: forms))) :
    AllTail (InRow (Occurs self) visit (d + 1) (k + 1) forms) :=
  fun o ho => h o (inRow_cons.mpr (Or.inr ho))

/-- A form in which nothing lies can be left out of the row. -/
theorem inRow_skip (h : ∀ t o, visit k = some t → ¬ P t form o) (o : Occurrence) :
    InRow P visit (d + 1) (k + 1) forms o ↔ InRow P visit d k (form :: forms) o := by
  rw [inRow_cons]
  constructor
  · exact Or.inr
  · rintro (⟨o', ⟨t, ht, ho⟩, -⟩ | ho)
    · exact absurd ho (h t o' ht)
    · exact ho

theorem inRow_visit (ht : visit k = some t) (o : Occurrence) :
    ((∃ o', P t form o' ∧ o = o'.under d) ∨ InRow P visit (d + 1) (k + 1) forms o)
      ↔ InRow P visit d k (form :: forms) o := by
  rw [inRow_cons, ht]
  simp

theorem inRow_last (ht : visit k = some t) (o : Occurrence) :
    (∃ o', P t form o' ∧ o = o'.under d) ↔ InRow P visit d k [form] o := by
  rw [← inRow_visit ht, or_iff_left (not_inRow_nil o)]

end Rows

/-! ### Code that emits the jumps of self-calls -/

/-- How many statements a jump is lowered to. -/
def LoopTarget.jumpSize (target : LoopTarget) : Nat :=
  2 * target.vars.length + target.rebind.length + 1

/-- The block is what the self-call is lowered to in some context. -/
def IsJumpOf (target : LoopTarget) (o : Occurrence) (block : List Stmt) : Prop :=
  ∃ n c c', Lowering.jump (.upTo n) target o.call.form o.call.args c = .ok block c'

/-- The jumps in the code are those of the self-calls with the property `P`, in source order. -/
def Emits (target : LoopTarget) (P : Occurrence → Prop) (ss : List Stmt) : Prop :=
  ∀ before, ∃ os, Enumerates os P
    ∧ List.Forall₂ (IsJumpOf target) os (Stmt.jumpsOfAll target.jumpSize before ss)

namespace Emits

variable {target : LoopTarget} {P Q : Occurrence → Prop} {ss ss' : List Stmt}

theorem congr (h : Emits target P ss) (hPQ : ∀ o, P o ↔ Q o) : Emits target Q ss := by
  intro before
  obtain ⟨os, hos, hjumps⟩ := h before
  exact ⟨os, hos.congr hPQ, hjumps⟩

theorem of_quiet (h : Stmt.Quiet ss) (hP : ∀ o, ¬ P o) : Emits target P ss := by
  intro before
  refine ⟨[], .nil hP, ?_⟩
  rw [h]
  exact .nil

theorem under (h : Emits target P ss) (i : Nat) :
    Emits target (fun o => ∃ o', P o' ∧ o = o'.under i) ss := by
  intro before
  obtain ⟨os, hos, hjumps⟩ := h before
  refine ⟨os.map (Occurrence.under i), hos.under i, ?_⟩
  rw [List.forall₂_map_left_iff]
  exact hjumps

theorem quiet_append (hquiet : Stmt.Quiet ss) (h : Emits target P ss') :
    Emits target P (ss ++ ss') := by
  intro before
  rw [Stmt.jumpsOfAll_append, hquiet, List.nil_append]
  exact h _

/-- Both branches, the first one before the second in the source. -/
theorem branch {test : Expr} {place : Option Span} (h : Emits target P ss)
    (h' : Emits target Q ss') (hlt : ∀ a b, P a → Q b → a.path < b.path) :
    Emits target (fun o => P o ∨ Q o) [.branch test ss ss' place] := by
  intro before
  obtain ⟨os, hos, hjumps⟩ := h []
  obtain ⟨os', hos', hjumps'⟩ := h' []
  refine ⟨os ++ os', hos.append hos' hlt, ?_⟩
  rw [Stmt.jumpsOfAll_branch]
  exact List.rel_append hjumps hjumps'

variable {R : Bool → Form → Occurrence → Prop} {visit : Nat → Option Bool} {d k : Nat}
  {form : Form} {forms : List Form} {t : Bool}

/-- The first form of a row and the others in the two branches of a test. -/
theorem branch_row {test : Expr} {place : Option Span} (ht : visit k = some t)
    (h : Emits target (R t form) ss) (h' : Emits target (InRow R visit (d + 1) (k + 1) forms) ss') :
    Emits target (InRow R visit d k (form :: forms)) [.branch test ss ss' place] := by
  refine ((h.under d).branch h' ?_).congr (inRow_visit ht)
  rintro a b ⟨o, -, rfl⟩ hb
  exact hb.lt_of_under o

/-- A form without live self-calls adds nothing to the row. -/
theorem skip (hform : ∀ t o, visit k = some t → ¬ R t form o)
    (h : Emits target (InRow R visit (d + 1) (k + 1) forms) ss) :
    Emits target (InRow R visit d k (form :: forms)) ss :=
  h.congr (inRow_skip hform)

theorem last (ht : visit k = some t) (h : Emits target (R t form) ss) :
    Emits target (InRow R visit d k [form]) ss :=
  (h.under d).congr (inRow_last ht)

end Emits

namespace Lowering

open Compile Stmt

variable {self : Lowering} {target : LoopTarget}

theorem exitWith_quiet (target : LoopTarget) (value : Expr) (span : Option Span) :
    Yields Quiet (exitWith target value span) := by
  unfold exitWith
  split
  · exact .pure (.append (quiet_assign _ _ _) (quiet_assign _ _ _))
  · exact .fail _

/-- A jump is one block of its own. -/
theorem jump_block (target : LoopTarget) (form : Form) (args : List Form) :
    Yields (fun ss => ss.length = target.jumpSize ∧ ∃ init place, ss = init ++ [.next place]
      ∧ Quiet init) (jump self target form args) := by
  unfold jump
  split
  · rename_i hlength
    have htemps : Yields (fun temps => temps.length = args.length
        ∧ ∀ temp ∈ temps, Quiet [temp.2]) (args.mapM (jumpArgument self form.place?)) := by
      clear hlength
      induction args with
      | nil => exact .pure (by simp)
      | cons arg args ih =>
        rw [List.mapM_cons]
        refine .bind (P := fun temp => Quiet [temp.2])
          (.after fun _ => .after fun _ => .pure (quiet_assign _ _ _)) fun temp htemp => ?_
        refine .bind ih fun temps htemps => .pure ⟨by simp [htemps.1], ?_⟩
        exact List.forall_mem_cons.mpr ⟨htemp, htemps.2⟩
    refine .bind htemps fun temps ⟨hlen, hquiet⟩ => .pure ⟨?_, _, _, rfl, ?_⟩
    · simp [LoopTarget.jumpSize, Binding.assigns, hlen, hlength]
      omega
    · refine .append (.append ?_ ?_) (quiet_assigns _ _)
      · exact .of_forall (List.forall_mem_map.mpr hquiet)
      · refine .of_forall fun s hs => ?_
        obtain ⟨⟨var, temp⟩, -, rfl⟩ := List.mem_map.mp hs
        exact quiet_assign _ _ _
  · exact .fail _

/-- The lowering of a form in tail position emits the jumps of its self-calls. -/
def EmitsCalls (self : Lowering) : Prop :=
  ∀ (target : LoopTarget) (form : Form), AllTail (Occurs target.selfCall true form) →
    Yields (Emits target (Live target.selfCall true form)) (self.tail target form)

theorem not_live_of_allTail {selfCall : String} {form : Form}
    (h : AllTail (Occurs selfCall false form)) (o : Occurrence) : ¬ Live selfCall false form o :=
  fun ho => h.not_occurs o ho.1

section Constructs

variable {visit : Nat → Option Bool} {d k : Nat}

/-- The first form of a row that is accepted has no self-call if it is not in tail position. -/
theorem not_live_head {selfCall : String} {form : Form} {forms : List Form}
    (hall : AllTail (InRow (Occurs selfCall) visit d k (form :: forms)))
    (ht : visit k = some false) :
    ∀ t o, visit k = some t → ¬ Live selfCall t form o := by
  intro t o ht'
  rw [ht] at ht'
  cases ht'
  exact not_live_of_allTail (hall.head ht) o

/-- The `nil` that stands for a branch which is left out. -/
theorem tail_nil_emits (he : self.EmitsCalls) (visit : Nat → Option Bool) (d k : Nat) :
    Yields (Emits target (InRow (Live target.selfCall) visit d k []))
      (self.tail target .nil) := by
  have hnone (o : Occurrence) : ¬ Occurs target.selfCall true .nil o := by rintro ⟨⟩
  intro c ss c' hrun
  exact (he target .nil (fun o ho => absurd ho (hnone o)) hrun).congr fun o =>
    iff_of_false (fun ho => hnone o ho.1) (not_inRow_nil o)

/-- The jumps of a loop body are those of its last form. The induction is on the forms, whose
positions count up to the last one. -/
theorem loopBody_emits (he : self.EmitsCalls) (hq : self.QuietStmts) {n : Nat}
    (hvisit : ∀ i, k ≤ i → visit i = some (i + 1 == n)) (forms : List Form)
    (hn : k + forms.length = n)
    (hall : AllTail (InRow (Occurs target.selfCall) visit d k forms)) :
    Yields (Emits target (InRow (Live target.selfCall) visit d k forms))
      (loopBody self target forms) := by
  induction forms generalizing d k with
  | nil => exact fun _ _ _ hrun => .of_quiet (exitWith_quiet target _ _ hrun) not_inRow_nil
  | cons form forms ih =>
    cases forms with
    | nil =>
      have ht : visit k = some true := by simp [hvisit k (Nat.le_refl k), ← hn]
      exact fun _ _ _ hrun => .last ht (he target form (hall.head ht) hrun)
    | cons next forms =>
      simp only [List.length_cons] at hn
      have ht : visit k = some false := by
        rw [hvisit k (Nat.le_refl k)]
        simp only [Option.some.injEq, beq_eq_false_iff_ne]
        omega
      refine .bind (hq form) fun ss hss => .bind
        (ih (fun i hi => hvisit i (by omega)) (by simp only [List.length_cons]; omega)
          hall.tail) fun rest hrest => .pure ?_
      exact .skip (not_live_head hall ht) (.quiet_append hss hrest)

/-- Only the last operand can hold a self-call in tail position. -/
theorem tailLogical_emits (he : self.EmitsCalls) {n : Nat}
    (hvisit : ∀ i, k ≤ i → visit i = some (i + 1 == n)) (op : LogicalOp) (form : Form)
    (forms : List Form) (hn : k + forms.length = n)
    (hall : AllTail (InRow (Occurs target.selfCall) visit d k forms)) :
    Yields (Emits target (InRow (Live target.selfCall) visit d k forms))
      (tailLogical self target op form forms) := by
  induction forms generalizing d k with
  | nil => exact fun _ _ _ hrun => .of_quiet (exitWith_quiet target _ _ hrun) not_inRow_nil
  | cons operand forms ih =>
    cases forms with
    | nil =>
      have ht : visit k = some true := by simp [hvisit k (Nat.le_refl k), ← hn]
      exact fun _ _ _ hrun => .last ht (he target operand (hall.head ht) hrun)
    | cons next forms =>
      simp only [List.length_cons] at hn
      have ht : visit k = some false := by
        rw [hvisit k (Nat.le_refl k)]
        simp only [Option.some.injEq, beq_eq_false_iff_ne]
        omega
      refine .after fun _ => .after fun _ => .bind (exitWith_quiet target _ _)
        fun settled hsettled => .bind (ih (fun i hi => hvisit i (by omega))
          (by simp only [List.length_cons]; omega) hall.tail) fun rest hrest => .pure ?_
      refine .skip (not_live_head hall ht) (.quiet_append (quiet_assign _ _ _) ?_)
      refine (Emits.branch (P := fun _ => False) (.of_quiet hsettled fun _ ho => ho) hrest
        (fun _ _ ho => ho.elim)).congr fun o => ?_
      rw [false_or]

/-- The jumps of an `if` are those of its branches, in order. -/
theorem tailIf_emits (he : self.EmitsCalls) (form : Form) (args : List Form)
    (hvisit : ∀ i, visit (k + i) = some (i != 0))
    (hall : AllTail (InRow (Occurs target.selfCall) visit d k args)) :
    Yields (Emits target (InRow (Live target.selfCall) visit d k args))
      (tailIf self target form args) := by
  unfold tailIf
  split
  · refine .after fun _ => .bind (he target _ (hall.tail.head (hvisit 1))) fun yes hyes =>
      .bind (tail_nil_emits he visit (d + 1 + 1) (k + 1 + 1)) fun no hno => .pure ?_
    exact .skip (not_live_head hall (hvisit 0)) (.branch_row (hvisit 1) hyes hno)
  · refine .after fun _ => .bind (he target _ (hall.tail.head (hvisit 1))) fun yes hyes =>
      .bind (he target _ (hall.tail.tail.head (hvisit 2))) fun no hno => .pure ?_
    exact .skip (not_live_head hall (hvisit 0))
      (.branch_row (hvisit 1) hyes (.last (hvisit 2) hno))
  · exact .fail _

theorem condClauses_yields (form : Form) (args : List Form) :
    Yields (fun result => ∃ pairs, Form.pairUp args = some pairs ∧ result = untilElse pairs)
      (condClauses form args) := by
  unfold condClauses
  split
  · rename_i pairs hpairs
    exact .pure ⟨pairs, hpairs, rfl⟩
  · exact .fail _

/-- The clauses of a `cond` from some clause on. What comes after a test that always holds is not
visited. -/
theorem clauses_emits (he : self.EmitsCalls) (place : Option Span) :
    ∀ (args : List Form) (pairs : List (Form × Form)) (d k : Nat),
      Form.pairUp args = some pairs →
      (∀ i, visit (k + i) = if elseBefore args i then none else some (i % 2 == 1)) →
      AllTail (InRow (Occurs target.selfCall) visit d k args) →
      Yields (Emits target (InRow (Live target.selfCall) visit d k args)) (do
        let last ← self.tail target (untilElse pairs).2
        (untilElse pairs).1.foldrM (fun (test, result) no => do
          let test ← self.expr test
          let yes ← self.tail target result
          return [.branch test yes no place]) last)
  | [], pairs, d, k, hpairs, _, _ => by
    cases hpairs
    exact .bind (tail_nil_emits he _ _ _) fun last hlast => .pure hlast
  | [_], _, _, _, hpairs, _, _ => by cases hpairs
  | test :: result :: rest, pairs, d, k, hpairs, hvisit, hall => by
    obtain ⟨pairs', hpairs', rfl⟩ := Option.map_eq_some_iff.mp hpairs
    have htest : visit k = some false := hvisit 0
    have hresult : visit (k + 1) = some true := hvisit 1
    have hresultEmits := he target result (hall.tail.head hresult)
    rw [untilElse]
    by_cases helse : isElse test = true
    · -- nothing after this clause is visited
      have hrest (i : Nat) : visit (k + 1 + 1 + i) = none := by
        have := hvisit (i + 2)
        rwa [elseBefore, helse, Bool.true_or, if_pos rfl,
          show k + (i + 2) = k + 1 + 1 + i by omega] at this
      rw [if_pos helse]
      refine .bind hresultEmits fun last hlast => .pure ?_
      refine .skip (not_live_head hall htest) (((hlast.under (d + 1))).congr fun o => ?_)
      rw [← inRow_visit hresult, or_iff_left]
      rintro ⟨i, form, t, o', -, ht, -⟩
      rw [hrest i] at ht
      cases ht
    · have hrest (i : Nat) :
          visit (k + 1 + 1 + i) = if elseBefore rest i then none else some (i % 2 == 1) := by
        have := hvisit (i + 2)
        rwa [elseBefore, eq_false_of_ne_true helse, Bool.false_or, Nat.add_mod_right,
          show k + (i + 2) = k + 1 + 1 + i by omega] at this
      rw [if_neg helse]
      simp only [List.foldrM_cons, ← bind_assoc]
      refine .bind (clauses_emits he place rest pairs' (d + 1 + 1) (k + 1 + 1) hpairs' hrest
        hall.tail.tail) fun no hno => ?_
      refine .after fun _ => .bind hresultEmits fun yes hyes => .pure ?_
      exact .skip (not_live_head hall htest) (.branch_row hresult hyes hno)

/-- The jumps of a `cond` are those of the results, up to the first `:else`. -/
theorem tailCond_emits (he : self.EmitsCalls) (form : Form) (args : List Form)
    (hvisit : ∀ i, visit (k + i) = if elseBefore args i then none else some (i % 2 == 1))
    (hall : AllTail (InRow (Occurs target.selfCall) visit d k args)) :
    Yields (Emits target (InRow (Live target.selfCall) visit d k args))
      (tailCond self target form args) := by
  refine .bind (condClauses_yields form args) fun result hresult => ?_
  obtain ⟨pairs, hpairs, rfl⟩ := hresult
  exact clauses_emits he form.place? args pairs d k hpairs hvisit hall

theorem caseParts_yields (form selector : Form) (rest : List Form) :
    Yields (fun parts => parts.selector = selector ∧ parts.default = (splitCase rest).2
      ∧ parts.clauses.map (·.2) = (splitCase rest).1.map (·.2))
      (caseParts form (selector :: rest)) := by
  have hclauses : ∀ clauses : List (Form × Form),
      Yields (fun parsed => parsed.map (·.2) = clauses.map (·.2)) (clauses.mapM caseClause) := by
    intro clauses
    induction clauses with
    | nil => exact .pure rfl
    | cons clause clauses ih =>
      rw [List.mapM_cons]
      refine .bind (P := fun parsed => parsed.2 = clause.2) ?_ fun parsed hparsed =>
        .bind ih fun others hothers => .pure (by simp [hparsed, hothers])
      unfold caseClause
      split
      · exact .pure rfl
      · exact .fail _
  exact .bind (hclauses _) fun parsed hparsed => .pure ⟨rfl, rfl, hparsed⟩

/-- The clauses of a `case` from some clause on, and its default. -/
theorem alternatives_emits (he : self.EmitsCalls) (selector : String) (place : Option Span)
    {n : Nat} :
    ∀ (args : List Form) (clauses : List (List Key × Form)) (d k : Nat),
      clauses.map (·.2) = (splitCase args).1.map (·.2) → k + args.length = n → k % 2 = 1 →
      (∀ i, k ≤ i → visit i = if i % 2 = 0 ∨ i + 1 = n then some true else none) →
      AllTail (InRow (Occurs target.selfCall) visit d k args) →
      Yields (Emits target (InRow (Live target.selfCall) visit d k args)) (do
        let last ← self.tail target (splitCase args).2
        clauses.foldrM (fun (keys, result) no => do
          let yes ← self.tail target result
          return [.branch (caseTest selector keys) yes no place]) last)
  | [], clauses, d, k, hclauses, _, _, _, _ => by
    obtain rfl : clauses = [] := by simpa [splitCase] using hclauses
    exact .bind (tail_nil_emits he _ _ _) fun last hlast => .pure hlast
  | [default], clauses, d, k, hclauses, hn, _, hvisit, hall => by
    obtain rfl : clauses = [] := by simpa [splitCase] using hclauses
    have ht : visit k = some true := by
      rw [hvisit k (Nat.le_refl k), if_pos (Or.inr (by simpa using hn))]
    exact .bind (he target default (hall.head ht)) fun last hlast => .pure (.last ht hlast)
  | key :: result :: rest, clauses, d, k, hclauses, hn, hk, hvisit, hall => by
    simp only [List.length_cons] at hn
    rw [splitCase, List.map_cons] at hclauses
    obtain ⟨clause, others, rfl, rfl, hothers⟩ := List.map_eq_cons_iff.mp hclauses
    have hkey : visit k = none := by
      rw [hvisit k (Nat.le_refl k), if_neg (by omega)]
    have hresult : visit (k + 1) = some true := by
      rw [hvisit (k + 1) (by omega), if_pos (Or.inl (by omega))]
    rw [splitCase]
    simp only [List.foldrM_cons, ← bind_assoc]
    refine .bind (alternatives_emits he selector place rest others (d + 1 + 1) (k + 1 + 1)
      hothers (by omega) (by omega) (fun i hi => hvisit i (by omega)) hall.tail.tail)
      fun no hno => ?_
    refine .bind (he target clause.2 (hall.tail.head hresult)) fun yes hyes => .pure ?_
    refine .skip (fun t o ht => ?_) (.branch_row hresult hyes hno)
    rw [hkey] at ht
    cases ht

/-- The jumps of a `case` are those of its results and its default. -/
theorem tailCase_emits (he : self.EmitsCalls) (form : Form) (args : List Form)
    (hvisit : ∀ i, visit i = if i = 0 then some false
      else if i % 2 = 0 ∨ i + 1 = args.length then some true else none)
    (hall : AllTail (InRow (Occurs target.selfCall) visit d 0 args)) :
    Yields (Emits target (InRow (Live target.selfCall) visit d 0 args))
      (tailCase self target form args) := by
  cases args with
  | nil => exact fun _ _ _ hrun => (not_fail_ok hrun).elim
  | cons selector rest =>
    refine .bind (caseParts_yields form selector rest) fun parts hparts => ?_
    obtain ⟨-, hdefault, hclauses⟩ := hparts
    refine .after fun name => .after fun value => ?_
    have halternatives := alternatives_emits he name form.place? rest parts.clauses (d + 1) 1
      hclauses (Nat.add_comm _ _) rfl
      (fun i hi => by rw [hvisit i, if_neg (by omega), List.length_cons]) hall.tail
    rw [← hdefault] at halternatives
    simp only [← bind_assoc]
    refine .bind halternatives fun stmts hstmts => .pure ?_
    exact .skip (not_live_head hall (hvisit 0)) (.quiet_append (quiet_assign _ _ _) hstmts)

/-- The jumps of a `let` are those of its body. -/
theorem tailLet_emits (he : self.EmitsCalls) (hb : self.Balanced) (hq : self.QuietStmts)
    (form : Form) (args : List Form)
    (hvisit : ∀ i, visit i = some (i != 0 && i + 1 == args.length))
    (hall : AllTail (InRow (Occurs target.selfCall) visit d 0 args)) :
    Yields (Emits target (InRow (Live target.selfCall) visit d 0 args))
      (tailLet self target form args) := by
  cases args with
  | nil => exact fun _ _ _ hrun => (not_fail_ok hrun).elim
  | cons bindings body =>
    have hbody (i : Nat) (hi : 1 ≤ i) : visit i = some (i + 1 == (bindings :: body).length) := by
      have hne : (i != 0) = true := by simp only [bne_iff_ne]; omega
      rw [hvisit i, hne, Bool.true_and]
    refine .inScope (.bind (letBindings_quiet hb bindings) fun head hhead =>
      .bind (loopBody_emits he hq hbody body (Nat.add_comm _ _) hall.tail)
        fun rest hrest => .pure ?_)
    exact .skip (not_live_head hall (hvisit 0)) (.quiet_append hhead hrest)

end Constructs

/-- A self-call in tail position is one jump with all its arguments. -/
theorem jump_emits (n : Nat) (target : LoopTarget) (s : Symbol) (args : List Form)
    (span : Option Span) (hself : s.name = target.selfCall)
    (hall : AllTail (Occurs target.selfCall true (.list (.symbol s :: args) span))) :
    Yields (Emits target (Live target.selfCall true (.list (.symbol s :: args) span)))
      (jump (upTo n) target (.list (.symbol s :: args) span) args) := by
  intro c ss c' hrun before
  obtain ⟨hlength, init, place, rfl, hquiet⟩ := jump_block target _ args hrun
  let o : Occurrence := ⟨[], ⟨.list (.symbol s :: args) span, args⟩, true⟩
  have hlive (o' : Occurrence) :
      Live target.selfCall true (.list (.symbol s :: args) span) o' ↔ o' = o := by
    constructor
    · rintro ⟨ho, -⟩
      have htail := hall o' ho
      rcases (occurs_selfCall_iff hself).mp ho with ho | ⟨i, arg, t, o'', -, ht, ho, rfl⟩
      · exact ho
      · cases ht
        rw [Occurrence.under_isTail, ho.nonTail rfl] at htail
        cases htail
    · rintro rfl
      exact ⟨.call hself, rfl⟩
  refine ⟨[o], (Enumerates.singleton o).congr fun o' => (hlive o').symm, ?_⟩
  have hjumps : jumpsOfAll target.jumpSize before (init ++ [.next place])
      = [init ++ [.next place]] := by
    rw [jumpsOfAll_append, hquiet, List.nil_append, ← hlength]
    simp [jumpsOfAll, jumps]
  rw [hjumps]
  exact .cons ⟨n, c, c', hrun⟩ .nil

end Lowering

/-- The table of a special form without the clauses of a `cond` that are not lowered. -/
def Special.livePosition (sp : Special) (args : List Form) (i : Nat) : Option Bool :=
  if sp = .condForm ∧ elseBefore args i = true then none else sp.position true args.length i

/-- The live self-calls of a special form are those of its arguments, up to the `:else` of a
`cond`. -/
theorem live_special_iff {self : String} {s : Symbol} {args : List Form} {span : Option Span}
    {sp : Special} {o : Occurrence} (hself : s.name ≠ self)
    (hsp : Special.ofName? s.name = some sp) :
    InRow (Live self) (sp.livePosition args) 1 0 args o ↔
      Live self true (.list (.symbol s :: args) span) o := by
  unfold Live
  rw [occurs_special_iff hself hsp]
  constructor
  · rintro ⟨i, arg, t, o', hi, ht, ⟨ho, hlive⟩, rfl⟩
    rw [Special.livePosition, Nat.zero_add] at ht
    split at ht
    · cases ht
    · rename_i hcut
      refine ⟨⟨i, arg, t, o', hi, by rwa [Nat.zero_add], ho, rfl⟩, ?_⟩
      simpa [Nat.add_comm 1 i, Form.afterElse, hi, hsp, hlive] using hcut
  · rintro ⟨⟨i, arg, t, o', hi, ht, ho, rfl⟩, hlive⟩
    simp only [Nat.add_comm 1 i, Occurrence.under_path, Form.afterElse, hi, hsp,
      Option.any_some, Bool.or_eq_false_iff] at hlive
    refine ⟨i, arg, t, o', hi, ?_, ⟨ho, hlive.2⟩, rfl⟩
    rw [Nat.zero_add] at ht ⊢
    rw [Special.livePosition, if_neg]
    · exact ht
    · simpa using hlive.1

theorem AllTail.livePosition {self : String} {s : Symbol} {args : List Form}
    {span : Option Span} {sp : Special}
    (h : AllTail (Occurs self true (.list (.symbol s :: args) span))) (hself : s.name ≠ self)
    (hsp : Special.ofName? s.name = some sp) :
    AllTail (InRow (Occurs self) (sp.livePosition args) 1 0 args) := by
  rintro o ⟨i, arg, t, o', hi, ht, ho, rfl⟩
  refine h _ ((occurs_special_iff hself hsp).mpr ⟨i, arg, t, o', hi, ?_, ho, rfl⟩)
  rw [Special.livePosition] at ht
  split at ht
  · cases ht
  · exact ht

/-- Does the special form pass its tail position on to parts of it? -/
def Special.passesTail : Special → Bool
  | .ifForm | .condForm | .caseForm | .letForm | .doForm | .andForm | .orForm => true
  | _ => false

theorem Special.position_eq_false {sp : Special} {isTail t : Bool} {n i : Nat}
    (h : sp.passesTail = false) (hpos : sp.position isTail n i = some t) : t = false := by
  cases sp with
  | loopForm => grind [position]
  | fnForm | defnForm | quoteForm => cases hpos
  | notForm | recurForm | defForm => cases hpos; rfl
  | _ => cases h

/-- No self-call in a form that is evaluated before the loop is left is in tail position. -/
theorem Occurs.nonTail_of_exit {self : String} {form : Form} {o : Occurrence}
    (h : Occurs self true form o)
    (hform : ∀ s args span, form = .list (.symbol s :: args) span →
      s.name ≠ self ∧ ∀ sp, Special.ofName? s.name = some sp → sp.passesTail = false) :
    o.isTail = false := by
  cases h with
  | call hself => exact absurd hself (hform _ _ _ rfl).1
  | argument hself => exact absurd hself (hform _ _ _ rfl).1
  | special _ hsp _ hpos ho =>
    exact ho.nonTail (Special.position_eq_false ((hform _ _ _ rfl).2 _ hsp) hpos)
  | operand _ _ _ ho | application _ _ ho | item _ ho | key _ ho | value _ ho =>
    exact ho.nonTail rfl

namespace Lowering

open Compile Stmt

/-- A form that ends the loop with its value emits no jump. -/
theorem exitStep_emits {self : Lowering} (target : LoopTarget) (form : Form)
    (hform : ∀ s args span, form = .list (.symbol s :: args) span →
      s.name ≠ target.selfCall
        ∧ ∀ sp, Special.ofName? s.name = some sp → sp.passesTail = false)
    (hall : AllTail (Occurs target.selfCall true form)) :
    Yields (Emits target (Live target.selfCall true form)) (exitStep self target form) := by
  refine .after fun value _ ss _ hrun => .of_quiet (exitWith_quiet target _ _ hrun) ?_
  rintro o ⟨ho, -⟩
  have htail := hall o ho
  rw [ho.nonTail_of_exit hform] at htail
  cases htail

/-- One step of lowering in the tail of a loop emits the jumps of the live self-calls, in order. -/
theorem tailStep_emits {n : Nat} (he : (upTo n).EmitsCalls) : (step (upTo n)).EmitsCalls := by
  intro target form hall
  have hb := upTo_balanced n
  have hq := upTo_quietStmts n
  change Yields _ (tailStep (upTo n) target form)
  unfold tailStep
  split
  · rename_i head args span
    split
    · exact jump_emits n target head args span ‹_› hall
    · rename_i hself
      have hrow {sp : Special} {m : Compile (List Stmt)} (hsp : Special.ofName? head.name = some sp)
          (hm : Yields (Emits target
            (InRow (Live target.selfCall) (sp.livePosition args) 1 0 args)) m) :
          Yields (Emits target (Live target.selfCall true (.list (.symbol head :: args) span))) m :=
        fun _ _ _ hrun => (hm hrun).congr fun _ => live_special_iff hself hsp
      split
      · rename_i hsp
        exact hrow hsp (tailIf_emits he _ args (fun i => by simp [Special.livePosition,
          Special.position]) (hall.livePosition hself hsp))
      · rename_i hsp
        exact hrow hsp (tailCond_emits he _ args (fun i => by simp [Special.livePosition,
          Special.position]) (hall.livePosition hself hsp))
      · rename_i hsp
        exact hrow hsp (tailCase_emits he _ args (fun i => by simp [Special.livePosition,
          Special.position]) (hall.livePosition hself hsp))
      · rename_i hsp
        exact hrow hsp (tailLet_emits he hb hq _ args (fun i => by simp [Special.livePosition,
          Special.position]) (hall.livePosition hself hsp))
      · rename_i hsp
        exact hrow hsp (loopBody_emits he hq (fun i _ => by simp [Special.livePosition,
          Special.position]) args (Nat.zero_add _) (hall.livePosition hself hsp))
      · rename_i hsp
        exact hrow hsp (tailLogical_emits he (fun i _ => by simp [Special.livePosition,
          Special.position]) _ _ args (Nat.zero_add _) (hall.livePosition hself hsp))
      · rename_i hsp
        exact hrow hsp (tailLogical_emits he (fun i _ => by simp [Special.livePosition,
          Special.position]) _ _ args (Nat.zero_add _) (hall.livePosition hself hsp))
      · refine exitStep_emits target _ ?_ hall
        rintro s args' span' ⟨⟩
        refine ⟨hself, fun sp hsp => ?_⟩
        cases sp <;> first | rfl | contradiction
  · refine exitStep_emits target _ ?_ hall
    rintro s args span rfl
    rename_i hnot
    exact absurd rfl (hnot s args span)

/-- **Every live self-call becomes one jump, in the order of the source**, at every depth. -/
theorem upTo_emitsCalls : ∀ n : Nat, (upTo n).EmitsCalls
  | 0 => fun _ _ _ => .fail _
  | n + 1 => tailStep_emits (upTo_emitsCalls n)

end Lowering

/-! ### Whole bodies -/

/-- Does the way through a body lead into a clause of a `cond` after one that always holds? -/
def Form.afterElseInBody (body : List Form) : List Nat → Bool
  | i :: path => body[i]?.any (afterElse path)
  | [] => false

namespace Enumerates

variable {P : Occurrence → Prop} {os os' : List Occurrence}

theorem filter (h : Enumerates os P) (f : Occurrence → Bool) :
    Enumerates (os.filter f) fun o => P o ∧ f o = true :=
  ⟨h.sorted.filter f, fun o => by rw [List.mem_filter, h.mem_iff]⟩

/-- A row that enumerates a property in source order is determined by it. -/
theorem unique (h : Enumerates os P) (h' : Enumerates os' P) : os = os' := by
  let earlier (a b : Occurrence) : Prop := a.path < b.path
  have : Std.Irrefl earlier := ⟨fun a => List.lt_irrefl a.path⟩
  have : Std.Antisymm earlier := ⟨fun a b hab hba => absurd hba (List.lt_asymm hab)⟩
  exact List.Pairwise.eq_of_mem_iff (r := earlier) h.sorted h'.sorted fun o =>
    (h.mem_iff o).trans (h'.mem_iff o).symm

end Enumerates

theorem inRow_live_iff {self : String} {body : List Form} {o : Occurrence} :
    InRow (Live self) (fun i => some (true && i + 1 == body.length)) 0 0 body o ↔
      OccursInBody self body o ∧ (!Form.afterElseInBody body o.path) = true := by
  rw [occursInBody_iff]
  constructor
  · rintro ⟨i, form, t, o', hi, ht, ⟨ho, hlive⟩, rfl⟩
    refine ⟨⟨i, form, t, o', hi, ht, ho, rfl⟩, ?_⟩
    simp [Form.afterElseInBody, hi, hlive]
  · rintro ⟨⟨i, form, t, o', hi, ht, ho, rfl⟩, hlive⟩
    refine ⟨i, form, t, o', hi, ht, ⟨ho, ?_⟩, rfl⟩
    simpa [Form.afterElseInBody, hi] using hlive

/-- The jumps of a lowered body are those of its self-calls, in source order, without those after
a clause that always holds. -/
theorem Lowering.loopBody_jumps {n : Nat} {target : LoopTarget} {body : List Form}
    {c c' : Context} {ss : List Stmt}
    (hall : AllTail (OccursInBody target.selfCall body))
    (hrun : loopBody (upTo n) target body c = .ok ss c') {os : List Occurrence}
    (hos : Enumerates os (OccursInBody target.selfCall body)) :
    List.Forall₂ (IsJumpOf target) (os.filter fun o => !Form.afterElseInBody body o.path)
      (Stmt.jumpsOfAll target.jumpSize [] ss) := by
  have hall' : AllTail (InRow (Occurs target.selfCall)
      (fun i => some (true && i + 1 == body.length)) 0 0 body) :=
    fun o ho => hall o (occursInBody_iff.mpr ho)
  obtain ⟨live, hlive, hjumps⟩ := loopBody_emits (upTo_emitsCalls n) (upTo_quietStmts n)
    (fun i _ => by simp) body (Nat.zero_add _) hall' hrun []
  rwa [(hos.filter _).unique (hlive.congr fun o => inRow_live_iff)]

end TailLisp
