import TailLisp.Program
import TailLisp.Proofs.Footprint
import TailLisp.Proofs.Symbols

/-!
# TailLisp.Proofs.Placement

**Helpers are defined once and before their uses.**
-/

namespace TailLisp

/-- No symbol of the form turns into a name that a temporary could have. -/
def Form.IsClear (p : String) (form : Form) : Prop := form.spells (fun x => !isTemp p x) = true

/-- The names that a self-call or an exit assigns. -/
def LoopTarget.assigned (target : LoopTarget) : List String :=
  target.vars ++ target.rebind.map (·.target)
    ++ (target.exit.map fun exit => [exit.result, exit.flag]).getD []

/-- The names that a self-call reads to bind the patterns again. -/
def LoopTarget.copied (target : LoopTarget) : List String :=
  target.rebind.flatMap (·.value.reads)

namespace Lowering

open Compile Footprint Stmt

/-- In every position, the code of forms whose symbols are no temporaries leaves helpers and
variables in order. -/
structure Placing (p : String) (lowering : Lowering) : Prop where
  balanced : lowering.Balanced
  expr : ∀ form : Form, form.IsClear p → Leaves p [] [] (lowering.expr form) ofExpr
  stmt : ∀ form : Form, form.IsClear p → Leaves p [] [] (lowering.stmt form) ofStmts
  tail : ∀ (target : LoopTarget) (form : Form), form.IsClear p →
    Leaves p target.assigned target.copied (lowering.tail target form) ofStmts

variable {p : String} {K L : List String} {self : Lowering}

theorem isClear_nil : Form.nil.IsClear p := rfl

/-! ### Common parts -/

/-- Tail analysis reports what it finds; it makes neither code nor names. -/
theorem analyze_still (body : List Form) : Still (analyze body) := by
  unfold analyze
  dsimp only
  split
  · split
    · exact .bind (.report _) fun _ => .fail _
    · exact .fail _
  · exact .bind (.report _) fun _ => .pure _

theorem bindingPairs_still (head : BindingHead) (bindings : Form) :
    Still (bindingPairs head bindings) := by
  unfold bindingPairs
  split
  · split
    · exact .pure _
    · exact .fail _
  · exact .fail _

theorem condClauses_still (form : Form) (args : List Form) : Still (condClauses form args) := by
  unfold condClauses
  split
  · exact .pure _
  · exact .fail _

theorem caseParts_still (form : Form) (args : List Form) : Still (caseParts form args) := by
  cases args with
  | nil => exact .fail _
  | cons selector rest =>
    refine .bind (.mapM fun clause _ => ?_) fun _ => .pure _
    unfold caseClause
    split
    · exact .pure _
    · exact .fail _

/-- The pairs of a binding vector. -/
theorem bindingPairs_isClear {head : BindingHead} {bindings : Form} (h : bindings.IsClear p) :
    Yields (fun pairs => ∀ pair ∈ pairs, pair.1.IsClear p ∧ pair.2.IsClear p)
      (bindingPairs head bindings) := by
  refine bindingPairs_of_all fun items span heq => ?_
  subst heq
  exact Form.allSymbols_vector.mp h

/-- Temporaries end in a number, so names without digits are none. -/
theorem isTemp_of_noDigit {x : String} (h : x.toList.all (fun ch => !ch.isDigit) = true) :
    isTemp p x = false := by
  rw [isTemp, tempNumber?_of_noDigit p h]
  rfl

/-- A definition, its own name among what is to be defined. -/
theorem covers_define {name : String} {params : List String} {rest : Option String}
    {body : List Stmt} {place : Option Span} :
    Covers p K L (ofFunction params rest body ++ ofDefines [name])
      (ofStmts [.define name params rest body place]) where
  defines := by
    refine List.Perm.filter _ ?_
    simp only [ofStmts, ofFunction, ofDefines, ofBinds, definesOfAll, Stmt.defines, append_defines,
      List.append_nil, List.nil_append]
    exact (List.perm_append_singleton name _).symm
  bound x hx _ := by
    simpa [ofStmts, ofFunction, ofDefines, ofBinds, bindsOfAll, Stmt.binds] using hx
  binds x hx _ := .inl (by
    simpa [ofStmts, ofFunction, ofDefines, ofBinds, bindsOfAll, Stmt.binds] using hx)
  reads x hx _ := .inl (by
    simpa [ofStmts, ofFunction, ofDefines, ofBinds, outerReadsOfAll, outerReads] using hx)

/-- The code of a body moves into the definition of a new helper. What stays in its place reads the
arguments and the helper. -/
theorem callHelper_extends {stem : String} (s : String) (hstem : stem = s ++ "_")
    (params : List String) (args : List Expr) (body : List Stmt) (place : Option Span) :
    Extends p K L (ofReads (Expr.readsOfAll args) ++ ofFunction params none body)
      (callHelper stem params args body place) ofExpr := by
  refine .bind (Leaves.freshHelper s hstem).framed fun name => ?_
  rw [Footprint.append_assoc]
  refine .bind ((Extends.hoist rfl _).of_covers (.append (.refl _) covers_define)) fun _ => .pure ?_
  exact .swap _ (ofReads [name])

/-- All forms of a body but the last are statements, and the last one is returned, behind the
helpers of its expression. -/
theorem returning_leaves (h : self.Placing p) :
    ∀ forms : List Form, (∀ form ∈ forms, form.IsClear p) →
      Leaves p [] [] (returning self forms) ofStmts
  | [], _ => last .nil isClear_nil
  | [form], hforms => last form (hforms form List.mem_cons_self)
  | form :: other :: forms, hforms => by
    rw [List.forall_mem_cons] at hforms
    exact .of_extends (.bind (h.stmt form hforms.1).framed fun stmts =>
      .bind (returning_leaves h (other :: forms) hforms.2).framed fun rest =>
        .pure (.stmts stmts rest))
where
  last (form : Form) (hform : form.IsClear p) :
      Leaves p [] [] (returning.last self form) ofStmts :=
    .of_extends (.bind (h.expr form hform).collect.framed fun ⟨value, helpers⟩ =>
      .pure (.withHelpers (.of_eq (ofStmts_ret value form.place?).symm) helpers))

/-! ### Patterns -/

/-- A binder whose names are no temporaries; a name that was written together with a rest marker is
no symbol of the source. -/
def ClearBinder (p : String) (binder : Form) : Prop :=
  binder.IsClear p ∨ ∃ s, binder = .symbol s ∧ isTemp p (Name.spell s.name) = false

theorem isTemp_symbol {s : Symbol} (h : (Form.symbol s).IsClear p) :
    isTemp p (Name.spell s.name) = false := by
  simpa using Pattern.spells_symbol h

/-- The name that a clear binder binds is none that a temporary could have. -/
theorem ClearBinder.name {binder : Form} {s : Symbol} (h : ClearBinder p binder)
    (hpattern : Pattern.ofForm binder = .ok (.name s)) : isTemp p (Name.spell s.name) = false := by
  have hbinder := Pattern.eq_symbol_of_ofForm_name hpattern
  subst hbinder
  rcases h with h | ⟨s', heq, h⟩
  · exact isTemp_symbol h
  · cases heq
    exact h

theorem ClearBinder.isClear_of_vector {items : List Form} {span : Span}
    (h : ClearBinder p (.vector items span)) : (Form.vector items span).IsClear p := by
  rcases h with h | ⟨s, heq, -⟩
  · exact h
  · cases heq

theorem lift_yields {α : Type} (e : Except Fault α) : Yields (fun a => e = .ok a) (lift e) := by
  cases e with
  | ok a => exact .pure rfl
  | error fault => exact .fail fault

theorem reads_key (key : Key) : ∀ x ∈ key.expr.reads, isTemp p x = false := by
  intro x hx
  cases key with
  | const c => cases hx
  | keyword k =>
    rw [List.mem_singleton.mp hx]
    exact isTemp_of_noDigit (by decide)

/-- The parts of a sequence pattern are taken from its holder, and read no other temporary. -/
theorem reads_sequenceParts (pattern : SequencePattern) (holder : String) :
    ∀ work ∈ sequenceParts pattern holder, ∀ x ∈ work.2.reads, isTemp p x = true → x = holder := by
  have hcall (f : String) (hf : isTemp p f = false) (n : Nat) :
      ∀ x ∈ (Expr.callOf f [.load holder, .constant (.int n)]).reads,
        isTemp p x = true → x = holder := by
    intro x hx htemp
    have hmem : x = f ∨ x = holder := by
      simpa [Expr.callOf, Expr.load, Expr.constant, Expr.reads, Expr.readsOfAll] using hx
    rcases hmem with rfl | rfl
    · rw [hf] at htemp
      cases htemp
    · rfl
  intro work hwork
  rcases List.mem_append.mp hwork with hitem | hrest
  · obtain ⟨⟨item, i⟩, -, rfl⟩ := List.mem_map.mp hitem
    exact hcall "nth" (isTemp_of_noDigit (by decide)) i
  · obtain ⟨s, -, rfl⟩ := Option.map_eq_some_iff.mp (Option.mem_toList.mp hrest)
    exact hcall "subseq" (isTemp_of_noDigit (by decide)) _

theorem clear_sequenceParts {pattern : SequencePattern} (holder : String)
    (hitems : ∀ item ∈ pattern.items, item.IsClear p)
    (hrest : ∀ s ∈ pattern.rest, isTemp p (Name.spell s.name) = false) :
    ∀ work ∈ sequenceParts pattern holder, ClearBinder p work.1 := by
  intro work hwork
  rcases List.mem_append.mp hwork with hitem | hmem
  · obtain ⟨⟨item, i⟩, hmem, rfl⟩ := List.mem_map.mp hitem
    exact .inl (hitems item (List.fst_mem_of_mem_zipIdx hmem))
  · obtain ⟨s, hs, rfl⟩ := Option.map_eq_some_iff.mp (Option.mem_toList.mp hmem)
    exact .inr ⟨s, rfl, hrest s hs⟩

/-- A binding in front of others. -/
theorem covers_binding {target : String} {value : Expr} {span : Option Span} {bs : List Binding}
    (h : ∀ x ∈ value.reads, isTemp p x = true → x ∈ L) :
    Covers p K L (ofBinds [target] ++ ofBindings bs)
      (ofBindings (⟨target, value, span⟩ :: bs)) := by
  have hvalue : Covers p K L (ofBinds [target]) (ofReads value.reads ++ ofBinds [target]) :=
    .addReads fun x hx htemp => .inr (.inr (h x hx htemp))
  exact (hvalue.trans (.swap _ _)).append (.refl _)

theorem reads_seq {value : Expr} (h : ∀ x ∈ value.reads, isTemp p x = true → x ∈ L) :
    ∀ x ∈ (Expr.callOf "seq" [value]).reads, isTemp p x = true → x ∈ L := by
  intro x hx htemp
  have hmem : x = "seq" ∨ x ∈ value.reads := by
    simpa [Expr.callOf, Expr.load, Expr.reads, Expr.readsOfAll] using hx
  rcases hmem with rfl | hx
  · rw [isTemp_of_noDigit (by decide)] at htemp
    cases htemp
  · exact h x hx htemp

theorem tablePart_binder {expr : Form → Compile Expr} {pattern : TablePattern} {holder : String}
    {entry : Form × Key} (hentry : ClearBinder p entry.1) :
    Yields (fun work => ClearBinder p work.1) (tablePart expr pattern holder entry) := by
  unfold tablePart
  split
  · exact .pure hentry
  · exact .after fun _ => .pure hentry

section Patterns

variable {expr : Form → Compile Expr}
  (h : ∀ form : Form, form.IsClear p → Leaves p [] [] (expr form) ofExpr)

include h

/-- An entry of a table reads the holder of the table. What its default makes is left as helpers. -/
theorem tablePart_leaves {pattern : TablePattern}
    (hdefaults : ∀ d ∈ pattern.defaults, d.2.IsClear p) (holder : String) (entry : Form × Key) :
    Leaves p [] [holder] (tablePart expr pattern holder entry) fun work => ofExpr work.2 := by
  have hlookup : isTemp p "lookup" = false := isTemp_of_noDigit (by decide)
  have hreads : ∀ x ∈ "lookup" :: holder :: (Key.expr entry.2).reads,
      isTemp p x = true → x ∈ [holder] := by
    intro x hx htemp
    rcases List.mem_cons.mp hx with rfl | hx
    · rw [hlookup] at htemp
      cases htemp
    · rcases List.mem_cons.mp hx with rfl | hx
      · exact List.mem_singleton.mpr rfl
      · rw [reads_key entry.2 x hx] at htemp
        cases htemp
  unfold tablePart
  split
  · refine .of_extends (.pure (.ofReads ?_))
    simpa [Expr.callOf, Expr.load, Expr.reads, Expr.readsOfAll] using hreads
  · rename_i form hform
    have hclear : form.IsClear p := by
      obtain ⟨d, hd, rfl⟩ := Option.map_eq_some_iff.mp hform
      exact hdefaults d (List.mem_of_find?_eq_some hd)
    refine .of_extends (.bind (h form hclear).framed fun body => .pure ?_)
    have hcovers : Covers p [] [holder] (ofExpr body)
        (ofReads ("lookup" :: holder :: (Key.expr entry.2).reads) ++ ofExpr body) :=
      .addReads fun x hx htemp => .inr (.inr (hreads x hx htemp))
    have hcall : "lookup" :: holder :: (Key.expr entry.2).reads ++ body.reads =
        (Expr.callOf "lookup" [.load holder, entry.2.expr, .thunk body none]).reads := by
      simp [Expr.callOf, Expr.load, Expr.reads, Expr.readsOfAll]
    exact hcovers.trans (.of_eq (congrArg ofReads hcall))

omit h in
/-- The value of a compound pattern is held by its alias, or by a temporary if it has none. -/
theorem holder_leaves {whole : Option Symbol}
    (hwhole : ∀ s ∈ whole, isTemp p (Name.spell s.name) = false) (mode : BindMode) :
    Leaves p [] [] (holder mode whole) fun target => ofBinds [target] := by
  cases whole with
  | none => exact Leaves.fresh "destructure" rfl
  | some s => exact Leaves.binder (hwhole s rfl) mode

/-- The expansion of a list of work leaves a row of bindings. Each of them reads temporaries of `L`,
which the work reads, or ones that the row has bound before. The induction is on the fuel. -/
theorem expandWork_leaves (mode : BindMode) :
    ∀ (fuel : Nat) (work : List Work) (L : List String), (∀ w ∈ work, ClearBinder p w.1) →
      (∀ w ∈ work, ∀ x ∈ w.2.reads, isTemp p x = true → x ∈ L) →
      Leaves p [] L (expandWork expr mode fuel work) ofBindings
  | 0, [], _, _, _ => .of_extends (.pure (.refl _))
  | _ + 1, [], _, _, _ => .of_extends (.pure (.refl _))
  | 0, _ :: _, _, _, _ => .of_extends (.fail _)
  | fuel + 1, (binder, value) :: work, L, hclear, hreads => by
    rw [List.forall_mem_cons] at hclear hreads
    rw [expandWork]
    refine .of_extends (.bind_yields (.still (.lift _)) (lift_yields _) fun pattern hpattern => ?_)
    cases pattern with
    | name s =>
      refine .bind (Leaves.binder (hclear.1.name hpattern) mode).framed fun target => ?_
      refine .bind (expandWork_leaves mode fuel work L hclear.2 hreads.2).again fun rest => ?_
      exact .pure (covers_binding hreads.1)
    | sequence pattern =>
      obtain ⟨items, span, rfl, -⟩ := Pattern.parse_of_ofForm_sequence hpattern
      obtain ⟨hitems, hrest, hwhole⟩ :=
        Pattern.spells_of_ofForm_sequence hclear.1.isClear_of_vector hpattern
      simp only [Bool.not_eq_true'] at hrest hwhole
      refine .bind (holder_leaves hwhole mode).framed fun target => ?_
      -- the parts are taken from the holder, which is bound by now
      have hparts := expandWork_leaves mode fuel (sequenceParts pattern target ++ work)
        (target :: L) ?_ ?_
      · refine .bind (hparts.frame (by simp) fun x hx _ => ?_) fun rest => .pure ?_
        · rcases List.mem_cons.mp hx with rfl | hx
          · exact .inr (.inl (by simp [ofBinds]))
          · exact .inl hx
        · exact covers_binding (reads_seq hreads.1)
      · exact List.forall_mem_append.mpr ⟨clear_sequenceParts target hitems hrest, hclear.2⟩
      · refine List.forall_mem_append.mpr ⟨fun w hw x hx htemp => ?_, fun w hw x hx htemp => ?_⟩
        · rw [reads_sequenceParts pattern target w hw x hx htemp]
          exact List.mem_cons_self
        · exact List.mem_cons_of_mem _ (hreads.2 w hw x hx htemp)
    | table pattern =>
      obtain ⟨first, items, span, rfl, -⟩ := Pattern.parse_of_ofForm_table hpattern
      obtain ⟨hentries, hdefaults, hwhole⟩ :=
        Pattern.spells_of_ofForm_table hclear.1.isClear_of_vector hpattern
      simp only [Bool.not_eq_true'] at hwhole
      refine .bind (holder_leaves hwhole mode).framed fun target => ?_
      have htable : Leaves p [] [target] (pattern.entries.mapM (tablePart expr pattern target))
          (join fun work => ofReads work.2.reads) :=
        .mapM fun entry _ => tablePart_leaves h hdefaults target entry
      have hbinders : Yields (fun parts => ∀ work ∈ parts, ClearBinder p work.1)
          (pattern.entries.mapM (tablePart expr pattern target)) :=
        .mapM fun entry hentry => tablePart_binder (.inl (hentries entry hentry))
      refine .bind_yields (htable.frame (by simp) fun x hx _ => ?_) hbinders fun parts hparts => ?_
      · exact .inr (.inl hx)
      have hrest := expandWork_leaves mode fuel (parts ++ work)
        (parts.flatMap (·.2.reads) ++ L) ?_ ?_
      · refine .bind (hrest.frame (by simp) fun x hx _ => ?_) fun rest => .pure ?_
        · rcases List.mem_append.mp hx with hx | hx
          · rw [append_reads, join_ofReads]
            exact .inr (.inr (List.mem_append.mpr (.inr hx)))
          · exact .inl hx
        · rw [join_ofReads]
          refine ((Covers.swap _ (ofReads _)).append (.refl (ofBindings rest))).trans ?_
          rw [Footprint.append_assoc]
          exact (Covers.dropReads _ _).trans (covers_binding hreads.1)
      · exact List.forall_mem_append.mpr ⟨hparts, hclear.2⟩
      · refine List.forall_mem_append.mpr ⟨fun w hw x hx _ => ?_, fun w hw x hx htemp => ?_⟩
        · exact List.mem_append.mpr (.inl (List.mem_flatMap.mpr ⟨w, hw, hx⟩))
        · exact List.mem_append.mpr (.inr (hreads.2 w hw x hx htemp))

/-- The expansion of a pattern, behind code that binds or reads all that the value reads. -/
theorem expand_extends (mode : BindMode) {pattern : Form} (hpattern : pattern.IsClear p)
    {pre : Footprint} {value : Expr} {given : List Binding}
    (hvalue : ∀ x ∈ value.reads, isTemp p x = true → x ∈ L ∨ x ∈ pre.binds ∨ x ∈ pre.reads) :
    Extends p K L (pre ++ ofBindings given) (expand expr mode pattern value given)
      fun bs => pre ++ ofBindings bs := by
  have hwork := expandWork_leaves h mode pattern.size [(pattern, value)] value.reads
    (List.forall_mem_singleton.mpr (.inl hpattern))
    (List.forall_mem_singleton.mpr fun _ hx _ => hx)
  refine .bind (hwork.frame (by simp) fun x hx htemp => ?_) fun bindings =>
    .bind (.still (.report _)) fun _ => .pure (.of_eq ?_)
  · have := hvalue x hx htemp
    simp only [append_binds, append_reads, List.mem_append]
    tauto
  · rw [ofBindings_append, Footprint.append_assoc]

theorem destructure_extends {pattern : Form} (hpattern : pattern.IsClear p) (value : Expr)
    (outer : Option Span) :
    Extends p K L (ofExpr value) (destructure expr pattern value outer) ofStmts := by
  have hexpand : Extends p K L (ofExpr value) (expand expr .asIs pattern value [])
      fun bs => ofExpr value ++ ofBindings bs :=
    (expand_extends h .asIs hpattern fun x hx _ => .inr (.inr hx)).of_covers
      (.of_eq (append_none _).symm)
  refine .bind hexpand fun bs => .pure ?_
  rw [ofStmts_assigns]
  exact .dropReads _ _

end Patterns

/-! ### Loops -/

theorem reads_caseTest (selector : String) (keys : List Key) :
    ∀ x ∈ (caseTest selector keys).reads, isTemp p x = true → x = selector := by
  have htest (key : Key) : ∀ x ∈ (Expr.compare .eq (.load selector) [key.expr] none).reads,
      isTemp p x = true → x = selector := by
    intro x hx htemp
    have hmem : x = selector ∨ x ∈ key.expr.reads := by
      simpa [Expr.load, Expr.reads, Expr.readsOfAll] using hx
    rcases hmem with rfl | hx
    · rfl
    · rw [reads_key key x hx] at htemp
      cases htemp
  have hall (tests : List Expr) (htests : ∀ e ∈ tests, ∀ x ∈ e.reads,
      isTemp p x = true → x = selector) :
      ∀ x ∈ Expr.readsOfAll tests, isTemp p x = true → x = selector := by
    induction tests with
    | nil => simp [Expr.readsOfAll]
    | cons e es ih =>
      rw [List.forall_mem_cons] at htests
      intro x hx
      rcases List.mem_append.mp hx with hx | hx
      · exact htests.1 x hx
      · exact ih htests.2 x hx
  unfold caseTest
  split
  · rename_i test heq
    have hmem : test ∈ keys.map fun key => Expr.compare .eq (.load selector) [key.expr] none :=
      heq ▸ List.mem_singleton.mpr rfl
    obtain ⟨key, -, rfl⟩ := List.mem_map.mp hmem
    exact htest key
  · exact hall _ (List.forall_mem_map.mpr fun key _ => htest key)

/-- Leaving a loop assigns its result and its flag, and reads what the value reads. -/
theorem exitWith_leaves (target : LoopTarget) (value : Expr) (span : Option Span) :
    Leaves p target.assigned value.reads (exitWith target value span) ofStmts := by
  unfold exitWith
  split
  · rename_i exit hexit
    have hknown : ∀ x ∈ [exit.result, exit.flag], x ∈ target.assigned := by
      intro x hx
      simp [LoopTarget.assigned, hexit, hx]
    refine .of_extends (.pure ⟨.refl _, by simp [Footprint.none], fun x hx _ => .inr ?_,
      fun x hx _ => .inr (.inr ?_)⟩)
    · exact hknown x (by simpa [ofStmts, bindsOfAll, Stmt.binds] using hx)
    · simpa [ofStmts, outerReadsOfAll, outerReads, Expr.constant, Expr.reads, ownName?] using hx
  · exact .of_extends (.fail _)

/-- An argument of a self-call is put into a temporary. -/
theorem jumpArgument_leaves (h : self.Placing p) {arg : Form} (harg : arg.IsClear p)
    (place : Option Span) :
    Leaves p [] [] (jumpArgument self place arg) fun temp => ofStmts [temp.2] :=
  .of_extends (.bind (Leaves.fresh "recur" rfl).framed fun _ =>
    .bind (h.expr arg harg).framed fun _ => .pure (.of_eq (ofStmts_assign _ _ _).symm))

theorem jumpArgument_yields (place : Option Span) (arg : Form) :
    Yields (fun temp => temp.1 ∈ temp.2.binds) (jumpArgument self place arg) :=
  .after fun _ => .after fun _ => .pure List.mem_cons_self

theorem ofStmts_copies (place : Option Span) (copies : List (String × String × Stmt)) :
    ofStmts (copies.map fun (var, temp) => .assign var (.load temp.1) place)
      = ⟨[], copies.map (·.1), copies.map (·.2.1)⟩ := by
  induction copies with
  | nil => rfl
  | cons copy copies ih =>
    simp only [ofStmts, Footprint.mk.injEq] at ih
    simpa [ofStmts, definesOfAll, Stmt.defines, bindsOfAll, Stmt.binds, outerReadsOfAll, outerReads,
      ownName?, Expr.load, Expr.reads] using ih

/-- A self-call puts its arguments into temporaries, copies these into the variables of the loop and
binds the patterns again. The copies read only what the first step has bound. -/
theorem jump_leaves (h : self.Placing p) (target : LoopTarget) {args : List Form}
    (hargs : ∀ arg ∈ args, arg.IsClear p) (form : Form) :
    Leaves p target.assigned target.copied (jump self target form args) ofStmts := by
  unfold jump
  split
  · have htemps : Leaves p [] [] (args.mapM (jumpArgument self form.place?))
        (join fun temp => ofStmts [temp.2]) :=
      .mapM fun arg harg => jumpArgument_leaves h (hargs arg harg) _
    refine .of_extends (.bind_yields htemps.framed (.mapM fun arg _ => jumpArgument_yields _ arg)
      fun temps hbound => .pure ?_)
    have hargs : Covers p target.assigned target.copied (join (fun temp => ofStmts [temp.2]) temps)
        (ofStmts (temps.map (·.2))) := by
      rw [List.map_eq_flatMap]
      exact .flatMap _ _
    have hvars : Covers p target.assigned target.copied (ofStmts (temps.map (·.2)))
        (ofStmts (temps.map (·.2)) ++ ofStmts ((target.vars.zip temps).map fun (var, temp) =>
          .assign var (.load temp.1) form.place?)) := by
      rw [ofStmts_copies]
      refine .grow rfl (fun x hx _ => ?_) fun x hx _ => .inr (.inl ?_)
      · obtain ⟨⟨var, temp⟩, hcopy, rfl⟩ := List.mem_map.mp hx
        simp [LoopTarget.assigned, (List.of_mem_zip hcopy).1]
      · obtain ⟨⟨var, temp⟩, hcopy, rfl⟩ := List.mem_map.mp hx
        exact mem_bindsOfAll (List.mem_map_of_mem (List.of_mem_zip hcopy).2)
          (hbound temp (List.of_mem_zip hcopy).2)
    have hrebind (ss : List Stmt) : Covers p target.assigned target.copied (ofStmts ss)
        (ofStmts ss ++ ofStmts (Binding.assigns form.span? target.rebind)) := by
      rw [ofStmts_assigns]
      refine .grow rfl (fun x hx _ => ?_) fun x hx _ => .inr (.inr hx)
      exact List.mem_append.mpr (.inl (List.mem_append.mpr (.inr hx)))
    have hnext (ss : List Stmt) : Covers p target.assigned target.copied (ofStmts ss)
        (ofStmts ss ++ ofStmts [.next form.place?]) := .of_eq (append_none _).symm
    exact hargs.trans ((hvars.trans (.stmts _ _)).trans
      (((hrebind _).trans (.stmts _ _)).trans ((hnext _).trans (.stmts _ _))))
  · exact .of_extends (.fail _)

/-- All forms of a loop body but the last are statements, and the last one is a tail. -/
theorem loopBody_leaves (h : self.Placing p) (target : LoopTarget) :
    ∀ body : List Form, (∀ form ∈ body, form.IsClear p) →
      Leaves p target.assigned target.copied (loopBody self target body) ofStmts
  | [], _ => .of_extends ((exitWith_leaves target (.constant .nil) none).frame
      (fun _ hx => .inl hx) (by simp [Expr.constant, Expr.reads]))
  | [form], hbody => h.tail target form (hbody form List.mem_cons_self)
  | form :: other :: forms, hbody => by
    rw [List.forall_mem_cons] at hbody
    exact .of_extends (.bind (h.stmt form hbody.1).framed fun stmts =>
      .bind (loopBody_leaves h target (other :: forms) hbody.2).again fun rest =>
        .pure (.stmts stmts rest))

/-- A branch whose parts were emitted from the last one on. -/
theorem covers_branch (test : Expr) (yes no : List Stmt) (place : Option Span) :
    Covers p K L (ofStmts no ++ ofExpr test ++ ofStmts yes)
      (ofStmts [.branch test yes no place]) := by
  rw [ofStmts_branch, Footprint.append_assoc]
  exact .swap _ _

/-- A clause of a `case`, where the selector is known. -/
theorem covers_caseBranch {pre : Footprint} {selector : String} {keys : List Key}
    {yes no : List Stmt} {place : Option Span} (hselector : selector ∈ pre.binds ∨ selector ∈ L) :
    Covers p K L (pre ++ ofStmts no ++ ofStmts yes)
      (pre ++ ofStmts [.branch (caseTest selector keys) yes no place]) := by
  rw [ofStmts_branch, Footprint.append_assoc, Footprint.append_assoc]
  refine (Covers.append (.refl _) (.swap _ _)).trans (.insertReads fun x hx htemp => ?_)
  rw [reads_caseTest selector keys x hx htemp]
  exact .inr hselector

/-- The helpers of a test and of both branches are left together: they are defined at the top of the
`while` loop, before the branch. -/
theorem tailIf_leaves (h : self.Placing p) (target : LoopTarget) {args : List Form}
    (hargs : ∀ arg ∈ args, arg.IsClear p) (form : Form) :
    Leaves p target.assigned target.copied (tailIf self target form args) ofStmts := by
  have build {test yes no : Form} (htest : test.IsClear p) (hyes : yes.IsClear p)
      (hno : no.IsClear p) : Leaves p target.assigned target.copied
        (tailIf.build self target form test yes no) ofStmts :=
    .of_extends (.bind (h.expr test htest).framed fun _ =>
      .bind (h.tail target yes hyes).again fun _ => .bind (h.tail target no hno).again fun _ =>
        .pure (.of_eq (ofStmts_branch _ _ _ _).symm))
  unfold tailIf
  split
  · exact build (hargs _ (by simp)) (hargs _ (by simp)) isClear_nil
  · exact build (hargs _ (by simp)) (hargs _ (by simp)) (hargs _ (by simp))
  · exact .of_extends (.fail _)

theorem tailCond_leaves (h : self.Placing p) (target : LoopTarget) {args : List Form}
    (hargs : ∀ arg ∈ args, arg.IsClear p) (form : Form) :
    Leaves p target.assigned target.copied (tailCond self target form args) ofStmts := by
  refine .of_extends (.bind_yields (.still (condClauses_still form args))
    (condClauses_of_all isClear_nil hargs form) fun ⟨clauses, default⟩ hclauses => ?_)
  refine .bind (h.tail target default hclauses.2).again fun last => ?_
  refine .foldrM fun ⟨test, result⟩ hclause no => ?_
  have hclear := hclauses.1 _ hclause
  exact .bind (h.expr test hclear.1).framed fun _ => .bind (h.tail target result hclear.2).again
    fun _ => .pure (covers_branch _ _ _ _)

/-- The tests of a `case` read the temporary of the selector, which is assigned before them. -/
theorem tailCase_leaves (h : self.Placing p) (target : LoopTarget) {args : List Form}
    (hargs : ∀ arg ∈ args, arg.IsClear p) (form : Form) :
    Leaves p target.assigned target.copied (tailCase self target form args) ofStmts := by
  refine .of_extends (.bind_yields (.still (caseParts_still form args))
    (caseParts_of_all isClear_nil hargs form) fun parts ⟨hselector, hdefault, hclauses⟩ => ?_)
  refine .bind (Leaves.fresh "case" rfl).framed fun selector => ?_
  refine .bind (h.expr parts.selector hselector).framed fun value => ?_
  refine .bind (h.tail target parts.default hdefault).again fun last => ?_
  refine .bind (Extends.foldrM (R := fun no => ofBinds [selector] ++ ofExpr value ++ ofStmts no)
    fun ⟨keys, result⟩ hclause no => .bind (h.tail target result (hclauses _ hclause)).again
      fun yes => .pure ?_) fun stmts => .pure ?_
  · exact covers_caseBranch (.inl (by simp [ofBinds]))
  · refine .trans ?_ (.stmts [_] stmts)
    rw [ofStmts_assign]
    exact .refl _

/-- One binding of a `let`: helpers of the value and of the defaults come first, then the row of
assignments of the binder. -/
theorem letBlock_leaves (h : self.Placing p) {binder init : Form} (hbinder : binder.IsClear p)
    (hinit : init.IsClear p) (mode : BindMode) :
    Leaves p [] [] (collect do
      let value ← self.expr init
      expand self.expr mode binder value []) fun result =>
        (ofBindings result.1).after result.2 := by
  refine .collect (.of_extends (.bind (h.expr init hinit).framed fun value => ?_))
  have hexpand : Extends p [] [] (ofExpr value ++ ofBindings [])
      (expand self.expr mode binder value []) fun bs => ofExpr value ++ ofBindings bs :=
    expand_extends h.expr mode hbinder fun x hx _ => .inr (.inr hx)
  exact (hexpand.of_covers (.of_eq (append_none _).symm)).covers fun bs => .dropReads _ _

theorem letBindings_leaves (h : self.Placing p) {bindings : Form} (hbindings : bindings.IsClear p) :
    Leaves p [] [] (letBindings self bindings) ofStmts := by
  refine .of_extends (.bind_yields (.still (bindingPairs_still _ bindings))
    (bindingPairs_isClear hbindings) fun pairs hpairs => ?_)
  refine .bind (Leaves.mapM fun pair hpair => ?_).framed fun blocks => .pure (.flatten blocks)
  obtain ⟨binder, init⟩ := pair
  have hclear := hpairs _ hpair
  exact .of_extends (.bind (letBlock_leaves h hclear.1 hclear.2 .fresh).framed
    fun ⟨bs, helpers⟩ => .pure (.withHelpers (.of_eq (ofStmts_assigns _ bs).symm) helpers))

theorem tailLet_leaves (h : self.Placing p) (target : LoopTarget) {args : List Form}
    (hargs : ∀ arg ∈ args, arg.IsClear p) (form : Form) :
    Leaves p target.assigned target.copied (tailLet self target form args) ofStmts := by
  cases args with
  | nil => exact .of_extends (.fail _)
  | cons bindings body =>
    rw [List.forall_mem_cons] at hargs
    refine .inScope (.of_extends (.bind (letBindings_leaves h hargs.1).framed fun stmts =>
      .bind (loopBody_leaves h target body hargs.2).again fun rest => .pure (.stmts stmts rest))) ?_
    exact .bind (letBindings_keeps h.balanced bindings) fun _ =>
      .bind (loopBody_keeps h.balanced target body).weaken fun _ => .pure _

/-- Every operand but the last is put into a temporary, which the test and the exit of the loop
read. -/
theorem tailLogical_leaves (h : self.Placing p) (target : LoopTarget)
    (op : LogicalOp) (form : Form) :
    ∀ args : List Form, (∀ arg ∈ args, arg.IsClear p) →
      Leaves p target.assigned target.copied (tailLogical self target op form args) ofStmts
  | [], _ => by
    refine .of_extends ((exitWith_leaves target _ _).frame (fun _ hx => .inl hx) fun x hx _ => ?_)
    cases op <;> cases hx
  | [operand], hargs => h.tail target operand (hargs operand List.mem_cons_self)
  | operand :: other :: operands, hargs => by
    rw [List.forall_mem_cons] at hargs
    refine .of_extends (.bind (Leaves.fresh "test" rfl).framed fun temp => ?_)
    refine .bind (h.expr operand hargs.1).framed fun value => ?_
    refine .bind ((exitWith_leaves target (.load temp) form.span?).frame (fun _ hx => .inl hx)
      fun x hx _ => .inr (.inl ?_)) fun settled => ?_
    · exact List.mem_append.mpr (.inl hx)
    refine .bind (tailLogical_leaves h target op form (other :: operands) hargs.2).again
      fun undecided => .pure ?_
    refine .trans ?_ (.stmts [_] [_])
    rw [none_append, ofStmts_assign, ofStmts_branch, Footprint.append_assoc _ (ofStmts settled),
      Footprint.append_assoc _ (ofStmts settled)]
    refine .insertReads fun x hx _ => .inr (.inl ?_)
    cases op <;> exact List.mem_append.mpr (.inl hx)

/-! ### Whole loops -/

theorem ofBindings_singleton (target : String) (value : Expr) (span : Option Span) :
    ofBindings [⟨target, value, span⟩] = ofExpr value ++ ofBinds [target] := rfl

/-- The entry of a loop binds its variables one after the other. A pattern is bound through a
temporary of its own. -/
theorem loopTarget_leaves (h : self.Placing p) (mode : BindMode) {bindings : Form}
    (hbindings : bindings.IsClear p) :
    Leaves p [] [] (loopTarget self mode bindings) fun target => ofBindings target.inits := by
  refine .of_extends (.bind_yields (.still (bindingPairs_still _ bindings))
    (bindingPairs_isClear hbindings) fun pairs hpairs => ?_)
  refine Extends.foldlM (P := fun _ : LoopTarget => True)
    (R := fun target => ofBindings target.inits) trivial (fun _ _ _ _ _ _ _ _ => trivial)
    fun target _ ⟨binder, init⟩ hpair => ?_
  have hclear := hpairs _ hpair
  refine .bind (h.expr init hclear.2).framed fun value => ?_
  cases binder with
  | symbol s =>
    refine .bind (Leaves.binder (isTemp_symbol hclear.1) mode).framed fun var => .pure (.of_eq ?_)
    rw [ofBindings_append, ofBindings_singleton, Footprint.append_assoc]
  | vector items span =>
    refine .bind (Leaves.fresh "loop" rfl).framed fun var => ?_
    have hexpand : Extends p [] []
        (ofBindings target.inits ++ ofExpr value ++ ofBinds [var] ++ ofBindings [])
        (expand self.expr mode (.vector items span) (.load var) [])
        fun bs => ofBindings target.inits ++ ofExpr value ++ ofBinds [var] ++ ofBindings bs :=
      expand_extends h.expr mode hclear.1 fun x hx _ => .inr (.inl (List.mem_append.mpr (.inr hx)))
    refine .bind (hexpand.of_covers (.of_eq (append_none _).symm)) fun bs => .pure (.of_eq ?_)
    rw [ofBindings_append, ofBindings_append, ofBindings_singleton, ← Footprint.append_assoc]
  | _ => exact .fail _

/-- What is assigned and read again by a jump is bound before the loop. -/
structure Rebinds (target : LoopTarget) : Prop where
  vars : ∀ x ∈ target.vars, x ∈ target.inits.map (·.target)
  rebind : ∀ b ∈ target.rebind, b ∈ target.inits

theorem Rebinds.binds {target : LoopTarget} (h : Rebinds target) :
    ∀ x ∈ target.vars ++ (target.inits ++ target.rebind).map (·.target),
      x ∈ target.inits.map (·.target) := by
  intro x hx
  rcases List.mem_append.mp hx with hx | hx
  · exact h.vars x hx
  · obtain ⟨b, hb, rfl⟩ := List.mem_map.mp hx
    exact List.mem_map_of_mem ((List.mem_append.mp hb).elim id (h.rebind b))

theorem Rebinds.reads {target : LoopTarget} (h : Rebinds target) :
    ∀ x ∈ (target.inits ++ target.rebind).flatMap (·.value.reads),
      x ∈ target.inits.flatMap (·.value.reads) := by
  intro x hx
  obtain ⟨b, hb, hx⟩ := List.mem_flatMap.mp hx
  exact List.mem_flatMap.mpr ⟨b, (List.mem_append.mp hb).elim id (h.rebind b), hx⟩

/-- A jump binds nothing that the entry of the loop does not bind, and reads nothing else. -/
theorem loopTarget_rebinds (mode : BindMode) (bindings : Form) :
    Yields Rebinds (loopTarget self mode bindings) := by
  refine .after fun pairs => .foldlM ⟨by simp, by simp⟩ fun target htarget ⟨binder, init⟩ _ =>
    .after fun value => ?_
  cases binder with
  | symbol s =>
    refine .after fun var => .pure ⟨fun x hx => ?_, fun b hb => ?_⟩
    · simp only [List.map_append, List.mem_append] at hx ⊢
      exact hx.imp (htarget.vars x) (by simp)
    · exact List.mem_append.mpr (.inl (htarget.rebind b hb))
  | vector items span =>
    refine .after fun var => .after fun bs => .pure ⟨fun x hx => ?_, fun b hb => ?_⟩
    · simp only [List.map_append, List.mem_append] at hx ⊢
      exact .inl (hx.imp (htarget.vars x) (by simp))
    · simp only [List.mem_append] at hb ⊢
      exact hb.imp_left fun hb => .inl (htarget.rebind b hb)
  | _ => exact .fail _

/-- A whole loop defines its helpers inside of the `while`. Apart from temporaries of its own it
assigns names of `K` and reads names of `L`: those which its entry binds and reads. -/
theorem whileLoop_leaves (h : self.Placing p) (target : LoopTarget) {body : List Form}
    (hbody : ∀ form ∈ body, form.IsClear p) (span : Option Span)
    (hK : ∀ x ∈ target.vars ++ (target.inits ++ target.rebind).map (·.target), x ∈ K)
    (hL : ∀ x ∈ (target.inits ++ target.rebind).flatMap (·.value.reads), x ∈ L) :
    Leaves p K L (whileLoop self target body span) fun result => ofStmts result.1 := by
  refine .of_extends (.bind (Leaves.fresh "continue" rfl).framed fun flag => ?_)
  refine .bind (Leaves.fresh "result" rfl).framed fun result => ?_
  have hloop := (loopBody_leaves h { target with exit := some ⟨flag, result⟩ } body hbody).collect
  refine .bind (hloop.frame (fun x hx => ?_) fun x hx _ => .inl ?_) fun ⟨stmts, helpers⟩ =>
    .bind (.still (.report _)) fun _ => .pure ?_
  · simp only [LoopTarget.assigned, Option.map_some, Option.getD_some, List.mem_append] at hx
    rcases hx with (hx | hx) | hx
    · exact .inl (hK x (List.mem_append.mpr (.inl hx)))
    · exact .inl (hK x (by simp only [List.map_append, List.mem_append]; exact .inr (.inr hx)))
    · exact .inr (by simpa [ofBinds, Footprint.none, or_comm] using hx)
  · exact hL x (by rw [List.flatMap_append]; exact List.mem_append.mpr (.inr hx))
  · -- the loop reads its flag, and what is bound before it is known
    have hloop : Covers p K L (ofBinds [flag] ++ ofBinds [result] ++ (ofStmts stmts).after helpers)
        (ofBinds [flag] ++ ofBinds [result] ++ (ofReads [flag] ++ ofStmts (helpers ++ stmts))) :=
      (Covers.append (.refl _) (.helpers helpers stmts)).trans
        (.insertReads fun x hx _ => .inr (.inl (List.mem_append.mpr (.inl hx))))
    have hinits (a : Footprint) : Covers p K L a (ofBindings target.inits ++ a) := by
      refine (Covers.grow rfl (fun x hx _ => hK x ?_) fun x hx _ => .inr (.inr (hL x ?_))).trans
        (.swap _ _)
      · simp only [List.map_append, List.mem_append]
        exact .inr (.inl hx)
      · simp only [List.flatMap_append, List.mem_append]
        exact .inl hx
    refine (hloop.trans (hinits _)).trans (.trans (.append ?_ ?_) (.stmts _ _))
    · rw [ofStmts_assigns]
      exact .refl _
    · refine .trans (.of_eq ?_) (.trans (.append (.refl _) (.stmts [_] [_])) (.stmts [_] [_, _]))
      rw [ofStmts_assign, ofStmts_assign, ofStmts_loop, ← Footprint.append_assoc]
      rfl

/-- The result of a loop and the targets of its entry are assigned by its statements. -/
theorem whileLoop_yields (target : LoopTarget) (body : List Form) (span : Option Span) :
    Yields (fun result => result.2.result ∈ bindsOfAll result.1 ∧
      ∀ b ∈ target.inits, b.target ∈ bindsOfAll result.1) (whileLoop self target body span) := by
  refine .after fun flag => .after fun result => .after fun _ => .after fun _ => .pure ?_
  rw [bindsOfAll_append]
  refine ⟨List.mem_append.mpr (.inr ?_), fun b hb => List.mem_append.mpr (.inl ?_)⟩
  · simp [bindsOfAll, Stmt.binds]
  · exact mem_bindsOfAll (List.mem_map_of_mem hb) List.mem_cons_self

/-- A loop binds its variables itself. -/
theorem covers_inits {bs : List Binding} {ss : List Stmt} (h : ∀ b ∈ bs, b.target ∈ bindsOfAll ss) :
    Covers p K L (ofBindings bs ++ ofStmts ss) (ofStmts ss) :=
  .drop rfl (List.forall_mem_map.mpr h)

/-- The value of a variable of the code is returned. -/
theorem covers_ret {x : String} {ss : List Stmt} (hx : x ∈ bindsOfAll ss) (place : Option Span) :
    Covers p K L (ofStmts ss) (ofStmts (ss ++ [.ret (.load x) place])) := by
  refine .trans (.grow ?_ ?_ fun y hy _ => .inr (.inl ?_)) (.stmts _ [_])
  · rfl
  · exact fun _ h => nomatch h
  · rw [List.mem_singleton.mp hy]
    exact hx

/-! ### Functions -/

namespace Params

variable {q : Params} {form : Form}

/-- The patterns hold no temporaries, and each arrives in a parameter. -/
def ClearPatterns (p : String) (q : Params) : Prop :=
  ∀ pattern ∈ q.patterns, pattern.1.IsClear p ∧ pattern.2 ∈ q.vars

/-- A parameter has its own name, or that of a temporary if it is a pattern. -/
theorem bindParam_leaves (q : Params) (hform : ClearBinder p form) :
    Leaves p [] [] (q.bindParam form) fun result => ofBinds [result.1] := by
  refine .of_extends (.bind_yields (.still (.lift _)) (lift_yields _) fun pattern hpattern => ?_)
  cases pattern with
  | name s =>
    exact .bind (Leaves.binder (hform.name hpattern) .scoped).framed fun _ => .pure (.refl _)
  | _ => exact .bind (Leaves.fresh "arg" rfl).framed fun _ => .pure (.refl _)

theorem bindParam_yields (hform : ClearBinder p form) :
    Yields (fun result => ∀ pattern ∈ result.2, pattern ∈ q.patterns
      ∨ pattern.1.IsClear p ∧ pattern.2 = result.1) (q.bindParam form) := by
  refine .bind (lift_yields _) fun pattern hpattern => ?_
  -- only a vector is added to the patterns, so it is no name written together with a rest marker
  have hadded {items : List Form} {span : Span} (heq : form = .vector items span) (temp : String) :
      ∀ pattern ∈ q.patterns ++ [(form, temp)], pattern ∈ q.patterns
        ∨ pattern.1.IsClear p ∧ pattern.2 = temp := by
    subst heq
    intro pattern hmem
    rcases List.mem_append.mp hmem with hmem | hmem
    · exact .inl hmem
    · rw [List.mem_singleton.mp hmem]
      exact .inr ⟨hform.isClear_of_vector, rfl⟩
  cases pattern with
  | name s => exact .after fun _ => .pure fun _ hmem => .inl hmem
  | sequence _ =>
    obtain ⟨_, _, heq, -⟩ := Pattern.parse_of_ofForm_sequence hpattern
    exact .after fun temp => .pure (hadded heq temp)
  | table _ =>
    obtain ⟨_, _, _, heq, -⟩ := Pattern.parse_of_ofForm_table hpattern
    exact .after fun temp => .pure (hadded heq temp)

theorem addParam_extends (hrest : q.rest = none) (hform : ClearBinder p form) :
    Extends p K L (ofBinds q.vars) (q.addParam form) fun q' => ofBinds q'.vars :=
  .bind (bindParam_leaves q hform).framed fun ⟨_, _⟩ =>
    .pure (.ofBinds_of_mem (by simp [vars, hrest, ofBinds]))

theorem addParam_yields (hrest : q.rest = none) (hq : q.ClearPatterns p)
    (hform : ClearBinder p form) :
    Yields (fun q' => q'.rest = none ∧ q'.ClearPatterns p) (q.addParam form) := by
  refine .bind (bindParam_yields hform) fun ⟨name, patterns⟩ hpatterns =>
    .pure ⟨hrest, fun pattern hmem => ?_⟩
  rcases hpatterns pattern hmem with hmem | ⟨hclear, hname⟩
  · obtain ⟨hclear, hvar⟩ := hq pattern hmem
    refine ⟨hclear, ?_⟩
    simp only [vars, List.mem_append] at hvar ⊢
    exact hvar.imp_left .inl
  · exact ⟨hclear, by simp [vars, hname]⟩

theorem addRest_extends (hrest : q.rest = none) (hform : ClearBinder p form) (items : List Form) :
    Extends p K L (ofBinds q.vars) (q.addRest form items) fun q' => ofBinds q'.vars := by
  cases items with
  | nil =>
    exact .bind (bindParam_leaves q hform).framed fun ⟨_, _⟩ =>
      .pure (.ofBinds_of_mem (by simp [vars, hrest, ofBinds]))
  | cons other items => exact .fail _

theorem addRest_yields (hrest : q.rest = none) (hq : q.ClearPatterns p)
    (hform : ClearBinder p form) (items : List Form) :
    Yields (ClearPatterns p) (q.addRest form items) := by
  cases items with
  | nil =>
    refine .bind (bindParam_yields hform) fun ⟨name, patterns⟩ hpatterns =>
      .pure fun pattern hmem => ?_
    rcases hpatterns pattern hmem with hmem | ⟨hclear, hname⟩
    · obtain ⟨hclear, hvar⟩ := hq pattern hmem
      refine ⟨hclear, ?_⟩
      simp only [vars, hrest, Option.toList_none, List.append_nil] at hvar
      exact List.mem_append.mpr (.inl hvar)
    · exact ⟨hclear, by simp [vars, hname]⟩
  | cons other items => exact .fail _

/-- The parameter after a rest marker that it is written together with. -/
theorem clearBinder_fusedRest {s : Symbol} (h : (Form.symbol s).IsClear p)
    (hs : Pattern.isRestName s.name = true) : ClearBinder p (.symbol (Pattern.fusedRest s)) :=
  .inr ⟨_, rfl, by simpa using Pattern.spells_fusedRest h hs⟩

/-- Parameters are bound in order. A rest parameter ends the row, so that there is none before
it. -/
theorem addAll_extends (q : Params) (items : List Form) : q.rest = none → q.ClearPatterns p →
    (∀ item ∈ items, item.IsClear p) →
    Extends p K L (ofBinds q.vars) (q.addAll items) fun q' => ofBinds q'.vars := by
  fun_induction addAll q items with
  | case1 => exact fun _ _ _ => .pure (.refl _)
  | case2 => exact fun _ _ _ => .fail _
  | case3 q s _ _ param items =>
    exact fun hrest _ hitems => addRest_extends hrest (.inl (hitems param (by simp))) items
  | case4 q s items hs =>
    exact fun hrest _ hitems =>
      addRest_extends hrest (clearBinder_fusedRest (hitems _ List.mem_cons_self) hs) items
  | case5 q s items _ ih =>
    intro hrest hq hitems
    rw [List.forall_mem_cons] at hitems
    exact .bind_yields (addParam_extends hrest (.inl hitems.1))
      (addParam_yields hrest hq (.inl hitems.1)) fun q' hq' => ih q' hq'.1 hq'.2 hitems.2
  | case6 q item items _ ih =>
    intro hrest hq hitems
    rw [List.forall_mem_cons] at hitems
    exact .bind_yields (addParam_extends hrest (.inl hitems.1))
      (addParam_yields hrest hq (.inl hitems.1)) fun q' hq' => ih q' hq'.1 hq'.2 hitems.2

theorem addAll_yields (q : Params) (items : List Form) : q.rest = none → q.ClearPatterns p →
    (∀ item ∈ items, item.IsClear p) → Yields (ClearPatterns p) (q.addAll items) := by
  fun_induction addAll q items with
  | case1 => exact fun _ hq _ => .pure hq
  | case2 => exact fun _ _ _ => .fail _
  | case3 q s _ _ param items =>
    exact fun hrest hq hitems => addRest_yields hrest hq (.inl (hitems param (by simp))) items
  | case4 q s items hs =>
    exact fun hrest hq hitems =>
      addRest_yields hrest hq (clearBinder_fusedRest (hitems _ List.mem_cons_self) hs) items
  | case5 q s items _ ih =>
    intro hrest hq hitems
    rw [List.forall_mem_cons] at hitems
    exact .bind (addParam_yields hrest hq (.inl hitems.1)) fun q' hq' =>
      ih q' hq'.1 hq'.2 hitems.2
  | case6 q item items _ ih =>
    intro hrest hq hitems
    rw [List.forall_mem_cons] at hitems
    exact .bind (addParam_yields hrest hq (.inl hitems.1)) fun q' hq' =>
      ih q' hq'.1 hq'.2 hitems.2

theorem ofForm_leaves (hform : form.IsClear p) :
    Leaves p [] [] (ofForm form) fun q => ofBinds q.vars := by
  cases form with
  | vector items span =>
    exact .of_extends (addAll_extends {} items rfl (by simp [ClearPatterns])
      (Form.allSymbols_vector.mp hform))
  | _ => exact .of_extends (.fail _)

theorem ofForm_yields (hform : form.IsClear p) : Yields (ClearPatterns p) (ofForm form) := by
  cases form with
  | vector items span =>
    exact addAll_yields {} items rfl (by simp [ClearPatterns]) (Form.allSymbols_vector.mp hform)
  | _ => exact .fail _

end Params

/-- A function takes its parameters apart first. If it has self-calls, the rest is a loop over the
parameters. -/
theorem functionBody_leaves (h : self.Placing p) {params : Params}
    (hparams : params.ClearPatterns p) {body : List Form} (hbody : ∀ form ∈ body, form.IsClear p)
    (span : Option Span) (recurs : Bool) :
    Leaves p params.vars params.vars (functionBody self params body span recurs) ofStmts := by
  have hexpand {pattern : Form} {name : String} (hmem : (pattern, name) ∈ params.patterns)
      (given : List Binding) :
      Extends p params.vars params.vars (Footprint.none ++ ofBindings given)
        (expand self.expr .scoped pattern (.load name) given)
        fun bs => Footprint.none ++ ofBindings bs := by
    refine expand_extends h.expr .scoped (hparams _ hmem).1 fun x hx _ => .inl ?_
    rw [List.mem_singleton.mp hx]
    exact (hparams _ hmem).2
  have hentry : Extends p params.vars params.vars .none (entryBindings self params) ofBindings :=
    Extends.foldlM (P := fun _ => True) (R := ofBindings) trivial (fun _ _ _ _ _ _ _ _ => trivial)
      fun bindings _ ⟨pattern, name⟩ hpattern => hexpand hpattern bindings
  refine .of_extends (.bind hentry fun entry => ?_)
  have hassigns (ss : List Stmt) : Covers p params.vars params.vars (ofBindings entry ++ ofStmts ss)
      (ofStmts (Binding.assigns span entry ++ ss)) := by
    refine .trans ?_ (.stmts _ _)
    rw [ofStmts_assigns]
    exact .refl _
  cases recurs with
  | true =>
    let target : LoopTarget := { vars := params.vars, rebind := entry }
    have hloop : Leaves p (target.vars ++ entry.map (·.target)) (entry.flatMap (·.value.reads))
        (whileLoop self target body span) fun result => ofStmts result.1 :=
      whileLoop_leaves h target hbody span (fun _ hx => hx) fun _ hx => hx
    refine .bind_yields (hloop.frame (fun x hx => List.mem_append.mp hx) fun x hx _ =>
      .inr (.inr hx)) (whileLoop_yields target body span) fun ⟨stmts, exit⟩ hexit => .pure ?_
    rw [List.append_assoc]
    refine .trans (.append (.refl _) ?_) (hassigns _)
    exact covers_ret hexit.1 none
  | false =>
    exact .bind (returning_leaves h body hbody).framed fun stmts => .pure (hassigns stmts)

theorem ofStmts_withDoc (doc : Option String) (ss : List Stmt) :
    ofStmts (withDoc doc ss) = ofStmts ss := by
  cases doc with
  | none => rfl
  | some text =>
    simp [withDoc, ofStmts, definesOfAll, Stmt.defines, bindsOfAll, Stmt.binds, outerReadsOfAll,
      outerReads, ownName?, Expr.constant, Expr.reads]

/-- What a function defines and binds stays inside of it. -/
theorem functionScope_leaves (h : self.Placing p) (name : String) {params : Form}
    (hparams : params.IsClear p) {body : List Form} (hbody : ∀ form ∈ body, form.IsClear p)
    (span : Option Span) :
    Leaves p [] [] (inScope do
      let _ ← Compile.bind .scoped name
      let params ← Params.ofForm params
      let verdict ← analyze body
      let (stmts, helpers) ← collect (functionBody self params body span verdict.hasCalls)
      return (params, helpers ++ stmts))
      fun result => ofFunction result.1.names result.1.rest result.2 := by
  refine .inScope (.of_extends (.bind (.ownName name) fun _ => ?_)) ?_
  · refine .bind_yields (Params.ofForm_leaves hparams).framed (Params.ofForm_yields hparams)
      fun params hparams => .bind (.still (analyze_still body)) fun verdict => ?_
    have hbody := (functionBody_leaves h hparams hbody span verdict.hasCalls).collect
    refine .bind (hbody.frame (fun x hx => .inr hx) fun x hx _ => .inr (.inl hx))
      fun result => .pure ?_
    exact .append (.refl _) (.helpers result.2 result.1)
  · exact .bind (.binder _ name) fun _ => .bind (Params.ofForm_keeps params) fun params =>
      .bind (analyze_keeps body) fun _ =>
        .bind (.collect (functionBody_keeps h.balanced params body span _)) fun _ => .pure _

/-- The definition of a function has its own name among what is to be defined. -/
theorem function_extends (h : self.Placing p) (name : String) {params : Form}
    (hparams : params.IsClear p) {body : List Form} (hbody : ∀ form ∈ body, form.IsClear p)
    (span : Option Span) (doc : Option String) :
    Extends p K L (ofDefines [name]) (function self name params body span doc)
      fun s => ofStmts [s] := by
  have hscope := functionScope_leaves h name hparams hbody span
  refine .bind hscope.framed fun result => .pure (.trans ?_ covers_define)
  rw [ofFunction, ofFunction, ofStmts_withDoc]
  exact .swap _ _

theorem function_ownName (name : String) (params : Form) (body : List Form) (span : Option Span)
    (doc : Option String) :
    Yields (fun s => s.ownName? = some name) (function self name params body span doc) :=
  .after fun _ => .pure rfl

/-! ### Expressions -/

mutual

/-- Quoted data read constructors of the library only. -/
theorem reads_quoted : ∀ form : Form, ∀ x ∈ (quoted form).reads, isTemp p x = false
  | .const _ => by simp [quoted, Expr.constant, Expr.reads]
  | .symbol _ => by
    intro x hx
    rw [List.mem_singleton.mp hx]
    exact isTemp_of_noDigit (by decide)
  | .keyword k => reads_key (.keyword k)
  | .list items _ => reads_quotedAll items
  | .vector items _ => reads_quotedAll items
  | .map entries _ => reads_quotedEntries entries

theorem reads_quotedAll :
    ∀ forms : List Form, ∀ x ∈ Expr.readsOfAll (quotedAll forms), isTemp p x = false
  | [] => by simp [quotedAll, Expr.readsOfAll]
  | form :: forms =>
    List.forall_mem_append.mpr ⟨reads_quoted form, reads_quotedAll forms⟩

theorem reads_quotedEntries : ∀ entries : List (Form × Form),
    ∀ x ∈ Expr.readsOfEntries (quotedEntries entries), isTemp p x = false
  | [] => by simp [quotedEntries, Expr.readsOfEntries]
  | (key, value) :: entries =>
    List.forall_mem_append.mpr ⟨List.forall_mem_append.mpr ⟨reads_quoted key, reads_quoted value⟩,
      reads_quotedEntries entries⟩

end

theorem reads_placed (place : Option Span) (e : Expr) : (e.placed place).reads = e.reads := by
  cases place with
  | none => rfl
  | some _ => cases e <;> rfl

/-- An expression that reads no temporaries. -/
theorem covers_still {e : Expr} (h : ∀ x ∈ e.reads, isTemp p x = false) :
    Covers p K L .none (ofExpr e) :=
  .ofReads fun x hx htemp => by
    rw [h x hx] at htemp
    cases htemp

/-- A symbol reads the variable that its first part resolves to. -/
theorem symbolExpr_leaves {s : Symbol} (hs : (Form.symbol s).IsClear p) :
    Leaves p [] [] (symbolExpr s) ofExpr := by
  have hfields (place : Option Span) (fields : List String) (e : Expr) :
      (fields.foldl (fun value field => Expr.field value (Name.spell field) place) e).reads
        = e.reads := by
    induction fields generalizing e with
    | nil => rfl
    | cons field fields ih => exact ih _
  unfold symbolExpr
  dsimp only
  split
  · exact .of_extends (.fail _)
  · rename_i first fields hparts
    split
    · exact .of_extends (.fail _)
    · have hfirst : isTemp p (Name.spell first) = false := by
        have hmem : Name.spell first ∈ Name.targets s.name := by simp [Name.targets, hparts]
        simpa using List.all_eq_true.mp hs _ hmem
      refine .of_extends (.bind (Leaves.resolve hfirst).framed fun name => .pure (.of_eq ?_))
      rw [ofExpr, hfields]
      rfl

theorem ifExpr_leaves (h : self.Placing p) {args : List Form} (hargs : ∀ arg ∈ args, arg.IsClear p)
    (form : Form) : Leaves p [] [] (ifExpr self form args) ofExpr := by
  have build {test yes no : Form} (htest : test.IsClear p) (hyes : yes.IsClear p)
      (hno : no.IsClear p) : Leaves p [] [] (ifExpr.build self form test yes no) ofExpr :=
    .of_extends (.bind (h.expr test htest).framed fun _ => .bind (h.expr yes hyes).framed fun _ =>
      .bind (h.expr no hno).framed fun _ => .pure (.refl _))
  unfold ifExpr
  split
  · exact build (hargs _ (by simp)) (hargs _ (by simp)) isClear_nil
  · exact build (hargs _ (by simp)) (hargs _ (by simp)) (hargs _ (by simp))
  · exact .of_extends (.fail _)

theorem condExpr_leaves (h : self.Placing p) {args : List Form}
    (hargs : ∀ arg ∈ args, arg.IsClear p) (form : Form) :
    Leaves p [] [] (condExpr self form args) ofExpr := by
  refine .of_extends (.bind_yields (.still (condClauses_still form args))
    (condClauses_of_all isClear_nil hargs form) fun ⟨clauses, default⟩ hclauses => ?_)
  refine .bind (h.expr default hclauses.2).framed fun last => ?_
  refine Extends.foldrM (R := ofExpr) fun ⟨test, result⟩ hclause no => ?_
  have hclear := hclauses.1 _ hclause
  refine .bind (h.expr test hclear.1).framed fun test => .bind (h.expr result hclear.2).framed
    fun yes => .pure ?_
  rw [Footprint.append_assoc]
  exact .swap _ (ofExpr test ++ ofExpr yes)

/-- The arms of a `case` expression are branches that return. They read the selector, which is a
parameter of the helper around them. -/
theorem caseArms_leaves (h : self.Placing p) {parts : CaseParts}
    (hdefault : parts.default.IsClear p) (hclauses : ∀ clause ∈ parts.clauses, clause.2.IsClear p)
    (selector : String) (form : Form) :
    Leaves p [] [selector] (do
      let last ← self.expr parts.default
      parts.clauses.foldrM (fun (keys, result) no => do
        let yes ← self.expr result
        return [.branch (caseTest selector keys) [.ret yes none] no form.place?])
        [.ret last none]) ofStmts := by
  refine .of_extends (.bind (h.expr parts.default hdefault).framed fun last => ?_)
  refine (Extends.foldrM (R := ofStmts) fun clause hclause no => ?_).of_covers
    (.of_eq (ofStmts_ret last none).symm)
  refine .bind (h.expr clause.2 (hclauses _ hclause)).framed fun yes => .pure ?_
  have hbranch : Covers p [] [selector] (.none ++ ofStmts no ++ ofStmts [.ret yes none])
      (.none ++ ofStmts [.branch (caseTest selector clause.1) [.ret yes none] no form.place?]) :=
    covers_caseBranch (.inr List.mem_cons_self)
  rwa [ofStmts_ret yes none] at hbranch

/-- A `case` expression is a call of a helper that takes the selector. -/
theorem caseExpr_leaves (h : self.Placing p) {args : List Form}
    (hargs : ∀ arg ∈ args, arg.IsClear p) (form : Form) :
    Leaves p [] [] (caseExpr self form args) ofExpr := by
  refine .of_extends (.bind_yields (.still (caseParts_still form args))
    (caseParts_of_all isClear_nil hargs form) fun parts hparts => ?_)
  obtain ⟨hselector, hdefault, hclauses⟩ := hparts
  refine .bind (h.expr parts.selector hselector).framed fun value => ?_
  refine .bind (Leaves.fresh "case" rfl).framed fun selector => ?_
  have hstmts := caseArms_leaves h hdefault hclauses selector form
  refine .bind (hstmts.collect.frame (by simp) fun x hx _ => .inr (.inl ?_)) fun result => ?_
  · exact List.mem_append.mpr (.inr hx)
  · obtain ⟨stmts, helpers⟩ := result
    refine (callHelper_extends "case_fn" rfl [selector] [value] _ _).of_covers ?_
    rw [ofFunction, ← Footprint.append_assoc]
    refine .append (.of_eq ?_) (.helpers helpers stmts)
    simp [ofExpr, Expr.readsOfAll, none_append]

theorem logicalExpr_leaves (h : self.Placing p) (op : LogicalOp) {args : List Form}
    (hargs : ∀ arg ∈ args, arg.IsClear p) (form : Form) :
    Leaves p [] [] (logicalExpr self op form args) ofExpr := by
  unfold logicalExpr
  split
  · exact .of_extends (.pure (covers_still (by cases op <;> simp [Expr.constant, Expr.reads])))
  · exact h.expr _ (hargs _ List.mem_cons_self)
  · exact .of_extends (.bind (Leaves.mapM fun arg harg => h.expr arg (hargs arg harg)).framed
      fun operands => .pure (.of_eq (join_ofExpr operands)))

/-! ### Helpers -/

/-- Several forms in a `do` become the body of a helper without parameters. -/
theorem doExpr_leaves (h : self.Placing p) {args : List Form} (hargs : ∀ arg ∈ args, arg.IsClear p)
    (form : Form) : Leaves p [] [] (doExpr self form args) ofExpr := by
  unfold doExpr
  split
  · exact .of_extends (.pure (covers_still (by simp [Expr.constant, Expr.reads])))
  · exact h.expr _ (hargs _ List.mem_cons_self)
  · exact .of_extends (.bind (returning_leaves h _ hargs).collect.framed fun ⟨stmts, helpers⟩ =>
      (callHelper_extends "do" rfl [] [] _ _).of_covers (.helpers helpers stmts))

/-- A helper that is given names from outside under the same names. They are targets which its body
binds. -/
theorem callWithNames_extends {stem : String} (s : String) (hstem : stem = s ++ "_")
    {steps : List Binding.Step} {body : List Stmt}
    (hsteps : ∀ step ∈ steps, step.1 ∈ bindsOfAll body)
    (place : Option Span) :
    Extends p K L (ofStmts body) (callWithNames stem (Binding.readBeforeBound steps) body place)
      ofExpr := by
  have hparams : ∀ x ∈ Binding.readBeforeBound steps, x ∈ bindsOfAll body := by
    intro x hx
    obtain ⟨step, hstep, rfl⟩ := List.mem_map.mp (Binding.mem_readBeforeBound.mp hx).1
    exact hsteps step hstep
  have hargs (params : List String) : Expr.readsOfAll (params.map Expr.load) = params := by
    induction params with
    | nil => rfl
    | cons x params ih => simp [Expr.readsOfAll, Expr.load, Expr.reads, ih]
  refine (callHelper_extends s hstem _ _ body place).of_covers ?_
  rw [hargs, ofFunction, Option.toList_none, List.append_nil]
  refine (Covers.addBinds hparams).trans (.addReads fun x hx _ => .inr (.inl ?_))
  exact List.mem_append.mpr (.inl hx)

theorem letBinding_leaves (h : self.Placing p) {binding : Form × Form}
    (hclear : binding.1.IsClear p ∧ binding.2.IsClear p) :
    Leaves p [] [] (letBinding self binding) fun part => ofStmts part.1 :=
  .of_extends (.bind (letBlock_leaves h hclear.1 hclear.2 .scoped).framed fun ⟨bs, helpers⟩ =>
    .pure (.withHelpers (.of_eq (ofStmts_assigns _ bs).symm) helpers))

theorem mem_steps {helpers : List Stmt} {bs : List Binding} {step : Binding.Step}
    (h : step ∈ Binding.steps helpers bs) : step.1 ∈ bs.map (·.target) := by
  cases bs with
  | nil => cases h
  | cons b bs =>
    rcases List.mem_cons.mp h with rfl | h
    · exact List.mem_cons_self
    · obtain ⟨b', hb', rfl⟩ := List.mem_map.mp h
      exact List.mem_cons_of_mem _ (List.mem_map_of_mem hb')

theorem letBinding_yields (binding : Form × Form) :
    Yields (fun part => ∀ step ∈ part.2, step.1 ∈ bindsOfAll part.1) (letBinding self binding) := by
  refine .after fun ⟨bs, helpers⟩ => .pure fun step hstep => ?_
  obtain ⟨b, hb, htarget⟩ := List.mem_map.mp (mem_steps hstep)
  rw [bindsOfAll_append]
  refine List.mem_append.mpr (.inr (mem_bindsOfAll (List.mem_map_of_mem hb) ?_))
  exact htarget ▸ List.mem_cons_self

/-- A `let` expression is a helper whose local names are the bound names. Helpers of its values are
defined between its assignments, those of its body before the first form. -/
theorem letExpr_leaves (h : self.Placing p) {args : List Form} (hargs : ∀ arg ∈ args, arg.IsClear p)
    (form : Form) : Leaves p [] [] (letExpr self form args) ofExpr := by
  cases args with
  | nil => exact .of_extends (.fail _)
  | cons bindings body =>
    rw [List.forall_mem_cons] at hargs
    refine .of_extends (.bind_yields
      (P := fun result => ∀ step ∈ result.2, step.1 ∈ bindsOfAll result.1)
      (Leaves.framed (show Leaves p [] [] _ (fun result => ofStmts result.1) from ?_)) (.inScope ?_)
      fun ⟨stmts, steps⟩ hsteps => callWithNames_extends "let" rfl hsteps _)
    · refine .inScope (.of_extends (.bind_yields (.still (bindingPairs_still _ bindings))
        (bindingPairs_isClear hargs.1) fun pairs hpairs => ?_)) ?_
      · refine .bind (Leaves.mapM fun binding hbinding =>
          letBinding_leaves h (hpairs binding hbinding)).framed fun parts => ?_
        refine .bind (returning_leaves h body hargs.2).collect.framed fun ⟨stmts, helpers⟩ =>
          .pure ?_
        rw [List.append_assoc]
        exact (Covers.append (.flatMap _ parts) (.helpers helpers stmts)).trans (.stmts _ _)
      · exact .bind (bindingPairs_keeps _ bindings) fun _ =>
          .bind (.mapM fun binding _ => letBinding_keeps h.balanced binding) fun _ =>
            .bind (.collect (returning_keeps h.balanced body)) fun ⟨_, _⟩ => .pure _
    · refine .after fun pairs => .bind (.mapM fun binding _ => letBinding_yields binding)
        fun parts hparts => .after fun ⟨stmts, helpers⟩ => .pure fun step hstep => ?_
      obtain ⟨part, hpart, hmem⟩ := List.mem_flatMap.mp hstep
      rw [List.append_assoc, bindsOfAll_append]
      refine List.mem_append.mpr (.inl ?_)
      exact bindsOfAll_flatMap hpart (hparts part hpart step hmem)

/-- The helpers of the initializers and those of the loop stand together before the loop. -/
theorem loopExpr_leaves (h : self.Placing p) {args : List Form}
    (hargs : ∀ arg ∈ args, arg.IsClear p)
    (form : Form) : Leaves p [] [] (loopExpr self form args) ofExpr := by
  cases args with
  | nil => exact .of_extends (.fail _)
  | cons bindings body =>
    rw [List.forall_mem_cons] at hargs
    refine .of_extends (.bind (.still (analyze_still body)) fun _ => .bind_yields
      (P := fun result => ∀ step ∈ result.2, step.1 ∈ bindsOfAll result.1)
      (Leaves.framed (show Leaves p [] [] _ (fun result => ofStmts result.1) from ?_)) (.inScope ?_)
      fun ⟨stmts, steps⟩ hsteps => callWithNames_extends "loop" rfl hsteps _)
    · refine .inScope (Leaves.collect_both
        (g := fun init loop => (init.2 ++ loop.2 ++ loop.1.1 ++ [.ret (.load loop.1.2.result) none],
          Binding.steps init.2 init.1.inits))
        (loopTarget_leaves h .scoped hargs.1) (loopTarget_rebinds .scoped bindings)
        (fun target htarget => whileLoop_leaves h target hargs.2 form.span? ?_ ?_)
        (fun target _ => whileLoop_yields target body form.span?) ?_) ?_
      · exact htarget.binds
      · exact fun x hx => List.mem_append.mpr (.inr (htarget.reads x hx))
      · intro target hs ⟨stmts, exit⟩ hs' _ hloop
        rw [List.append_assoc]
        exact .withHelpers ((covers_inits hloop.2).trans (covers_ret hloop.1 none)) _
      · exact .bind (.collect (loopTarget_keeps h.balanced _ bindings)) fun ⟨target, _⟩ =>
          .bind (.collect (whileLoop_keeps h.balanced target body _).weaken) fun ⟨⟨_, _⟩, _⟩ =>
            .pure _
    · refine .after fun ⟨target, initHelpers⟩ => .bind (.collect (whileLoop_keeps h.balanced target
        body _) (whileLoop_yields target body _)) fun ⟨⟨stmts, exit⟩, helpers⟩ ⟨hloop, _⟩ =>
          .pure fun step hstep => ?_
      obtain ⟨b, hb, htarget⟩ := List.mem_map.mp (mem_steps hstep)
      simp only [bindsOfAll_append, List.mem_append]
      exact .inl (.inr (htarget ▸ hloop.2 b hb))

/-- A function is defined before the statement that it stands in, under its own name or a temporary,
and its name stands in place. -/
theorem fnExpr_leaves (h : self.Placing p) {args : List Form} (hargs : ∀ arg ∈ args, arg.IsClear p)
    (form : Form) : Leaves p [] [] (fnExpr self form args) ofExpr := by
  have define (name : String) {args : List Form} (hargs : ∀ arg ∈ args, arg.IsClear p) :
      Extends p [] [] (ofDefines [name]) (fnExpr.define self form name args) ofExpr := by
    cases args with
    | nil => exact .fail _
    | cons params body =>
      rw [List.forall_mem_cons] at hargs
      exact .bind_yields (function_extends h name hargs.1 hargs.2 _ _) (function_ownName _ _ _ _ _)
        fun helper hname => .bind (.hoist hname .none) fun _ => .pure (.refl _)
  unfold fnExpr
  split
  · rw [List.forall_mem_cons] at hargs
    exact .of_extends ((define _ hargs.2).of_covers (.ofDefines (isTemp_symbol hargs.1)))
  · exact .of_extends (.bind (Leaves.freshHelper "fn" rfl).framed fun name => define name hargs)

/-! ### Operators and calls -/

theorem binaryExpr_leaves (h : self.Placing p) (op : BinaryOp) (head : String) {args : List Form}
    (hargs : ∀ arg ∈ args, arg.IsClear p) (form : Form) :
    Leaves p [] [] (binaryExpr self op head form args) ofExpr := by
  unfold binaryExpr
  split
  · exact .of_extends (.fail _)
  · have hoperand := h.expr _ (hargs _ List.mem_cons_self)
    split
    · exact .of_extends (.bind hoperand.framed fun _ => .pure (.refl _))
    · exact hoperand
  · rw [List.forall_mem_cons] at hargs
    exact .of_extends (.bind (h.expr _ hargs.1).framed fun first =>
      Extends.foldlM (P := fun _ => True) (R := ofExpr) trivial (fun _ _ _ _ _ _ _ _ => trivial)
        fun left _ operand hoperand => .bind (h.expr operand (hargs.2 operand hoperand)).framed
          fun right => .pure (.refl _))

theorem compareExpr_leaves (h : self.Placing p) (op : CompareOp) (head : String) {args : List Form}
    (hargs : ∀ arg ∈ args, arg.IsClear p) (form : Form) :
    Leaves p [] [] (compareExpr self op head form args) ofExpr := by
  unfold compareExpr
  split
  · rw [List.forall_mem_cons] at hargs
    refine .of_extends (.bind (h.expr _ hargs.1).framed fun first => .bind (Leaves.mapM
      fun operand hoperand => h.expr operand (hargs.2 operand hoperand)).framed fun others =>
        .pure ?_)
    rw [join_ofExpr]
    exact .refl _
  · exact .of_extends (.fail _)

theorem callExpr_leaves (h : self.Placing p) {head : Form} (hhead : head.IsClear p)
    {args : List Form} (hargs : ∀ arg ∈ args, arg.IsClear p) (form : Form) :
    Leaves p [] [] (callExpr self form head args) ofExpr := by
  refine .of_extends (.bind (h.expr head hhead).framed fun callee => .bind (Leaves.mapM
    fun arg harg => h.expr arg (hargs arg harg)).framed fun args => .pure ?_)
  rw [join_ofExpr]
  exact .refl _

/-- Every special form as an expression, by the lemma of its construct. -/
theorem specialExpr_leaves (h : self.Placing p) (special : Special) (head : String)
    {args : List Form} (hargs : ∀ arg ∈ args, arg.IsClear p) (form : Form) :
    Leaves p [] [] (specialExpr self special head form args) ofExpr := by
  unfold specialExpr
  split
  · exact ifExpr_leaves h hargs form
  · exact condExpr_leaves h hargs form
  · exact caseExpr_leaves h hargs form
  · exact doExpr_leaves h hargs form
  · exact letExpr_leaves h hargs form
  · exact loopExpr_leaves h hargs form
  · exact fnExpr_leaves h hargs form
  · exact logicalExpr_leaves h _ hargs form
  · exact logicalExpr_leaves h _ hargs form
  · split
    · exact .of_extends (.bind (h.expr _ (hargs _ List.mem_cons_self)).framed fun _ =>
        .pure (.refl _))
    · exact .of_extends (.fail _)
  · split
    · refine .of_extends (.pure (covers_still ?_))
      rw [reads_placed]
      exact reads_quoted _
    · exact .of_extends (.fail _)
  all_goals exact .of_extends (.fail _)

theorem reads_zip {keys values : List Expr} {x : String}
    (h : x ∈ Expr.readsOfEntries (keys.zip values)) :
    x ∈ Expr.readsOfAll keys ++ Expr.readsOfAll values := by
  induction keys generalizing values with
  | nil => cases h
  | cons key keys ih =>
    cases values with
    | nil => cases h
    | cons value values =>
      have hrest : x ∈ Expr.readsOfEntries (keys.zip values) → _ := ih
      simp only [List.zip_cons_cons, Expr.readsOfEntries, Expr.readsOfAll, List.mem_append]
        at h hrest ⊢
      tauto

/-- One step of lowering as an expression, by the kind of form. -/
theorem exprStep_leaves (h : self.Placing p) {form : Form} (hform : form.IsClear p) :
    Leaves p [] [] (exprStep self form) ofExpr := by
  have headed {head : Symbol} (hhead : (Form.symbol head).IsClear p) {args : List Form}
      (hargs : ∀ arg ∈ args, arg.IsClear p) :
      Leaves p [] [] (headedExpr self form head args) ofExpr := by
    unfold headedExpr
    split
    · exact specialExpr_leaves h _ _ hargs form
    · exact binaryExpr_leaves h _ _ hargs form
    · exact compareExpr_leaves h _ _ hargs form
    · exact callExpr_leaves h hhead hargs form
  unfold exprStep
  split
  · exact .of_extends (.pure (covers_still (by simp [Expr.constant, Expr.reads])))
  · exact symbolExpr_leaves hform
  · refine .of_extends (.pure (covers_still ?_))
    rw [reads_placed]
    exact reads_key _
  · have hitems := Form.allSymbols_vector.mp hform
    exact .of_extends (.bind (Leaves.mapM fun item hitem => h.expr item (hitems item hitem)).framed
      fun items => .pure (.of_eq (join_ofExpr items)))
  · have hentries := Form.allSymbols_map.mp hform
    refine .of_extends (.bind (Leaves.mapM fun entry hentry =>
      h.expr _ (hentries entry hentry).1).framed fun keys => .bind (Leaves.mapM
        fun entry hentry => h.expr _ (hentries entry hentry).2).framed fun values => .pure ?_)
    rw [join_ofExpr, join_ofExpr]
    exact .ofReads_of_mem fun x hx => reads_zip hx
  · exact .of_extends (.pure (covers_still (by simp [Expr.constant, Expr.reads])))
  · have hitems := List.forall_mem_cons.mp (Form.allSymbols_list.mp hform)
    exact headed hitems.1 hitems.2
  · have hitems := List.forall_mem_cons.mp (Form.allSymbols_list.mp hform)
    exact callExpr_leaves h hitems.1 hitems.2 _

/-! ### Statements and tails -/

theorem stmts_leaves (h : self.Placing p) {forms : List Form}
    (hforms : ∀ form ∈ forms, form.IsClear p) : Leaves p [] [] (stmts self forms) ofStmts :=
  .of_extends (.bind (Leaves.mapM fun form hform => h.stmt form (hforms form hform)).framed
    fun blocks => .pure (.flatten blocks))

theorem ofStmts_block (ss : List Stmt) : ofStmts (block ss) = ofStmts ss := by
  unfold block
  split
  · rename_i hempty
    rw [List.isEmpty_iff.mp hempty]
    rfl
  · rfl

theorem ifStmt_leaves (h : self.Placing p) {args : List Form} (hargs : ∀ arg ∈ args, arg.IsClear p)
    (form : Form) : Leaves p [] [] (ifStmt self form args) ofStmts := by
  unfold ifStmt
  split
  · refine .of_extends (.bind (h.expr _ (hargs _ (by simp))).framed fun test =>
      .bind (h.stmt _ (hargs _ (by simp))).framed fun yes => .pure (.of_eq ?_))
    rw [ofStmts_branch, ofStmts_block]
    exact (append_none _).symm
  · refine .of_extends (.bind (h.expr _ (hargs _ (by simp))).framed fun test =>
      .bind (h.stmt _ (hargs _ (by simp))).framed fun yes =>
        .bind (h.stmt _ (hargs _ (by simp))).framed fun no => .pure (.of_eq ?_))
    rw [ofStmts_branch, ofStmts_block]
    rfl
  · exact .of_extends (.fail _)

theorem defnStmt_leaves (h : self.Placing p) {args : List Form}
    (hargs : ∀ arg ∈ args, arg.IsClear p) (form : Form) :
    Leaves p [] [] (defnStmt self form args) ofStmts := by
  have define {s : Symbol} (hs : (Form.symbol s).IsClear p) {params : Form}
      (hparams : params.IsClear p) {body : List Form} (hbody : ∀ form ∈ body, form.IsClear p)
      (doc : Option String) : Leaves p [] []
        (do return [← function self (Name.spell s.name) params body form.span? doc]) ofStmts :=
    .of_extends (.bind ((function_extends h _ hparams hbody _ doc).of_covers
      (.ofDefines (isTemp_symbol hs))) fun _ => .pure (.refl _))
  unfold defnStmt
  split
  · simp only [List.forall_mem_cons] at hargs
    exact define hargs.1 hargs.2.2.1 hargs.2.2.2 _
  · simp only [List.forall_mem_cons] at hargs
    exact define hargs.1 hargs.2.1 hargs.2.2 _
  · exact .of_extends (.fail _)

/-- A loop in a block: what its entry and its body define stands in the block. -/
theorem loopStmt_leaves (h : self.Placing p) {args : List Form}
    (hargs : ∀ arg ∈ args, arg.IsClear p) (form : Form) :
    Leaves p [] [] (loopStmt self form args) ofStmts := by
  cases args with
  | nil => exact .of_extends (.fail _)
  | cons bindings body =>
    rw [List.forall_mem_cons] at hargs
    refine .of_extends (.bind (.still (analyze_still body)) fun _ => ?_)
    show Extends p [] [] .none _ fun ss => .none ++ ofStmts ss
    refine (Leaves.inScope (.of_extends ?_) ?_).framed
    · refine .bind_yields (loopTarget_leaves h .fresh hargs.1).framed
        (loopTarget_rebinds .fresh bindings)
        fun target htarget => ?_
      have hloop := whileLoop_leaves h target hargs.2 form.span? htarget.binds htarget.reads
      exact .bind_yields (hloop.frame (fun x hx => .inr hx) fun x hx _ => .inr (.inr hx))
        (whileLoop_yields target body _) fun result hresult => .pure (covers_inits hresult.2)
    · exact .bind (loopTarget_keeps h.balanced _ _) fun _ =>
        .bind (whileLoop_keeps h.balanced _ _ _).weaken fun _ => .pure _

/-- One step of lowering as a statement, before its helpers are put in front of it. -/
theorem bareStmt_leaves (h : self.Placing p) {form : Form} (hform : form.IsClear p) :
    Leaves p [] [] (bareStmt self form) ofStmts := by
  have expr : Leaves p [] [] (exprStmt self form) ofStmts :=
    .of_extends (.bind (exprStep_leaves h hform).framed fun value =>
      .pure (.of_eq (ofStmts_eval value _).symm))
  unfold bareStmt
  split
  · have hargs := (List.forall_mem_cons.mp (Form.allSymbols_list.mp hform)).2
    split
    · exact ifStmt_leaves h hargs _
    · split
      · exact .of_extends (.pure (.refl _))
      · exact stmts_leaves h hargs
    · unfold defStmt
      split
      · exact .of_extends (destructure_extends h.expr (hargs _ (by simp)) (.constant .nil) _)
      · exact .of_extends (.bind (h.expr _ (hargs _ (by simp))).framed fun value =>
          destructure_extends h.expr (hargs _ (by simp)) value _)
      · exact .of_extends (.fail _)
    · exact defnStmt_leaves h hargs _
    · unfold letStmt
      split
      · exact .of_extends (.fail _)
      · rw [List.forall_mem_cons] at hargs
        refine .inScope (.of_extends (.bind (letBindings_leaves h hargs.1).framed fun head =>
          .bind (stmts_leaves h hargs.2).framed fun rest => .pure (.stmts head rest))) ?_
        exact .bind (letBindings_keeps h.balanced _) fun _ =>
          .bind (stmts_keeps h.balanced _).weaken fun _ => .pure _
    · exact loopStmt_leaves h hargs _
    · exact .of_extends (.fail _)
    · exact expr
  · exact expr

/-- One step of lowering in the tail of a loop. -/
theorem tailStep_leaves (h : self.Placing p) (target : LoopTarget) {form : Form}
    (hform : form.IsClear p) :
    Leaves p target.assigned target.copied (tailStep self target form) ofStmts := by
  have exit : Leaves p target.assigned target.copied (exitStep self target form) ofStmts :=
    .of_extends (.bind (exprStep_leaves h hform).framed fun value =>
      ((exitWith_leaves target value _).frame (fun _ hx => .inl hx) fun _ hx _ =>
        .inr (.inr hx)).covers fun _ => .dropReads _ _)
  unfold tailStep
  split
  · have hargs := (List.forall_mem_cons.mp (Form.allSymbols_list.mp hform)).2
    split
    · exact jump_leaves h target hargs _
    · split
      · exact tailIf_leaves h target hargs _
      · exact tailCond_leaves h target hargs _
      · exact tailCase_leaves h target hargs _
      · exact tailLet_leaves h target hargs _
      · exact loopBody_leaves h target _ hargs
      · exact tailLogical_leaves h target _ _ _ hargs
      · exact tailLogical_leaves h target _ _ _ hargs
      · exact exit
  · exact exit

/-- What holds of the parts of a form in every position holds of the form. -/
theorem Placing.step (h : self.Placing p) : self.step.Placing p where
  balanced := h.balanced.step
  expr _ hform := exprStep_leaves h hform
  stmt _ hform := .of_extends (.bind (bareStmt_leaves h hform).collect.framed
    fun ⟨stmts, helpers⟩ => .pure (.helpers helpers stmts))
  tail target _ hform := tailStep_leaves h target hform

/-- The lowering of forms of any depth leaves its helpers and variables in order. -/
theorem upTo_placing : ∀ n : Nat, (upTo n).Placing p
  | 0 => ⟨upTo_balanced 0, fun _ _ => .of_extends (.fail _), fun _ _ => .of_extends (.fail _),
      fun _ _ _ => .of_extends (.fail _)⟩
  | n + 1 => (upTo_placing n).step

end Lowering

end TailLisp
