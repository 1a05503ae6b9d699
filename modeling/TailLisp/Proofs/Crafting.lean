import TailLisp.Proofs.Material

/-!
# TailLisp.Proofs.Crafting

**Lowering works with the material it is given.** The module goes through the constructs. Each of
them puts code together from the code of its parts, from places and names of its form and from new
temporaries; if a material covers these, the code is made of it (`Lowering.upTo_crafted`), and so is
the program of a source (`Program.compile_madeOf`).

The forms are asked for a property `P` that the material covers, outside of quoted forms or
everywhere (`deep`).
-/

namespace TailLisp

/-- A key is a constant or a call of the library. -/
theorem Key.madeOf_expr {M : Material} {P : Form → Prop} (hM : M.Covers P) (key : Key) :
    key.expr.MadeOf M := by
  cases key with
  | const c => exact Expr.madeOf_constant c
  | keyword k =>
    exact Expr.madeOf_callOf (hM.library _ (by simp [libraryNames]))
      (List.forall_mem_singleton.mpr (Expr.madeOf_constant _))

namespace Special

theorem ne_quote {name : String} {special : Special} (h : ofName? name = some special)
    (hspecial : special ≠ .quoteForm) : name ≠ "quote" := by
  rintro rfl
  exact hspecial (Option.some.inj h).symm

theorem ne_quote_of_none {name : String} (h : ofName? name = none) : name ≠ "quote" := by
  rintro rfl
  cases h

end Special

namespace Lowering

open Compile Stmt

variable {M : Material} {deep : Bool} {P : Form → Prop} {self : Lowering}

/-- In every position, forms that have the property `P` throughout are lowered to code that is made
of the material. -/
structure Crafted (M : Material) (deep : Bool) (P : Form → Prop) (lowering : Lowering) : Prop where
  expr : ∀ form : Form, form.Throughout deep P → Crafts M (Expr.MadeOf M) (lowering.expr form)
  stmt : ∀ form : Form, form.Throughout deep P → Crafts M (MadeOfAll M {}) (lowering.stmt form)
  tail : ∀ {target : LoopTarget} (form : Form), target.MadeOf M → form.Throughout deep P →
    Crafts M (TailOf M) (lowering.tail target form)

/-! ### Common parts -/

/-- Binders and values of a binding vector are parts of the form. -/
theorem bindingPairs_crafts {head : BindingHead} {bindings : Form}
    (h : bindings.Throughout deep P) :
    Crafts M (fun pairs => ∀ pair ∈ pairs, pair.1.Throughout deep P ∧ pair.2.Throughout deep P)
      (bindingPairs head bindings) := by
  refine Crafts.still (bindingPairs_still head bindings)
    (bindingPairs_of_all fun items span heq => ?_)
  subst heq
  exact (Form.throughout_vector.mp h).2

/-- The names among the variables of a loop are the ones that it binds unchecked. -/
theorem loopPairs_crafts {bindings : Form} (h : bindings.Throughout deep P) {body : List Form}
    (hunchecked : ∀ s ∈ Special.loopForm.unchecked (bindings :: body),
      M.Binds (Name.spell s.name)) :
    Crafts M (fun pairs => ∀ pair ∈ pairs, pair.1.Throughout deep P ∧ pair.2.Throughout deep P ∧
        ∀ s, pair.1 = .symbol s → M.Binds (Name.spell s.name))
      (bindingPairs .loopForm bindings) := by
  unfold bindingPairs
  split
  · split
    · rename_i items span _ pairs hpairs
      refine .pure fun pair hpair => ?_
      have hitems := (Form.throughout_vector.mp h).2
      have hmem := Form.mem_of_pairUp hpairs hpair
      refine ⟨hitems _ hmem.1, hitems _ hmem.2, fun s hs => hunchecked s ?_⟩
      rw [Special.unchecked, hpairs]
      exact List.mem_filterMap.mpr ⟨pair, hpair, by obtain ⟨_, _⟩ := pair; cases hs; rfl⟩
    · exact .fail _
  · exact .fail _

theorem condClauses_crafts (hM : M.Covers P) {args : List Form}
    (hargs : ∀ arg ∈ args, arg.Throughout deep P) (form : Form) :
    Crafts M (fun result => (∀ clause ∈ result.1,
        clause.1.Throughout deep P ∧ clause.2.Throughout deep P) ∧ result.2.Throughout deep P)
      (condClauses form args) :=
  have hnil : Form.nil.Throughout deep P := hM.nil
  Crafts.still (condClauses_still form args) (condClauses_of_all hnil hargs form)

/-- A key of a `case` stands for at least one alternative. -/
theorem caseKeys?_ne_nil {form : Form} {keys : List Key} (h : caseKeys? form = some keys) :
    keys ≠ [] := by
  unfold caseKeys? at h
  split at h
  · cases h
  · rename_i items _ hitems
    rintro rfl
    cases items with
    | nil => exact hitems rfl
    | cons item items =>
      obtain ⟨key, -, h⟩ := Option.bind_eq_some_iff.mp (List.mapM_cons.symm.trans h)
      obtain ⟨keys, -, h⟩ := Option.bind_eq_some_iff.mp h
      cases h
  · obtain ⟨key, -, rfl⟩ := Option.map_eq_some_iff.mp h
    simp

/-- Every clause of a `case` has a key. -/
theorem caseParts_keys (form : Form) (args : List Form) :
    Yields (fun parts => ∀ clause ∈ parts.clauses, clause.1 ≠ []) (caseParts form args) := by
  cases args with
  | nil => exact .fail _
  | cons selector rest =>
    refine .bind (.mapM (Q := fun clause => clause.1 ≠ []) fun clause _ => ?_) fun _ hclauses =>
      .pure hclauses
    unfold caseClause
    split
    · exact .pure (caseKeys?_ne_nil ‹_›)
    · exact .fail _

theorem caseParts_crafts (hM : M.Covers P) {args : List Form}
    (hargs : ∀ arg ∈ args, arg.Throughout deep P) (form : Form) :
    Crafts M (fun parts => parts.selector.Throughout deep P ∧ parts.default.Throughout deep P ∧
        ∀ clause ∈ parts.clauses, clause.1 ≠ [] ∧ clause.2.Throughout deep P)
      (caseParts form args) := by
  have hnil : Form.nil.Throughout deep P := hM.nil
  refine Crafts.still (caseParts_still form args) fun c parts c' hrun => ?_
  obtain ⟨hselector, hdefault, hclauses⟩ := caseParts_of_all hnil hargs form hrun
  exact ⟨hselector, hdefault, fun clause hclause =>
    ⟨caseParts_keys form args hrun clause hclause, hclauses clause hclause⟩⟩

/-- A temporary that a binder has no part in. -/
theorem fresh_crafts (hM : M.Covers P) {stem : String} (hstem : stem ∈ stems) :
    Crafts M M.target (fresh stem) := Crafts.fresh (hM.tempers stem hstem)

/-- What may be bound may be read. -/
theorem madeOf_load_target (hM : M.Covers P) {x : String} (hx : M.target x) :
    (Expr.load x).MadeOf M := Expr.madeOf_load (hM.bound hx)

/-- A helper is a definition under a new temporary, made of the body, and what stays is a call. -/
theorem callHelper_crafts (hM : M.Covers P) {params : List String}
    (hparams : ∀ x ∈ params, M.target x) {args : List Expr} (hargs : ∀ e ∈ args, e.MadeOf M)
    {body : List Stmt} (hbody : ReturnOf M body) {place : Option Span} (hplace : M.Admits place)
    {stem : String} (hstem : stem ∈ stems) :
    Crafts M (Expr.MadeOf M) (callHelper stem params args body place) :=
  .bind (fresh_crafts hM hstem) fun _ hname =>
    .bind (Crafts.hoist ⟨hname, by simpa using hparams, hbody.made, hplace, hbody.nonempty⟩)
      fun _ _ => .pure ⟨madeOf_load_target hM hname, Expr.madeOfAll_iff.mpr hargs, hplace⟩

theorem callWithNames_crafts (hM : M.Covers P) {params : List String}
    (hparams : ∀ x ∈ params, M.target x) {body : List Stmt} (hbody : ReturnOf M body)
    {place : Option Span} (hplace : M.Admits place) {stem : String} (hstem : stem ∈ stems) :
    Crafts M (Expr.MadeOf M) (callWithNames stem params body place) :=
  callHelper_crafts hM hparams
    (List.forall_mem_map.mpr fun x hx => madeOf_load_target hM (hparams x hx)) hbody hplace hstem

/-- A body is made of statements and of a return that ends it. -/
theorem returning_crafts (hM : M.Covers P) (h : self.Crafted M deep P) :
    ∀ forms : List Form, (∀ form ∈ forms, form.Throughout deep P) →
      Crafts M (ReturnOf M) (returning self forms)
  | [], _ => last .nil hM.nil
  | [form], hforms => last form (hforms form List.mem_cons_self)
  | form :: other :: forms, hforms => by
    rw [List.forall_mem_cons] at hforms
    exact .bind (h.stmt form hforms.1) fun _ hstmts =>
      .bind (returning_crafts hM h (other :: forms) hforms.2) fun _ hrest =>
        .pure (hrest.prepend hstmts)
where
  last (form : Form) (hform : form.Throughout deep P) :
      Crafts M (ReturnOf M) (returning.last self form) :=
    .bind (Crafts.collect (h.expr form hform)) fun ⟨_, _⟩ ⟨hvalue, hhelpers⟩ =>
      .pure ((BodyOf.ret hvalue (hM.place hform.self)).prepend hhelpers)

/-! ### Patterns -/

/-- The binder has the property throughout, or it is a name that was written together with a rest
marker by a symbol that has it. -/
def CoveredBinder (deep : Bool) (P : Form → Prop) (binder : Form) : Prop :=
  binder.Throughout deep P ∨ ∃ s, binder = .symbol s ∧ CoveredSymbol P s

namespace CoveredBinder

variable {binder : Form}

theorem of_vector {items : List Form} {span : Span}
    (h : CoveredBinder deep P (.vector items span)) :
    (Form.vector items span).Throughout deep P := by
  rcases h with h | ⟨s, heq, -⟩
  · exact h
  · cases heq

theorem symbol {s : Symbol} (h : CoveredBinder deep P (.symbol s)) : CoveredSymbol P s := by
  rcases h with h | ⟨s', heq, h⟩
  · exact .inl h
  · cases heq
    exact h

end CoveredBinder

/-- The place of such a symbol is admitted, also if it was cut off its rest marker. -/
theorem coveredSymbol_place (hM : M.Covers P) {s : Symbol} (h : CoveredSymbol P s)
    (hbindable : Pattern.isBindable s.name = true) : M.Admits (Form.symbol s).place? := by
  rcases h with h | ⟨s', hs', hrest, rfl⟩
  · exact hM.place h
  · exact hM.fused hs' hrest hbindable

/-- The symbols that a sequence pattern takes out of its items are written there, on their own or
with a rest marker. -/
theorem coveredSymbol_of_standsIn {items : List Form} {s : Symbol}
    (hitems : ∀ item ∈ items, item.Throughout deep P) (hs : Pattern.StandsIn items s) :
    CoveredSymbol P s := by
  rcases hs with hs | ⟨s', hs', hrest, rfl⟩
  · exact .inl (hitems _ hs)
  · exact .inr ⟨s', hitems _ hs', hrest, rfl⟩

/-- A binder and the value that it takes. -/
def CoveredWork (M : Material) (deep : Bool) (P : Form → Prop) (work : Work) : Prop :=
  CoveredBinder deep P work.1 ∧ work.2.MadeOf M

/-- The parts of a sequence pattern are binders in it; their values are calls of the library on the
holder. -/
theorem sequenceParts_covered (hM : M.Covers P) {pattern : SequencePattern} {holder : String}
    (hholder : M.target holder) (hitems : ∀ item ∈ pattern.items, item.Throughout deep P)
    (hrest : ∀ s ∈ pattern.rest, CoveredSymbol P s) :
    ∀ work ∈ sequenceParts pattern holder, CoveredWork M deep P work := by
  have hvalue {f : String} (hf : f ∈ libraryNames) (i : Nat) :
      (Expr.callOf f [.load holder, .constant (.int i)]).MadeOf M :=
    Expr.madeOf_callOf (hM.library f hf) (by
      simpa using ⟨madeOf_load_target hM hholder, Expr.madeOf_constant _⟩)
  intro work hwork
  rcases List.mem_append.mp hwork with hitem | hmem
  · obtain ⟨⟨item, i⟩, hmem, rfl⟩ := List.mem_map.mp hitem
    exact ⟨.inl (hitems item (List.fst_mem_of_mem_zipIdx hmem)),
      hvalue (by simp [libraryNames]) i⟩
  · obtain ⟨s, hs, rfl⟩ := Option.map_eq_some_iff.mp (Option.mem_toList.mp hmem)
    exact ⟨.inr ⟨s, rfl, hrest s hs⟩, hvalue (by simp [libraryNames]) _⟩

/-- A holder is an alias, which can be bound, or a temporary. -/
theorem holder_crafts (hM : M.Covers P) {whole : Option Symbol}
    (hwhole : ∀ s ∈ whole, P (.symbol s))
    (hbindable : ∀ s ∈ whole, Pattern.isBindable s.name = true)
    (mode : BindMode) :
    Crafts M M.target (holder mode whole) := by
  cases whole with
  | none => exact fresh_crafts hM (by simp [stems])
  | some s => exact Crafts.binder hM (hM.bindable (.inl (hwhole s rfl)) (hbindable s rfl)) mode

section Patterns

variable {expr : Form → Compile Expr} (hM : M.Covers P)
  (h : ∀ form : Form, form.Throughout deep P → Crafts M (Expr.MadeOf M) (expr form))

include hM h

/-- An entry of a table is a call of the library on the holder; a default is code of its own. -/
theorem tablePart_crafts {pattern : TablePattern}
    (hdefaults : ∀ d ∈ pattern.defaults, d.2.Throughout deep P) {holder : String}
    (hholder : M.target holder) {entry : Form × Key} (hentry : entry.1.Throughout deep P) :
    Crafts M (CoveredWork M deep P) (tablePart expr pattern holder entry) := by
  have hlookup : M.name "lookup" := hM.library _ (by simp [libraryNames])
  have hload := madeOf_load_target hM hholder
  have hkey := Key.madeOf_expr hM entry.2
  unfold tablePart
  split
  · exact .pure ⟨.inl hentry, Expr.madeOf_callOf hlookup (by simpa using ⟨hload, hkey⟩)⟩
  · rename_i form hform
    have hdefault : form.Throughout deep P := by
      obtain ⟨d, hd, rfl⟩ := Option.map_eq_some_iff.mp hform
      exact hdefaults d (List.mem_of_find?_eq_some hd)
    refine .bind (h form hdefault) fun body hbody => .pure ⟨.inl hentry, ?_⟩
    have hthunk : (Expr.thunk body none).MadeOf M := ⟨hbody, M.admits_none⟩
    exact Expr.madeOf_callOf hlookup (by simpa using ⟨hload, hkey, hthunk⟩)

/-- All bindings of an expanded pattern are made of the material. The induction is on the fuel. -/
theorem expandWork_crafts (mode : BindMode) :
    ∀ (fuel : Nat) (work : List Work), (∀ w ∈ work, CoveredWork M deep P w) →
      Crafts M (fun bs => ∀ b ∈ bs, b.MadeOf M) (expandWork expr mode fuel work)
  | 0, [], _ => .pure nofun
  | _ + 1, [], _ => .pure nofun
  | 0, _ :: _, _ => .fail _
  | fuel + 1, (binder, value) :: work, hwork => by
    rw [List.forall_mem_cons] at hwork
    obtain ⟨⟨hbinder, hvalue⟩, hwork⟩ := hwork
    rw [expandWork]
    refine .bind (.lift _) fun pattern hpattern => ?_
    cases pattern with
    | name s =>
      have hbindable := Pattern.isBindable_of_ofForm_name hpattern
      cases Pattern.eq_symbol_of_ofForm_name hpattern
      exact .bind (Crafts.binder hM (hM.bindable hbinder.symbol hbindable) mode) fun _ htarget =>
        .bind (expandWork_crafts mode fuel work hwork) fun _ hrest =>
          .pure (List.forall_mem_cons.mpr
            ⟨⟨htarget, hvalue, coveredSymbol_place hM hbinder.symbol hbindable⟩, hrest⟩)
    | sequence pattern =>
      obtain ⟨items, span, rfl, hparse⟩ := Pattern.parse_of_ofForm_sequence hpattern
      obtain ⟨hself, hitems⟩ := Form.throughout_vector.mp hbinder.of_vector
      have hnames := Pattern.parseSequence_names hparse
      refine .bind (holder_crafts hM (fun s hs => hitems _ (hnames.whole s hs))
        (Pattern.parseSequence_bindable hparse) mode) fun target htarget =>
          .bind (expandWork_crafts mode fuel _ ?_) fun _ hrest =>
            .pure (List.forall_mem_cons.mpr ⟨⟨htarget, ?_, hM.place hself⟩, hrest⟩)
      · refine List.forall_mem_append.mpr ⟨sequenceParts_covered hM htarget ?_ ?_, hwork⟩
        · exact fun item hitem => hitems item (Pattern.parseSequence_items hparse item hitem)
        · exact fun s hs => coveredSymbol_of_standsIn hitems (hnames.rest s hs)
      · exact Expr.madeOf_callOf (hM.library _ (by simp [libraryNames]))
          (List.forall_mem_singleton.mpr hvalue)
    | table pattern =>
      obtain ⟨first, items, span, rfl, hparse⟩ := Pattern.parse_of_ofForm_table hpattern
      obtain ⟨hself, hitems⟩ := Form.throughout_vector.mp hbinder.of_vector
      replace hitems := (List.forall_mem_cons.mp hitems).2
      have hfrom := Pattern.parseTable_from hparse
      -- a default is a value of the map that is written in the pattern
      have hdefaults : ∀ d ∈ pattern.defaults, d.2.Throughout deep P := by
        intro d hd
        obtain ⟨entries, span', key, hmap, hmem⟩ := hfrom.default d hd
        exact ((Form.throughout_map.mp (hitems _ hmap)).2 _ hmem).2
      refine .bind (holder_crafts hM (fun s hs => hitems _ (Pattern.parseTable_whole hparse s hs))
        (Pattern.parseTable_bindable hparse) mode) fun target htarget =>
          .bind (.mapM fun entry hentry =>
            tablePart_crafts hM h hdefaults htarget (hitems _ (hfrom.binder entry hentry)))
          fun parts hparts => .bind (expandWork_crafts mode fuel _ ?_) fun _ hrest =>
            .pure (List.forall_mem_cons.mpr ⟨⟨htarget, hvalue, hM.place hself⟩, hrest⟩)
      exact List.forall_mem_append.mpr ⟨hparts.2, hwork⟩

theorem expand_crafts (mode : BindMode) {pattern : Form} (hpattern : pattern.Throughout deep P)
    {value : Expr} (hvalue : value.MadeOf M) {given : List Binding}
    (hgiven : ∀ b ∈ given, b.MadeOf M) :
    Crafts M (fun bs => ∀ b ∈ bs, b.MadeOf M) (expand expr mode pattern value given) :=
  .bind (expandWork_crafts hM h mode _ _ (List.forall_mem_singleton.mpr ⟨.inl hpattern, hvalue⟩))
    fun _ hbindings => .bind (Crafts.report _) fun _ _ =>
      .pure (List.forall_mem_append.mpr ⟨hgiven, hbindings⟩)

theorem destructure_crafts {pattern : Form} (hpattern : pattern.Throughout deep P) {value : Expr}
    (hvalue : value.MadeOf M) {outer : Option Span} (houter : M.Admits (outer.filter Span.isReal)) :
    Crafts M (MadeOfAll M {}) (destructure expr pattern value outer) :=
  .bind (expand_crafts hM h .asIs hpattern hvalue nofun) fun _ hbindings =>
    .pure (Binding.madeOfAll_assigns hbindings houter)

end Patterns

/-! ### Loops -/

section Loops

variable (hM : M.Covers P) (h : self.Crafted M deep P) {target : LoopTarget}

include hM

omit hM in
/-- Leaving a loop is made of the names of the loop and the value. -/
theorem exitWith_crafts (htarget : target.MadeOf M) {value : Expr} (hvalue : value.MadeOf M)
    {span : Option Span} (hspan : M.Admits (span.filter Span.isReal)) :
    Crafts M (TailOf M) (exitWith target value span) := by
  unfold exitWith
  split
  · rename_i exit hexit
    obtain ⟨hflag, hresult⟩ := htarget.exit exit hexit
    exact .pure ⟨⟨⟨hresult, hvalue, hspan⟩, ⟨hflag, Expr.madeOf_constant _, hspan⟩, trivial⟩,
      by simp⟩
  · exact .fail _

/-- A test compares the selector with every key of the clause; without a key it would not be an
expression. -/
theorem caseTest_madeOf {selector : String} (hselector : M.target selector) {keys : List Key}
    (hkeys : keys ≠ []) : (caseTest selector keys).MadeOf M := by
  have htests : ∀ e ∈ keys.map fun key => Expr.compare .eq (.load selector) [key.expr] none,
      e.MadeOf M :=
    List.forall_mem_map.mpr fun key _ =>
      ⟨madeOf_load_target hM hselector, ⟨Key.madeOf_expr hM key, trivial⟩, M.admits_none,
        Nat.one_pos⟩
  match keys, hkeys, htests with
  | [_], _, htests => exact htests _ List.mem_cons_self
  | _ :: _ :: _, _, htests => exact ⟨Expr.madeOfAll_iff.mpr htests, M.admits_none, by simp⟩

include h

/-- A jump is a row of assignments with a `continue` at the end. -/
theorem jump_crafts (htarget : target.MadeOf M) {form : Form} (hform : P form) {args : List Form}
    (hargs : ∀ arg ∈ args, arg.Throughout deep P) :
    Crafts M (TailOf M) (jump self target form args) := by
  have hplace : M.Admits form.place? := hM.place hform
  have hargument (arg : Form) (harg : arg.Throughout deep P) :
      Crafts M (fun temp => M.target temp.1 ∧ temp.2.MadeOf M {})
        (jumpArgument self form.place? arg) :=
    .bind (fresh_crafts hM (by simp [stems])) fun _ htemp => .bind (h.expr arg harg) fun _ hvalue =>
      .pure ⟨htemp, htemp, hvalue, hplace⟩
  unfold jump
  split
  · refine .bind (.mapM fun arg harg => hargument arg (hargs arg harg)) fun temps htemps =>
      .pure ?_
    have hnext : TailOf M [.next form.place?] := ⟨⟨⟨hplace, rfl, rfl⟩, trivial⟩, by simp⟩
    refine hnext.prepend ((MadeOfAll.append ?_ ?_).append
      (Binding.madeOfAll_assigns htarget.rebind hplace))
    · exact madeOfAll_iff.mpr (List.forall_mem_map.mpr fun temp htemp => (htemps.2 temp htemp).2)
    · refine madeOfAll_iff.mpr (List.forall_mem_map.mpr fun ⟨var, temp⟩ hpair => ?_)
      obtain ⟨hvar, htemp⟩ := List.of_mem_zip hpair
      exact ⟨htarget.vars var hvar, madeOf_load_target hM (htemps.2 temp htemp).1, hplace⟩
  · exact .fail _

omit hM in
/-- Only the last form of a loop body may end the pass. -/
theorem loopBody_crafts (htarget : target.MadeOf M) :
    ∀ body : List Form, (∀ form ∈ body, form.Throughout deep P) →
      Crafts M (TailOf M) (loopBody self target body)
  | [], _ => exitWith_crafts htarget (Expr.madeOf_constant _) M.admits_none
  | [form], hbody => h.tail form htarget (hbody form List.mem_cons_self)
  | form :: other :: forms, hbody => by
    rw [List.forall_mem_cons] at hbody
    exact .bind (h.stmt form hbody.1) fun _ hstmts =>
      .bind (loopBody_crafts htarget (other :: forms) hbody.2) fun _ hrest =>
        .pure (hrest.prepend hstmts)

theorem tailIf_crafts (htarget : target.MadeOf M) {form : Form} (hform : P form)
    {args : List Form} (hargs : ∀ arg ∈ args, arg.Throughout deep P) :
    Crafts M (TailOf M) (tailIf self target form args) := by
  have build {test yes no : Form} (htest : test.Throughout deep P)
      (hyes : yes.Throughout deep P) (hno : no.Throughout deep P) :
      Crafts M (TailOf M) (tailIf.build self target form test yes no) :=
    .bind (h.expr test htest) fun _ htest => .bind (h.tail yes htarget hyes) fun _ hyes =>
      .bind (h.tail no htarget hno) fun _ hno =>
        .pure (.branch htest hyes hno.made (hM.place hform))
  unfold tailIf
  split
  · exact build (hargs _ (by simp)) (hargs _ (by simp)) hM.nil
  · exact build (hargs _ (by simp)) (hargs _ (by simp)) (hargs _ (by simp))
  · exact .fail _

theorem tailCond_crafts (htarget : target.MadeOf M) {form : Form} (hform : P form)
    {args : List Form} (hargs : ∀ arg ∈ args, arg.Throughout deep P) :
    Crafts M (TailOf M) (tailCond self target form args) :=
  .bind (condClauses_crafts hM hargs form) fun ⟨_, default⟩ ⟨hclauses, hdefault⟩ =>
    .bind (h.tail default htarget hdefault) fun _ hlast =>
      .foldrM hlast fun ⟨test, result⟩ hclause _ hno =>
        .bind (h.expr test (hclauses _ hclause).1) fun _ htest =>
          .bind (h.tail result htarget (hclauses _ hclause).2) fun _ hyes =>
            .pure (.branch htest hyes hno.made (hM.place hform))

theorem tailCase_crafts (htarget : target.MadeOf M) {form : Form} (hform : P form)
    {args : List Form} (hargs : ∀ arg ∈ args, arg.Throughout deep P) :
    Crafts M (TailOf M) (tailCase self target form args) :=
  .bind (caseParts_crafts hM hargs form) fun parts ⟨hselector, hdefault, hclauses⟩ =>
    .bind (fresh_crafts hM (by simp [stems])) fun _ hname =>
      .bind (h.expr parts.selector hselector) fun _ hvalue =>
      .bind (h.tail parts.default htarget hdefault) fun _ hlast =>
        .bind (.foldrM hlast fun ⟨keys, result⟩ hclause _ hno =>
            .bind (h.tail result htarget (hclauses _ hclause).2) fun _ hyes =>
              .pure (.branch (caseTest_madeOf hM hname (hclauses _ hclause).1) hyes hno.made
                (hM.place hform)))
          fun _ hstmts => .pure (hstmts.cons ⟨hname, hvalue, hM.place hform⟩)

theorem letBindings_crafts {bindings : Form} (hbindings : bindings.Throughout deep P) :
    Crafts M (MadeOfAll M {}) (letBindings self bindings) :=
  .bind (bindingPairs_crafts hbindings) fun _ hpairs => .bind (.mapM fun ⟨_, init⟩ hpair =>
      .bind (Crafts.collect (.bind (h.expr init (hpairs _ hpair).2) fun _ hvalue =>
        expand_crafts hM h.expr .fresh (hpairs _ hpair).1 hvalue nofun))
      fun ⟨_, _⟩ ⟨hbound, hhelpers⟩ => .pure (hhelpers.append
        (Binding.madeOfAll_assigns hbound (hM.place (hpairs _ hpair).1.self))))
    fun _ hblocks => .pure (madeOfAll_flatten hblocks.2)

theorem tailLet_crafts (htarget : target.MadeOf M) (form : Form) {args : List Form}
    (hargs : ∀ arg ∈ args, arg.Throughout deep P) :
    Crafts M (TailOf M) (tailLet self target form args) := by
  cases args with
  | nil => exact .fail _
  | cons bindings body =>
    rw [List.forall_mem_cons] at hargs
    exact Crafts.inScope (.bind (letBindings_crafts hM h hargs.1) fun _ hstmts =>
      .bind (loopBody_crafts h htarget body hargs.2) fun _ hrest =>
        .pure (hrest.prepend hstmts))

/-- An operand that settles the answer ends the pass, and so does the rest of the operands. -/
theorem tailLogical_crafts (htarget : target.MadeOf M) (op : LogicalOp) {form : Form}
    (hform : P form) :
    ∀ args : List Form, (∀ arg ∈ args, arg.Throughout deep P) →
      Crafts M (TailOf M) (tailLogical self target op form args)
  | [], _ => exitWith_crafts htarget (Expr.madeOf_constant _) (hM.place hform)
  | [operand], hargs => h.tail operand htarget (hargs operand List.mem_cons_self)
  | operand :: other :: operands, hargs => by
    rw [List.forall_mem_cons] at hargs
    have hplace : M.Admits form.place? := hM.place hform
    have hload {temp : String} := madeOf_load_target hM (x := temp)
    refine .bind (fresh_crafts hM (by simp [stems])) fun temp htemp =>
      .bind (h.expr operand hargs.1) fun _ hvalue =>
        .bind (exitWith_crafts htarget (hload htemp) hplace) fun _ hsettled => .bind
          (tailLogical_crafts htarget op hform (other :: operands) hargs.2)
          fun _ hundecided => .pure ((BodyOf.branch ?_ hsettled hundecided.made hplace).cons
            ⟨htemp, hvalue, hplace⟩)
    cases op with
    | and => exact ⟨hload htemp, M.admits_none⟩
    | or => exact hload htemp

/-- The variables of a loop are names that are written in its vector without a check, or
temporaries. -/
theorem loopTarget_crafts {bindings : Form} (hbindings : bindings.Throughout deep P)
    {body : List Form}
    (hunchecked : ∀ s ∈ Special.loopForm.unchecked (bindings :: body), M.Binds (Name.spell s.name))
    (mode : BindMode) : Crafts M (LoopTarget.MadeOf M) (loopTarget self mode bindings) := by
  refine .bind (loopPairs_crafts hbindings hunchecked) fun pairs hpairs =>
    .foldlM ⟨nofun, nofun, nofun, nofun, by decide⟩ fun target htarget pair hpair => ?_
  obtain ⟨binder, init⟩ := pair
  obtain ⟨hbinder, hinit, hnamed⟩ := hpairs _ hpair
  refine .bind (h.expr init hinit) fun value hvalue => ?_
  have hvars {var : String} (hvar : M.target var) : ∀ x ∈ target.vars ++ [var], M.target x :=
    List.forall_mem_append.mpr ⟨htarget.vars, List.forall_mem_singleton.mpr hvar⟩
  have hinits {var : String} (hvar : M.target var) :
      ∀ b ∈ target.inits ++ [⟨var, value, binder.span?⟩], b.MadeOf M :=
    List.forall_mem_append.mpr ⟨htarget.inits,
      List.forall_mem_singleton.mpr ⟨hvar, hvalue, hM.place hbinder.self⟩⟩
  cases binder with
  | symbol s =>
    exact .bind (Crafts.binder hM (hnamed s rfl) mode) fun var hvar =>
      .pure ⟨hvars hvar, hinits hvar, htarget.rebind, htarget.exit, htarget.selfCall⟩
  | vector items span =>
    exact .bind (fresh_crafts hM (by simp [stems])) fun var hvar =>
      .bind (expand_crafts hM h.expr mode hbinder (madeOf_load_target hM hvar) nofun) fun bs hbs =>
        .pure ⟨hvars hvar, List.forall_mem_append.mpr ⟨hinits hvar, hbs⟩,
          List.forall_mem_append.mpr ⟨htarget.rebind, hbs⟩, htarget.exit, htarget.selfCall⟩
  | _ => exact .fail _

/-- In a loop a `continue` may stand, and a return may not. -/
theorem whileLoop_crafts (htarget : target.MadeOf M) {body : List Form}
    (hbody : ∀ form ∈ body, form.Throughout deep P) {span : Option Span}
    (hspan : M.Admits (span.filter Span.isReal)) :
    Crafts M (fun result => MadeOfAll M {} result.1 ∧ M.target result.2.result)
      (whileLoop self target body span) := by
  refine .bind (fresh_crafts hM (by simp [stems])) fun flag hflag =>
    .bind (fresh_crafts hM (by simp [stems])) fun result hresult => ?_
  have hexit : LoopTarget.MadeOf M { target with exit := some ⟨flag, result⟩ } :=
    ⟨htarget.vars, htarget.inits, htarget.rebind, by simpa using ⟨hflag, hresult⟩,
      htarget.selfCall⟩
  refine .bind (Crafts.collect (loopBody_crafts h hexit body hbody))
    fun ⟨stmts, helpers⟩ ⟨hstmts, hhelpers⟩ => .bind (Crafts.report _) fun _ _ =>
      .pure ⟨(Binding.madeOfAll_assigns htarget.inits hspan).append ?_, hresult⟩
  exact ⟨⟨hflag, Expr.madeOf_constant _, hspan⟩, ⟨hresult, Expr.madeOf_constant _, hspan⟩,
    ⟨madeOf_load_target hM hflag, (hstmts.prepend hhelpers).made, hspan,
      (hstmts.prepend hhelpers).nonempty⟩, trivial⟩

end Loops

/-! ### Functions -/

/-- The names of the parameters are those of the material, and the patterns among them have the
property. -/
structure Params.CoveredBy (M : Material) (deep : Bool) (P : Form → Prop) (params : Params) :
    Prop where
  vars : ∀ x ∈ params.vars, M.target x
  patterns : ∀ pattern ∈ params.patterns, pattern.1.Throughout deep P ∧ M.target pattern.2

namespace Params

variable {q : Params} {form : Form} (hM : M.Covers P)

include hM

/-- A parameter is a name that can be bound, or a temporary for a pattern. -/
theorem bindParam_crafts (hq : q.CoveredBy M deep P) (hform : CoveredBinder deep P form) :
    Crafts M (fun result => M.target result.1 ∧
        ∀ pattern ∈ result.2, pattern.1.Throughout deep P ∧ M.target pattern.2)
      (q.bindParam form) := by
  refine .bind (.lift _) fun pattern hpattern => ?_
  -- only a vector is kept as a pattern, so its name is no fused one
  have hkept {items : List Form} {span : Span} (heq : form = .vector items span) {temp : String}
      (htemp : M.target temp) : ∀ pattern ∈ q.patterns ++ [(form, temp)],
        pattern.1.Throughout deep P ∧ M.target pattern.2 := by
    subst heq
    exact List.forall_mem_append.mpr
      ⟨hq.patterns, List.forall_mem_singleton.mpr ⟨hform.of_vector, htemp⟩⟩
  cases pattern with
  | name s =>
    have hbindable := Pattern.isBindable_of_ofForm_name hpattern
    cases Pattern.eq_symbol_of_ofForm_name hpattern
    exact .bind (Crafts.binder hM (hM.bindable hform.symbol hbindable) _) fun _ hvar =>
      .pure ⟨hvar, hq.patterns⟩
  | sequence _ =>
    obtain ⟨_, _, heq, -⟩ := Pattern.parse_of_ofForm_sequence hpattern
    exact .bind (fresh_crafts hM (by simp [stems])) fun _ htemp => .pure ⟨htemp, hkept heq htemp⟩
  | table _ =>
    obtain ⟨_, _, _, heq, -⟩ := Pattern.parse_of_ofForm_table hpattern
    exact .bind (fresh_crafts hM (by simp [stems])) fun _ htemp => .pure ⟨htemp, hkept heq htemp⟩

theorem addParam_crafts (hq : q.CoveredBy M deep P) (hform : CoveredBinder deep P form) :
    Crafts M (CoveredBy M deep P) (q.addParam form) := by
  refine .bind (bindParam_crafts hM hq hform) fun ⟨name, patterns⟩ ⟨hname, hpatterns⟩ =>
    .pure ⟨fun x hx => ?_, hpatterns⟩
  have hmem : x ∈ q.vars ∨ x = name := by
    simp only [vars, List.mem_append, List.mem_singleton] at hx ⊢
    tauto
  rcases hmem with hmem | rfl
  · exact hq.vars x hmem
  · exact hname

theorem addRest_crafts (hq : q.CoveredBy M deep P) (hform : CoveredBinder deep P form)
    (items : List Form) : Crafts M (CoveredBy M deep P) (q.addRest form items) := by
  cases items with
  | nil =>
    refine .bind (bindParam_crafts hM hq hform) fun ⟨name, patterns⟩ ⟨hname, hpatterns⟩ =>
      .pure ⟨fun x hx => ?_, hpatterns⟩
    rcases List.mem_append.mp hx with hx | hx
    · exact hq.vars x (List.mem_append.mpr (.inl hx))
    · rw [List.mem_singleton.mp hx]
      exact hname
  | cons other items => exact .fail _

/-- The parameters are taken in order, a rest parameter with its marker cut off. -/
theorem addAll_crafts (q : Params) (items : List Form) : q.CoveredBy M deep P →
    (∀ item ∈ items, item.Throughout deep P) → Crafts M (CoveredBy M deep P) (q.addAll items) := by
  fun_induction addAll q items with
  | case1 => exact fun hq _ => .pure hq
  | case2 => exact fun _ _ => .fail _
  | case3 q s _ _ param items =>
    exact fun hq hitems => addRest_crafts hM hq (.inl (hitems param (by simp))) items
  | case4 q s items hs =>
    exact fun hq hitems =>
      addRest_crafts hM hq
        (.inr ⟨_, rfl, .inr ⟨s, hitems _ List.mem_cons_self, hs, rfl⟩⟩) items
  | case5 q s items _ ih =>
    intro hq hitems
    rw [List.forall_mem_cons] at hitems
    exact .bind (addParam_crafts hM hq (.inl hitems.1)) fun q' hq' => ih q' hq' hitems.2
  | case6 q item items _ ih =>
    intro hq hitems
    rw [List.forall_mem_cons] at hitems
    exact .bind (addParam_crafts hM hq (.inl hitems.1)) fun q' hq' => ih q' hq' hitems.2

theorem ofForm_crafts (hform : form.Throughout deep P) :
    Crafts M (CoveredBy M deep P) (ofForm form) := by
  cases form with
  | vector items span =>
    exact addAll_crafts hM {} items ⟨nofun, nofun⟩ (Form.throughout_vector.mp hform).2
  | _ => exact .fail _

end Params

section Functions

variable (hM : M.Covers P) (h : self.Crafted M deep P)

include hM h

/-- The body of a function ends in a return, also after a loop. -/
theorem functionBody_crafts {params : Params} (hparams : params.CoveredBy M deep P)
    {body : List Form}
    (hbody : ∀ form ∈ body, form.Throughout deep P) {span : Option Span}
    (hspan : M.Admits (span.filter Span.isReal)) (recurs : Bool) :
    Crafts M (ReturnOf M) (functionBody self params body span recurs) := by
  have hentry : Crafts M (fun bs => ∀ b ∈ bs, b.MadeOf M) (entryBindings self params) :=
    .foldlM nofun fun bindings hbindings ⟨pattern, name⟩ hpattern =>
      have hpattern := hparams.patterns _ hpattern
      expand_crafts hM h.expr .scoped hpattern.1 (madeOf_load_target hM hpattern.2) hbindings
  refine .bind hentry fun entry hentry => ?_
  have hassigns := Binding.madeOfAll_assigns hentry hspan
  cases recurs with
  | true =>
    have htarget : LoopTarget.MadeOf M { vars := params.vars, rebind := entry } :=
      ⟨hparams.vars, nofun, hentry, nofun, show "recur" ≠ "quote" by decide⟩
    exact .bind (whileLoop_crafts hM h htarget hbody hspan) fun ⟨_, _⟩ ⟨hstmts, hresult⟩ =>
      .pure ((BodyOf.ret (madeOf_load_target hM hresult) M.admits_none).prepend
        (hassigns.append hstmts))
  | false =>
    exact .bind (returning_crafts hM h body hbody) fun _ hstmts =>
      .pure (hstmts.prepend hassigns)

/-- A function has places for a return again, and none for a `continue` of the loop around it. -/
theorem function_crafts {name : String} (hname : M.target name) {params : Form}
    (hparams : params.Throughout deep P) {body : List Form}
    (hbody : ∀ form ∈ body, form.Throughout deep P) {span : Option Span}
    (hspan : M.Admits (span.filter Span.isReal)) (doc : Option String) :
    Crafts M (Stmt.MadeOf M {}) (function self name params body span doc) := by
  have hself : Crafts M (fun _ => True) (Compile.bind .scoped name) :=
    .bind (Crafts.declare name (hM.bound hname)) fun _ _ => .pure trivial
  refine .bind (P := fun result => result.1.CoveredBy M deep P ∧ ReturnOf M result.2)
    (Crafts.inScope (.bind hself fun _ _ =>
      .bind (Params.ofForm_crafts hM hparams) fun params hparams =>
        .bind (Crafts.still (analyze_still body) (.anything _)) fun _ _ =>
          .bind (Crafts.collect (functionBody_crafts hM h hparams hbody hspan _))
            fun ⟨_, _⟩ ⟨hstmts, hhelpers⟩ => .pure ⟨hparams, hstmts.prepend hhelpers⟩))
    fun ⟨params, stmts⟩ ⟨hparams, hstmts⟩ => .pure ?_
  have hbody : ReturnOf M (withDoc doc stmts) := by
    cases doc with
    | none => exact hstmts
    | some text => exact hstmts.cons ⟨Expr.madeOf_constant _, M.admits_none⟩
  exact ⟨hname, hparams.vars, hbody.made, hspan, hbody.nonempty⟩

end Functions

/-! ### Expressions -/

mutual

theorem quoted_madeOf (hM : M.Covers P) : ∀ form : Form, (quoted form).MadeOf M
  | .const c => Expr.madeOf_constant c
  | .symbol _ => Expr.madeOf_callOf (hM.library _ (by simp [libraryNames]))
      (List.forall_mem_singleton.mpr (Expr.madeOf_constant _))
  | .keyword k => Key.madeOf_expr hM (.keyword k)
  | .list items _ => ⟨quotedAll_madeOf hM items, M.admits_none⟩
  | .vector items _ => ⟨quotedAll_madeOf hM items, M.admits_none⟩
  | .map entries _ => ⟨quotedEntries_madeOf hM entries, M.admits_none⟩

theorem quotedAll_madeOf (hM : M.Covers P) :
    ∀ forms : List Form, Expr.MadeOfAll M (quotedAll forms)
  | [] => trivial
  | form :: forms => ⟨quoted_madeOf hM form, quotedAll_madeOf hM forms⟩

theorem quotedEntries_madeOf (hM : M.Covers P) :
    ∀ entries : List (Form × Form), Expr.MadeOfEntries M (quotedEntries entries)
  | [] => trivial
  | (key, value) :: entries =>
    ⟨quoted_madeOf hM key, quoted_madeOf hM value, quotedEntries_madeOf hM entries⟩

end

/-- A symbol is a name that it may mean, with its fields. -/
theorem symbolExpr_crafts (hM : M.Covers P) {s : Symbol} (hs : P (.symbol s)) :
    Crafts M (Expr.MadeOf M) (symbolExpr s) := by
  have hplace : M.Admits (Form.symbol s).place? := hM.place hs
  have hfields (fields : List String) (e : Expr) (he : e.MadeOf M) :
      (fields.foldl (fun value field =>
        Expr.field value (Name.spell field) (Form.symbol s).place?) e).MadeOf M := by
    induction fields generalizing e with
    | nil => exact he
    | cons field fields ih => exact ih _ ⟨he, hplace⟩
  unfold symbolExpr
  dsimp only
  split
  · exact .fail _
  · rename_i first fields hparts
    split
    · exact .fail _
    · exact .bind (Crafts.resolve (hM.read hs hparts)) fun _ hname =>
        .pure (hfields fields _ ⟨hname, hplace⟩)

section Expressions

variable (hM : M.Covers P) (h : self.Crafted M deep P) {form : Form} {args : List Form}
  (hform : P form) (hargs : ∀ arg ∈ args, arg.Throughout deep P)

include hM h hform hargs

theorem ifExpr_crafts : Crafts M (Expr.MadeOf M) (ifExpr self form args) := by
  have build {test yes no : Form} (htest : test.Throughout deep P)
      (hyes : yes.Throughout deep P) (hno : no.Throughout deep P) :
      Crafts M (Expr.MadeOf M) (ifExpr.build self form test yes no) :=
    .bind (h.expr test htest) fun _ htest => .bind (h.expr yes hyes) fun _ hyes =>
      .bind (h.expr no hno) fun _ hno => .pure ⟨htest, hyes, hno, hM.place hform⟩
  unfold ifExpr
  split
  · exact build (hargs _ (by simp)) (hargs _ (by simp)) hM.nil
  · exact build (hargs _ (by simp)) (hargs _ (by simp)) (hargs _ (by simp))
  · exact .fail _

theorem condExpr_crafts : Crafts M (Expr.MadeOf M) (condExpr self form args) :=
  .bind (condClauses_crafts hM hargs form) fun ⟨_, default⟩ ⟨hclauses, hdefault⟩ =>
    .bind (h.expr default hdefault) fun _ hlast =>
      .foldrM (R := Expr.MadeOf M) hlast fun ⟨test, result⟩ hclause _ hno =>
        .bind (h.expr test (hclauses _ hclause).1) fun _ htest =>
          .bind (h.expr result (hclauses _ hclause).2) fun _ hyes =>
            .pure ⟨htest, hyes, hno, hM.place hform⟩

theorem caseExpr_crafts : Crafts M (Expr.MadeOf M) (caseExpr self form args) := by
  refine .bind (caseParts_crafts hM hargs form)
    fun parts ⟨hselector, hdefault, hclauses⟩ => .bind (h.expr parts.selector hselector)
      fun value hvalue => .bind (fresh_crafts hM (by simp [stems])) fun selector hname =>
        .bind (Crafts.collect (.bind (h.expr parts.default hdefault) fun last hlast =>
          .foldrM (BodyOf.ret hlast M.admits_none) fun ⟨keys, result⟩ hclause _ hno =>
            .bind (h.expr result (hclauses _ hclause).2) fun yes hyes => .pure ?_))
          fun ⟨_, _⟩ ⟨hstmts, hhelpers⟩ => ?_
  · exact .branch (caseTest_madeOf hM hname (hclauses _ hclause).1) (.ret hyes M.admits_none)
      hno.made (hM.place hform)
  · exact callHelper_crafts hM (List.forall_mem_singleton.mpr hname)
      (List.forall_mem_singleton.mpr hvalue) (hstmts.prepend hhelpers) (hM.place hform)
      (by simp [stems])

theorem logicalExpr_crafts (op : LogicalOp) :
    Crafts M (Expr.MadeOf M) (logicalExpr self op form args) := by
  unfold logicalExpr
  split
  · exact .pure (Expr.madeOf_constant _)
  · exact h.expr _ (hargs _ (by simp))
  · rename_i hnil hone
    refine .bind (.mapM fun operand hoperand => h.expr operand (hargs operand hoperand))
      fun operands hoperands => .pure ⟨Expr.madeOfAll_iff.mpr hoperands.2, hM.place hform, ?_⟩
    rw [hoperands.1]
    match args, hnil, hone with
    | [operand], _, hone => exact absurd rfl (hone operand)
    | _ :: _ :: _, _, _ => simp

theorem doExpr_crafts : Crafts M (Expr.MadeOf M) (doExpr self form args) := by
  unfold doExpr
  split
  · exact .pure (Expr.madeOf_constant _)
  · exact h.expr _ (hargs _ (by simp))
  · exact .bind (Crafts.collect (returning_crafts hM h _ hargs)) fun ⟨_, _⟩ ⟨hstmts, hhelpers⟩ =>
      callHelper_crafts hM (List.forall_mem_nil _) (List.forall_mem_nil _)
        (hstmts.prepend hhelpers) (hM.place hform) (by simp [stems])

/-- The body of the helper of a `let`: the assignments of its bindings, then the code that
returns. -/
theorem letExpr_crafts : Crafts M (Expr.MadeOf M) (letExpr self form args) := by
  cases args with
  | nil => exact .fail _
  | cons bindings body =>
    rw [List.forall_mem_cons] at hargs
    have hbinding (binding : Form × Form) (hbinder : binding.1.Throughout deep P)
        (hinit : binding.2.Throughout deep P) :
        Crafts M (fun part => MadeOfAll M {} part.1 ∧ ∀ step ∈ part.2, M.target step.1)
          (letBinding self binding) :=
      .bind (Crafts.collect (.bind (h.expr binding.2 hinit) fun value hvalue =>
        expand_crafts hM h.expr .scoped hbinder hvalue nofun))
        fun ⟨_, helpers⟩ ⟨hbindings, hhelpers⟩ =>
          .pure ⟨hhelpers.append
            (Binding.madeOfAll_assigns hbindings (hM.place hbinder.self)),
            Binding.target_of_steps hbindings helpers⟩
    refine .bind (P := fun result => ReturnOf M result.1 ∧ ∀ step ∈ result.2, M.target step.1)
      (Crafts.inScope (.bind (bindingPairs_crafts hargs.1) fun _ hpairs =>
        .bind (.mapM fun binding hpair =>
            hbinding binding (hpairs _ hpair).1 (hpairs _ hpair).2) fun parts hparts =>
          .bind (Crafts.collect (returning_crafts hM h body hargs.2))
            fun ⟨_, _⟩ ⟨hstmts, hhelpers⟩ => .pure ⟨?_, ?_⟩))
      fun ⟨_, _⟩ ⟨hstmts, hsteps⟩ => callWithNames_crafts hM
        (Binding.target_of_readBeforeBound hsteps) hstmts (hM.place hform) (by simp [stems])
    · refine hstmts.prepend (MadeOfAll.append ?_ hhelpers)
      rw [List.flatMap_def]
      exact madeOfAll_flatten (List.forall_mem_map.mpr fun part hpart => (hparts.2 part hpart).1)
    · intro step hstep
      obtain ⟨part, hpart, hstep⟩ := List.mem_flatMap.mp hstep
      exact (hparts.2 part hpart).2 step hstep

/-- The helper of a `loop` expression returns the result of the loop. -/
theorem loopExpr_crafts
    (hunchecked : ∀ s ∈ Special.loopForm.unchecked args, M.Binds (Name.spell s.name)) :
    Crafts M (Expr.MadeOf M) (loopExpr self form args) := by
  cases args with
  | nil => exact .fail _
  | cons bindings body =>
    rw [List.forall_mem_cons] at hargs
    exact .bind (Crafts.still (analyze_still body) (.anything _)) fun _ _ =>
      .bind (P := fun result => ReturnOf M result.1 ∧ ∀ step ∈ result.2, M.target step.1)
        (Crafts.inScope (.bind (Crafts.collect (loopTarget_crafts hM h hargs.1 hunchecked _))
          fun ⟨target, initHelpers⟩ ⟨htarget, hinits⟩ =>
            .bind (Crafts.collect (whileLoop_crafts hM h htarget hargs.2 (hM.place hform)))
              fun ⟨⟨_, _⟩, _⟩ ⟨⟨hstmts, hresult⟩, hhelpers⟩ =>
                .pure ⟨(BodyOf.ret (madeOf_load_target hM hresult) M.admits_none).prepend
                    ((hinits.append hhelpers).append hstmts),
                  Binding.target_of_steps htarget.inits initHelpers⟩))
        fun ⟨_, _⟩ ⟨hstmts, hsteps⟩ => callWithNames_crafts hM
          (Binding.target_of_readBeforeBound hsteps) hstmts (hM.place hform) (by simp [stems])

/-- The name of a function is used without a check, so that the material has to have it. -/
theorem fnExpr_crafts
    (hunchecked : ∀ s ∈ Special.fnForm.unchecked args, M.Binds (Name.spell s.name)) :
    Crafts M (Expr.MadeOf M) (fnExpr self form args) := by
  have define {name : String} (hname : M.target name) {args : List Form}
      (hargs : ∀ arg ∈ args, arg.Throughout deep P) :
      Crafts M (Expr.MadeOf M) (fnExpr.define self form name args) := by
    cases args with
    | nil => exact .fail _
    | cons params body =>
      rw [List.forall_mem_cons] at hargs
      exact .bind (function_crafts hM h hname hargs.1 hargs.2 (hM.place hform) _)
        fun _ hhelper => .bind (Crafts.hoist hhelper) fun _ _ =>
          .pure ⟨hM.bound hname, hM.place hform⟩
  unfold fnExpr
  split
  · rw [List.forall_mem_cons] at hargs
    exact define (hunchecked _ (by simp [Special.unchecked])).itself hargs.2
  · exact .bind (fresh_crafts hM (by simp [stems])) fun _ hname => define hname hargs

theorem binaryExpr_crafts (op : BinaryOp) (head : String) :
    Crafts M (Expr.MadeOf M) (binaryExpr self op head form args) := by
  have hplace : M.Admits form.place? := hM.place hform
  unfold binaryExpr
  split
  · exact .fail _
  · split
    · exact .bind (h.expr _ (hargs _ (by simp))) fun _ hoperand => .pure ⟨hoperand, hplace⟩
    · exact h.expr _ (hargs _ (by simp))
  · rw [List.forall_mem_cons] at hargs
    exact .bind (h.expr _ hargs.1) fun _ hfirst => .foldlM hfirst fun _ hleft operand hoperand =>
      .bind (h.expr operand (hargs.2 operand hoperand)) fun _ hright =>
        .pure ⟨hleft, hright, hplace⟩

theorem compareExpr_crafts (op : CompareOp) (head : String) :
    Crafts M (Expr.MadeOf M) (compareExpr self op head form args) := by
  unfold compareExpr
  split
  · rw [List.forall_mem_cons] at hargs
    exact .bind (h.expr _ hargs.1) fun _ hfirst =>
      .bind (.mapM fun operand hoperand => h.expr operand (hargs.2 operand hoperand))
        fun _ hothers => .pure ⟨hfirst, Expr.madeOfAll_iff.mpr hothers.2, hM.place hform,
          by simp [hothers.1]⟩
  · exact .fail _

theorem callExpr_crafts {head : Form} (hhead : head.Throughout deep P) :
    Crafts M (Expr.MadeOf M) (callExpr self form head args) :=
  .bind (h.expr head hhead) fun _ hcallee =>
    .bind (.mapM fun arg harg => h.expr arg (hargs arg harg)) fun _ hargs =>
      .pure ⟨hcallee, Expr.madeOfAll_iff.mpr hargs.2, hM.place hform⟩

end Expressions

section Forms

variable (hM : M.Covers P) (h : self.Crafted M deep P)

include hM h

omit h in
/-- The names that a special form uses without a check are those that `P` allows. -/
theorem binds_unchecked {head : Symbol} {args : List Form} {span : Option Span}
    (hform : (Form.list (.symbol head :: args) span).Throughout deep P) {special : Special}
    (hspecial : Special.ofName? head.name = some special) :
    ∀ s ∈ special.unchecked args, M.Binds (Name.spell s.name) := by
  intro s hs
  obtain ⟨hquote, hmem⟩ := Special.mem_of_unchecked hs
  have hargs := (List.forall_mem_cons.mp (hform.items (Special.ne_quote hspecial hquote))).2
  have hsymbol : P (.symbol s) := by
    rcases hmem with hmem | ⟨items, span, hvector, hmem⟩
    · exact hargs _ hmem
    · exact (Form.throughout_vector.mp (hargs _ hvector)).2 _ hmem
  exact hM.unchecked hform.self hsymbol (by rwa [Form.unchecked_of_special hspecial])

/-- The argument of `quote` may be anything. -/
theorem specialExpr_crafts {form : Form} (hform : P form) {args : List Form} (special : Special)
    (hargs : special ≠ .quoteForm → ∀ arg ∈ args, arg.Throughout deep P)
    (hunchecked : ∀ s ∈ special.unchecked args, M.Binds (Name.spell s.name)) (head : String) :
    Crafts M (Expr.MadeOf M) (specialExpr self special head form args) := by
  unfold specialExpr
  split
  · exact ifExpr_crafts hM h hform (hargs nofun)
  · exact condExpr_crafts hM h hform (hargs nofun)
  · exact caseExpr_crafts hM h hform (hargs nofun)
  · exact doExpr_crafts hM h hform (hargs nofun)
  · exact letExpr_crafts hM h hform (hargs nofun)
  · exact loopExpr_crafts hM h hform (hargs nofun) hunchecked
  · exact fnExpr_crafts hM h hform (hargs nofun) hunchecked
  · exact logicalExpr_crafts hM h hform (hargs nofun) _
  · exact logicalExpr_crafts hM h hform (hargs nofun) _
  · split
    · exact .bind (h.expr _ (hargs nofun _ (by simp))) fun _ hoperand =>
        .pure ⟨hoperand, hM.place hform⟩
    · exact .fail _
  · split
    · exact .pure ((quoted_madeOf hM _).placed (hM.place hform))
    · exact .fail _
  all_goals exact .fail _

theorem headedExpr_crafts {head : Symbol} {args : List Form} {span : Option Span}
    (hform : (Form.list (.symbol head :: args) span).Throughout deep P) :
    Crafts M (Expr.MadeOf M)
      (headedExpr self (.list (.symbol head :: args) span) head args) := by
  have hitems (hhead : head.name ≠ "quote") := List.forall_mem_cons.mp (hform.items hhead)
  unfold headedExpr
  split
  · rename_i special hspecial
    exact specialExpr_crafts hM h hform.self special
      (fun hne => (hitems (Special.ne_quote hspecial hne)).2) (binds_unchecked hM hform hspecial) _
  all_goals
    have hitems := hitems (Special.ne_quote_of_none ‹_›)
  · exact binaryExpr_crafts hM h hform.self hitems.2 _ _
  · exact compareExpr_crafts hM h hform.self hitems.2 _ _
  · exact callExpr_crafts hM h hform.self hitems.2 hitems.1

/-- One step of lowering as an expression, by the kind of form. -/
theorem exprStep_crafts {form : Form} (hform : form.Throughout deep P) :
    Crafts M (Expr.MadeOf M) (exprStep self form) := by
  unfold exprStep
  split
  · exact .pure (Expr.madeOf_constant _)
  · exact symbolExpr_crafts hM hform
  · exact .pure ((Key.madeOf_expr hM _).placed (hM.place hform))
  · obtain ⟨hself, hitems⟩ := Form.throughout_vector.mp hform
    exact .bind (.mapM fun item hitem => h.expr item (hitems item hitem)) fun _ hlowered =>
      .pure ⟨Expr.madeOfAll_iff.mpr hlowered.2, hM.place hself⟩
  · obtain ⟨hself, hentries⟩ := Form.throughout_map.mp hform
    exact .bind (.mapM fun entry hentry => h.expr _ (hentries entry hentry).1) fun _ hkeys =>
      .bind (.mapM fun entry hentry => h.expr _ (hentries entry hentry).2) fun _ hvalues =>
        .pure ⟨Expr.madeOfEntries_zip hkeys.2 hvalues.2, hM.place hself⟩
  · exact .pure (Expr.madeOf_constant _)
  · exact headedExpr_crafts hM h hform
  · rename_i head args span hhead
    have hitems := List.forall_mem_cons.mp (hform.items_of_head hhead)
    exact callExpr_crafts hM h hform.self hitems.2 hitems.1

/-! ### Statements and tails -/

omit hM in
theorem stmts_crafts {forms : List Form} (hforms : ∀ form ∈ forms, form.Throughout deep P) :
    Crafts M (MadeOfAll M {}) (stmts self forms) :=
  .bind (.mapM fun form hform => h.stmt form (hforms form hform)) fun _ hblocks =>
    .pure (madeOfAll_flatten hblocks.2)

theorem ifStmt_crafts {form : Form} (hform : P form) {args : List Form}
    (hargs : ∀ arg ∈ args, arg.Throughout deep P) :
    Crafts M (MadeOfAll M {}) (ifStmt self form args) := by
  have hblock {ss : List Stmt} (hss : MadeOfAll M {} ss) : BodyOf M {} (block ss) := by
    unfold block
    split
    · exact ⟨madeOfAll_singleton M.admits_none, by simp⟩
    · rename_i hne
      exact ⟨hss, by simpa using hne⟩
  have hempty : MadeOfAll M {} [] := trivial
  unfold ifStmt
  split
  · exact .bind (h.expr _ (hargs _ (by simp))) fun _ htest =>
      .bind (h.stmt _ (hargs _ (by simp))) fun _ hyes =>
        .pure (BodyOf.branch htest (hblock hyes) hempty (hM.place hform)).made
  · exact .bind (h.expr _ (hargs _ (by simp))) fun _ htest =>
      .bind (h.stmt _ (hargs _ (by simp))) fun _ hyes =>
        .bind (h.stmt _ (hargs _ (by simp))) fun _ hno =>
          .pure (BodyOf.branch htest (hblock hyes) hno (hM.place hform)).made
  · exact .fail _

/-- A definition is the row of assignments of its binder. -/
theorem defStmt_crafts {form : Form} (hform : P form) {args : List Form}
    (hargs : ∀ arg ∈ args, arg.Throughout deep P) :
    Crafts M (MadeOfAll M {}) (defStmt self form args) := by
  unfold defStmt
  split
  · exact destructure_crafts hM h.expr (hargs _ (by simp)) (Expr.madeOf_constant _)
      (hM.place hform)
  · exact .bind (h.expr _ (hargs _ (by simp))) fun _ hvalue =>
      destructure_crafts hM h.expr (hargs _ (by simp)) hvalue (hM.place hform)
  · exact .fail _

theorem defnStmt_crafts {form : Form} (hform : P form) {args : List Form}
    (hargs : ∀ arg ∈ args, arg.Throughout deep P)
    (hunchecked : ∀ s ∈ Special.defnForm.unchecked args, M.Binds (Name.spell s.name)) :
    Crafts M (MadeOfAll M {}) (defnStmt self form args) := by
  have define {s : Symbol} (hs : M.Binds (Name.spell s.name)) {params : Form}
      (hparams : params.Throughout deep P) {body : List Form}
      (hbody : ∀ form ∈ body, form.Throughout deep P) (doc : Option String) :
      Crafts M (MadeOfAll M {})
        (do return [← function self (Name.spell s.name) params body form.span? doc]) :=
    .bind (function_crafts hM h hs.itself hparams hbody (hM.place hform) doc) fun _ hs =>
      .pure (madeOfAll_singleton hs)
  unfold defnStmt
  split
  · simp only [List.forall_mem_cons] at hargs
    exact define (hunchecked _ (by simp [Special.unchecked])) hargs.2.2.1 hargs.2.2.2 _
  · simp only [List.forall_mem_cons] at hargs
    exact define (hunchecked _ (by simp [Special.unchecked])) hargs.2.1 hargs.2.2 _
  · exact .fail _

theorem letStmt_crafts (form : Form) {args : List Form}
    (hargs : ∀ arg ∈ args, arg.Throughout deep P) :
    Crafts M (MadeOfAll M {}) (letStmt self form args) := by
  cases args with
  | nil => exact .fail _
  | cons bindings body =>
    rw [List.forall_mem_cons] at hargs
    exact Crafts.inScope (.bind (letBindings_crafts hM h hargs.1) fun _ hhead =>
      .bind (stmts_crafts h hargs.2) fun _ hrest => .pure (hhead.append hrest))

theorem loopStmt_crafts {form : Form} (hform : P form) {args : List Form}
    (hargs : ∀ arg ∈ args, arg.Throughout deep P)
    (hunchecked : ∀ s ∈ Special.loopForm.unchecked args, M.Binds (Name.spell s.name)) :
    Crafts M (MadeOfAll M {}) (loopStmt self form args) := by
  cases args with
  | nil => exact .fail _
  | cons bindings body =>
    rw [List.forall_mem_cons] at hargs
    exact .bind (Crafts.still (analyze_still body) (.anything _)) fun _ _ =>
      Crafts.inScope (.bind (loopTarget_crafts hM h hargs.1 hunchecked _) fun _ htarget =>
        .bind (whileLoop_crafts hM h htarget hargs.2 (hM.place hform)) fun _ hstmts =>
          .pure hstmts.1)

/-- One step of lowering as a statement. -/
theorem bareStmt_crafts {form : Form} (hform : form.Throughout deep P) :
    Crafts M (MadeOfAll M {}) (bareStmt self form) := by
  have expr : Crafts M (MadeOfAll M {}) (exprStmt self form) :=
    .bind (exprStep_crafts hM h hform) fun _ hvalue =>
      .pure (madeOfAll_singleton ⟨hvalue, hM.place hform.self⟩)
  unfold bareStmt
  split
  · rename_i head args span
    have hargs {special : Special} (hspecial : Special.ofName? head.name = some special)
        (hne : special ≠ .quoteForm) : ∀ arg ∈ args, arg.Throughout deep P :=
      (List.forall_mem_cons.mp (hform.items (Special.ne_quote hspecial hne))).2
    split
    next hspecial => exact ifStmt_crafts hM h hform.self (hargs hspecial nofun)
    next hspecial =>
      split
      · exact .pure (madeOfAll_singleton (hM.place hform.self))
      · exact stmts_crafts h (hargs hspecial nofun)
    next hspecial => exact defStmt_crafts hM h hform.self (hargs hspecial nofun)
    next hspecial =>
      exact defnStmt_crafts hM h hform.self (hargs hspecial nofun)
        (binds_unchecked hM hform hspecial)
    next hspecial => exact letStmt_crafts hM h _ (hargs hspecial nofun)
    next hspecial =>
      exact loopStmt_crafts hM h hform.self (hargs hspecial nofun)
        (binds_unchecked hM hform hspecial)
    · exact .fail _
    · exact expr
  · exact expr

/-- One step of lowering in the tail of a loop. -/
theorem tailStep_crafts {target : LoopTarget} (htarget : target.MadeOf M) {form : Form}
    (hform : form.Throughout deep P) :
    Crafts M (TailOf M) (tailStep self target form) := by
  have exit : Crafts M (TailOf M) (exitStep self target form) :=
    .bind (exprStep_crafts hM h hform) fun _ hvalue =>
      exitWith_crafts htarget hvalue (hM.place hform.self)
  unfold tailStep
  split
  · rename_i head args span
    -- nothing is known of the arguments of a quoted form, but none of the cases below is one
    have hitems (hhead : head.name ≠ "quote") : ∀ arg ∈ args, arg.Throughout deep P :=
      (List.forall_mem_cons.mp (hform.items hhead)).2
    have hargs {special : Special} (hspecial : Special.ofName? head.name = some special)
        (hne : special ≠ .quoteForm) : ∀ arg ∈ args, arg.Throughout deep P :=
      hitems (Special.ne_quote hspecial hne)
    split
    · rename_i hself
      exact jump_crafts hM h htarget hform.self (hitems (hself ▸ htarget.selfCall))
    · split
      next hspecial => exact tailIf_crafts hM h htarget hform.self (hargs hspecial nofun)
      next hspecial => exact tailCond_crafts hM h htarget hform.self (hargs hspecial nofun)
      next hspecial => exact tailCase_crafts hM h htarget hform.self (hargs hspecial nofun)
      next hspecial => exact tailLet_crafts hM h htarget _ (hargs hspecial nofun)
      next hspecial => exact loopBody_crafts h htarget args (hargs hspecial nofun)
      next hspecial =>
        exact tailLogical_crafts hM h htarget _ hform.self args (hargs hspecial nofun)
      next hspecial =>
        exact tailLogical_crafts hM h htarget _ hform.self args (hargs hspecial nofun)
      · exact exit
  · exact exit

/-- What is made of the material in every part is so in the whole. -/
theorem Crafted.step : self.step.Crafted M deep P where
  expr _ hform := exprStep_crafts hM h hform
  stmt _ hform := .bind (Crafts.collect (bareStmt_crafts hM h hform))
    fun ⟨_, _⟩ ⟨hstmts, hhelpers⟩ => .pure (hhelpers.append hstmts)
  tail _ htarget hform := tailStep_crafts hM h htarget hform

end Forms

/-- The code of forms of any depth is made of a material that covers them. -/
theorem upTo_crafted (hM : M.Covers P) : ∀ n : Nat, (upTo n).Crafted M deep P
  | 0 => ⟨fun _ _ => .fail _, fun _ _ => .fail _, fun _ _ _ => .fail _⟩
  | n + 1 => .step hM (upTo_crafted hM n)

end Lowering

/-! ### Whole programs -/

namespace Program

open Compile

variable {M : Material} {deep : Bool} {P : Form → Prop}

/-- The expanded forms of a source. -/
def Expanded (options : Options) (source : String) (forms : List Form) : Prop :=
  ∃ read, Form.readAll source = .ok read ∧
    Macro.expandAll Macro.standard options.maxDepth read = .ok forms

/-- If a material covers a property of the expanded forms of a source, the program is made of that
material. -/
theorem compile_madeOf_expanded (hM : M.Covers P) {options : Options}
    (hbefore : ∀ n, M.temp options.tempPrefix n) {file source : String} {program : List Stmt}
    (hforms : ∀ forms, Expanded options source forms → ∀ form ∈ forms, form.Throughout deep P)
    (h : (compile options file source).result = .ok program) : Stmt.MadeOfAll M {} program := by
  obtain ⟨c, hrun⟩ := compile_run h
  have hmade : Crafts M (fun forms => ∀ form ∈ forms, form.Throughout deep P)
      (forms options source) :=
    Crafts.still (forms_still options source) fun _ made _ hrun =>
      hforms made (forms_yields options source hrun)
  have hcrafts : Crafts M (Stmt.MadeOfAll M {}) (do lower file (← forms options source)) :=
    .bind hmade fun made hmade =>
      .bind (Lowering.stmts_crafts (Lowering.upTo_crafted hM _) hmade) fun _ hprogram =>
        .bind (Crafts.report _) fun _ _ => .pure hprogram
  exact (hcrafts hrun ⟨fun n _ => hbefore n, nofun⟩).1

/-- If a property of the forms of a source is kept by macros, and a material covers it, the program
is made of that material. -/
theorem compile_madeOf (hM : M.Covers P) (hkept : Macro.Kept P) (hshallow : Macro.Shallow P)
    {options : Options} (hbefore : ∀ n, M.temp options.tempPrefix n) {file source : String}
    {program : List Stmt}
    (hforms : ∀ forms, Form.readAll source = .ok forms → ∀ form ∈ forms, form.Throughout deep P)
    (h : (compile options file source).result = .ok program) : Stmt.MadeOfAll M {} program := by
  have hexpanded : ∀ forms, Expanded options source forms →
      ∀ form ∈ forms, form.Throughout deep P := by
    rintro forms ⟨read, hread, hexpand⟩
    exact Macro.expandAll_throughout hkept hshallow rfl (hforms read hread) hexpand
  exact compile_madeOf_expanded hM hbefore hexpanded h

end Program

end TailLisp
