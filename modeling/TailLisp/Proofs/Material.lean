import TailLisp.Proofs.HelperOrder

/-!
# TailLisp.Proofs.Material

**What generated code is made of.** Every node of a program carries a place or none, and every
variable, parameter and function in it has a name. A `Material` says which places and which names
there may be, which of the names may be bound, and which temporaries may be made. Lowering takes
them from the forms that it is given, apart from the temporaries it makes and a few names of the
library. So if a material covers the places and the names of the forms (`Material.Covers`), their
code is made of that material; `Compile.Crafts` says so of the steps of a compilation.

Code that is made of a material also has the shape that the target language asks for: it can stand
at a `Tree.Spot`, bodies are not empty, and operators have the operands they need.

Names that are bound have been checked by the parsers of patterns, but for those of functions and of
the variables of loops (`Form.unchecked`).

The one place that no form has is that of a name which is written together with a rest marker: it
is the place of the symbol without its first column.
-/

namespace TailLisp

/-- Where a node stands. -/
structure Tree.Spot where
  /-- Inside the body of a function. -/
  inFunction : Bool := false
  /-- Inside the body of a loop of the same function. -/
  inLoop : Bool := false
  /-- At the end of the row that holds it. -/
  isLast : Bool := false
  /-- Among the targets of an assignment. -/
  isTarget : Bool := false
  deriving DecidableEq, Repr

open Tree (Spot)

/-- The places that code may carry, the names that may occur in it, and those that it may bind. -/
structure Material where
  place : Span → Prop
  name : String → Prop
  /-- The names that may be assigned, or be those of functions and parameters. -/
  target : String → Prop
  /-- What temporaries may begin with, and the numbers that they may have then. -/
  temp : String → Nat → Prop

/-- All temporaries for the stem may be bound. -/
def Material.Tempers (M : Material) (stem : String) : Prop :=
  ∀ ⦃before n⦄, M.temp before n → M.target (before ++ stem ++ natText n)

/-- The name may be bound, itself or by temporaries that are made for it. -/
structure Material.Binds (M : Material) (name : String) : Prop where
  itself : M.target name
  tempers : M.Tempers (name ++ "_")

/-- The place of a node, if it has one of its own. -/
def Material.Admits (M : Material) (place : Option Span) : Prop := ∀ p ∈ place, M.place p

theorem Material.admits_none (M : Material) : M.Admits none := nofun

/-! ### Code that is made of a material -/

namespace Expr

mutual

/-- The places in the expression and the names that it reads are those of the material, and
operators have enough operands. -/
def MadeOf (M : Material) : Expr → Prop
  | .const _ p => M.Admits p
  | .name id p => M.name id ∧ M.Admits p
  | .field value _ p => MadeOf M value ∧ M.Admits p
  | .call callee args p => MadeOf M callee ∧ MadeOfAll M args ∧ M.Admits p
  | .list items p => MadeOfAll M items ∧ M.Admits p
  | .dict entries p => MadeOfEntries M entries ∧ M.Admits p
  | .binary _ left right p => MadeOf M left ∧ MadeOf M right ∧ M.Admits p
  | .unary _ operand p => MadeOf M operand ∧ M.Admits p
  | .logical _ operands p => MadeOfAll M operands ∧ M.Admits p ∧ 2 ≤ operands.length
  | .compare _ first others p =>
    MadeOf M first ∧ MadeOfAll M others ∧ M.Admits p ∧ 0 < others.length
  | .conditional test yes no p => MadeOf M test ∧ MadeOf M yes ∧ MadeOf M no ∧ M.Admits p
  | .thunk body p => MadeOf M body ∧ M.Admits p

/-- All of the expressions are made of the material. -/
def MadeOfAll (M : Material) : List Expr → Prop
  | [] => True
  | e :: es => MadeOf M e ∧ MadeOfAll M es

/-- All keys and values are made of the material. -/
def MadeOfEntries (M : Material) : List (Expr × Expr) → Prop
  | [] => True
  | (key, value) :: es => MadeOf M key ∧ MadeOf M value ∧ MadeOfEntries M es

end

variable {M : Material}

theorem madeOfAll_iff {es : List Expr} : MadeOfAll M es ↔ ∀ e ∈ es, e.MadeOf M := by
  induction es with
  | nil => simp [MadeOfAll]
  | cons e es ih => simp [MadeOfAll, ih]

/-- A dictionary is made of the material if its keys and its values are. -/
theorem madeOfEntries_zip {keys values : List Expr} (hkeys : ∀ e ∈ keys, e.MadeOf M)
    (hvalues : ∀ e ∈ values, e.MadeOf M) : MadeOfEntries M (keys.zip values) := by
  induction keys generalizing values with
  | nil => trivial
  | cons key keys ih =>
    cases values with
    | nil => trivial
    | cons value values =>
      rw [List.forall_mem_cons] at hkeys hvalues
      exact ⟨hkeys.1, hvalues.1, ih hkeys.2 hvalues.2⟩

theorem madeOf_load {x : String} (hx : M.name x) : (load x).MadeOf M := ⟨hx, M.admits_none⟩

theorem madeOf_constant (c : Constant) : (constant c).MadeOf M := M.admits_none

theorem madeOf_callOf {x : String} (hx : M.name x) {args : List Expr}
    (hargs : ∀ e ∈ args, e.MadeOf M) : (callOf x args).MadeOf M :=
  ⟨madeOf_load hx, madeOfAll_iff.mpr hargs, M.admits_none⟩

theorem MadeOf.placed {e : Expr} (h : e.MadeOf M) {p : Option Span} (hp : M.Admits p) :
    (e.placed p).MadeOf M := by
  cases p with
  | none => exact h
  | some p =>
    cases e with
    | const c q => exact hp
    | name id q => exact ⟨h.1, hp⟩
    | field value member q => exact ⟨h.1, hp⟩
    | call callee args q => exact ⟨h.1, h.2.1, hp⟩
    | list items q => exact ⟨h.1, hp⟩
    | dict entries q => exact ⟨h.1, hp⟩
    | binary op left right q => exact ⟨h.1, h.2.1, hp⟩
    | unary op operand q => exact ⟨h.1, hp⟩
    | logical op operands q => exact ⟨h.1, hp, h.2.2⟩
    | compare op first others q => exact ⟨h.1, h.2.1, hp, h.2.2.2⟩
    | conditional test yes no q => exact ⟨h.1, h.2.1, h.2.2.1, hp⟩
    | thunk body q => exact ⟨h.1, hp⟩

end Expr

namespace Stmt

mutual

/-- The places in the statement, the names that it reads and assigns, and those of its functions
and their parameters are those of the material, and it can stand at the spot. -/
def MadeOf (M : Material) (spot : Spot) : Stmt → Prop
  | .assign target value p => M.target target ∧ value.MadeOf M ∧ M.Admits p
  | .eval value p => value.MadeOf M ∧ M.Admits p
  | .ret value p => value.MadeOf M ∧ M.Admits p ∧ spot.inFunction = true
  | .branch test yes no p =>
    test.MadeOf M ∧ MadeOfAll M { inFunction := spot.inFunction, inLoop := spot.inLoop } yes
      ∧ MadeOfAll M { inFunction := spot.inFunction, inLoop := spot.inLoop } no
      ∧ M.Admits p ∧ yes ≠ []
  | .loop test body p =>
    test.MadeOf M ∧ MadeOfAll M { inFunction := spot.inFunction, inLoop := true } body
      ∧ M.Admits p ∧ body ≠ []
  | .define name params rest body p =>
    M.target name ∧ (∀ x ∈ params ++ rest.toList, M.target x)
      ∧ MadeOfAll M { inFunction := true } body ∧ M.Admits p ∧ body ≠ []
  | .skip p => M.Admits p
  | .next p => M.Admits p ∧ spot.inLoop = true ∧ spot.isLast = true

/-- All of the statements are made of the material, in a block at the spot. -/
def MadeOfAll (M : Material) (spot : Spot) : List Stmt → Prop
  | [] => True
  | s :: ss => MadeOf M { spot with isLast := ss.isEmpty } s ∧ MadeOfAll M spot ss

end

variable {M : Material} {spot : Spot} {ss ts : List Stmt}

mutual

/-- Code can stand where more is allowed. The end of a block matters in a loop only. -/
theorem MadeOf.mono : ∀ {s : Stmt} {spot spot' : Spot}, s.MadeOf M spot →
    (spot.inFunction = true → spot'.inFunction = true) →
    (spot.inLoop = true → spot'.inLoop = true ∧ spot'.isLast = spot.isLast) → s.MadeOf M spot'
  | .assign _ _ _, _, _, h, _, _ | .eval _ _, _, _, h, _, _ | .skip _, _, _, h, _, _
  | .define _ _ _ _ _, _, _, h, _, _ => h
  | .ret _ _, _, _, h, hf, _ => ⟨h.1, h.2.1, hf h.2.2⟩
  | .branch _ _ _ _, _, _, h, hf, hl =>
    ⟨h.1, h.2.1.mono hf fun hloop => (hl hloop).1, h.2.2.1.mono hf fun hloop => (hl hloop).1,
      h.2.2.2⟩
  | .loop _ _ _, _, _, h, hf, _ => ⟨h.1, h.2.1.mono hf id, h.2.2⟩
  | .next _, _, _, h, _, hl => ⟨h.1, (hl h.2.1).1, (hl h.2.1).2.trans h.2.2⟩

theorem MadeOfAll.mono : ∀ {ss : List Stmt} {spot spot' : Spot}, MadeOfAll M spot ss →
    (spot.inFunction = true → spot'.inFunction = true) →
    (spot.inLoop = true → spot'.inLoop = true) → MadeOfAll M spot' ss
  | [], _, _, _, _, _ => trivial
  | _ :: _, _, _, h, hf, hl => ⟨h.1.mono hf fun hloop => ⟨hl hloop, rfl⟩, h.2.mono hf hl⟩

end

/-- What can stand anywhere can stand at the spot. -/
theorem MadeOf.anywhere {s : Stmt} (h : s.MadeOf M {}) : s.MadeOf M spot :=
  h.mono nofun nofun

theorem madeOfAll_iff : MadeOfAll M {} ss ↔ ∀ s ∈ ss, s.MadeOf M {} := by
  induction ss with
  | nil => simp [MadeOfAll]
  | cons s ss ih =>
    rw [MadeOfAll, ih, List.forall_mem_cons]
    exact and_congr_left fun _ => ⟨fun h => h.mono nofun nofun, fun h => h.anywhere⟩

theorem madeOfAll_singleton {s : Stmt} (h : s.MadeOf M {}) : MadeOfAll M {} [s] :=
  ⟨h.anywhere, trivial⟩

/-- Code that can stand anywhere can stand before other code. -/
theorem MadeOfAll.append (h : MadeOfAll M {} ss) (h' : MadeOfAll M spot ts) :
    MadeOfAll M spot (ss ++ ts) := by
  induction ss with
  | nil => exact h'
  | cons s ss ih => exact ⟨h.1.mono nofun nofun, ih h.2⟩

theorem madeOfAll_flatten {blocks : List (List Stmt)} (h : ∀ ss ∈ blocks, MadeOfAll M {} ss) :
    MadeOfAll M {} blocks.flatten := by
  induction blocks with
  | nil => trivial
  | cons ss blocks ih =>
    rw [List.forall_mem_cons] at h
    exact h.1.append (ih h.2)

/-- Code that can be the body of a loop, a function or a branch which stands at a spot. -/
structure BodyOf (M : Material) (spot : Spot) (ss : List Stmt) : Prop where
  made : MadeOfAll M spot ss
  nonempty : ss ≠ []

/-- Code that ends a pass of a loop. -/
abbrev TailOf (M : Material) : List Stmt → Prop := BodyOf M { inLoop := true }

/-- Code that ends a function. -/
abbrev ReturnOf (M : Material) : List Stmt → Prop := BodyOf M { inFunction := true }

namespace BodyOf

/-- Statements may be put before code that ends a block. -/
theorem prepend (h : BodyOf M spot ts) (hss : MadeOfAll M {} ss) : BodyOf M spot (ss ++ ts) :=
  ⟨hss.append h.made, by simp [h.nonempty]⟩

theorem cons {s : Stmt} (h : BodyOf M spot ts) (hs : s.MadeOf M {}) : BodyOf M spot (s :: ts) :=
  h.prepend (madeOfAll_singleton hs)

theorem ret {value : Expr} (h : value.MadeOf M) {place : Option Span} (hplace : M.Admits place) :
    ReturnOf M [.ret value place] := ⟨⟨⟨h, hplace, rfl⟩, trivial⟩, by simp⟩

/-- A branch whose first arm is not empty. -/
theorem branch {f l : Bool} {test : Expr} (htest : test.MadeOf M)
    (hyes : BodyOf M { inFunction := f, inLoop := l } ss)
    (hno : MadeOfAll M { inFunction := f, inLoop := l } ts) {place : Option Span}
    (hplace : M.Admits place) :
    BodyOf M { inFunction := f, inLoop := l } [.branch test ss ts place] :=
  ⟨⟨⟨htest, hyes.made, hno, hplace, hyes.nonempty⟩, trivial⟩, by simp⟩

end BodyOf

end Stmt

namespace Binding

/-- The binding is made of the material; a span that lies in no source is no place. -/
structure MadeOf (M : Material) (b : Binding) : Prop where
  target : M.target b.target
  value : b.value.MadeOf M
  place : M.Admits (b.span.filter Span.isReal)

/-- The assignments of bindings; a binding without a place of its own takes the outer one. -/
theorem madeOfAll_assigns {M : Material} {bs : List Binding} (h : ∀ b ∈ bs, b.MadeOf M)
    {outer : Option Span} (houter : M.Admits (outer.filter Span.isReal)) :
    Stmt.MadeOfAll M {} (assigns outer bs) := by
  refine Stmt.madeOfAll_iff.mpr (List.forall_mem_map.mpr fun b hb => ?_)
  obtain ⟨htarget, hvalue, hplace⟩ := h b hb
  refine ⟨htarget, hvalue, ?_⟩
  cases hspan : b.span with
  | none => exact houter
  | some span => rwa [hspan] at hplace

/-- The parameters that a helper takes are targets of its bindings. -/
theorem target_of_readBeforeBound {M : Material} {steps : List Step}
    (h : ∀ step ∈ steps, M.target step.1) : ∀ x ∈ readBeforeBound steps, M.target x := by
  intro x hx
  obtain ⟨step, hstep, rfl⟩ := List.mem_map.mp (mem_readBeforeBound.mp hx).1
  exact h step hstep

/-- Every step of a row of bindings has one of their targets. -/
theorem target_of_steps {M : Material} {bs : List Binding} (h : ∀ b ∈ bs, b.MadeOf M)
    (helpers : List Stmt) : ∀ step ∈ steps helpers bs, M.target step.1 := by
  cases bs with
  | nil => exact nofun
  | cons b bs =>
    rw [List.forall_mem_cons] at h
    exact List.forall_mem_cons.mpr
      ⟨h.1.target, List.forall_mem_map.mpr fun b hb => (h.2 b hb).target⟩

end Binding

/-- The names and bindings of the target are made of the material. -/
structure LoopTarget.MadeOf (M : Material) (target : LoopTarget) : Prop where
  vars : ∀ x ∈ target.vars, M.target x
  inits : ∀ b ∈ target.inits, b.MadeOf M
  rebind : ∀ b ∈ target.rebind, b.MadeOf M
  exit : ∀ exit ∈ target.exit, M.target exit.flag ∧ M.target exit.result
  /-- A self-call is no quoted form. -/
  selfCall : target.selfCall ≠ "quote"

theorem Scope.mem_insert {scope : Scope} {name target : String} {entry : String × String}
    (h : entry ∈ scope.insert name target) : entry ∈ scope ∨ entry = (name, target) := by
  induction scope with
  | nil => exact .inr (List.mem_singleton.mp h)
  | cons other scope ih =>
    unfold Scope.insert at h
    split at h
    · rcases List.mem_cons.mp h with h | h
      · exact .inr h
      · exact .inl (List.mem_cons_of_mem _ h)
    · rcases List.mem_cons.mp h with h | h
      · exact .inl (List.mem_cons.mpr (.inl h))
      · exact (ih h).imp_left (List.mem_cons_of_mem _)

/-- What names mean in the scopes is of the material, and so are the temporaries that are still to
be made. -/
structure Context.Suits (M : Material) (c : Context) : Prop where
  temp : ∀ n, c.counter < n → M.temp c.tempPrefix n
  scopes : ∀ scope ∈ c.scopes, ∀ entry ∈ scope, M.name entry.2

/-! ### Names that are bound unchecked -/

/-- The symbols that a special form with the given arguments binds without a check: the name of a
function, and the names among the variables of a loop. -/
def Special.unchecked : Special → List Form → List Symbol
  | .fnForm, .symbol s :: _ => [s]
  | .defnForm, .symbol s :: _ => [s]
  | .loopForm, .vector items _ :: _ =>
    ((Form.pairUp items).getD []).filterMap fun
      | (.symbol s, _) => some s
      | _ => none
  | _, _ => []

/-- The symbols that the form itself binds without a check. -/
def Form.unchecked : Form → List Symbol
  | .list (.symbol head :: args) _ =>
    match Special.ofName? head.name with
    | some special => special.unchecked args
    | none => []
  | _ => []

theorem Form.unchecked_of_special {head : Symbol} {special : Special} {args : List Form}
    {span : Option Span} (h : Special.ofName? head.name = some special) :
    (Form.list (.symbol head :: args) span).unchecked = special.unchecked args := by
  simp only [unchecked, h]

/-- An unchecked symbol stands among the arguments, or in the vector that is the first of them. -/
theorem Special.mem_of_unchecked {special : Special} {args : List Form} {s : Symbol}
    (h : s ∈ special.unchecked args) : special ≠ .quoteForm ∧ (.symbol s ∈ args ∨
      ∃ items span, .vector items span ∈ args ∧ .symbol s ∈ items) := by
  unfold unchecked at h
  split at h
  · cases List.mem_singleton.mp h
    exact ⟨nofun, .inl List.mem_cons_self⟩
  · cases List.mem_singleton.mp h
    exact ⟨nofun, .inl List.mem_cons_self⟩
  · rename_i items span rest
    obtain ⟨⟨binder, init⟩, hpair, hs⟩ := List.mem_filterMap.mp h
    obtain rfl : binder = .symbol s := by
      cases binder with
      | symbol s' => cases hs; rfl
      | _ => cases hs
    refine ⟨nofun, .inr ⟨items, span, List.mem_cons_self, ?_⟩⟩
    cases hpairs : Form.pairUp items with
    | none => simp [hpairs] at hpair
    | some pairs =>
      rw [hpairs] at hpair
      exact (Form.mem_of_pairUp hpairs hpair).1
  · cases h

/-! ### Materials for forms -/

/-- The names of the library that lowering brings in. -/
def libraryNames : List String := ["Keyword", "Symbol", "nth", "subseq", "lookup", "seq"]

/-- What temporaries are for, where no binder says it. -/
def stems : List String :=
  ["destructure_", "arg_", "recur_", "case_", "case_fn_", "test_", "loop_", "continue_", "result_",
   "do_", "let_", "fn_"]

/-- The symbol has the property, or it was written together with a rest marker by one that has
it. -/
def CoveredSymbol (P : Form → Prop) (s : Symbol) : Prop :=
  P (.symbol s) ∨
    ∃ s', P (.symbol s') ∧ Pattern.isRestName s'.name = true ∧ s = Pattern.fusedRest s'

/-- The material has all that lowering takes from forms with the property `P`, and what it brings
in itself. -/
structure Material.Covers (M : Material) (P : Form → Prop) : Prop where
  nil : P .nil
  place : ∀ {form : Form}, P form → M.Admits form.place?
  /-- The place of a name that is written together with a rest marker. -/
  fused : ∀ {s : Symbol}, P (.symbol s) → Pattern.isRestName s.name = true →
    Pattern.isBindable (Pattern.fusedRest s).name = true →
    M.Admits (Form.symbol (Pattern.fusedRest s)).place?
  /-- A symbol that is read is spelled up to its first point. -/
  read : ∀ {s : Symbol} {first : String} {fields : List String}, P (.symbol s) →
    Name.parts s.name = first :: fields → M.name (Name.spell first)
  bound : ∀ {x : String}, M.target x → M.name x
  /-- The name of a function or of a variable of a loop. -/
  unchecked : ∀ {form : Form} {s : Symbol}, P form → P (.symbol s) → s ∈ form.unchecked →
    M.Binds (Name.spell s.name)
  bindable : ∀ {s : Symbol}, CoveredSymbol P s → Pattern.isBindable s.name = true →
    M.Binds (Name.spell s.name)
  tempers : ∀ stem ∈ stems, M.Tempers stem
  library : ∀ x ∈ libraryNames, M.name x

namespace Compile

variable {α β : Type} {M : Material} {P : Form → Prop} {Q : α → Prop} {R : β → Prop}

/-- From a context that suits the material, every successful run of the step leads to a result with
the property `Q` and to such a context, and the helpers that it adds are made of the material. -/
def Crafts (M : Material) (Q : α → Prop) (m : Compile α) : Prop :=
  ∀ ⦃c a c'⦄, m c = .ok a c' → c.Suits M →
    Q a ∧ c'.Suits M ∧ ∃ new, c'.helpers = c.helpers ++ new ∧ Stmt.MadeOfAll M {} new

namespace Crafts

/-- A step that adds no helpers. -/
theorem of_helpers {m : Compile α} (h : ∀ ⦃c a c'⦄, m c = .ok a c' → c.Suits M →
    Q a ∧ c'.Suits M ∧ c'.helpers = c.helpers) : Crafts M Q m := by
  intro c a c' hrun hc
  obtain ⟨ha, hc', hhelpers⟩ := h hrun hc
  exact ⟨ha, hc', [], by rw [hhelpers, List.append_nil], trivial⟩

/-- A step that leaves the context as it is only has to promise something of its result. -/
theorem still {m : Compile α} (hm : Still m) (h : Yields Q m) : Crafts M Q m := by
  refine of_helpers fun c a c' hrun hc => ?_
  obtain ⟨events, rfl⟩ := hm hrun
  exact ⟨h hrun, ⟨hc.temp, hc.scopes⟩, rfl⟩

protected theorem pure {a : α} (h : Q a) : Crafts M Q (pure a : Compile α) :=
  still (.pure a) (.pure h)

protected theorem fail (fault : Fault) : Crafts M Q (fail fault : Compile α) :=
  fun _ _ _ h => (not_fail_ok h).elim

protected theorem lift (e : Except Fault α) : Crafts M (fun a => e = .ok a) (lift e) :=
  still (.lift e) (Lowering.lift_yields e)

theorem report (event : Event) : Crafts M (fun _ => True) (report event) :=
  still (.report event) (.anything _)

/-- Steps in a row. The second one may use what the first one has promised. -/
protected theorem bind {P : α → Prop} {m : Compile α} {f : α → Compile β} (hm : Crafts M P m)
    (hf : ∀ a, P a → Crafts M R (f a)) : Crafts M R (m >>= f) := by
  intro c b c' h hc
  obtain ⟨a, c₁, h₁, h₂⟩ := bind_ok h
  obtain ⟨ha, hc₁, new, hnew, hmade⟩ := hm h₁ hc
  obtain ⟨hb, hc', new', hnew', hmade'⟩ := hf a ha h₂ hc₁
  exact ⟨hb, hc', new ++ new', by rw [hnew', hnew, List.append_assoc], hmade.append hmade'⟩

protected theorem mapM {f : α → Compile β} :
    ∀ {xs : List α}, (∀ x ∈ xs, Crafts M R (f x)) →
      Crafts M (fun ys => ys.length = xs.length ∧ ∀ y ∈ ys, R y) (xs.mapM f)
  | [], _ => .pure (by simp)
  | x :: xs, h => by
    rw [List.mapM_cons]
    refine .bind (h x List.mem_cons_self) fun y hy =>
      .bind (.mapM fun x' hx' => h x' (List.mem_cons_of_mem _ hx')) fun ys hys => .pure ?_
    exact ⟨by simp [hys.1], List.forall_mem_cons.mpr ⟨hy, hys.2⟩⟩

protected theorem foldlM {f : β → α → Compile β} :
    ∀ {xs : List α} {b : β}, R b → (∀ b, R b → ∀ x ∈ xs, Crafts M R (f b x)) →
      Crafts M R (xs.foldlM f b)
  | [], _, hb, _ => .pure hb
  | x :: xs, b, hb, h => by
    rw [List.foldlM_cons]
    exact .bind (h b hb x List.mem_cons_self) fun b' hb' =>
      .foldlM hb' fun b'' hb'' x' hx' => h b'' hb'' x' (List.mem_cons_of_mem _ hx')

protected theorem foldrM {f : α → β → Compile β} {b : β} (hb : R b) :
    ∀ {xs : List α}, (∀ x ∈ xs, ∀ b, R b → Crafts M R (f x b)) → Crafts M R (xs.foldrM f b)
  | [], _ => .pure hb
  | x :: xs, h => by
    rw [List.foldrM_cons]
    exact .bind (.foldrM hb fun x' hx' => h x' (List.mem_cons_of_mem _ hx')) fun b' hb' =>
      h x List.mem_cons_self b' hb'

/-- A new temporary is a target of the material. -/
theorem fresh {stem : String} (hstem : M.Tempers stem) : Crafts M M.target (fresh stem) := by
  refine of_helpers fun c x c' h hc => ?_
  cases h
  exact ⟨hstem (hc.temp _ (Nat.lt_succ_self _)),
    ⟨fun n hn => hc.temp n (Nat.lt_of_succ_lt hn), hc.scopes⟩, rfl⟩

/-- A name means itself, or what a scope says. -/
theorem resolve {name : String} (hname : M.name name) : Crafts M M.name (resolve name) := by
  refine of_helpers fun c x c' h hc => ?_
  cases h
  refine ⟨?_, hc, rfl⟩
  unfold Context.resolve
  cases hfind : c.scopes.findSome? fun scope => scope.lookup name with
  | none => exact hname
  | some target =>
    obtain ⟨scope, hscope, hlookup⟩ := List.exists_of_findSome?_eq_some hfind
    obtain ⟨before, behind, rfl, -⟩ := List.lookup_eq_some_iff.mp hlookup
    exact hc.scopes _ hscope (name, target) (by simp)

/-- A helper that is put before the statement has to be made of the material too. -/
theorem hoist {helper : Stmt} (h : helper.MadeOf M {}) :
    Crafts M (fun _ => True) (hoist helper) := by
  intro c _ c' hrun hc
  cases hrun
  exact ⟨trivial, ⟨hc.temp, hc.scopes⟩, [helper], rfl, Stmt.madeOfAll_singleton h⟩

theorem declare (name : String) {target : String} (htarget : M.name target) :
    Crafts M (fun _ => True) (modify (·.declare name target) : Compile Unit) := by
  refine of_helpers fun c _ c' hrun hc => ⟨trivial, ?_⟩
  cases hrun
  change (c.declare name target).Suits M ∧ (c.declare name target).helpers = c.helpers
  unfold Context.declare
  split
  · exact ⟨hc, rfl⟩
  · rename_i scope outer hscopes
    have hall := hc.scopes
    rw [hscopes, List.forall_mem_cons] at hall
    refine ⟨⟨hc.temp, List.forall_mem_cons.mpr ⟨fun entry hentry => ?_, hall.2⟩⟩, rfl⟩
    rcases Scope.mem_insert hentry with hentry | rfl
    · exact hall.1 entry hentry
    · exact htarget

/-- A binder gives its own name or a new temporary. -/
theorem binder (hM : M.Covers P) {name : String} (hname : M.Binds name) :
    ∀ mode : BindMode, Crafts M M.target (Compile.bind mode name)
  | .asIs => .pure hname.itself
  | .scoped => .bind (declare name (hM.bound hname.itself)) fun _ _ => .pure hname.itself
  | .fresh => .bind (fresh hname.tempers) fun _ htarget =>
    .bind (declare name (hM.bound htarget)) fun _ _ => .pure htarget

/-- The helpers that `collect` takes out can stand anywhere. -/
theorem collect {m : Compile α} (hm : Crafts M Q m) :
    Crafts M (fun result => Q result.1 ∧ Stmt.MadeOfAll M {} result.2) (collect m) := by
  rintro c ⟨a, helpers⟩ c' h hc
  obtain ⟨c₁, hrun, rfl, rfl⟩ := collect_ok h
  obtain ⟨ha, hc₁, new, hnew, hmade⟩ := hm hrun hc
  rw [hnew, List.drop_left, List.take_left]
  exact ⟨⟨ha, hmade⟩, ⟨hc₁.temp, hc₁.scopes⟩, [], (List.append_nil _).symm, trivial⟩

/-- What names mean inside of a scope is forgotten after it. -/
theorem inScope {m : Compile α} (hm : Crafts M Q m) : Crafts M Q (inScope m) := by
  intro c a c' h hc
  obtain ⟨c₁, hrun, rfl⟩ := inScope_ok h
  obtain ⟨ha, hc₁, hhelpers⟩ := hm hrun ⟨hc.temp, List.forall_mem_cons.mpr ⟨nofun, hc.scopes⟩⟩
  exact ⟨ha, ⟨hc₁.temp, fun scope hscope => hc₁.scopes scope (List.mem_of_mem_tail hscope)⟩,
    hhelpers⟩

end Crafts

end Compile

end TailLisp
