import TailLisp.Lowering.Stmt
import TailLisp.Proofs.Occurrence
import TailLisp.Proofs.PatternLevel

/-!
# TailLisp.Proofs.Balance

**What lowering does to the context.** A step that lowers a form lets temporaries be made and
helper functions be added, and leaves every scope that was open before it as it was. The second
half of the module goes through the constructs; each of them keeps the context in order if the
lowering of its parts does, so the lowering of every form does (`Lowering.upTo_balanced`).

Binders add names to the innermost scope. The relation `Context.Grows` therefore has the part of
the scopes that stays as it is for a parameter: all of them (`id`) for a form, all but the
innermost (`List.tail`) for binders.

A fault leaves scopes open and helpers waiting. What holds after a fault as well is that the
temporaries are those that the supply has given out, one after the other (`Context.Supplied`). They
are made for stems that end in an underscore only, so that the number of each can be told from its
name, whatever names of the source and whatever prefix stand before.
-/

namespace TailLisp

/-! ### The numbers of temporaries -/

/-- The number at the end of a temporary that begins with `p`. -/
def tempNumber? (p x : String) : Option Nat :=
  if p.toList.isPrefixOf x.toList then
    let digits := ((x.toList.drop p.toList.length).reverse.takeWhile Char.isDigit).reverse
    if digits.isEmpty then none else some (Nat.ofDigitChars 10 digits 0)
  else none

theorem tempNumber?_eq_none {p x : String} (h : p.toList.isPrefixOf x.toList = false) :
    tempNumber? p x = none := by
  simp [tempNumber?, h]

/-- The number of a temporary can be read off its name, because an underscore stands before it. -/
theorem tempNumber?_temp (p stem : String) (k : Nat) :
    tempNumber? p (p ++ (stem ++ "_") ++ natText k) = some k := by
  have hdigits : ∀ c ∈ (Nat.toDigits 10 k).reverse, c.isDigit = true := fun c hc =>
    Nat.isDigit_of_mem_toDigits (by decide) (by decide) (List.mem_reverse.mp hc)
  have hrow : (p ++ (stem ++ "_") ++ natText k).toList =
      p.toList ++ (stem.toList ++ '_' :: Nat.toDigits 10 k) := by
    simp [natText]
  have htake : ((stem.toList ++ '_' :: Nat.toDigits 10 k).reverse.takeWhile Char.isDigit).reverse =
      Nat.toDigits 10 k := by
    rw [List.reverse_append, List.reverse_cons, List.append_assoc,
      List.takeWhile_append_of_pos hdigits]
    simp
  have hne : Nat.toDigits 10 k ≠ [] := Nat.toDigits_ne_nil
  have hpre : p.toList.isPrefixOf (p.toList ++ (stem.toList ++ '_' :: Nat.toDigits 10 k))
      = true := by
    simp
  simp only [tempNumber?, hrow, hpre, if_true, List.drop_left, htake]
  simp [hne]

/-- Calls of `Compile.fresh` after others. -/
theorem Compile.mapM_fresh_append {stems temps : List String} {c c' : Context}
    (h : stems.mapM Compile.fresh c = .ok temps c') (stem : String) :
    (stems ++ [stem]).mapM Compile.fresh c =
      .ok (temps ++ [(c'.fresh stem).1]) (c'.fresh stem).2 := by
  rw [List.mapM_append]
  simp only [Bind.bind, EStateM.bind, h]
  rfl

/-- The temporaries of the context, oldest first, are what `Compile.fresh` returns if it is called
with stems that end in an underscore, one after the other, where no temporary has been made and the
prefix is `p`. -/
def Context.Supplied (p : String) (c : Context) : Prop :=
  ∃ (stems : List String) (c' : Context),
    (stems.map (· ++ "_")).mapM Compile.fresh { tempPrefix := p } = .ok c.temps.reverse c' ∧
      c'.tempPrefix = c.tempPrefix ∧ c'.counter = c.counter

/-- One more call of `fresh` with such a stem. -/
theorem Context.Supplied.fresh {p : String} {c : Context} (h : c.Supplied p) (stem : String) :
    (c.fresh (stem ++ "_")).2.Supplied p := by
  obtain ⟨stems, c', hrun, htemp, hcounter⟩ := h
  refine ⟨stems ++ [stem], (c'.fresh (stem ++ "_")).2, ?_, htemp, congrArg (· + 1) hcounter⟩
  -- the next call is made where the others have ended
  have hlast : (c'.fresh (stem ++ "_")).1 = (c.fresh (stem ++ "_")).1 := by
    simp only [Context.fresh, htemp, hcounter]
  have htemps : (c.fresh (stem ++ "_")).2.temps.reverse =
      c.temps.reverse ++ [(c.fresh (stem ++ "_")).1] := List.reverse_cons ..
  rw [List.map_append, List.map_singleton, htemps, ← hlast]
  exact Compile.mapM_fresh_append hrun _

/-! ### Contexts that grow -/

/-- Does the statement define a function? -/
def Stmt.isDefine : Stmt → Bool
  | .define .. => true
  | _ => false

/-- The context `c'` comes from `c` by new temporaries and helper functions, and `view` of its
scopes is unchanged. The new temporaries come from the supply. -/
structure Context.Grows (view : List Scope → List Scope) (c c' : Context) : Prop where
  tempPrefix : c'.tempPrefix = c.tempPrefix
  counter : c.counter ≤ c'.counter
  helpers : ∃ new, c'.helpers = c.helpers ++ new ∧ ∀ s ∈ new, s.isDefine = true
  scopes : view c'.scopes = view c.scopes
  supplied : ∀ ⦃p⦄, c.Supplied p → c'.Supplied p

namespace Context.Grows

variable {view : List Scope → List Scope} {c c₁ c₂ : Context}

theorem refl (c : Context) : c.Grows view c :=
  ⟨rfl, Nat.le_refl _, ⟨[], by simp⟩, rfl, fun _ => id⟩

theorem trans (h : c.Grows view c₁) (h' : c₁.Grows view c₂) : c.Grows view c₂ := by
  obtain ⟨new, hnew, hdef⟩ := h.helpers
  obtain ⟨new', hnew', hdef'⟩ := h'.helpers
  refine ⟨h'.tempPrefix.trans h.tempPrefix, Nat.le_trans h.counter h'.counter,
    ⟨new ++ new', ?_, ?_⟩, h'.scopes.trans h.scopes, fun _ hc => h'.supplied (h.supplied hc)⟩
  · rw [hnew', hnew, List.append_assoc]
  · intro s hs
    rcases List.mem_append.mp hs with hs | hs
    · exact hdef s hs
    · exact hdef' s hs

theorem weaken (h : c.Grows id c₁) : c.Grows view c₁ :=
  ⟨h.tempPrefix, h.counter, h.helpers, congrArg view h.scopes, h.supplied⟩

end Context.Grows

namespace Compile

variable {α β : Type} {view : List Scope → List Scope}

/-! ### Taking steps apart -/

theorem bind_ok {m : Compile α} {f : α → Compile β} {c c' : Context} {b : β}
    (h : (m >>= f) c = .ok b c') : ∃ a c₁, m c = .ok a c₁ ∧ f a c₁ = .ok b c' := by
  simp only [Bind.bind, EStateM.bind] at h
  split at h
  · exact ⟨_, _, ‹_›, h⟩
  · cases h

theorem bind_error {m : Compile α} {f : α → Compile β} {c c' : Context} {fault : Fault}
    (h : (m >>= f) c = .error fault c') :
    m c = .error fault c' ∨ ∃ a c₁, m c = .ok a c₁ ∧ f a c₁ = .error fault c' := by
  simp only [Bind.bind, EStateM.bind] at h
  split at h
  · exact .inr ⟨_, _, ‹_›, h⟩
  · cases h
    exact .inl ‹_›

theorem pure_ok {a b : α} {c c' : Context} (h : (pure a : Compile α) c = .ok b c') :
    a = b ∧ c = c' := by
  cases h
  exact ⟨rfl, rfl⟩

theorem not_fail_ok {fault : Fault} {a : α} {c c' : Context}
    (h : (fail fault : Compile α) c = .ok a c') : False := nomatch h

/-- What `collect` takes out are the helpers that the step has added. -/
theorem collect_ok {m : Compile α} {c c' : Context} {a : α} {helpers : List Stmt}
    (h : collect m c = .ok (a, helpers) c') :
    ∃ c₁, m c = .ok a c₁ ∧ helpers = c₁.helpers.drop c.helpers.length
      ∧ c' = { c₁ with helpers := c₁.helpers.take c.helpers.length } := by
  obtain ⟨_, _, hget, h⟩ := bind_ok h
  cases hget
  obtain ⟨b, c₁, hm, h⟩ := bind_ok h
  obtain ⟨_, _, htake, h⟩ := bind_ok h
  cases htake
  obtain ⟨hpair, rfl⟩ := pure_ok h
  cases hpair
  exact ⟨c₁, hm, rfl, rfl⟩

theorem inScope_ok {m : Compile α} {c c' : Context} {a : α} (h : inScope m c = .ok a c') :
    ∃ c₁, m c.enter = .ok a c₁ ∧ c' = c₁.leave := by
  obtain ⟨_, _, henter, h⟩ := bind_ok h
  cases henter
  obtain ⟨b, c₁, hm, h⟩ := bind_ok h
  obtain ⟨_, _, hleave, h⟩ := bind_ok h
  cases hleave
  obtain ⟨rfl, rfl⟩ := pure_ok h
  exact ⟨c₁, hm, rfl⟩

/-- Only the step itself can fail in `collect`. -/
theorem collect_error {m : Compile α} {c c' : Context} {fault : Fault}
    (h : collect m c = .error fault c') : m c = .error fault c' := by
  rcases bind_error h with hget | ⟨_, _, hget, h⟩
  · cases hget
  cases hget
  rcases bind_error h with h | ⟨_, _, _, h⟩
  · exact h
  · cases h

theorem inScope_error {m : Compile α} {c c' : Context} {fault : Fault}
    (h : inScope m c = .error fault c') : m c.enter = .error fault c' := by
  rcases bind_error h with henter | ⟨_, _, henter, h⟩
  · cases henter
  cases henter
  rcases bind_error h with h | ⟨_, _, _, h⟩
  · exact h
  · cases h

/-! ### Steps that keep the context in order -/

/-- Every successful run of the step lets the context grow. A fault leaves the temporaries that the
supply has given out, and it is not about digits: lowering writes no integers. -/
structure Keeps (view : List Scope → List Scope) (m : Compile α) : Prop where
  grows : ∀ ⦃c a c'⦄, m c = .ok a c' → c.Grows view c'
  supplied : ∀ ⦃c fault c'⦄, m c = .error fault c' → ∀ ⦃p⦄, c.Supplied p → c'.Supplied p
  kind : ∀ ⦃c fault c'⦄, m c = .error fault c' → fault.kind ≠ .digits

namespace Keeps

/-- A step that cannot fail. -/
theorem of_grows {m : Compile α} {result : Context → α} {next : Context → Context}
    (hm : ∀ c, m c = .ok (result c) (next c)) (h : ∀ c : Context, c.Grows view (next c)) :
    Keeps view m where
  grows c a c' hrun := by
    cases (hm c).symm.trans hrun
    exact h c
  supplied c fault c' hrun := nomatch (hm c).symm.trans hrun
  kind c fault c' hrun := nomatch (hm c).symm.trans hrun

protected theorem pure (a : α) : Keeps view (pure a : Compile α) :=
  of_grows (fun _ => rfl) .refl

protected theorem fail {fault : Fault} (hkind : fault.kind ≠ .digits) :
    Keeps view (fail fault : Compile α) where
  grows _ _ _ h := (not_fail_ok h).elim
  supplied := by
    rintro c _ _ ⟨⟩ p h
    exact h
  kind := by
    rintro c _ _ ⟨⟩
    exact hkind

/-- The second step may rely on the first having given its result. -/
theorem bind_of_ok {m : Compile α} {f : α → Compile β} (hm : Keeps view m)
    (hf : ∀ ⦃c a c'⦄, m c = .ok a c' → Keeps view (f a)) : Keeps view (m >>= f) where
  grows c b c' h := by
    obtain ⟨a, c₁, h₁, h₂⟩ := bind_ok h
    exact (hm.grows h₁).trans ((hf h₁).grows h₂)
  supplied c fault c' h p hc := by
    rcases bind_error h with h₁ | ⟨a, c₁, h₁, h₂⟩
    · exact hm.supplied h₁ hc
    · exact (hf h₁).supplied h₂ ((hm.grows h₁).supplied hc)
  kind c fault c' h := by
    rcases bind_error h with h₁ | ⟨a, c₁, h₁, h₂⟩
    · exact hm.kind h₁
    · exact (hf h₁).kind h₂

protected theorem bind {m : Compile α} {f : α → Compile β} (hm : Keeps view m)
    (hf : ∀ a, Keeps view (f a)) : Keeps view (m >>= f) := hm.bind_of_ok fun _ a _ _ => hf a

theorem weaken {m : Compile α} (hm : Keeps id m) : Keeps view m :=
  ⟨fun _ _ _ h => (hm.grows h).weaken, hm.supplied, hm.kind⟩

protected theorem lift {e : Except Fault α} (h : Parsing.Faults (· ≠ .digits) e) :
    Keeps view (lift e) := by
  cases e with
  | ok a => exact .pure a
  | error fault => exact .fail (h rfl)

protected theorem mapM {f : α → Compile β} :
    ∀ {xs : List α}, (∀ x ∈ xs, Keeps view (f x)) → Keeps view (xs.mapM f)
  | [], _ => .pure []
  | x :: xs, h => by
    rw [List.mapM_cons]
    exact .bind (h x List.mem_cons_self) fun y =>
      .bind (.mapM fun x' hx' => h x' (List.mem_cons_of_mem _ hx')) fun ys => .pure _

protected theorem foldlM {f : β → α → Compile β} :
    ∀ {xs : List α} (b : β), (∀ b, ∀ x ∈ xs, Keeps view (f b x)) → Keeps view (xs.foldlM f b)
  | [], b, _ => .pure b
  | x :: xs, b, h => by
    rw [List.foldlM_cons]
    exact .bind (h b x List.mem_cons_self) fun b' =>
      .foldlM b' fun b'' x' hx' => h b'' x' (List.mem_cons_of_mem _ hx')

protected theorem foldrM {f : α → β → Compile β} (b : β) :
    ∀ {xs : List α}, (∀ x ∈ xs, ∀ b, Keeps view (f x b)) → Keeps view (xs.foldrM f b)
  | [], _ => .pure b
  | x :: xs, h => by
    rw [List.foldrM_cons]
    exact .bind (.foldrM b fun x' hx' => h x' (List.mem_cons_of_mem _ hx')) fun b' =>
      h x List.mem_cons_self b'

theorem fresh (stem : String) : Keeps view (fresh (stem ++ "_")) :=
  of_grows (fun _ => rfl) fun _ =>
    ⟨rfl, Nat.le_succ _, ⟨[], by simp⟩, rfl, fun _ h => h.fresh stem⟩

theorem resolve (name : String) : Keeps view (resolve name) := of_grows (fun _ => rfl) .refl

theorem report (event : Event) : Keeps view (report event) :=
  of_grows (fun _ => rfl) fun _ =>
    ⟨rfl, Nat.le_refl _, ⟨[], by simp [Context.report]⟩, rfl, fun _ => id⟩

theorem hoist {helper : Stmt} (hdef : helper.isDefine = true) : Keeps view (hoist helper) :=
  of_grows (fun _ => rfl) fun _ =>
    ⟨rfl, Nat.le_refl _, ⟨[helper], rfl, by simpa using hdef⟩, rfl, fun _ => id⟩

theorem declare (name target : String) :
    Keeps List.tail (modify (·.declare name target) : Compile Unit) := by
  refine of_grows (fun _ => rfl) fun c => ?_
  unfold Context.declare
  split
  · exact .refl c
  · rename_i hscopes
    exact ⟨rfl, Nat.le_refl _, ⟨[], by simp⟩, by rw [hscopes]; rfl, fun _ => id⟩

/-- A binder changes the innermost scope only. -/
theorem binder : ∀ (mode : BindMode) (name : String), Keeps List.tail (Compile.bind mode name)
  | .asIs, name => .pure name
  | .scoped, name => .bind (.declare name name) fun _ => .pure name
  | .fresh, name =>
    .bind (.fresh _) fun target => .bind (.declare name target) fun _ => .pure target

/-- Helpers that are collected are taken out of the context again; the rest of it grows. -/
theorem collect {m : Compile α} (hm : Keeps view m) : Keeps view (collect m) where
  grows := by
    rintro c ⟨a, helpers⟩ c' h
    obtain ⟨c₁, hrun, -, rfl⟩ := collect_ok h
    have hgrows := hm.grows hrun
    obtain ⟨new, hnew, -⟩ := hgrows.helpers
    exact ⟨hgrows.tempPrefix, hgrows.counter, ⟨[], by simp [hnew], by simp⟩, hgrows.scopes,
      hgrows.supplied⟩
  supplied c fault c' h := hm.supplied (collect_error h)
  kind c fault c' h := hm.kind (collect_error h)

/-- A scope of its own takes up what a step binds. -/
theorem inScope {m : Compile α} (hm : Keeps List.tail m) : Keeps id (inScope m) where
  grows c a c' h := by
    obtain ⟨c₁, hrun, rfl⟩ := inScope_ok h
    have hgrows := hm.grows hrun
    exact ⟨hgrows.tempPrefix, hgrows.counter, hgrows.helpers, hgrows.scopes, hgrows.supplied⟩
  supplied c fault c' h p hc := hm.supplied (inScope_error h) hc
  kind c fault c' h := hm.kind (inScope_error h)

/-- The pattern of a binder. -/
theorem pattern (form : Form) : Keeps view (lift (Pattern.ofForm form)) :=
  .lift (Pattern.ofForm_avoids (by simp [Pattern.OfTable]) form)

end Keeps

/-- What `collect` takes out are definitions of functions. -/
theorem collect_isDefine {m : Compile α} (hm : Keeps view m) {c c' : Context} {a : α}
    {helpers : List Stmt} (h : collect m c = .ok (a, helpers) c') :
    ∀ s ∈ helpers, s.isDefine = true := by
  obtain ⟨c₁, hrun, rfl, -⟩ := collect_ok h
  obtain ⟨new, hnew, hdef⟩ := (hm.grows hrun).helpers
  rw [hnew, List.drop_left]
  exact hdef

end Compile

namespace Lowering

open Compile

/-- The lowering of every form in every position keeps the context in order. -/
structure Balanced (lowering : Lowering) : Prop where
  expr : ∀ form, Keeps id (lowering.expr form)
  stmt : ∀ form, Keeps id (lowering.stmt form)
  tail : ∀ target form, Keeps id (lowering.tail target form)

variable {self : Lowering} {view : List Scope → List Scope}

/-! ### Common parts -/

theorem analyze_keeps (body : List Form) : Keeps view (analyze body) := by
  unfold analyze
  dsimp only
  split
  · next fault hviolation =>
    have hkind : fault.kind ≠ .digits := by
      rw [Verdict.kind_of_violation hviolation]
      nofun
    split
    · exact .bind (.report _) fun _ => .fail hkind
    · exact .fail hkind
  · exact .bind (.report _) fun _ => .pure _

theorem bindingPairs_keeps (head : BindingHead) (bindings : Form) :
    Keeps view (bindingPairs head bindings) := by
  unfold bindingPairs
  split
  · split
    · exact .pure _
    · exact .fail nofun
  · exact .fail nofun

/-- A helper waits as a definition. -/
theorem callHelper_keeps (stem : String) (params : List String) (args : List Expr)
    (body : List Stmt) (place : Option Span) :
    Keeps view (callHelper (stem ++ "_") params args body place) :=
  .bind (.fresh stem) fun _ => .bind (.hoist rfl) fun _ => .pure _

/-- The helpers of the last form are taken out and put before the return. -/
theorem returning_keeps (h : self.Balanced) :
    ∀ forms : List Form, Keeps view (returning self forms)
  | [] => last .nil
  | [form] => last form
  | _ :: next :: forms =>
    .bind (h.stmt _).weaken fun _ => .bind (returning_keeps h (next :: forms)) fun _ => .pure _
where
  last (form : Form) : Keeps view (returning.last self form) :=
    .bind (h.expr form).weaken.collect fun ⟨_, _⟩ => .pure _

/-! ### Patterns -/

theorem tablePart_keeps {expr : Form → Compile Expr} (h : ∀ form, Keeps view (expr form))
    (p : TablePattern) (holder : String) (entry : Form × Key) :
    Keeps view (tablePart expr p holder entry) := by
  unfold tablePart
  split
  · exact .pure _
  · exact .bind (h _) fun _ => .pure _

theorem holder_keeps {mode : BindMode} (hmode : ∀ name, Keeps view (Compile.bind mode name))
    (whole : Option Symbol) : Keeps view (holder mode whole) := by
  cases whole with
  | none => exact .fresh "destructure"
  | some s => exact hmode _

/-- The binders of a pattern are declared as the mode says. The induction is on the fuel. -/
theorem expandWork_keeps {expr : Form → Compile Expr} {mode : BindMode}
    (h : ∀ form, Keeps view (expr form)) (hmode : ∀ name, Keeps view (Compile.bind mode name)) :
    ∀ (fuel : Nat) (work : List Work), Keeps view (expandWork expr mode fuel work)
  | 0, [] => .pure []
  | _ + 1, [] => .pure []
  | 0, _ :: _ => .fail nofun
  | fuel + 1, (binder, value) :: work => by
    rw [expandWork]
    refine .bind (.pattern _) fun pattern => ?_
    cases pattern with
    | name s =>
      exact .bind (hmode _) fun _ =>
        .bind (expandWork_keeps h hmode fuel work) fun _ => .pure _
    | sequence p =>
      exact .bind (holder_keeps hmode _) fun _ =>
        .bind (expandWork_keeps h hmode fuel _) fun _ => .pure _
    | table p =>
      exact .bind (holder_keeps hmode _) fun _ =>
        .bind (.mapM fun entry _ => tablePart_keeps h p _ entry) fun _ =>
          .bind (expandWork_keeps h hmode fuel _) fun _ => .pure _

theorem expand_keeps {expr : Form → Compile Expr} {mode : BindMode}
    (h : ∀ form, Keeps view (expr form)) (hmode : ∀ name, Keeps view (Compile.bind mode name))
    (pattern : Form) (value : Expr) (given : List Binding) :
    Keeps view (expand expr mode pattern value given) :=
  .bind (expandWork_keeps h hmode _ _) fun _ => .bind (.report _) fun _ => .pure _

theorem destructure_keeps {expr : Form → Compile Expr} (h : ∀ form, Keeps view (expr form))
    (pattern : Form) (value : Expr) (outer : Option Span) :
    Keeps view (destructure expr pattern value outer) :=
  .bind (expand_keeps h (fun name => .pure name) pattern value []) fun _ => .pure _

/-! ### Loops -/

theorem condClauses_keeps (form : Form) (args : List Form) :
    Keeps view (condClauses form args) := by
  unfold condClauses
  split
  · exact .pure _
  · exact .fail nofun

theorem caseParts_keeps (form : Form) (args : List Form) : Keeps view (caseParts form args) := by
  cases args with
  | nil => exact .fail nofun
  | cons selector rest =>
    refine .bind (.mapM fun clause _ => ?_) fun _ => .pure _
    unfold caseClause
    split
    · exact .pure _
    · exact .fail nofun

theorem exitWith_keeps (target : LoopTarget) (value : Expr) (span : Option Span) :
    Keeps view (exitWith target value span) := by
  unfold exitWith
  split
  · exact .pure _
  · exact .fail nofun

/-- Each argument is lowered after a temporary has been made for it. -/
theorem jump_keeps (h : self.Balanced) (target : LoopTarget) (form : Form) (args : List Form) :
    Keeps id (jump self target form args) := by
  unfold jump
  split
  · refine .bind (.mapM fun arg _ => ?_) fun _ => .pure _
    exact .bind (.fresh "recur") fun _ => .bind (h.expr arg) fun _ => .pure _
  · exact .fail nofun

theorem loopBody_keeps (h : self.Balanced) (target : LoopTarget) :
    ∀ body : List Form, Keeps id (loopBody self target body)
  | [] => exitWith_keeps target _ none
  | [form] => h.tail target form
  | form :: next :: forms =>
    .bind (h.stmt form) fun _ => .bind (loopBody_keeps h target (next :: forms)) fun _ => .pure _

theorem tailIf_keeps (h : self.Balanced) (target : LoopTarget) (form : Form)
    (args : List Form) : Keeps id (tailIf self target form args) := by
  have build (test yes no : Form) : Keeps id (tailIf.build self target form test yes no) :=
    .bind (h.expr test) fun _ => .bind (h.tail target yes) fun _ =>
      .bind (h.tail target no) fun _ => .pure _
  unfold tailIf
  split
  · exact build _ _ _
  · exact build _ _ _
  · exact .fail nofun

theorem tailCond_keeps (h : self.Balanced) (target : LoopTarget) (form : Form)
    (args : List Form) : Keeps id (tailCond self target form args) :=
  .bind (condClauses_keeps form args) fun ⟨_, default⟩ => .bind (h.tail target default) fun last =>
    .foldrM last fun ⟨test, result⟩ _ _ => .bind (h.expr test) fun _ =>
      .bind (h.tail target result) fun _ => .pure _

theorem tailCase_keeps (h : self.Balanced) (target : LoopTarget) (form : Form)
    (args : List Form) : Keeps id (tailCase self target form args) :=
  .bind (caseParts_keeps form args) fun parts => .bind (.fresh "case") fun _ =>
    .bind (h.expr parts.selector) fun _ => .bind (h.tail target parts.default) fun last =>
      .bind (.foldrM last fun ⟨_, result⟩ _ _ => .bind (h.tail target result) fun _ => .pure _)
        fun _ => .pure _

/-- The names of a `let` are declared in the scope that was opened for it. -/
theorem letBindings_keeps (h : self.Balanced) (bindings : Form) :
    Keeps List.tail (letBindings self bindings) :=
  .bind (bindingPairs_keeps _ bindings) fun _ => .bind (.mapM fun ⟨binder, init⟩ _ =>
      .bind (.collect (.bind (h.expr init).weaken fun value =>
        expand_keeps (fun form => (h.expr form).weaken) (.binder .fresh) binder value []))
      fun ⟨_, _⟩ => .pure _) fun _ => .pure _

theorem tailLet_keeps (h : self.Balanced) (target : LoopTarget) (form : Form)
    (args : List Form) : Keeps id (tailLet self target form args) := by
  cases args with
  | nil => exact .fail nofun
  | cons bindings body =>
    exact .inScope (.bind (letBindings_keeps h bindings) fun _ =>
      .bind (loopBody_keeps h target body).weaken fun _ => .pure _)

theorem tailLogical_keeps (h : self.Balanced) (target : LoopTarget) (op : LogicalOp)
    (form : Form) : ∀ args : List Form, Keeps id (tailLogical self target op form args)
  | [] => exitWith_keeps target _ _
  | [operand] => h.tail target operand
  | operand :: next :: operands =>
    .bind (.fresh "test") fun _ => .bind (h.expr operand) fun _ =>
      .bind (exitWith_keeps target _ _) fun _ =>
        .bind (tailLogical_keeps h target op form (next :: operands)) fun _ => .pure _

/-- The variables of a loop are declared in its scope, one after the other. -/
theorem loopTarget_keeps (h : self.Balanced) (mode : BindMode) (bindings : Form) :
    Keeps List.tail (loopTarget self mode bindings) := by
  refine .bind (bindingPairs_keeps _ bindings) fun pairs => .foldlM _ fun target pair _ => ?_
  obtain ⟨binder, init⟩ := pair
  refine .bind (h.expr init).weaken fun value => ?_
  cases binder with
  | symbol s => exact .bind (.binder mode _) fun _ => .pure _
  | vector items span =>
    exact .bind (.fresh "loop") fun _ => .bind
      (expand_keeps (fun form => (h.expr form).weaken) (.binder mode) _ _ []) fun _ => .pure _
  | _ => exact .fail nofun

/-- The helpers of a loop body are collected into the loop. -/
theorem whileLoop_keeps (h : self.Balanced) (target : LoopTarget) (body : List Form)
    (span : Option Span) : Keeps id (whileLoop self target body span) :=
  .bind (.fresh "continue") fun _ => .bind (.fresh "result") fun _ =>
    .bind (.collect (loopBody_keeps h _ body)) fun ⟨_, _⟩ => .bind (.report _) fun _ => .pure _

/-! ### Functions -/

namespace Params

theorem bindParam_keeps (p : Params) (form : Form) : Keeps List.tail (p.bindParam form) := by
  refine .bind (.pattern _) fun pattern => ?_
  cases pattern with
  | name s => exact .bind (.binder _ _) fun _ => .pure _
  | _ => exact .bind (.fresh "arg") fun _ => .pure _

theorem addParam_keeps (p : Params) (form : Form) : Keeps List.tail (p.addParam form) :=
  .bind (bindParam_keeps p form) fun ⟨_, _⟩ => .pure _

theorem addRest_keeps (p : Params) (form : Form) (items : List Form) :
    Keeps List.tail (p.addRest form items) := by
  cases items with
  | nil => exact .bind (bindParam_keeps p form) fun ⟨_, _⟩ => .pure _
  | cons next items => exact .fail nofun

theorem addAll_keeps (p : Params) (items : List Form) : Keeps List.tail (p.addAll items) := by
  fun_induction addAll p items with
  | case1 => exact .pure _
  | case2 => exact .fail nofun
  | case3 p => exact addRest_keeps p _ _
  | case4 p => exact addRest_keeps p _ _
  | case5 p s items _ ih => exact .bind (addParam_keeps p _) ih
  | case6 p item items _ ih => exact .bind (addParam_keeps p _) ih

theorem ofForm_keeps (form : Form) : Keeps List.tail (ofForm form) := by
  cases form with
  | vector items span => exact addAll_keeps {} items
  | _ => exact .fail nofun

end Params

theorem functionBody_keeps (h : self.Balanced) (params : Params) (body : List Form)
    (span : Option Span) (recurs : Bool) :
    Keeps List.tail (functionBody self params body span recurs) := by
  have hentry : Keeps List.tail (entryBindings self params) :=
    .foldlM _ fun bindings ⟨pattern, name⟩ _ =>
      expand_keeps (fun form => (h.expr form).weaken) (.binder _) pattern _ bindings
  refine .bind hentry fun entry => ?_
  cases recurs with
  | true => exact .bind (whileLoop_keeps h _ body span).weaken fun ⟨_, _⟩ => .pure _
  | false => exact .bind (returning_keeps h body) fun _ => .pure _

/-- The scope of a function is closed again, and its helpers are in its body. -/
theorem function_keeps (h : self.Balanced) (name : String) (params : Form) (body : List Form)
    (span : Option Span) (doc : Option String) :
    Keeps id (function self name params body span doc) :=
  .bind (.inScope (.bind (.binder _ name) fun _ => .bind (Params.ofForm_keeps params) fun params =>
    .bind (analyze_keeps body) fun _ =>
      .bind (.collect (functionBody_keeps h params body span _)) fun ⟨_, _⟩ => .pure _))
    fun ⟨_, _⟩ => .pure _

theorem function_isDefine {name : String} {params : Form} {body : List Form}
    {span : Option Span} {doc : Option String} {c c' : Context} {s : Stmt}
    (h : function self name params body span doc c = .ok s c') : s.isDefine = true := by
  obtain ⟨⟨params, stmts⟩, c₁, -, h⟩ := bind_ok h
  obtain ⟨rfl, -⟩ := pure_ok h
  rfl

/-! ### Expressions -/

theorem symbolExpr_keeps (s : Symbol) : Keeps view (symbolExpr s) := by
  unfold symbolExpr
  dsimp only
  split
  · exact .fail nofun
  · split
    · exact .fail nofun
    · exact .bind (.resolve _) fun _ => .pure _

theorem ifExpr_keeps (h : self.Balanced) (form : Form) (args : List Form) :
    Keeps id (ifExpr self form args) := by
  have build (test yes no : Form) : Keeps id (ifExpr.build self form test yes no) :=
    .bind (h.expr test) fun _ => .bind (h.expr yes) fun _ => .bind (h.expr no) fun _ => .pure _
  unfold ifExpr
  split
  · exact build _ _ _
  · exact build _ _ _
  · exact .fail nofun

theorem condExpr_keeps (h : self.Balanced) (form : Form) (args : List Form) :
    Keeps id (condExpr self form args) :=
  .bind (condClauses_keeps form args) fun ⟨_, default⟩ => .bind (h.expr default) fun last =>
    .foldrM last fun ⟨test, result⟩ _ _ => .bind (h.expr test) fun _ =>
      .bind (h.expr result) fun _ => .pure _

theorem caseExpr_keeps (h : self.Balanced) (form : Form) (args : List Form) :
    Keeps id (caseExpr self form args) :=
  .bind (caseParts_keeps form args) fun parts => .bind (h.expr parts.selector) fun _ =>
    .bind (.fresh "case") fun _ => .bind (.collect (.bind (h.expr parts.default) fun _ =>
      .foldrM _ fun ⟨_, result⟩ _ _ => .bind (h.expr result) fun _ => .pure _))
      fun ⟨_, _⟩ => callHelper_keeps "case_fn" _ _ _ _

theorem logicalExpr_keeps (h : self.Balanced) (op : LogicalOp) (form : Form)
    (args : List Form) : Keeps id (logicalExpr self op form args) := by
  unfold logicalExpr
  split
  · exact .pure _
  · exact h.expr _
  · exact .bind (.mapM fun operand _ => h.expr operand) fun _ => .pure _

theorem doExpr_keeps (h : self.Balanced) (form : Form) (args : List Form) :
    Keeps id (doExpr self form args) := by
  unfold doExpr
  split
  · exact .pure _
  · exact h.expr _
  · exact .bind (.collect (returning_keeps h _)) fun ⟨_, _⟩ => callHelper_keeps "do" _ _ _ _

theorem letBinding_keeps (h : self.Balanced) (binding : Form × Form) :
    Keeps List.tail (letBinding self binding) :=
  .bind (.collect (.bind (h.expr binding.2).weaken fun value =>
    expand_keeps (fun form => (h.expr form).weaken) (.binder _) binding.1 value []))
    fun ⟨_, _⟩ => .pure _

/-- A `let` expression closes its scope before the helper is made. -/
theorem letExpr_keeps (h : self.Balanced) (form : Form) (args : List Form) :
    Keeps id (letExpr self form args) := by
  cases args with
  | nil => exact .fail nofun
  | cons bindings body =>
    exact .bind (.inScope (.bind (bindingPairs_keeps _ bindings) fun _ =>
      .bind (.mapM fun binding _ => letBinding_keeps h binding) fun _ =>
        .bind (.collect (returning_keeps h body)) fun ⟨_, _⟩ => .pure _))
      fun ⟨_, _⟩ => callHelper_keeps "let" _ _ _ _

theorem loopExpr_keeps (h : self.Balanced) (form : Form) (args : List Form) :
    Keeps id (loopExpr self form args) := by
  cases args with
  | nil => exact .fail nofun
  | cons bindings body =>
    exact .bind (analyze_keeps body) fun _ =>
      .bind (.inScope (.bind (.collect (loopTarget_keeps h _ bindings)) fun ⟨target, _⟩ =>
        .bind (.collect (whileLoop_keeps h target body _).weaken) fun ⟨⟨_, _⟩, _⟩ => .pure _))
        fun ⟨_, _⟩ => callHelper_keeps "loop" _ _ _ _

/-- A function is hoisted as a definition. -/
theorem fnExpr_keeps (h : self.Balanced) (form : Form) (args : List Form) :
    Keeps id (fnExpr self form args) := by
  have define (name : String) (args : List Form) :
      Keeps id (fnExpr.define self form name args) := by
    cases args with
    | nil => exact .fail nofun
    | cons params body =>
      exact (function_keeps h _ _ _ _ _).bind_of_ok fun _ _ _ hfunction =>
        .bind (.hoist (function_isDefine hfunction)) fun _ => .pure _
  unfold fnExpr
  split
  · exact define _ _
  · exact .bind (.fresh "fn") fun name => define name _

theorem binaryExpr_keeps (h : self.Balanced) (op : BinaryOp) (head : String) (form : Form)
    (args : List Form) : Keeps id (binaryExpr self op head form args) := by
  unfold binaryExpr
  split
  · exact .fail nofun
  · split
    · exact .bind (h.expr _) fun _ => .pure _
    · exact h.expr _
  · exact .bind (h.expr _) fun first => .foldlM first fun _ operand _ =>
      .bind (h.expr operand) fun _ => .pure _

theorem compareExpr_keeps (h : self.Balanced) (op : CompareOp) (head : String) (form : Form)
    (args : List Form) : Keeps id (compareExpr self op head form args) := by
  unfold compareExpr
  split
  · exact .bind (h.expr _) fun _ => .bind (.mapM fun operand _ => h.expr operand) fun _ => .pure _
  · exact .fail nofun

theorem callExpr_keeps (h : self.Balanced) (form head : Form) (args : List Form) :
    Keeps id (callExpr self form head args) :=
  .bind (h.expr head) fun _ => .bind (.mapM fun arg _ => h.expr arg) fun _ => .pure _

theorem specialExpr_keeps (h : self.Balanced) (special : Special) (head : String) (form : Form)
    (args : List Form) : Keeps id (specialExpr self special head form args) := by
  unfold specialExpr
  split
  · exact ifExpr_keeps h form args
  · exact condExpr_keeps h form args
  · exact caseExpr_keeps h form args
  · exact doExpr_keeps h form args
  · exact letExpr_keeps h form args
  · exact loopExpr_keeps h form args
  · exact fnExpr_keeps h form args
  · exact logicalExpr_keeps h _ form args
  · exact logicalExpr_keeps h _ form args
  · split
    · exact .bind (h.expr _) fun _ => .pure _
    · exact .fail nofun
  · split
    · exact .pure _
    · exact .fail nofun
  all_goals exact .fail nofun

/-- One step of lowering as an expression, by the kind of form. -/
theorem exprStep_keeps (h : self.Balanced) (form : Form) : Keeps id (exprStep self form) := by
  have headed (head : Symbol) (args : List Form) : Keeps id (headedExpr self form head args) := by
    unfold headedExpr
    split
    · exact specialExpr_keeps h _ _ form args
    · exact binaryExpr_keeps h _ _ form args
    · exact compareExpr_keeps h _ _ form args
    · exact callExpr_keeps h form _ args
  unfold exprStep
  split
  · exact .pure _
  · exact symbolExpr_keeps _
  · exact .pure _
  · exact .bind (.mapM fun item _ => h.expr item) fun _ => .pure _
  · exact .bind (.mapM fun entry _ => h.expr _) fun _ =>
      .bind (.mapM fun entry _ => h.expr _) fun _ => .pure _
  · exact .pure _
  · exact headed _ _
  · exact callExpr_keeps h _ _ _

/-! ### Statements and tails -/

theorem stmts_keeps (h : self.Balanced) (forms : List Form) : Keeps id (stmts self forms) :=
  .bind (.mapM fun form _ => h.stmt form) fun _ => .pure _

/-- One step of lowering as a statement, by the kind of form. -/
theorem bareStmt_keeps (h : self.Balanced) (form : Form) : Keeps id (bareStmt self form) := by
  have expr : Keeps id (exprStmt self form) :=
    .bind (exprStep_keeps h form) fun _ => .pure _
  unfold bareStmt
  split
  · rename_i head args span
    split
    · unfold ifStmt
      split
      · exact .bind (h.expr _) fun _ => .bind (h.stmt _) fun _ => .pure _
      · exact .bind (h.expr _) fun _ => .bind (h.stmt _) fun _ =>
          .bind (h.stmt _) fun _ => .pure _
      · exact .fail nofun
    · split
      · exact .pure _
      · exact stmts_keeps h args
    · unfold defStmt
      split
      · exact destructure_keeps h.expr _ _ _
      · exact .bind (h.expr _) fun _ => destructure_keeps h.expr _ _ _
      · exact .fail nofun
    · unfold defnStmt
      split
      · exact .bind (function_keeps h _ _ _ _ _) fun _ => .pure _
      · exact .bind (function_keeps h _ _ _ _ _) fun _ => .pure _
      · exact .fail nofun
    · unfold letStmt
      split
      · exact .fail nofun
      · exact .inScope (.bind (letBindings_keeps h _) fun _ =>
          .bind (stmts_keeps h _).weaken fun _ => .pure _)
    · unfold loopStmt
      split
      · exact .fail nofun
      · exact .bind (analyze_keeps _) fun _ => .inScope (.bind (loopTarget_keeps h _ _) fun _ =>
          .bind (whileLoop_keeps h _ _ _).weaken fun _ => .pure _)
    · exact .fail nofun
    · exact expr
  · exact expr

/-- One step of lowering in the tail of a loop. -/
theorem tailStep_keeps (h : self.Balanced) (target : LoopTarget) (form : Form) :
    Keeps id (tailStep self target form) := by
  have exit : Keeps id (exitStep self target form) :=
    .bind (exprStep_keeps h form) fun _ => exitWith_keeps target _ _
  unfold tailStep
  split
  · rename_i head args span
    split
    · exact jump_keeps h target _ args
    · split
      · exact tailIf_keeps h target _ args
      · exact tailCond_keeps h target _ args
      · exact tailCase_keeps h target _ args
      · exact tailLet_keeps h target _ args
      · exact loopBody_keeps h target args
      · exact tailLogical_keeps h target _ _ args
      · exact tailLogical_keeps h target _ _ args
      · exact exit
  · exact exit

/-- What holds of the parts of a form in every position holds of the form. -/
theorem Balanced.step (h : self.Balanced) : self.step.Balanced where
  expr := exprStep_keeps h
  stmt form := .bind (.collect (bareStmt_keeps h form)) fun ⟨_, _⟩ => .pure _
  tail := tailStep_keeps h

/-- The lowering of forms of any depth keeps the context in order. -/
theorem upTo_balanced : ∀ n : Nat, (upTo n).Balanced
  | 0 => ⟨fun _ => .fail nofun, fun _ => .fail nofun, fun _ _ => .fail nofun⟩
  | n + 1 => (upTo_balanced n).step

end Lowering

end TailLisp
