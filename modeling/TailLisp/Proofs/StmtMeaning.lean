import TailLisp.Proofs.PatternMeaning

/-!
# TailLisp.Proofs.StmtMeaning

**Plain forms as statements.** A form whose value is dropped and whose expressions need no helper
functions is lowered to statements that do what the form does (`Lowering.upTo_stmt`). They leave the
names of the context as they were, and the only variables they assign are temporaries that they
made themselves.
-/

namespace TailLisp

open Veil Interp

/-! ### Steps that add no helpers -/

namespace Compile

variable {α : Type} {m : Compile α} {c c' : Context} {a : α}

theorem collect_eq (h : m c = .ok a c') (hhelpers : c'.helpers = c.helpers) :
    collect m c = .ok (a, []) c' := by
  have htake : c'.takeSince c.mark = ([], c') := by
    simp [Context.takeSince, Context.mark, ← hhelpers]
  have hmodify : (modifyGet (·.takeSince c.mark) : Compile (List Stmt)) c' = .ok [] c' := by
    show EStateM.Result.ok (c'.takeSince c.mark).1 (c'.takeSince c.mark).2 = _
    rw [htake]
  unfold collect
  rw [bind_eq (show (get : Compile Context) c = .ok c c from rfl), bind_eq h, bind_eq hmodify]
  rfl

theorem inScope_eq (h : m c.enter = .ok a c') : inScope m c = .ok a c'.leave := by
  unfold inScope
  rw [bind_eq (show (modify Context.enter : Compile PUnit) c = .ok () c.enter from rfl), bind_eq h]
  rfl

end Compile

/-! ### Statements in a row -/

namespace Interp

variable (self : Interp) (frames : List Nat)

/-- A row of statements runs on behind another one unless that one has ended the block. -/
theorem execAll_append (ss ts : List Stmt) :
    self.execAll frames (ss ++ ts) = (do
      match ← self.execAll frames ss with
      | .done => self.execAll frames ts
      | signal => return signal) := by
  induction ss with
  | nil => simp [execAll]
  | cons s ss ih =>
    simp only [List.cons_append, execAll, bind_assoc]
    congr 1
    funext signal
    cases signal with
    | done => exact ih
    | next | returned v => simp

theorem execAll_singleton (s : Stmt) : self.execAll frames [s] = self.exec frames s := by
  have hsignal : (fun signal : Signal => (match signal with
      | .done => pure .done
      | signal => pure signal : Exec Signal)) = pure := by
    funext signal
    cases signal <;> rfl
  simp only [execAll]
  exact (congrArg (self.exec frames s >>= ·) hsignal).trans (bind_pure _)

end Interp

namespace Veil.Sim

variable {V : Veil} {self : Interp} {frames : List Nat} {σ : Store} {α β : Type}

/-- Statements that come to their end before others. -/
theorem append {ss ts : List Stmt} {m : Exec α} {f : α → Exec β} {P : Store → α → Prop}
    {Q : Store → Signal → β → Prop}
    (h : V.Sim frames σ (self.execAll frames ss) m fun τ signal a => signal = .done ∧ P τ a)
    (hf : ∀ τ a, P τ a → V.Sim frames τ (self.execAll frames ts) (f a) Q) :
    V.Sim frames σ (self.execAll frames (ss ++ ts)) (m >>= f) Q := by
  rw [execAll_append]
  refine h.bind ?_
  rintro τ signal a ⟨rfl, ha⟩
  exact hf τ a ha

/-- A computation with a known result before another one. -/
theorem known {γ : Type} {m : Exec α} {a : α} {C : α → Prop} {f : α → Exec β} {m' : Exec γ}
    {Q : Store → β → γ → Prop} (h : V.Sim frames σ m (pure a) (Alike σ C))
    (hf : C a → V.Sim frames σ (f a) m' Q) : V.Sim frames σ (m >>= f) m' Q := by
  intro W hready hσ
  have hm := h hready hσ
  cases hrun : m W with
  | error e W' =>
    rw [hrun] at hm
    cases hm
  | ok b W' =>
    rw [hrun] at hm
    obtain ⟨a', hpure, hready', hσ', rfl, hC⟩ := hm
    obtain ⟨rfl, hhide⟩ := EStateM.Result.ok.inj hpure
    rw [Exec.bind_ok hrun, hhide]
    exact hf hC hready' hσ'

/-- An assignment of a known value before other statements. -/
theorem assign_known (hscope : frames.head? = V.scope) {x : String} {e : Expr}
    {place : Option Span} {stmts : List Stmt} {m : Exec α} {w : Value}
    {Q : Store → Signal → α → Prop} (hx : V.names x = true)
    (he : V.Reads self frames σ e (pure w))
    (h : V.Sim frames (σ.set x w) (self.execAll frames stmts) m Q) :
    V.Sim frames σ (self.execAll frames (.assign x e place :: stmts)) m Q := by
  rw [execAll_assign]
  exact known he fun hw => .assign_bind hscope hx hw h

/-- A branch whose test holds when the answer is true. -/
theorem branchOn (place : Option Span) {test : Expr} {yes no : List Stmt} {holds : Exec Bool}
    {m₁ m₂ : Exec α} {Q : Store → Signal → α → Prop}
    (h : V.Sim frames σ (self.eval frames test >>= Exec.truth) holds (Alike σ fun _ => True))
    (hyes : V.Sim frames σ (self.execAll frames yes) m₁ Q)
    (hno : V.Sim frames σ (self.execAll frames no) m₂ Q) :
    V.Sim frames σ (self.execAll frames [.branch test yes no place])
      (do if ← holds then m₁ else m₂) Q := by
  have hexec : self.execAll frames [.branch test yes no place] = (do
      if ← self.eval frames test >>= Exec.truth then self.execAll frames yes
      else self.execAll frames no) := by
    simp only [execAll_singleton, exec, bind_assoc]
  rw [hexec]
  refine h.alike fun holds _ => ?_
  cases holds with
  | true => exact hyes
  | false => exact hno

theorem truth {e : Expr} {m : Exec Value} (h : V.Reads self frames σ e m) :
    V.Sim frames σ (self.eval frames e >>= Exec.truth) (m >>= Exec.truth)
      (Alike σ fun _ => True) :=
  Sim.alike h fun v _ => .ofInsulated (truth_insulated v)

theorem branch {test : Expr} {yes no : List Stmt} {place : Option Span} {m : Exec Value}
    {m₁ m₂ : Exec α} {Q : Store → Signal → α → Prop} (h : V.Reads self frames σ test m)
    (hyes : V.Sim frames σ (self.execAll frames yes) m₁ Q)
    (hno : V.Sim frames σ (self.execAll frames no) m₂ Q) :
    V.Sim frames σ (self.execAll frames [.branch test yes no place])
      (Reading.choose m m₁ m₂) Q := by
  have hchoose := branchOn place (truth h) hyes hno
  simpa only [Reading.choose, bind_assoc] using hchoose

end Veil.Sim

/-! ### Contexts after statements -/

namespace Context

variable {c c' c'' : Context}

/-- A later context with the same names in scope. -/
structure Passes (c c' : Context) : Prop where
  later : c.Later c'
  scopes : c'.scopes = c.scopes

theorem Passes.refl (c : Context) : c.Passes c := ⟨.refl c, rfl⟩

theorem Passes.trans (h : c.Passes c') (h' : c'.Passes c'') : c.Passes c'' :=
  ⟨h.later.trans h'.later, h'.scopes.trans h.scopes⟩

theorem passes_fresh (c : Context) (stem : String) : c.Passes (c.fresh stem).2 :=
  ⟨c.later_fresh stem, rfl⟩

theorem Declares.passes (h : c.Declares c') (h' : c'.Passes c'') : c.Declares c'' :=
  ⟨h.later.trans h'.later, h'.scopes ▸ h.isOpen, by rw [h'.scopes, h.outer]⟩

/-- Names of a scope of its own are gone with it. -/
theorem Declares.leave (h : c.enter.Declares c') : c.Passes c'.leave :=
  ⟨⟨h.later.tempPrefix, h.later.counter, h.later.helpers⟩, h.outer⟩

theorem resolve_enter (c : Context) (x : String) : c.enter.resolve x = c.resolve x := by
  simp [enter, resolve, List.findSome?_cons]

/-- The statements assign only temporaries that are made from one context to the other, and the
variables `own`. -/
def Assigns (c c' : Context) (own : List String) (stmts : List Stmt) : Prop :=
  ∀ x ∈ Stmt.assignedOfAll stmts, x ∈ own ∨ c.Makes c' x

theorem assignedOfAll_append (ss ts : List Stmt) :
    Stmt.assignedOfAll (ss ++ ts) = Stmt.assignedOfAll ss ++ Stmt.assignedOfAll ts := by
  induction ss with
  | nil => rfl
  | cons s ss ih => simp [Stmt.assignedOfAll, ih]

theorem assignedOfAll_assigns (outer : Option Span) (bindings : List Binding) :
    Stmt.assignedOfAll (Binding.assigns outer bindings) = bindings.map (·.target) := by
  induction bindings with
  | nil => rfl
  | cons b bindings ih =>
    simp only [Binding.assigns, List.map_cons, Stmt.assignedOfAll] at ih ⊢
    rw [ih]
    rfl

section Assigns

variable {own : List String} {ss ts : List Stmt}

theorem Assigns.mono {c₁ c₂ : Context} (h : c₁.Assigns c₂ own ss) (hbefore : c.Later c₁)
    (hafter : c₂.Later c') : c.Assigns c' own ss :=
  fun x hx => (h x hx).imp_right fun hmakes => hmakes.mono hbefore hafter

theorem Assigns.weaken (h : c.Assigns c' [] ss) : c.Assigns c' own ss :=
  fun x hx => .inr ((h x hx).resolve_left (by simp))

theorem Assigns.append (h : c.Assigns c' own ss) (h' : c'.Assigns c'' own ts)
    (hlater : c.Later c') (hlater' : c'.Later c'') : c.Assigns c'' own (ss ++ ts) := by
  intro x hx
  rw [assignedOfAll_append] at hx
  rcases List.mem_append.mp hx with hx | hx
  · exact h.mono (.refl c) hlater' x hx
  · exact h'.mono hlater (.refl c'') x hx

theorem Assigns.branch {test : Expr} {place : Option Span} (h : c.Assigns c' own ss)
    (h' : c'.Assigns c'' own ts) (hlater : c.Later c') (hlater' : c'.Later c'') :
    c.Assigns c'' own [.branch test ss ts place] := by
  have hboth := h.append h' hlater hlater'
  intro x hx
  refine hboth x ?_
  simpa [Stmt.assignedOfAll, Stmt.assigned, assignedOfAll_append] using hx

theorem assigns_bindings {bindings : List Binding} (outer : Option Span)
    (h : ∀ b ∈ bindings, c.Makes c' b.target) :
    c.Assigns c' own (Binding.assigns outer bindings) := by
  intro x hx
  rw [assignedOfAll_assigns] at hx
  obtain ⟨b, hb, rfl⟩ := List.mem_map.mp hx
  exact .inr (h b hb)

end Assigns

end Context

theorem Veil.Related.enter {V : Veil} {S : String → Bool} {c : Context} {ρ : Env} {σ : Store}
    (h : V.Related S c ρ σ) : V.Related S c.enter ρ σ := by
  intro x
  rw [Context.resolve_enter]
  exact h x

/-! ### Patterns of a form -/

namespace Form

variable {S : String → Bool}

theorem pairUp_of_arePlainPairs {items : List Form} (h : arePlainPairs items = true) :
    ∃ pairs, pairUp items = some pairs := by
  fun_induction pairUp items with
  | case1 => exact ⟨[], rfl⟩
  | case2 => simp [arePlainPairs] at h
  | case3 binder init rest ih =>
    simp only [arePlainPairs, Bool.and_eq_true] at h
    obtain ⟨pairs, hpairs⟩ := ih h.2
    exact ⟨(binder, init) :: pairs, by rw [hpairs]; rfl⟩

theorem binds_symbol {admits : Form → Bool} {d : Nat} {s : Symbol}
    (h : binds admits d (.symbol s) = true) (admits' : Form → Bool) :
    binds admits' d (.symbol s) = true := by
  cases d with
  | zero => simp [binds] at h
  | succ d =>
    cases hpattern : Pattern.ofForm (.symbol s) with
    | error fault => simp [binds, hpattern] at h
    | ok pattern =>
      cases pattern with
      | name s' => simp [binds, hpattern]
      | sequence p =>
        obtain ⟨items, span, hform, -⟩ := Pattern.items_of_ofForm_sequence hpattern
        cases hform
      | table p =>
        obtain ⟨first, items, span, hform, -⟩ := Pattern.items_of_ofForm_table hpattern
        cases hform

/-- The defaults of a pattern have names of the pattern only. -/
theorem binds_isDefault {d : Nat} {form : Form} (hbinds : form.binds isPlain d = true)
    (hnames : form.onlyNames S = true) : form.binds (isDefault S) d = true := by
  induction d generalizing form with
  | zero => simp [binds] at hbinds
  | succ d ih =>
    cases hpattern : Pattern.ofForm form with
    | error fault => simp [binds, hpattern] at hbinds
    | ok pattern =>
      cases pattern with
      | name s => simp [binds, hpattern]
      | sequence p =>
        obtain ⟨items, span, rfl, hitems⟩ := Pattern.items_of_ofForm_sequence hpattern
        have hall : onlyNamesAll S items = true := hnames
        simp only [binds, hpattern, List.all_append, Bool.and_eq_true, List.all_eq_true]
          at hbinds ⊢
        refine ⟨fun item hitem => ?_, fun item hitem => ?_⟩
        · exact ih (hbinds.1 item hitem) (onlyNamesAll_iff.mp hall item (hitems item hitem))
        · cases hrest : p.rest with
          | none => simp [hrest] at hitem
          | some r =>
            have heq : item = .symbol r := by simpa [hrest] using hitem
            subst heq
            exact binds_symbol (hbinds.2 _ hitem) _
      | table p =>
        obtain ⟨first, items, span, rfl, htable⟩ := Pattern.items_of_ofForm_table hpattern
        have hall : ∀ item ∈ first :: items, item.onlyNames S = true := onlyNamesAll_iff.mp hnames
        rw [List.forall_mem_cons] at hall
        simp only [binds, hpattern, List.all_eq_true, Bool.and_eq_true] at hbinds ⊢
        intro entry hentry
        refine ⟨ih (hbinds entry hentry).1 (hall.2 _ (htable.binder entry hentry)), ?_⟩
        cases hdefault : p.default? entry.2 with
        | none => rfl
        | some default =>
          have hplain := (hbinds entry hentry).2
          rw [hdefault] at hplain
          obtain ⟨d, hfind, rfl⟩ := Option.map_eq_some_iff.mp hdefault
          obtain ⟨entries, span', key, hmap, hkey⟩ :=
            htable.default d (List.mem_of_find?_eq_some hfind)
          have hentries : onlyNamesEntries S entries = true := hall.2 _ hmap
          exact Bool.and_eq_true_iff.mpr ⟨hplain, (onlyNamesEntries_iff.mp hentries _ hkey).2⟩

end Form

namespace Lowering

variable {V : Veil} {S : String → Bool} {n : Nat} {lowering : Lowering} {c c' c'' : Context}

/-! ### The bindings of a `let` -/

/-- The statements bind names as the reading does. They assign temporaries that they have made. -/
structure BlockBinds (V : Veil) (S : String → Bool) (c c' : Context) (stmts : List Stmt)
    (m : Interp → Interp → List Nat → Env → Exec Env) : Prop where
  declares : c.Declares c'
  assigns : c.Assigns c' [] stmts
  runs : V.Covers c c' → ∀ ⦃self inner : Interp⦄ ⦃frames : List Nat⦄ ⦃ρ : Env⦄ ⦃σ : Store⦄,
    V.Runs self inner frames → V.Related S c ρ σ →
    V.Sim frames σ (self.execAll frames stmts) (m self inner frames ρ) (V.Bound S c c' σ)

/-- Bindings in a row: the second block is read in the environment that the first one makes. -/
theorem BlockBinds.append {ss ts : List Stmt}
    {m m' : Interp → Interp → List Nat → Env → Exec Env} (h : BlockBinds V S c c' ss m)
    (h' : BlockBinds V S c' c'' ts m') :
    BlockBinds V S c c'' (ss ++ ts) fun self inner frames ρ =>
      m self inner frames ρ >>= m' self inner frames where
  declares := h.declares.trans h'.declares
  assigns := h.assigns.append h'.assigns h.declares.later h'.declares.later
  runs := by
    intro hcovers self inner frames ρ σ hruns hρ
    have hlater := h.declares.later
    have hlater' := h'.declares.later
    refine (h.runs (hcovers.mono (.refl c) hlater') hruns hρ).append ?_
    rintro τ ρ' ⟨hρ', hfills⟩
    refine (h'.runs (hcovers.mono hlater (.refl c'')) hruns hρ').imp ?_
    rintro υ signal ρ'' ⟨rfl, hρ'', hfills'⟩
    exact ⟨rfl, hρ'', hfills.trans hfills' hlater hlater'⟩

/-- One binding of a `let` evaluates its value and binds the pattern to temporaries. -/
theorem letBlock_binds (h : lowering.MeansPlain V S n) {binder init : Form}
    (hbinder : binder.isPattern = true) (hinit : init.isPlain = true)
    (hbinderFits : binder.Fits S n) (hinitFits : init.Fits S n) (hopen : c.scopes ≠ []) :
    ∃ block c', (do
        let (bindings, helpers) ← Compile.collect do
          let value ← lowering.expr init
          expand lowering.expr .fresh binder value []
        return helpers ++ Binding.assigns binder.span? bindings : Compile (List Stmt)) c
          = .ok block c' ∧
      BlockBinds V S c c' block (fun self inner frames ρ => do
        let v ← Reading.value self frames ρ init
        Reading.bindPattern self inner frames binder v ρ) := by
  obtain ⟨e, he, hmeant⟩ := h init hinit hinitFits c
  obtain ⟨bindings, c', hexpand, hdeclares, hmakes, hsim⟩ :=
    expand_binds h (Form.binds_isDefault hbinder hbinderFits.names) hbinderFits.depth hopen e []
  refine ⟨Binding.assigns binder.span? bindings, c', ?_, hdeclares,
    Context.assigns_bindings _ hmakes, ?_⟩
  · have hstep : (do
        let value ← lowering.expr init
        expand lowering.expr .fresh binder value [] : Compile (List Binding)) c =
          .ok bindings c' := by
      rw [Compile.bind_eq he]
      exact hexpand
    rw [Compile.bind_eq (Compile.collect_eq hstep hdeclares.later.helpers)]
    rfl
  · intro hcovers self inner frames ρ σ hruns hρ
    exact hsim hcovers _ hruns hρ fun τ hτ =>
      hmeant hruns.nests.insulated (hρ.mono (.refl c) rfl hτ)

/-- The bindings of a `let` are sequential. The induction is on the pairs. -/
theorem letBlocks_bind (h : lowering.MeansPlain V S n) {items : List Form}
    {pairs : List (Form × Form)} (hpairs : Form.pairUp items = some pairs)
    (hplain : Form.arePlainPairs items = true) (hfits : ∀ item ∈ items, item.Fits S n)
    (hopen : c.scopes ≠ []) :
    ∃ blocks c', (pairs.mapM (fun (binder, init) => do
        let (bindings, helpers) ← Compile.collect do
          let value ← lowering.expr init
          expand lowering.expr .fresh binder value []
        return helpers ++ Binding.assigns binder.span? bindings) : Compile (List (List Stmt))) c
          = .ok blocks c' ∧
      BlockBinds V S c c' blocks.flatten fun self inner frames ρ =>
        Reading.bindPairs self inner frames items ρ := by
  fun_induction Form.pairUp items generalizing pairs c with
  | case1 =>
    cases hpairs
    refine ⟨[], c, rfl, ⟨.refl c, hopen, rfl⟩, by simp [Context.Assigns, Stmt.assignedOfAll], ?_⟩
    intro _ self inner frames ρ σ hruns hρ
    exact .pure ⟨rfl, hρ, .refl c c σ⟩
  | case2 => cases hpairs
  | case3 binder init rest ih =>
    obtain ⟨others, hothers, rfl⟩ := Option.map_eq_some_iff.mp hpairs
    simp only [List.forall_mem_cons] at hfits
    simp only [Form.arePlainPairs, Bool.and_eq_true] at hplain
    obtain ⟨block, c₁, hblock, hfirst⟩ :=
      letBlock_binds h hplain.1.1 hplain.1.2 hfits.1 hfits.2.1 hopen
    obtain ⟨blocks, c', hblocks, hrest⟩ :=
      ih hothers hplain.2 hfits.2.2 hfirst.declares.isOpen
    refine ⟨block :: blocks, c', ?_, ?_⟩
    · rw [List.mapM_cons, Compile.bind_eq hblock, Compile.bind_eq hblocks]
      rfl
    · have hboth := hfirst.append hrest
      simpa [Reading.bindPairs, bind_assoc] using hboth

/-! ### Statements -/

/-- The statements do what the reading does. They assign temporaries that they have made. -/
structure StmtsMean (V : Veil) (S : String → Bool) (c c' : Context) (stmts : List Stmt)
    (m : Interp → Interp → List Nat → Env → Exec Unit) : Prop where
  passes : c.Passes c'
  assigns : c.Assigns c' [] stmts
  runs : V.Covers c c' → ∀ ⦃self inner : Interp⦄ ⦃frames : List Nat⦄ ⦃ρ : Env⦄ ⦃σ : Store⦄,
    V.Runs self inner frames → V.Related S c ρ σ →
    V.Sim frames σ (self.execAll frames stmts) (m self inner frames ρ) fun τ signal _ =>
      signal = .done ∧ c.Fills c' σ τ

/-- Plain statements are lowered to statements that do the same. -/
def MeansStmt (V : Veil) (S : String → Bool) (n : Nat) (lowering : Lowering) : Prop :=
  ∀ form : Form, form.isPlainStmt = true → form.Fits S n → ∀ c : Context,
    ∃ stmts c', lowering.stmt form c = .ok stmts c' ∧
      StmtsMean V S c c' stmts fun self inner frames ρ => Reading.run self inner frames form ρ

section Rows

variable {ss ts : List Stmt} {m m' : Interp → Interp → List Nat → Env → Exec Unit}

theorem StmtsMean.nil (c : Context) : StmtsMean V S c c [] fun _ _ _ _ => pure () :=
  ⟨.refl c, by simp [Context.Assigns, Stmt.assignedOfAll],
    fun _ _ _ _ _ σ _ _ => .pure ⟨rfl, .refl c c σ⟩⟩

/-- Two rows of statements mean what their forms mean one after the other. -/
theorem StmtsMean.append (h : StmtsMean V S c c' ss m) (h' : StmtsMean V S c' c'' ts m') :
    StmtsMean V S c c'' (ss ++ ts) fun self inner frames ρ => do
      m self inner frames ρ
      m' self inner frames ρ where
  passes := h.passes.trans h'.passes
  assigns := h.assigns.append h'.assigns h.passes.later h'.passes.later
  runs := by
    intro hcovers self inner frames ρ σ hruns hρ
    have hlater := h.passes.later
    have hlater' := h'.passes.later
    refine (h.runs (hcovers.mono (.refl c) hlater') hruns hρ).append ?_
    intro τ _ hfills
    have hρ' := hρ.mono hlater h.passes.scopes hfills.keeps
    refine (h'.runs (hcovers.mono hlater (.refl c'')) hruns hρ').imp ?_
    rintro υ signal _ ⟨rfl, hfills'⟩
    exact ⟨rfl, hfills.trans hfills' hlater hlater'⟩

/-- Statements after the bindings of a scope of their own. -/
theorem BlockBinds.append_stmts {mEnv : Interp → Interp → List Nat → Env → Exec Env}
    (h : BlockBinds V S c.enter c' ss mEnv) (h' : StmtsMean V S c' c'' ts m) :
    StmtsMean V S c c''.leave (ss ++ ts) fun self inner frames ρ =>
      mEnv self inner frames ρ >>= m self inner frames where
  passes := (h.declares.passes h'.passes).leave
  assigns := show c.enter.Assigns c'' [] (ss ++ ts) from
    h.assigns.append h'.assigns h.declares.later h'.passes.later
  runs := by
    intro hcovers self inner frames ρ σ hruns hρ
    have hlater := h.declares.later
    have hlater' := h'.passes.later
    have hcovers' : V.Covers c.enter c'' := hcovers
    refine (h.runs (hcovers'.mono (.refl _) hlater') hruns hρ.enter).append ?_
    rintro τ ρ' ⟨hρ', hfills⟩
    refine (h'.runs (hcovers'.mono hlater (.refl c'')) hruns hρ').imp ?_
    rintro υ signal _ ⟨rfl, hfills'⟩
    have hboth : c.enter.Fills c'' σ υ := hfills.trans hfills' hlater hlater'
    exact ⟨rfl, hboth⟩

/-- A branch means the choice between the meanings of its two blocks. -/
theorem StmtsMean.branch {test : Expr} {testForm : Form} (htest : V.Meant S c testForm test)
    (h : StmtsMean V S c c' ss m) (h' : StmtsMean V S c' c'' ts m') (place : Option Span) :
    StmtsMean V S c c'' [.branch test ss ts place] fun self inner frames ρ =>
      Reading.choose (Reading.value self frames ρ testForm) (m self inner frames ρ)
        (m' self inner frames ρ) where
  passes := h.passes.trans h'.passes
  assigns := h.assigns.branch h'.assigns h.passes.later h'.passes.later
  runs := by
    intro hcovers self inner frames ρ σ hruns hρ
    have hlater := h.passes.later
    have hlater' := h'.passes.later
    refine Sim.branch (htest hruns.nests.insulated hρ) ?_ ?_
    · refine (h.runs (hcovers.mono (.refl c) hlater') hruns hρ).imp ?_
      exact fun τ signal _ hend => ⟨hend.1, hend.2.mono (.refl c) hlater'⟩
    · have hρ' := hρ.mono hlater h.passes.scopes (.refl c σ)
      refine (h'.runs (hcovers.mono hlater (.refl c'')) hruns hρ').imp ?_
      exact fun τ signal _ hend => ⟨hend.1, hend.2.mono hlater (.refl c'')⟩

theorem execAll_skip (self : Interp) (frames : List Nat) (place : Option Span) :
    self.execAll frames [.skip place] = self.execAll frames [] := by
  simp [execAll, exec]

theorem StmtsMean.skip (c : Context) (place : Option Span) :
    StmtsMean V S c c [.skip place] fun _ _ _ _ => pure () := by
  refine ⟨.refl c, by simp [Context.Assigns, Stmt.assignedOfAll, Stmt.assigned], ?_⟩
  intro _ self inner frames ρ σ hruns hρ
  rw [execAll_skip]
  exact .pure ⟨rfl, .refl c c σ⟩

theorem StmtsMean.block (h : StmtsMean V S c c' ss m) : StmtsMean V S c c' (block ss) m := by
  cases ss with
  | cons s ss => exact h
  | nil =>
    refine ⟨h.passes, by simp [Context.Assigns, Lowering.block, Stmt.assignedOfAll, Stmt.assigned],
      fun hcovers self inner frames ρ σ hruns hρ => ?_⟩
    have hskip : self.execAll frames (Lowering.block []) = self.execAll frames [] :=
      execAll_skip self frames none
    rw [hskip]
    exact h.runs hcovers hruns hρ

end Rows

/-! ### Any plain statement -/

theorem exprStmt_means (h : MeansPlain V S n lowering.step) {form : Form}
    (hplain : form.isPlain = true) (hfits : form.Fits S n) (c : Context) :
    ∃ stmts, exprStmt lowering form c = .ok stmts c ∧
      StmtsMean V S c c stmts (fun self _ frames ρ => do
        let _ ← Reading.value self frames ρ form) := by
  obtain ⟨e, he, hmeant⟩ := h form hplain hfits c
  refine ⟨[.eval e form.place?], ?_, .refl c,
    by simp [Context.Assigns, Stmt.assignedOfAll, Stmt.assigned], ?_⟩
  · have hexpr : exprStep lowering form c = .ok e c := he
    unfold exprStmt
    rw [Compile.bind_eq hexpr]
    rfl
  · intro _ self inner frames ρ σ hruns hρ
    rw [execAll_singleton]
    exact Sim.alike (hmeant hruns.nests.insulated hρ) fun _ _ => .pure ⟨rfl, .refl c c σ⟩

theorem stmts_mean (h : lowering.MeansStmt V S n) {forms : List Form}
    (hplain : Form.arePlainStmts forms = true) (hfits : ∀ form ∈ forms, form.Fits S n)
    (c : Context) :
    ∃ ss c', stmts lowering forms c = .ok ss c' ∧
      StmtsMean V S c c' ss fun self inner frames ρ =>
        Reading.runAll self inner frames forms ρ := by
  suffices hrows : ∃ rows c', forms.mapM lowering.stmt c = .ok rows c' ∧ StmtsMean V S c c'
      rows.flatten fun self inner frames ρ => Reading.runAll self inner frames forms ρ by
    obtain ⟨rows, c', hrun, hmean⟩ := hrows
    refine ⟨rows.flatten, c', ?_, hmean⟩
    unfold stmts
    rw [Compile.bind_eq hrun]
    rfl
  induction forms generalizing c with
  | nil => exact ⟨[], c, rfl, .nil c⟩
  | cons form forms ih =>
    simp only [Form.arePlainStmts, Bool.and_eq_true] at hplain
    rw [List.forall_mem_cons] at hfits
    obtain ⟨ss, c₁, hss, hfirst⟩ := h form hplain.1 hfits.1 c
    obtain ⟨rows, c', hrows, hrest⟩ := ih hplain.2 hfits.2 c₁
    refine ⟨ss :: rows, c', ?_, hfirst.append hrest⟩
    rw [List.mapM_cons, Compile.bind_eq hss, Compile.bind_eq hrows]
    rfl

theorem letBindings_bind (h : lowering.MeansPlain V S n) {items : List Form} (span : Span)
    (hplain : Form.arePlainPairs items = true) (hfits : ∀ item ∈ items, item.Fits S n)
    (hopen : c.scopes ≠ []) :
    ∃ ss c', letBindings lowering (.vector items span) c = .ok ss c' ∧
      BlockBinds V S c c' ss fun self inner frames ρ =>
        Reading.bindPairs self inner frames items ρ := by
  obtain ⟨pairs, hpairs⟩ := Form.pairUp_of_arePlainPairs hplain
  obtain ⟨blocks, c', hblocks, hbinds⟩ := letBlocks_bind h hpairs hplain hfits hopen
  refine ⟨blocks.flatten, c', ?_, hbinds⟩
  have hbindings : bindingPairs .letForm (.vector items span) c = .ok pairs c := by
    simp only [bindingPairs, hpairs]
    rfl
  unfold letBindings
  rw [Compile.bind_eq hbindings, Compile.bind_eq hblocks]
  rfl

/-- After a `let` the names in it are out of scope, and their temporaries are left behind. -/
theorem letStmt_means (h : lowering.MeansPlain V S n) (hstmt : lowering.MeansStmt V S n)
    {items body : List Form} {span : Span} (hplain : Form.arePlainPairs items = true)
    (hbody : Form.arePlainStmts body = true) (hfits : ∀ item ∈ items, item.Fits S n)
    (hbodyFits : ∀ form ∈ body, form.Fits S n) (form : Form) (c : Context) :
    ∃ ss c', letStmt lowering form (.vector items span :: body) c = .ok ss c' ∧
      StmtsMean V S c c' ss (fun self inner frames ρ => do
        let ρ ← Reading.bindPairs self inner frames items ρ
        Reading.runAll self inner frames body ρ) := by
  have hopen : c.enter.scopes ≠ [] := by simp [Context.enter]
  obtain ⟨head, c₁, hhead, hbinds⟩ := letBindings_bind h span hplain hfits hopen
  obtain ⟨rest, c₂, hrest, hmean⟩ := stmts_mean hstmt hbody hbodyFits c₁
  refine ⟨head ++ rest, c₂.leave, ?_, hbinds.append_stmts hmean⟩
  unfold letStmt
  refine Compile.inScope_eq ?_
  rw [Compile.bind_eq hhead, Compile.bind_eq hrest]
  rfl

theorem ifStmt_means (h : lowering.MeansPlain V S n) (hstmt : lowering.MeansStmt V S n)
    {test yes no : Form} (htest : test.isPlain = true) (hyes : yes.isPlainStmt = true)
    (hno : no.isPlainStmt = true) (hfits : ∀ form ∈ [test, yes, no], form.Fits S n) (form : Form)
    (c : Context) :
    ∃ ss c', ifStmt lowering form [test, yes, no] c = .ok ss c' ∧
      StmtsMean V S c c' ss fun self inner frames ρ =>
        Reading.choose (Reading.value self frames ρ test) (Reading.run self inner frames yes ρ)
          (Reading.run self inner frames no ρ) := by
  simp only [List.forall_mem_cons] at hfits
  obtain ⟨e, he, hmeant⟩ := h test htest hfits.1 c
  obtain ⟨ss, c₁, hss, hyesMean⟩ := hstmt yes hyes hfits.2.1 c
  obtain ⟨ts, c₂, hts, hnoMean⟩ := hstmt no hno hfits.2.2.1 c₁
  refine ⟨[.branch e (block ss) ts form.place?], c₂, ?_, hyesMean.block.branch hmeant hnoMean _⟩
  simp only [ifStmt]
  rw [Compile.bind_eq he, Compile.bind_eq hss, Compile.bind_eq hts]
  rfl

theorem ifStmt_means_without_else (h : lowering.MeansPlain V S n)
    (hstmt : lowering.MeansStmt V S n) {test yes : Form} (htest : test.isPlain = true)
    (hyes : yes.isPlainStmt = true) (hfits : ∀ form ∈ [test, yes], form.Fits S n) (form : Form)
    (c : Context) :
    ∃ ss c', ifStmt lowering form [test, yes] c = .ok ss c' ∧
      StmtsMean V S c c' ss fun self inner frames ρ =>
        Reading.choose (Reading.value self frames ρ test) (Reading.run self inner frames yes ρ)
          (pure ()) := by
  simp only [List.forall_mem_cons] at hfits
  obtain ⟨e, he, hmeant⟩ := h test htest hfits.1 c
  obtain ⟨ss, c₁, hss, hyesMean⟩ := hstmt yes hyes hfits.2.1 c
  refine ⟨[.branch e (block ss) [] form.place?], c₁, ?_,
    hyesMean.block.branch hmeant (.nil c₁) _⟩
  simp only [ifStmt]
  rw [Compile.bind_eq he, Compile.bind_eq hss]
  rfl

/-- One step of lowering as a statement, for every kind of plain form. -/
theorem bareStmt_means (h : lowering.MeansPlain V S n)
    (hstep : MeansPlain V S (n + 1) lowering.step) (hstmt : lowering.MeansStmt V S n) {form : Form}
    (hplain : form.isPlainStmt = true) (hfits : form.Fits S (n + 1)) (c : Context) :
    ∃ ss c', bareStmt lowering form c = .ok ss c' ∧
      StmtsMean V S c c' ss fun self inner frames ρ => Reading.run self inner frames form ρ := by
  have hexpr (hplain : form.isPlain = true) : ∃ ss c', exprStmt lowering form c = .ok ss c' ∧
      StmtsMean V S c c' ss (fun self _ frames ρ => do
        let _ ← Reading.value self frames ρ form) := by
    obtain ⟨ss, hss, hmean⟩ := exprStmt_means hstep hplain hfits c
    exact ⟨ss, c, hss, hmean⟩
  cases form with
  | list items span =>
    cases items with
    | nil => exact hexpr hplain
    | cons first args =>
      cases first with
      | symbol head =>
        have hargs := (List.forall_mem_cons.mp hfits.list).2
        unfold Form.isPlainStmt at hplain
        unfold Reading.run
        simp only [bareStmt]
        cases hsp : Special.ofName? head.name with
        | none =>
          simp only [hsp] at hplain ⊢
          exact hexpr hplain
        | some sp =>
          simp only [hsp] at hplain ⊢
          cases sp with
          | ifForm =>
            rcases args with _ | ⟨test, _ | ⟨yes, _ | ⟨no, _ | ⟨extra, args⟩⟩⟩⟩
            · simp at hplain
            · simp at hplain
            · simp only [Bool.and_eq_true] at hplain
              exact ifStmt_means_without_else h hstmt hplain.1 hplain.2 hargs _ c
            · simp only [Bool.and_eq_true] at hplain
              exact ifStmt_means h hstmt hplain.1.1 hplain.1.2 hplain.2 hargs _ c
            · simp at hplain
          | doForm =>
            cases args with
            | nil => exact ⟨_, c, rfl, .skip c _⟩
            | cons first others => exact stmts_mean hstmt hplain hargs c
          | letForm =>
            cases args with
            | nil => simp at hplain
            | cons bindings body =>
              cases bindings with
              | vector items vspan =>
                simp only [Bool.and_eq_true] at hplain
                rw [List.forall_mem_cons] at hargs
                exact letStmt_means h hstmt hplain.1 hplain.2 hargs.1.inVector hargs.2 _ c
              | _ => simp at hplain
          | condForm | caseForm | andForm | orForm | notForm | quoteForm | fnForm =>
            exact hexpr hplain
          | defForm | defnForm | loopForm | recurForm =>
            simp [Form.isPlain, Form.isPlainHeaded, hsp] at hplain
      | _ => exact hexpr hplain
  | _ => exact hexpr hplain

/-- One level: plain statements are lowered to what they do if their parts are. -/
theorem stmtStep_meansStmt (h : lowering.MeansPlain V S n)
    (hstep : MeansPlain V S (n + 1) lowering.step) (hstmt : lowering.MeansStmt V S n) :
    MeansStmt V S (n + 1) lowering.step := by
  intro form hplain hfits c
  obtain ⟨ss, c', hss, hmean⟩ := bareStmt_means h hstep hstmt hplain hfits c
  refine ⟨ss, c', ?_, hmean⟩
  show stmtStep lowering form c = .ok ss c'
  unfold stmtStep
  rw [Compile.bind_eq (Compile.collect_eq hss hmean.passes.later.helpers)]
  rfl

/-- **Plain statements do what they say.** A form whose expressions need no helper function is
lowered to statements that do what the form does. -/
theorem upTo_stmt (V : Veil) (S : String → Bool) (hsymbol : V.names "Symbol" = false) (n : Nat) :
    MeansStmt V S n (upTo n) := by
  induction n with
  | zero => exact fun form _ hfits => absurd hfits.depth (Nat.not_lt_zero _)
  | succ n ih =>
    exact stmtStep_meansStmt (upTo_expr V S hsymbol n) (upTo_expr V S hsymbol (n + 1)) ih

end Lowering

end TailLisp
