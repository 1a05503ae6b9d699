import TailLisp.Proofs.StmtMeaning

/-!
# TailLisp.Proofs.TailMeaning

**Plain forms in tail position.** The tail of a loop is lowered to statements that end in one of two
ways. Either they store a result and lower the flag of the loop, and then the reading of the form is
an exit with that result; or they jump, and then the reading is a self-call after which the names of
the loop have new meanings (`Lowering.upTo_tail`, `Veil.Ends`).

What a jump does is a matter of the loop, not of its tails. `Veil.Looping` says it once for a loop,
and the tails only bring the arguments of the self-call into temporaries.
-/

namespace TailLisp

open Veil Interp

/-- A loop whose body is lowered from the context `start` on. -/
structure LoopBody where
  start : Context
  target : LoopTarget
  exit : LoopExit
  hasExit : target.exit = some exit
  onRecur : target.selfCall = "recur"

namespace LoopBody

/-- The variables that the loop assigns besides the temporaries of its body. -/
def own (L : LoopBody) : List String :=
  L.exit.result :: L.exit.flag :: (L.target.vars ++ L.target.rebind.map (·.target))

/-- The assignments that leave the loop. -/
def exitStmts (L : LoopBody) (e : Expr) (span : Option Span) : List Stmt :=
  [.assign L.exit.result e (span.filter Span.isReal),
    .assign L.exit.flag (.constant (.bool false)) (span.filter Span.isReal)]

/-- The assignments of a jump, with the arguments of the self-call in the given temporaries. -/
def jumpStmts (L : LoopBody) (temps : List String) (place outer : Option Span) : List Stmt :=
  (L.target.vars.zip temps).map (fun p => Stmt.assign p.1 (.load p.2) place)
    ++ Binding.assigns outer L.target.rebind ++ [.next place]

/-- Inside of a loop, leaving it never fails to be lowered. -/
theorem exitWith_eq (L : LoopBody) (e : Expr) (span : Option Span) (c : Context) :
    Lowering.exitWith L.target e span c = .ok (L.exitStmts e span) c := by
  simp only [Lowering.exitWith, L.hasExit]
  rfl

end LoopBody

namespace Veil

/-- An expression has the value of a form already where fewer temporaries are made. -/
theorem Meant.mono {V : Veil} {S : String → Bool} {c c' : Context} {form : Form} {e : Expr}
    (h : V.Meant S c' form e) (hpasses : c.Passes c') : V.Meant S c form e :=
  fun _ _ _ _ hself hρ => h hself (hρ.mono hpasses.later hpasses.scopes (.refl _ _))

variable (V : Veil) (S : String → Bool) (L : LoopBody)

/-- A pass through the body of a loop begins: the names mean what the environment says, and the flag
is up. -/
structure AtHead (ρ : Env) (σ : Store) : Prop where
  related : V.Related S L.start ρ σ
  flag : σ L.exit.flag = some (.ofBool true)

/-- How a pass through the body of a loop ends: with the result stored and the flag down, or with
a jump to the next pass. -/
def Ends (τ : Store) (signal : Signal) : Reading.Outcome → Prop
  | .exit v => signal = .done ∧ τ L.exit.result = some v ∧ τ L.exit.flag = some (.ofBool false)
  | .again ρ => signal = .next ∧ V.AtHead S L ρ τ

/-- Code runs in a loop: the names that end it are variables of their own, and a jump does what
`enter` does with the arguments of the self-call. -/
structure Looping (interp inner : Interp) (frames : List Nat) (enter : List Value → Exec Env) :
    Prop where
  runs : V.Runs interp inner frames
  result : V.names L.exit.result = true
  flag : V.names L.exit.flag = true
  ne : L.exit.result ≠ L.exit.flag
  flagMade : ¬L.start.Future L.exit.flag
  jump : ∀ ⦃σ : Store⦄ ⦃temps : List String⦄ ⦃vs : List Value⦄ (place outer : Option Span),
    temps.length = L.target.vars.length → List.Forall₂ (fun t v => σ t = some v) temps vs →
    (∀ t ∈ temps, L.start.Future t) → σ L.exit.flag = some (.ofBool true) →
    V.Sim frames σ (interp.execAll frames (L.jumpStmts temps place outer))
      (do return .again (← enter vs)) (V.Ends S L)

end Veil

namespace Lowering

variable {V : Veil} {S : String → Bool} {L : LoopBody} {n : Nat} {lowering : Lowering}
  {c c' c'' : Context}

/-- The statements end a pass through the body of the loop as the reading does, where `P` is known
of the variables before. -/
structure TailMeans (V : Veil) (S : String → Bool) (L : LoopBody) (P : Store → Prop)
    (c c' : Context) (stmts : List Stmt)
    (m : Interp → Interp → List Nat → (List Value → Exec Env) → Env → Exec Reading.Outcome) :
    Prop where
  passes : c.Passes c'
  assigns : c.Assigns c' L.own stmts
  runs : V.Covers c c' → ∀ ⦃self inner : Interp⦄ ⦃frames : List Nat⦄
    ⦃enter : List Value → Exec Env⦄ ⦃ρ : Env⦄ ⦃σ : Store⦄, V.Looping S L self inner frames enter →
    V.Related S c ρ σ → σ L.exit.flag = some (.ofBool true) → P σ →
    V.Sim frames σ (self.execAll frames stmts) (m self inner frames enter ρ) (V.Ends S L)

/-- Plain tails are lowered to statements that end as they do. -/
def MeansTail (V : Veil) (S : String → Bool) (n : Nat) (lowering : Lowering) : Prop :=
  ∀ (L : LoopBody) (form : Form), form.isPlainTail L.target.vars.length = true → form.Fits S n →
    ∀ c : Context, L.start.Later c → ∃ stmts c', lowering.tail L.target form c = .ok stmts c' ∧
      TailMeans V S L (fun _ => True) c c' stmts fun self inner frames enter ρ =>
        Reading.tail self inner frames enter form ρ

/-! ### Exits -/

/-- The loop is left with the value of the expression. -/
theorem exitStmts_mean {e : Expr} {m : Interp → List Nat → Env → Exec Value} {P : Store → Prop}
    (h : ∀ ⦃self : Interp⦄ ⦃frames : List Nat⦄ ⦃ρ : Env⦄ ⦃σ : Store⦄, self.Insulated V →
      V.Related S c ρ σ → P σ → V.Reads self frames σ e (m self frames ρ))
    (span : Option Span) :
    TailMeans V S L P c c (L.exitStmts e span) (fun self _ frames _ ρ => do
      return .exit (← m self frames ρ)) := by
  refine ⟨.refl c, ?_, ?_⟩
  · intro x hx
    have hmem : x = L.exit.result ∨ x = L.exit.flag := by
      simpa [LoopBody.exitStmts, Stmt.assignedOfAll, Stmt.assigned] using hx
    rcases hmem with rfl | rfl <;> simp [LoopBody.own]
  · intro _ self inner frames enter ρ σ hloop hρ _ hP
    have hreads : V.Reads self frames σ e (m self frames ρ) :=
      h hloop.runs.nests.insulated hρ hP
    refine Sim.assign_cons hloop.runs.scope hloop.result hreads fun v _ => ?_
    refine Sim.assign_known hloop.runs.scope hloop.flag (.const none (.bool false)) ?_
    exact .pure ⟨rfl, by simp [Store.set, hloop.ne], by simp [Store.set]; rfl⟩

/-- The loop is left with a known value. -/
theorem exitStmts_mean_value {e : Expr} {v : Value} {P : Store → Prop}
    (h : ∀ ⦃self : Interp⦄ ⦃frames : List Nat⦄ ⦃σ : Store⦄, P σ → V.Reads self frames σ e (pure v))
    (span : Option Span) :
    TailMeans V S L P c c (L.exitStmts e span) fun _ _ _ _ _ => pure (.exit v) := by
  have hmeans := exitStmts_mean (S := S) (L := L) (c := c) (m := fun _ _ _ => pure v)
    (fun _ _ _ _ _ _ hP => h hP) span
  simpa only [pure_bind] using hmeans

/-- A form that ends the loop leaves its value as the result. -/
theorem exitStep_means (h : MeansPlain V S n lowering.step) {form : Form}
    (hplain : form.isPlain = true) (hfits : form.Fits S n) (c : Context) :
    ∃ stmts, exitStep lowering L.target form c = .ok stmts c ∧
      TailMeans V S L (fun _ => True) c c stmts (fun self _ frames _ ρ => do
        return .exit (← Reading.value self frames ρ form)) := by
  obtain ⟨e, he, hmeant⟩ := h form hplain hfits c
  refine ⟨L.exitStmts e form.span?, ?_,
    exitStmts_mean (fun _ _ _ _ hself hρ _ => hmeant hself hρ) form.span?⟩
  have hexpr : exprStep lowering form c = .ok e c := he
  unfold exitStep
  rw [Compile.bind_eq hexpr]
  exact L.exitWith_eq e form.span? c

/-! ### Parts of tails -/

section Parts

variable {P : Store → Prop} {ss ts : List Stmt}
  {m m' : Interp → Interp → List Nat → (List Value → Exec Env) → Env → Exec Reading.Outcome}

theorem TailMeans.mono {c₁ c₂ : Context} (h : TailMeans V S L P c₁ c₂ ss m) (hbefore : c.Passes c₁)
    (hafter : c₂.Passes c') : TailMeans V S L P c c' ss m where
  passes := (hbefore.trans h.passes).trans hafter
  assigns := h.assigns.mono hbefore.later hafter.later
  runs := fun hcovers _ _ _ _ _ _ hloop hρ =>
    h.runs (hcovers.mono hbefore.later hafter.later) hloop
      (hρ.mono hbefore.later hbefore.scopes (.refl _ _))

theorem TailMeans.weaken (h : TailMeans V S L (fun _ => True) c c' ss m) :
    TailMeans V S L P c c' ss m :=
  ⟨h.passes, h.assigns, fun hcovers _ _ _ _ _ _ hloop hρ hflag _ =>
    h.runs hcovers hloop hρ hflag trivial⟩

/-- A branch between two tails. -/
theorem TailMeans.branch {test : Expr} {holds : Interp → List Nat → Env → Exec Bool}
    (htest : ∀ ⦃self : Interp⦄ ⦃frames : List Nat⦄ ⦃ρ : Env⦄ ⦃σ : Store⦄, self.Insulated V →
      V.Related S c ρ σ → P σ →
      V.Sim frames σ (self.eval frames test >>= Exec.truth) (holds self frames ρ)
        (Alike σ fun _ => True))
    (h : TailMeans V S L P c c' ss m) (h' : TailMeans V S L P c c' ts m') (place : Option Span) :
    TailMeans V S L P c c' [.branch test ss ts place] (fun self inner frames enter ρ => do
      if ← holds self frames ρ then m self inner frames enter ρ
      else m' self inner frames enter ρ) where
  passes := h.passes
  assigns := by
    intro x hx
    have hboth : x ∈ Stmt.assignedOfAll ss ∨ x ∈ Stmt.assignedOfAll ts := by
      simpa [Stmt.assignedOfAll, Stmt.assigned] using hx
    exact hboth.elim (h.assigns x) (h'.assigns x)
  runs := fun hcovers _ _ _ _ _ _ hloop hρ hflag hP =>
    Sim.branchOn place (htest hloop.runs.nests.insulated hρ hP) (h.runs hcovers hloop hρ hflag hP)
      (h'.runs hcovers hloop hρ hflag hP)

/-- A branch on the value of a form. -/
theorem TailMeans.choose {test : Expr} {testForm : Form} (htest : V.Meant S c testForm test)
    (h : TailMeans V S L P c c' ss m) (h' : TailMeans V S L P c c' ts m') (place : Option Span) :
    TailMeans V S L P c c' [.branch test ss ts place] fun self inner frames enter ρ =>
      Reading.choose (Reading.value self frames ρ testForm) (m self inner frames enter ρ)
        (m' self inner frames enter ρ) := by
  have hbranch := TailMeans.branch (fun self frames ρ σ hself hρ _ => Sim.truth (htest hself hρ))
    h h' place
  simpa only [Reading.choose, bind_assoc] using hbranch

/-- A tail after statements. -/
theorem StmtsMean.append_tail {mStmt : Interp → Interp → List Nat → Env → Exec Unit}
    (h : StmtsMean V S c c' ss mStmt) (h' : TailMeans V S L (fun _ => True) c' c'' ts m)
    (hlater : L.start.Later c) :
    TailMeans V S L (fun _ => True) c c'' (ss ++ ts) (fun self inner frames enter ρ => do
      mStmt self inner frames ρ
      m self inner frames enter ρ) where
  passes := h.passes.trans h'.passes
  assigns := h.assigns.weaken.append h'.assigns h.passes.later h'.passes.later
  runs := by
    intro hcovers self inner frames enter ρ σ hloop hρ hflag _
    have hcovers₁ := hcovers.mono (.refl c) h'.passes.later
    refine (h.runs hcovers₁ hloop.runs hρ).append ?_
    intro τ _ hfills
    have hflag' : τ L.exit.flag = some (.ofBool true) := by
      rw [hfills.keeps _ fun hfuture => hloop.flagMade (hlater.future hfuture), hflag]
    exact h'.runs (hcovers.mono h.passes.later (.refl c'')) hloop
      (hρ.mono h.passes.later h.passes.scopes hfills.keeps) hflag' trivial

/-- A tail after the value of a form is brought into a temporary. -/
theorem TailMeans.store {form : Form} {e : Expr} (stem : String)
    {mValue : Value → Interp → Interp → List Nat → (List Value → Exec Env) → Env →
      Exec Reading.Outcome}
    (hmeant : V.Meant S (c.fresh (stem ++ "_")).2 form e)
    (h : ∀ v, TailMeans V S L (fun σ => σ (c.fresh (stem ++ "_")).1 = some v)
      (c.fresh (stem ++ "_")).2 c' ss (mValue v))
    (hlater : L.start.Later c) (place : Option Span) :
    TailMeans V S L (fun _ => True) c c' (.assign (c.fresh (stem ++ "_")).1 e place :: ss)
      (fun self inner frames enter ρ => do
        let v ← Reading.value self frames ρ form
        mValue v self inner frames enter ρ) := by
  have hpasses := c.passes_fresh (stem ++ "_")
  have hpasses' := (h .nil).passes
  have hmakes := (c.makes_fresh stem).mono (.refl c) hpasses'.later
  refine ⟨hpasses.trans hpasses', ?_, ?_⟩
  · intro x hx
    have hmem : x = (c.fresh (stem ++ "_")).1 ∨ x ∈ Stmt.assignedOfAll ss := by
      simpa [Stmt.assignedOfAll, Stmt.assigned] using hx
    rcases hmem with rfl | hx
    · exact .inr hmakes
    · exact (h .nil).assigns.mono hpasses.later (.refl c') x hx
  · intro hcovers self inner frames enter ρ σ hloop hρ hflag _
    have hreads : V.Reads self frames σ e (Reading.value self frames ρ form) :=
      hmeant hloop.runs.nests.insulated (hρ.mono hpasses.later rfl (.refl c σ))
    refine Sim.assign_cons hloop.runs.scope (hcovers _ hmakes) hreads fun v _ => ?_
    have hne : L.exit.flag ≠ (c.fresh (stem ++ "_")).1 := fun heq =>
      hloop.flagMade (hlater.future (heq ▸ c.future_fresh stem))
    refine (h v).runs (hcovers.mono hpasses.later (.refl c')) hloop (hρ.fresh stem v) ?_ ?_
    · simp [Store.set, hne, hflag]
    · simp [Store.set]

/-- A tail after the bindings of a scope of its own. -/
theorem BlockBinds.append_tail {mEnv : Interp → Interp → List Nat → Env → Exec Env}
    (h : BlockBinds V S c.enter c' ss mEnv) (h' : TailMeans V S L (fun _ => True) c' c'' ts m)
    (hlater : L.start.Later c) :
    TailMeans V S L (fun _ => True) c c''.leave (ss ++ ts) fun self inner frames enter ρ =>
      mEnv self inner frames ρ >>= m self inner frames enter where
  passes := (h.declares.passes h'.passes).leave
  assigns := show c.enter.Assigns c'' L.own (ss ++ ts) from
    h.assigns.weaken.append h'.assigns h.declares.later h'.passes.later
  runs := by
    intro hcovers self inner frames enter ρ σ hloop hρ hflag _
    have hcovers' : V.Covers c.enter c'' := hcovers
    refine (h.runs (hcovers'.mono (.refl _) h'.passes.later) hloop.runs hρ.enter).append ?_
    rintro τ ρ' ⟨hρ', hfills⟩
    have hflag' : τ L.exit.flag = some (.ofBool true) := by
      rw [hfills.keeps _ fun hfuture => hloop.flagMade (hlater.future hfuture), hflag]
    exact h'.runs (hcovers'.mono h.declares.later (.refl c'')) hloop hρ' hflag' trivial

end Parts

/-! ### Bodies and branches -/

/-- A loop body runs its statements and then its tail. The induction is on the forms. -/
theorem loopBody_means (hstmt : lowering.MeansStmt V S n)
    (htail : lowering.MeansTail V S n) {body : List Form}
    (hplain : Form.isPlainTailBody L.target.vars.length body = true)
    (hfits : ∀ form ∈ body, form.Fits S n) (hlater : L.start.Later c) :
    ∃ stmts c', loopBody lowering L.target body c = .ok stmts c' ∧
      TailMeans V S L (fun _ => True) c c' stmts fun self inner frames enter ρ =>
        Reading.tailBody self inner frames enter body ρ := by
  induction body generalizing c with
  | nil =>
    exact ⟨_, c, L.exitWith_eq _ _ c, exitStmts_mean_value (fun _ _ _ _ => .const none .nil) none⟩
  | cons form forms ih =>
    rw [List.forall_mem_cons] at hfits
    cases forms with
    | nil => exact htail L form hplain hfits.1 c hlater
    | cons next forms =>
      simp only [Form.isPlainTailBody, Bool.and_eq_true] at hplain
      obtain ⟨ss, c₁, hss, hfirst⟩ := hstmt form hplain.1 hfits.1 c
      obtain ⟨ts, c', hts, hrest⟩ := ih hplain.2 hfits.2 (hlater.trans hfirst.passes.later)
      refine ⟨ss ++ ts, c', ?_, hfirst.append_tail hrest hlater⟩
      simp only [loopBody]
      rw [Compile.bind_eq hss, Compile.bind_eq hts]
      rfl

/-- A conditional chooses between the passes of its branches. -/
theorem tailIf_means (h : lowering.MeansPlain V S n) (htail : lowering.MeansTail V S n)
    {test yes no : Form} (htest : test.isPlain = true)
    (hyes : yes.isPlainTail L.target.vars.length = true)
    (hno : no.isPlainTail L.target.vars.length = true)
    (hfits : ∀ form ∈ [test, yes, no], form.Fits S n) (hlater : L.start.Later c) (form : Form) :
    ∃ stmts c', tailIf.build lowering L.target form test yes no c = .ok stmts c' ∧
      TailMeans V S L (fun _ => True) c c' stmts fun self inner frames enter ρ =>
        Reading.choose (Reading.value self frames ρ test)
          (Reading.tail self inner frames enter yes ρ)
          (Reading.tail self inner frames enter no ρ) := by
  simp only [List.forall_mem_cons] at hfits
  obtain ⟨e, he, hmeant⟩ := h test htest hfits.1 c
  obtain ⟨ss, c₁, hss, hyesMeans⟩ := htail L yes hyes hfits.2.1 c hlater
  obtain ⟨ts, c₂, hts, hnoMeans⟩ :=
    htail L no hno hfits.2.2.1 c₁ (hlater.trans hyesMeans.passes.later)
  refine ⟨[.branch e ss ts form.place?], c₂, ?_,
    (hyesMeans.mono (.refl c) hnoMeans.passes).choose hmeant
      (hnoMeans.mono hyesMeans.passes (.refl c₂)) _⟩
  unfold tailIf.build
  rw [Compile.bind_eq he, Compile.bind_eq hss, Compile.bind_eq hts]
  rfl

/-- The clauses of a `cond`, from the last one on. -/
theorem tailClauses_mean (h : lowering.MeansPlain V S n) (htail : lowering.MeansTail V S n)
    (hn : 0 < n) (place : Option Span) {args : List Form} {pairs : List (Form × Form)}
    (hpairs : Form.pairUp args = some pairs)
    (hplain : Form.isPlainTailCond L.target.vars.length args = true)
    (hfits : ∀ form ∈ args, form.Fits S n) (hlater : L.start.Later c) :
    ∃ stmts c', (do
        let last ← lowering.tail L.target (untilElse pairs).2
        (untilElse pairs).1.foldrM (fun (test, result) no => do
          let test ← lowering.expr test
          let yes ← lowering.tail L.target result
          return [.branch test yes no place]) last : Compile (List Stmt)) c = .ok stmts c' ∧
      TailMeans V S L (fun _ => True) c c' stmts fun self inner frames enter ρ =>
        Reading.tailCond self inner frames enter args ρ := by
  fun_induction Form.pairUp args generalizing pairs with
  | case1 =>
    cases hpairs
    obtain ⟨stmts, c', hstmts, hmeans⟩ := htail L .nil rfl ⟨rfl, hn⟩ c hlater
    refine ⟨stmts, c', ?_, hmeans⟩
    simp only [untilElse, List.foldrM_nil, bind_pure]
    exact hstmts
  | case2 => cases hpairs
  | case3 test result rest ih =>
    obtain ⟨others, hothers, rfl⟩ := Option.map_eq_some_iff.mp hpairs
    simp only [List.forall_mem_cons] at hfits
    simp only [Form.isPlainTailCond] at hplain
    split at hplain
    · rename_i helse
      obtain ⟨stmts, c', hstmts, hmeans⟩ := htail L result hplain hfits.2.1 c hlater
      refine ⟨stmts, c', ?_, ?_⟩
      · simp only [untilElse, helse, if_true, List.foldrM_nil, bind_pure]
        exact hstmts
      · simpa [Reading.tailCond, helse] using hmeans
    · rename_i helse
      simp only [Bool.and_eq_true] at hplain
      obtain ⟨no, c₁, hno, hrest⟩ := ih hothers hplain.2 hfits.2.2
      obtain ⟨e, he, hmeant⟩ := h test hplain.1.1 hfits.1 c₁
      obtain ⟨yes, c₂, hyes, hresult⟩ :=
        htail L result hplain.1.2 hfits.2.1 c₁ (hlater.trans hrest.passes.later)
      refine ⟨[.branch e yes no place], c₂, ?_, ?_⟩
      · have huntil : untilElse ((test, result) :: others) =
            ((test, result) :: (untilElse others).1, (untilElse others).2) := by
          simp [untilElse, helse]
        rw [huntil, Compile.foldrM_cons_bind, Compile.bind_eq hno]
        dsimp only
        rw [Compile.bind_eq he, Compile.bind_eq hyes]
        rfl
      · simp only [Reading.tailCond, helse]
        exact (hresult.mono hrest.passes (.refl c₂)).choose (hmeant.mono hrest.passes)
          (hrest.mono (.refl c) hresult.passes) _

/-- The clauses of a `cond` are tried in order. The induction is on the clauses, of which the last
one is lowered first. -/
theorem tailCond_means (h : lowering.MeansPlain V S n) (htail : lowering.MeansTail V S n)
    (hn : 0 < n) {args : List Form} (hcount : args.length % 2 = 0)
    (hplain : Form.isPlainTailCond L.target.vars.length args = true)
    (hfits : ∀ form ∈ args, form.Fits S n) (hlater : L.start.Later c) (form : Form) :
    ∃ stmts c', tailCond lowering L.target form args c = .ok stmts c' ∧
      TailMeans V S L (fun _ => True) c c' stmts fun self inner frames enter ρ =>
        Reading.tailCond self inner frames enter args ρ := by
  obtain ⟨pairs, hpairs⟩ := Form.pairUp_of_even hcount
  obtain ⟨stmts, c', hstmts, hmeans⟩ :=
    tailClauses_mean h htail hn form.place? hpairs hplain hfits hlater
  refine ⟨stmts, c', ?_, hmeans⟩
  have hclauses : condClauses form args c = .ok (untilElse pairs) c := by
    simp only [condClauses, hpairs]
    rfl
  unfold tailCond
  rw [Compile.bind_eq hclauses]
  exact hstmts

/-! ### Clauses of a `case` -/

section Case

variable {self : Interp} {frames : List Nat} {σ : Store}

theorem truth_ofBool (b : Bool) : Exec.truth (.ofBool b) = pure b := by
  cases b <;> rfl

/-- To equal one of the keys is the alternative of the comparisons with them. -/
theorem logical_equal (self : Interp) (v : Value) (key : Key) (keys : List Key) :
    Reading.logical .or ((key :: keys).map fun key => do
      return .ofBool (← Exec.equal v (← Reading.keyValue self key))) >>= Exec.truth =
        Reading.equalsOne self v (key :: keys) := by
  induction keys generalizing key with
  | nil =>
    simp only [List.map_cons, List.map_nil, Reading.logical, Reading.equalsOne, bind_assoc,
      pure_bind, truth_ofBool]
    congr 1
    funext k
    congr 1
    funext holds
    cases holds <;> rfl
  | cons next keys ih =>
    specialize ih next
    simp only [List.map_cons] at ih ⊢
    rw [Reading.logical, Reading.equalsOne, ← ih]
    simp only [bind_assoc, pure_bind, Reading.settles, truth_ofBool]
    congr 1
    funext k
    congr 1
    funext holds
    cases holds with
    | true => exact truth_ofBool true
    | false => rfl

/-- A key is compared with the temporary of the selector. -/
theorem key_test_reads (hself : self.Insulated V) {selector : String} {v : Value}
    (hv : σ selector = some v) (key : Key) :
    V.Reads self frames σ (.compare .eq (.load selector) [key.expr] none) (do
      return .ofBool (← Exec.equal v (← Reading.keyValue self key))) := by
  have hchain : (do return .ofBool (← Exec.equal v (← Reading.keyValue self key)) : Exec Value) =
      (pure v >>= fun left => Reading.chain self .eq left [Reading.keyValue self key]) := by
    simp only [pure_bind, Reading.chain, Interp.compare]
    congr 1
    funext k
    congr 1
    funext holds
    cases holds <;> rfl
  rw [hchain]
  exact Sim.alike (Reads.veiled none hv) fun left _ =>
    evalCompare_reads hself .eq (.cons (.key hself key) .nil) left

/-- The test of a clause tells whether the selector equals one of its keys. -/
theorem caseTest_holds (hself : self.Insulated V) {selector : String} {v : Value}
    (hv : σ selector = some v) {keys : List Key} (hne : keys ≠ []) :
    V.Sim frames σ (self.eval frames (caseTest selector keys) >>= Exec.truth)
      (Reading.equalsOne self v keys) (Alike σ fun _ => True) := by
  match keys with
  | [] => exact absurd rfl hne
  | [key] =>
    rw [← logical_equal]
    exact Sim.truth (key_test_reads hself hv key)
  | key :: next :: keys =>
    have htests : List.Forall₂ (V.Reads self frames σ)
        ((key :: next :: keys).map fun key =>
          Expr.compare .eq (.load selector) [key.expr] none)
        ((key :: next :: keys).map fun key => do
          return .ofBool (← Exec.equal v (← Reading.keyValue self key))) := by
      rw [List.forall₂_map_left_iff, List.forall₂_map_right_iff, List.forall₂_same]
      exact fun key _ => key_test_reads hself hv key
    rw [← logical_equal]
    exact Sim.truth (Reads.logical none (by simp) htests)

end Case

theorem caseKeys_ne_nil {form : Form} {keys : List Key} (h : caseKeys? form = some keys) :
    keys ≠ [] := by
  unfold caseKeys? at h
  split at h
  · cases h
  · rename_i items span hitems
    cases items with
    | nil => exact absurd rfl hitems
    | cons item items =>
      rw [List.mapM_cons] at h
      obtain ⟨key, -, h⟩ := Option.bind_eq_some_iff.mp h
      obtain ⟨others, -, h⟩ := Option.bind_eq_some_iff.mp h
      cases h
      simp
  · obtain ⟨key, -, rfl⟩ := Option.map_eq_some_iff.mp h
    simp

/-- The clauses of a `case`, from the last one on, with the value of the selector in a variable. -/
theorem caseClauses_mean (htail : lowering.MeansTail V S n) (hn : 0 < n) (selector : String)
    (place : Option Span) {args : List Form}
    (hplain : Form.isPlainTailCase L.target.vars.length args = true)
    (hfits : ∀ form ∈ args, form.Fits S n) :
    ∃ clauses, (∀ c, (splitCase args).1.mapM caseClause c = .ok clauses c) ∧
      ∀ c, L.start.Later c → ∃ stmts c', (do
          let last ← lowering.tail L.target (splitCase args).2
          clauses.foldrM (fun (keys, result) no => do
            let yes ← lowering.tail L.target result
            return [.branch (caseTest selector keys) yes no place]) last :
            Compile (List Stmt)) c = .ok stmts c' ∧
        ∀ v, TailMeans V S L (fun σ => σ selector = some v) c c' stmts
          fun self inner frames enter ρ => Reading.tailCase self inner frames enter v args ρ := by
  fun_induction splitCase args with
  | case1 =>
    refine ⟨[], fun c => rfl, fun c hlater => ?_⟩
    obtain ⟨stmts, c', hstmts, hmeans⟩ := htail L .nil rfl ⟨rfl, hn⟩ c hlater
    refine ⟨stmts, c', ?_, fun v => hmeans.weaken⟩
    simp only [List.foldrM_nil, bind_pure]
    exact hstmts
  | case2 default =>
    refine ⟨[], fun c => rfl, fun c hlater => ?_⟩
    obtain ⟨stmts, c', hstmts, hmeans⟩ := htail L default hplain (hfits _ (by simp)) c hlater
    refine ⟨stmts, c', ?_, fun v => hmeans.weaken⟩
    simp only [List.foldrM_nil, bind_pure]
    exact hstmts
  | case3 key result rest ih =>
    simp only [List.forall_mem_cons] at hfits
    simp only [Form.isPlainTailCase, Bool.and_eq_true] at hplain
    obtain ⟨⟨hkeys, hresult⟩, hrest⟩ := hplain
    obtain ⟨keys, hkeys⟩ := Option.isSome_iff_exists.mp hkeys
    obtain ⟨clauses, hclauses, hlower⟩ := ih hrest hfits.2.2
    refine ⟨(keys, result) :: clauses, fun c => ?_, fun c hlater => ?_⟩
    · have hclause : caseClause (key, result) c = .ok (keys, result) c := by
        simp only [caseClause, hkeys]
        rfl
      rw [List.mapM_cons, Compile.bind_eq hclause, Compile.bind_eq (hclauses c)]
      rfl
    · obtain ⟨no, c₁, hno, hnoMeans⟩ := hlower c hlater
      have hpasses := (hnoMeans .nil).passes
      obtain ⟨yes, c₂, hyes, hyesMeans⟩ :=
        htail L result hresult hfits.2.1 c₁ (hlater.trans hpasses.later)
      refine ⟨[.branch (caseTest selector keys) yes no place], c₂, ?_, fun v => ?_⟩
      · rw [Compile.foldrM_cons_bind, Compile.bind_eq hno]
        dsimp only
        rw [Compile.bind_eq hyes]
        rfl
      · have htest := TailMeans.branch (c := c) (S := S)
          (fun _ _ _ _ hself _ hv => caseTest_holds hself hv (caseKeys_ne_nil hkeys))
          (hyesMeans.weaken.mono hpasses (.refl c₂))
          ((hnoMeans v).mono (.refl c) hyesMeans.passes) place
        simpa only [Reading.tailCase, hkeys, Option.getD_some] using htest

/-- A `case` evaluates its selector once, into a temporary, and takes the first clause that has its
value among the keys. -/
theorem tailCase_means (h : lowering.MeansPlain V S n) (htail : lowering.MeansTail V S n)
    (hn : 0 < n) {selector : Form} {args : List Form} (hselector : selector.isPlain = true)
    (hplain : Form.isPlainTailCase L.target.vars.length args = true)
    (hfits : ∀ form ∈ selector :: args, form.Fits S n) (hlater : L.start.Later c) (form : Form) :
    ∃ stmts c', tailCase lowering L.target form (selector :: args) c = .ok stmts c' ∧
      TailMeans V S L (fun _ => True) c c' stmts (fun self inner frames enter ρ => do
        let v ← Reading.value self frames ρ selector
        Reading.tailCase self inner frames enter v args ρ) := by
  rw [List.forall_mem_cons] at hfits
  have hpasses := c.passes_fresh "case_"
  obtain ⟨e, he, hmeant⟩ := h selector hselector hfits.1 (c.fresh "case_").2
  obtain ⟨clauses, hclauses, hlower⟩ := caseClauses_mean (L := L) htail hn (c.fresh "case_").1
    form.place? hplain hfits.2
  obtain ⟨stmts, c', hstmts, hmeans⟩ := hlower _ (hlater.trans hpasses.later)
  refine ⟨.assign (c.fresh "case_").1 e form.place? :: stmts, c', ?_,
    TailMeans.store "case" hmeant hmeans hlater _⟩
  have hparts : caseParts form (selector :: args) c =
      .ok ⟨selector, clauses, (splitCase args).2⟩ c := by
    simp only [caseParts]
    rw [Compile.bind_eq (hclauses c)]
    rfl
  have hfresh : Compile.fresh "case_" c = .ok (c.fresh "case_").1 (c.fresh "case_").2 := rfl
  unfold tailCase
  rw [Compile.bind_eq hparts, Compile.bind_eq hfresh, Compile.bind_eq he, ← bind_assoc,
    Compile.bind_eq hstmts]
  rfl

/-! ### Operands, bindings and jumps -/

/-- The test after an operand tells whether it settles the operator. -/
theorem settled_holds {self : Interp} {frames : List Nat} {σ : Store} {temp : String} {v : Value}
    (hv : σ temp = some v) (op : LogicalOp) :
    V.Sim frames σ (self.eval frames (match op with
        | .and => .unary .not (.load temp) none
        | .or => .load temp) >>= Exec.truth) (Reading.settles op v) (Alike σ fun _ => True) := by
  have hload : V.Reads self frames σ (.load temp) (pure v) := Reads.veiled none hv
  cases op with
  | and =>
    have htest := Sim.truth (hload.unary none .not)
    have hsettles : Reading.settles .and v =
        (pure v >>= fun v => Interp.unary .not v) >>= Exec.truth := by
      simp only [pure_bind, Interp.unary, bind_assoc, truth_ofBool]
      unfold Reading.settles
      congr 1
      funext holds
      cases holds <;> rfl
    rw [hsettles]
    exact htest
  | or =>
    have htest := Sim.truth hload
    have hsettles : Reading.settles .or v = pure v >>= Exec.truth := by
      simp only [pure_bind]
      unfold Reading.settles
      refine Eq.trans ?_ (bind_pure _)
      congr 1
      funext holds
      cases holds <;> rfl
    rw [hsettles]
    exact htest

/-- Operands are evaluated up to the one that settles the answer. -/
theorem tailLogical_means (h : lowering.MeansPlain V S n) (htail : lowering.MeansTail V S n)
    (op : LogicalOp) {args : List Form}
    (hplain : Form.isPlainTailLogical L.target.vars.length args = true)
    (hfits : ∀ form ∈ args, form.Fits S n) (hlater : L.start.Later c) (form : Form) :
    ∃ stmts c', tailLogical lowering L.target op form args c = .ok stmts c' ∧
      TailMeans V S L (fun _ => True) c c' stmts fun self inner frames enter ρ =>
        Reading.tailLogical self inner frames enter op args ρ := by
  induction args generalizing c with
  | nil =>
    have hneutral : Reading.neutral op =
        .const (match op with | .and => .bool true | .or => .nil) := by
      cases op <;> rfl
    refine ⟨_, c, L.exitWith_eq _ _ c, exitStmts_mean_value (fun _ _ _ _ => ?_) form.span?⟩
    rw [hneutral]
    exact .const none _
  | cons operand operands ih =>
    rw [List.forall_mem_cons] at hfits
    cases operands with
    | nil => exact htail L operand hplain hfits.1 c hlater
    | cons next operands =>
      simp only [Form.isPlainTailLogical, Bool.and_eq_true] at hplain
      have hpasses := c.passes_fresh "test_"
      obtain ⟨e, he, hmeant⟩ := h operand hplain.1 hfits.1 (c.fresh "test_").2
      obtain ⟨undecided, c', hundecided, hrest⟩ :=
        ih hplain.2 hfits.2 (hlater.trans hpasses.later)
      have hexit (v : Value) := exitStmts_mean_value (V := V) (S := S) (L := L)
        (c := (c.fresh "test_").2) (P := fun σ => σ (c.fresh "test_").1 = some v)
        (fun _ _ _ hv => Reads.veiled none hv) form.span?
      have hbranch (v : Value) := TailMeans.branch
        (P := fun σ => σ (c.fresh "test_").1 = some v) (fun _ _ _ _ _ _ hv => settled_holds hv op)
        ((hexit v).mono (.refl _) hrest.passes) hrest.weaken form.place?
      refine ⟨_, c', ?_, TailMeans.store "test" hmeant hbranch hlater form.place?⟩
      have hfresh : Compile.fresh "test_" c = .ok (c.fresh "test_").1 (c.fresh "test_").2 := rfl
      simp only [tailLogical]
      rw [Compile.bind_eq hfresh, Compile.bind_eq he, Compile.bind_eq (L.exitWith_eq _ _ _),
        Compile.bind_eq hundecided]
      rfl

/-- The names of a `let` are bound for the pass, and their temporaries are left behind. -/
theorem tailLet_means (h : lowering.MeansPlain V S n) (hstmt : lowering.MeansStmt V S n)
    (htail : lowering.MeansTail V S n) {items body : List Form} {span : Span}
    (hplain : Form.arePlainPairs items = true)
    (hbody : Form.isPlainTailBody L.target.vars.length body = true)
    (hfits : ∀ item ∈ items, item.Fits S n) (hbodyFits : ∀ form ∈ body, form.Fits S n)
    (hlater : L.start.Later c) (form : Form) :
    ∃ stmts c', tailLet lowering L.target form (.vector items span :: body) c = .ok stmts c' ∧
      TailMeans V S L (fun _ => True) c c' stmts (fun self inner frames enter ρ => do
        let ρ ← Reading.bindPairs self inner frames items ρ
        Reading.tailBody self inner frames enter body ρ) := by
  have hopen : c.enter.scopes ≠ [] := by simp [Context.enter]
  obtain ⟨head, c₁, hhead, hbinds⟩ := letBindings_bind h span hplain hfits hopen
  have hlaterEnter : L.start.Later c.enter := ⟨hlater.tempPrefix, hlater.counter, hlater.helpers⟩
  have hlater₁ := hlaterEnter.trans hbinds.declares.later
  obtain ⟨rest, c₂, hrest, hmeans⟩ := loopBody_means hstmt htail hbody hbodyFits hlater₁
  refine ⟨head ++ rest, c₂.leave, ?_, hbinds.append_tail hmeans hlater⟩
  unfold tailLet
  refine Compile.inScope_eq ?_
  rw [Compile.bind_eq hhead, Compile.bind_eq hrest]
  rfl

/-- The arguments of a self-call are brought into temporaries of their own, one after the other. -/
structure Stores (V : Veil) (S : String → Bool) (c c' : Context) (temps : List (String × Stmt))
    (args : List Form) : Prop where
  passes : c.Passes c'
  length : temps.length = args.length
  makes : ∀ p ∈ temps, c.Makes c' p.1
  assigned : Stmt.assignedOfAll (temps.map (·.2)) = temps.map (·.1)
  runs : V.Covers c c' → ∀ ⦃self inner : Interp⦄ ⦃frames : List Nat⦄ ⦃ρ : Env⦄ ⦃σ : Store⦄,
    V.Runs self inner frames → V.Related S c ρ σ →
    V.Sim frames σ (self.execAll frames (temps.map (·.2)))
      (Reading.inOrder (Reading.values self frames ρ args)) fun τ signal vs =>
        signal = .done ∧ List.Forall₂ (fun p v => τ p.1 = some v) temps vs ∧ c.Fills c' σ τ

/-- The arguments of a jump are evaluated in order, all of them before a variable is assigned. -/
theorem jumpArguments_store (h : lowering.MeansPlain V S n) {args : List Form}
    (hplain : Form.arePlain args = true) (hfits : ∀ form ∈ args, form.Fits S n)
    (place : Option Span) (c : Context) :
    ∃ temps c', args.mapM (jumpArgument lowering place) c = .ok temps c' ∧
      Stores V S c c' temps args := by
  induction args generalizing c with
  | nil =>
    refine ⟨[], c, rfl, .refl c, rfl, by simp, rfl, fun _ _ _ _ _ σ _ _ => ?_⟩
    exact .pure ⟨rfl, .nil, .refl c c σ⟩
  | cons arg args ih =>
    rw [Form.arePlain_iff, List.forall_mem_cons, ← Form.arePlain_iff] at hplain
    rw [List.forall_mem_cons] at hfits
    have hpasses := c.passes_fresh "recur_"
    obtain ⟨e, he, hmeant⟩ := h arg hplain.1 hfits.1 (c.fresh "recur_").2
    obtain ⟨temps, c', htemps, hrest⟩ := ih hplain.2 hfits.2 (c.fresh "recur_").2
    have hmakes := (c.makes_fresh "recur").mono (.refl c) hrest.passes.later
    refine ⟨((c.fresh "recur_").1, .assign (c.fresh "recur_").1 e place) :: temps, c', ?_,
      hpasses.trans hrest.passes, by simp [hrest.length], ?_, ?_, ?_⟩
    · have hfirst : jumpArgument lowering place arg c =
          .ok ((c.fresh "recur_").1, .assign (c.fresh "recur_").1 e place)
            (c.fresh "recur_").2 := by
        have hfresh : Compile.fresh "recur_" c =
            .ok (c.fresh "recur_").1 (c.fresh "recur_").2 := rfl
        unfold jumpArgument
        rw [Compile.bind_eq hfresh, Compile.bind_eq he]
        rfl
      rw [List.mapM_cons, Compile.bind_eq hfirst, Compile.bind_eq htemps]
      rfl
    · exact List.forall_mem_cons.mpr
        ⟨hmakes, fun p hp => (hrest.makes p hp).mono hpasses.later (.refl c')⟩
    · simp only [List.map_cons, Stmt.assignedOfAll, hrest.assigned]
      rfl
    · intro hcovers self inner frames ρ σ hruns hρ
      have hreads : V.Reads self frames σ e (Reading.value self frames ρ arg) :=
        hmeant hruns.nests.insulated (hρ.mono hpasses.later rfl (.refl c σ))
      refine Sim.assign_cons hruns.scope (hcovers _ hmakes) hreads fun v _ => ?_
      have hothers := hrest.runs (hcovers.mono hpasses.later (.refl c')) hruns
        (hρ.fresh "recur" v)
      rw [← bind_pure (self.execAll frames (temps.map (·.2)))]
      refine hothers.bind ?_
      rintro τ signal vs ⟨rfl, hvs, hfills⟩
      refine .pure ⟨rfl, .cons ?_ hvs, ?_⟩
      · have hkept := hfills (c.fresh "recur_").1 fun hmade =>
          c.not_future_fresh "recur" hmade.1
        simpa [Store.set] using hkept
      · exact (Context.Fills.set (c.makes_fresh "recur") v).trans hfills hpasses.later
          hrest.passes.later

theorem mem_assignedOfAll {x : String} {ss : List Stmt} :
    x ∈ Stmt.assignedOfAll ss ↔ ∃ s ∈ ss, x ∈ s.assigned := by
  induction ss with
  | nil => simp [Stmt.assignedOfAll]
  | cons s ss ih => simp [Stmt.assignedOfAll, ih]

theorem assigned_jumpStmts {temps : List String} {place outer : Option Span} {x : String}
    (hx : x ∈ Stmt.assignedOfAll (L.jumpStmts temps place outer)) : x ∈ L.own := by
  obtain ⟨s, hs, hx⟩ := mem_assignedOfAll.mp hx
  simp only [LoopBody.jumpStmts, List.mem_append, List.mem_map, List.mem_singleton] at hs
  rcases hs with (⟨p, hp, rfl⟩ | hs) | rfl
  · obtain rfl : x = p.1 := by simpa [Stmt.assigned] using hx
    simp [LoopBody.own, (List.of_mem_zip hp).1]
  · have hrebind := mem_assignedOfAll.mpr ⟨s, hs, hx⟩
    rw [Context.assignedOfAll_assigns] at hrebind
    simp only [LoopBody.own, List.mem_cons, List.mem_append, hrebind, or_true]
  · simp [Stmt.assigned] at hx

/-- A jump assigns the variables at once and starts the next pass. -/
theorem jump_means (h : lowering.MeansPlain V S n) {args : List Form}
    (hcount : args.length = L.target.vars.length) (hplain : Form.arePlain args = true)
    (hfits : ∀ form ∈ args, form.Fits S n) (hlater : L.start.Later c) (form : Form) :
    ∃ stmts c', jump lowering L.target form args c = .ok stmts c' ∧
      TailMeans V S L (fun _ => True) c c' stmts (fun self _ frames enter ρ => do
        let vs ← Reading.inOrder (Reading.values self frames ρ args)
        return .again (← enter vs)) := by
  obtain ⟨temps, c', htemps, hstores⟩ := jumpArguments_store h hplain hfits form.place? c
  refine ⟨temps.map (·.2) ++ L.jumpStmts (temps.map (·.1)) form.place? form.span?, c', ?_,
    hstores.passes, ?_, ?_⟩
  · unfold jump
    rw [if_pos hcount, Compile.bind_eq htemps]
    simp only [LoopBody.jumpStmts, List.zip_map_right, List.map_map, List.append_assoc]
    rfl
  · intro x hx
    rw [Context.assignedOfAll_append, hstores.assigned, List.mem_append, List.mem_map] at hx
    rcases hx with ⟨p, hp, rfl⟩ | hx
    · exact .inr (hstores.makes p hp)
    · exact .inl (assigned_jumpStmts hx)
  · intro hcovers self inner frames enter ρ σ hloop hρ hflag _
    refine (hstores.runs hcovers hloop.runs hρ).append ?_
    rintro τ vs ⟨hvs, hfills⟩
    refine hloop.jump form.place? form.span? ?_ (List.forall₂_map_left_iff.mpr hvs) ?_ ?_
    · rw [List.length_map, hstores.length, hcount]
    · intro t ht
      obtain ⟨p, hp, rfl⟩ := List.mem_map.mp ht
      exact hlater.future (hstores.makes p hp).1
    · rw [hfills.keeps _ fun hfuture => hloop.flagMade (hlater.future hfuture), hflag]

/-! ### Any plain tail -/

/-- One level: plain tails are lowered to what they do if their parts are. -/
theorem tailStep_meansTail (h : lowering.MeansPlain V S n)
    (hstep : MeansPlain V S (n + 1) lowering.step) (hstmt : lowering.MeansStmt V S n)
    (htail : lowering.MeansTail V S n) : MeansTail V S (n + 1) lowering.step := by
  intro L form hplain hfits c hlater
  show ∃ stmts c', tailStep lowering L.target form c = .ok stmts c' ∧ _
  have hexit (hplain : form.isPlain = true) :
      ∃ stmts c', exitStep lowering L.target form c = .ok stmts c' ∧
        TailMeans V S L (fun _ => True) c c' stmts (fun self _ frames _ ρ => do
          return .exit (← Reading.value self frames ρ form)) := by
    obtain ⟨stmts, hstmts, hmeans⟩ := exitStep_means (L := L) hstep hplain hfits c
    exact ⟨stmts, c, hstmts, hmeans⟩
  cases form with
  | list items span =>
    cases items with
    | nil => exact hexit hplain
    | cons first args =>
      cases first with
      | symbol head =>
        have hargs := (List.forall_mem_cons.mp hfits.list).2
        have hn : 0 < n := Nat.lt_of_le_of_lt (Nat.zero_le _)
          (hfits.list _ List.mem_cons_self).depth
        unfold Form.isPlainTail at hplain
        unfold Reading.tail
        simp only [tailStep, L.onRecur]
        by_cases hrecur : head.name = "recur"
        · simp only [hrecur, if_true, Bool.and_eq_true, beq_iff_eq] at hplain ⊢
          exact jump_means h hplain.1 hplain.2 hargs hlater _
        simp only [hrecur, if_false] at hplain ⊢
        cases hsp : Special.ofName? head.name with
        | none =>
          simp only [hsp] at hplain ⊢
          exact hexit hplain
        | some sp =>
          simp only [hsp] at hplain ⊢
          cases sp with
          | ifForm =>
            rcases args with _ | ⟨test, _ | ⟨yes, _ | ⟨no, _ | ⟨extra, args⟩⟩⟩⟩
            · simp at hplain
            · simp at hplain
            · simp only [Bool.and_eq_true] at hplain
              simp only [List.forall_mem_cons] at hargs
              have hnil : Form.nil.isPlainTail L.target.vars.length = true := rfl
              refine tailIf_means h htail hplain.1 hplain.2 hnil ?_ hlater _
              simp only [List.forall_mem_cons]
              exact ⟨hargs.1, hargs.2.1, hargs.1.nil, by simp⟩
            · simp only [Bool.and_eq_true] at hplain
              exact tailIf_means h htail hplain.1.1 hplain.1.2 hplain.2 hargs hlater _
            · simp at hplain
          | condForm =>
            simp only [Bool.and_eq_true, beq_iff_eq] at hplain
            exact tailCond_means h htail hn hplain.1 hplain.2 hargs hlater _
          | caseForm =>
            cases args with
            | nil => simp at hplain
            | cons selector clauses =>
              simp only [Bool.and_eq_true] at hplain
              exact tailCase_means h htail hn hplain.1 hplain.2 hargs hlater _
          | letForm =>
            cases args with
            | nil => simp at hplain
            | cons bindings body =>
              cases bindings with
              | vector items vspan =>
                simp only [Bool.and_eq_true] at hplain
                rw [List.forall_mem_cons] at hargs
                exact tailLet_means h hstmt htail hplain.1 hplain.2
                  hargs.1.inVector hargs.2 hlater _
              | _ => simp at hplain
          | doForm => exact loopBody_means hstmt htail hplain hargs hlater
          | andForm => exact tailLogical_means h htail .and hplain hargs hlater _
          | orForm => exact tailLogical_means h htail .or hplain hargs hlater _
          | notForm | quoteForm | fnForm | loopForm | defForm | defnForm | recurForm =>
            exact hexit hplain
      | _ => exact hexit hplain
  | _ => exact hexit hplain

/-- **Plain tails end as they say.** A tail whose expressions need no helper function is lowered to
statements that leave the loop with the value of the form or jump as its self-call does. -/
theorem upTo_tail (V : Veil) (S : String → Bool) (hsymbol : V.names "Symbol" = false) (n : Nat) :
    MeansTail V S n (upTo n) := by
  induction n with
  | zero => exact fun L form _ hfits => absurd hfits.depth (Nat.not_lt_zero _)
  | succ n ih =>
    exact tailStep_meansTail (upTo_expr V S hsymbol n) (upTo_expr V S hsymbol (n + 1))
      (upTo_stmt V S hsymbol n) ih

end Lowering

end TailLisp
