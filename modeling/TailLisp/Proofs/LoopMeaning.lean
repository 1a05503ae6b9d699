import TailLisp.Proofs.TailMeaning

/-!
# TailLisp.Proofs.LoopMeaning

**Loops do what self-calls say.** The `while` loop of a body goes round exactly as often as the
reading passes through the body, and leaves the value of the reading in its result variable
(`Lowering.whileLoop_means`).

What remains after the tails of the body is what happens between two passes. A jump assigns the loop
variables, which are distinct from each other and from the temporaries that hold the arguments, and
binds the patterns again; then the names of the loop mean what the self-call gave them
(`Veil.Enters`).
-/

namespace TailLisp

open Veil Interp

namespace Veil

variable {V : Veil} {S : String → Bool} {L : LoopBody} {interp inner : Interp} {frames : List Nat}
  {enter : List Value → Exec Env} {σ : Store} {ρ : Env}

/-! ### Rounds -/

/-- The test of a loop reads the flag. -/
theorem flag_holds {flag : String} {b : Bool} (h : σ flag = some (.ofBool b)) :
    V.Sim frames σ (interp.eval frames (.load flag) >>= Exec.truth) (pure b)
      (Alike σ fun _ => True) := by
  have hreads : V.Reads interp frames σ (.load flag) (pure (.ofBool b)) := Reads.veiled none h
  have htest := Sim.truth hreads
  rwa [pure_bind, Lowering.truth_ofBool] at htest

/-- A loop whose flag is down is over. -/
theorem rounds_end {flag : String} {v : Value} {Q : Store → Signal → Value → Prop}
    (hflag : σ flag = some (.ofBool false)) (hQ : Q σ .done v) (body : Exec Signal) (left : Nat) :
    V.Sim frames σ (rounds (interp.eval frames (.load flag) >>= Exec.truth) body left) (pure v)
      Q := by
  cases left <;> exact Sim.known (flag_holds hflag) fun _ => .pure hQ

/-- The rounds of a loop are the passes through its body. -/
theorem rounds_pass {stmts : List Stmt} {body : List Form}
    (hbody : ∀ ρ σ, V.AtHead S L ρ σ → V.Sim frames σ (interp.execAll frames stmts)
      (Reading.tailBody interp inner frames enter body ρ) (V.Ends S L))
    (left : Nat) (hhead : V.AtHead S L ρ σ) :
    V.Sim frames σ (rounds (interp.eval frames (.load L.exit.flag) >>= Exec.truth)
        (interp.execAll frames stmts) left)
      (Reading.passes interp inner frames enter body left ρ)
      fun τ signal v => signal = .done ∧ τ L.exit.result = some v := by
  induction left generalizing ρ σ with
  | zero => exact Sim.known (flag_holds hhead.flag) fun _ => .fail
  | succ left ih =>
    refine Sim.known (flag_holds hhead.flag) fun _ => ?_
    refine (hbody ρ σ hhead).bind ?_
    intro τ signal outcome hends
    cases outcome with
    | exit v =>
      obtain ⟨rfl, hresult, hflag⟩ := hends
      exact rounds_end hflag ⟨rfl, hresult⟩ _ left
    | again ρ' =>
      obtain ⟨rfl, hhead'⟩ := hends
      exact ih hhead'

/-! ### Jumps -/

/-- Variables are assigned what temporaries hold. No variable is a temporary among them, so the
order of the assignments does not matter. -/
theorem Sim.assign_all {α : Type} (hscope : frames.head? = V.scope) {place : Option Span}
    {stmts : List Stmt} {m : Exec α} {Q : Store → Signal → α → Prop} {vars temps : List String}
    {vs : List Value} (hlength : temps.length = vars.length) (hnodup : vars.Nodup)
    (hveiled : ∀ x ∈ vars, V.names x = true) (hapart : ∀ t ∈ temps, t ∉ vars)
    (hvs : List.Forall₂ (fun t v => σ t = some v) temps vs)
    (h : ∀ τ, List.Forall₂ (fun x v => τ x = some v) vars vs → (∀ x, x ∉ vars → τ x = σ x) →
      V.Sim frames τ (interp.execAll frames stmts) m Q) :
    V.Sim frames σ (interp.execAll frames
      ((vars.zip temps).map (fun p => Stmt.assign p.1 (.load p.2) place) ++ stmts)) m Q := by
  induction vars generalizing temps vs σ with
  | nil =>
    obtain rfl : temps = [] := List.length_eq_zero_iff.mp hlength
    cases hvs
    exact h σ .nil fun _ _ => rfl
  | cons x vars ih =>
    cases hvs with
    | nil => simp at hlength
    | @cons t v temps vs hv hvs =>
      obtain ⟨hx, hnodup⟩ := List.nodup_cons.mp hnodup
      rw [List.forall_mem_cons] at hveiled hapart
      have hne : ∀ t ∈ temps, t ≠ x := fun t ht heq => hapart.2 t ht (heq ▸ List.mem_cons_self)
      refine Sim.assign_known hscope hveiled.1 (Reads.veiled none hv) ?_
      have hvs' : List.Forall₂ (fun t v' => σ.set x v t = some v') temps vs := by
        rw [List.forall₂_iff_get] at hvs ⊢
        refine ⟨hvs.1, fun i hi hi' => ?_⟩
        rw [Store.set, if_neg (hne _ (List.get_mem temps ⟨i, hi⟩))]
        exact hvs.2 i hi hi'
      refine ih (by simpa using hlength) hnodup hveiled.2
        (fun t ht hmem => hapart.2 t ht (List.mem_cons_of_mem x hmem)) hvs' ?_
      intro τ hτ hkept
      refine h τ (.cons ?_ hτ) fun y hy => ?_
      · rw [hkept x hx]
        simp [Store.set]
      · rw [List.mem_cons, not_or] at hy
        rw [hkept y hy.2]
        simp [Store.set, hy.1]

/-- What a jump does after its arguments are in the variables of the loop: the patterns are bound
again, and then the names of the loop mean what `enter` says. -/
structure Enters (V : Veil) (S : String → Bool) (c : Context) (target : LoopTarget)
    (interp : Interp) (frames : List Nat) (enter : List Value → Exec Env) : Prop where
  nodup : target.vars.Nodup
  veiled : ∀ x ∈ target.vars, V.names x = true
  made : ∀ x ∈ target.vars, ¬c.Future x
  rebinds : ∀ ⦃σ : Store⦄ ⦃vs : List Value⦄ (outer : Option Span),
    List.Forall₂ (fun x v => σ x = some v) target.vars vs →
    V.Sim frames σ (interp.execAll frames (Binding.assigns outer target.rebind)) (enter vs)
      fun τ signal ρ => signal = .done ∧ V.Related S c ρ τ ∧ ∀ x, c.Future x → τ x = σ x

end Veil

/-- The loop over a target whose variables are bound in the context `c`: the flag and the result
are the next two temporaries. -/
def LoopBody.of (c : Context) (target : LoopTarget) (h : target.selfCall = "recur") :
    LoopBody where
  start := ((c.fresh "continue_").2.fresh "result_").2
  exit := ⟨(c.fresh "continue_").1, ((c.fresh "continue_").2.fresh "result_").1⟩
  target := { target with
    exit := some ⟨(c.fresh "continue_").1, ((c.fresh "continue_").2.fresh "result_").1⟩ }
  hasExit := rfl
  onRecur := h

namespace LoopBody

variable (c : Context) {target : LoopTarget} (h : target.selfCall = "recur")

theorem of_passes : c.Passes (of c target h).start :=
  (c.passes_fresh "continue_").trans (Context.passes_fresh _ "result_")

theorem of_flag : c.Makes (c.fresh "continue_").2 (of c target h).exit.flag :=
  c.makes_fresh "continue"

theorem of_result :
    (c.fresh "continue_").2.Makes (of c target h).start (of c target h).exit.result :=
  (c.fresh "continue_").2.makes_fresh "result"

theorem of_flag_made : c.Makes (of c target h).start (of c target h).exit.flag :=
  (of_flag c h).mono (.refl c) (Context.later_fresh _ "result_")

theorem of_result_made : c.Makes (of c target h).start (of c target h).exit.result :=
  (of_result c h).mono (c.later_fresh "continue_") (.refl _)

theorem of_ne : (of c target h).exit.result ≠ (of c target h).exit.flag := fun heq =>
  (of_flag c h).2 (heq ▸ (of_result c h).1)

end LoopBody

namespace Veil

variable {V : Veil} {S : String → Bool} {interp inner : Interp} {frames : List Nat}
  {enter : List Value → Exec Env} {σ : Store} {ρ : Env} {c : Context} {target : LoopTarget}
  {hrecur : target.selfCall = "recur"}

/-- A loop that has been entered is in the state that its passes start from. -/
theorem Enters.looping (h : V.Enters S c target interp frames enter)
    (hruns : V.Runs interp inner frames)
    (hcovers : V.Covers c (LoopBody.of c target hrecur).start) :
    V.Looping S (LoopBody.of c target hrecur) interp inner frames enter where
  runs := hruns
  result := hcovers _ (LoopBody.of_result_made c hrecur)
  flag := hcovers _ (LoopBody.of_flag_made c hrecur)
  ne := LoopBody.of_ne c hrecur
  flagMade := (LoopBody.of_flag_made c hrecur).2
  jump := by
    intro σ temps vs place outer hlength hvs hfuture hflag
    have hpasses := LoopBody.of_passes c hrecur
    unfold LoopBody.jumpStmts
    rw [List.append_assoc]
    refine Sim.assign_all hruns.scope hlength h.nodup h.veiled ?_ hvs fun τ hτ hkept => ?_
    · exact fun t ht hvar => h.made t hvar (hpasses.later.future (hfuture t ht))
    · refine (h.rebinds outer hτ).append ?_
      rintro υ ρ ⟨hρ, hothers⟩
      have hnext : interp.execAll frames [.next place] = pure .next := by
        simp [execAll_singleton, exec]
      have hfuture := (LoopBody.of_flag c hrecur).1
      rw [hnext]
      refine .pure ⟨rfl, hρ.mono hpasses.later hpasses.scopes (.refl c υ), ?_⟩
      rw [hothers _ hfuture, hkept _ fun hvar => h.made _ hvar hfuture, hflag]

end Veil

theorem Form.pairUp_of_arePlainLoopPairs {items : List Form}
    (h : Form.arePlainLoopPairs items = true) : ∃ pairs, Form.pairUp items = some pairs := by
  fun_induction Form.pairUp items with
  | case1 => exact ⟨[], rfl⟩
  | case2 => simp [Form.arePlainLoopPairs] at h
  | case3 binder init rest ih =>
    simp only [Form.arePlainLoopPairs, Bool.and_eq_true] at h
    obtain ⟨pairs, hpairs⟩ := ih h.2
    exact ⟨(binder, init) :: pairs, by rw [hpairs]; rfl⟩

namespace Lowering

variable {V : Veil} {S : String → Bool} {n : Nat} {lowering : Lowering} {c c' : Context}

/-! ### The `while` loop -/

/-- The statements of a loop after its binders are bound. -/
def roundStmts (L : LoopBody) (stmts : List Stmt) (place : Option Span) : List Stmt :=
  [.assign L.exit.flag (.constant (.bool true)) place, .assign L.exit.result (.constant .nil) place,
    .loop (.load L.exit.flag) stmts place]

/-- The statements of a loop pass through its body until the reading exits. -/
theorem roundStmts_mean {target : LoopTarget} {hrecur : target.selfCall = "recur"}
    {interp inner : Interp} {frames : List Nat} {enter : List Value → Exec Env} {ρ : Env}
    {σ : Store} {body : List Form} {stmts : List Stmt}
    (hbody : TailMeans V S (LoopBody.of c target hrecur) (fun _ => True)
      (LoopBody.of c target hrecur).start c' stmts fun self inner frames enter ρ =>
        Reading.tailBody self inner frames enter body ρ)
    (hcovers : V.Covers c c') (henters : V.Enters S c target interp frames enter)
    (hruns : V.Runs interp inner frames) (hρ : V.Related S c ρ σ) (place : Option Span) :
    V.Sim frames σ
      (interp.execAll frames (roundStmts (LoopBody.of c target hrecur) stmts place))
      (Reading.passes interp inner frames enter body interp.loopLimit ρ) fun τ signal v =>
        signal = .done ∧ τ (LoopBody.of c target hrecur).exit.result = some v := by
  have hpasses := LoopBody.of_passes c hrecur
  have hlater := hbody.passes.later
  have hloop : V.Looping S (LoopBody.of c target hrecur) interp inner frames enter :=
    henters.looping hruns (hcovers.mono (.refl c) hlater)
  refine Sim.assign_known hruns.scope hloop.flag (.const none (.bool true)) ?_
  refine Sim.assign_known hruns.scope hloop.result (.const none .nil) ?_
  have hhead : V.AtHead S (LoopBody.of c target hrecur) ρ
      ((σ.set (LoopBody.of c target hrecur).exit.flag (.const (.bool true))).set
        (LoopBody.of c target hrecur).exit.result (.const .nil)) := by
    refine ⟨hρ.mono hpasses.later hpasses.scopes ?_, ?_⟩
    · exact (Context.Fills.set (LoopBody.of_flag c hrecur) _).keeps.trans
        (c.later_fresh "continue_") (Context.Fills.set (LoopBody.of_result c hrecur) _).keeps
    · simp [Store.set, hloop.ne.symm]
      rfl
  rw [execAll_singleton]
  exact rounds_pass (fun ρ σ hhead => hbody.runs (hcovers.mono hpasses.later (.refl c')) hloop
    hhead.related hhead.flag trivial) interp.loopLimit hhead

/-- The statements of a loop assign the names of the loop and temporaries of their own. -/
theorem assigns_roundStmts {target : LoopTarget} (hrecur : target.selfCall = "recur")
    {stmts : List Stmt} {P : Store → Prop}
    {m : Interp → Interp → List Nat → (List Value → Exec Env) → Env → Exec Reading.Outcome}
    (hbody : TailMeans V S (LoopBody.of c target hrecur) P (LoopBody.of c target hrecur).start
      c' stmts m) (place : Option Span) :
    c.Assigns c' (target.vars ++ target.rebind.map (·.target))
      (roundStmts (LoopBody.of c target hrecur) stmts place) := by
  have hlater := hbody.passes.later
  have hflag := (LoopBody.of_flag_made c hrecur).mono (.refl c) hlater
  have hresult := (LoopBody.of_result_made c hrecur).mono (.refl c) hlater
  intro x hx
  have hmem : x = (LoopBody.of c target hrecur).exit.flag ∨
      x = (LoopBody.of c target hrecur).exit.result ∨ x ∈ Stmt.assignedOfAll stmts := by
    simpa [roundStmts, Stmt.assignedOfAll, Stmt.assigned] using hx
  rcases hmem with rfl | rfl | hmem
  · exact .inr hflag
  · exact .inr hresult
  · rcases hbody.assigns x hmem with hown | hmade
    · simp only [LoopBody.own, List.mem_cons] at hown
      rcases hown with rfl | rfl | hown
      · exact .inr hresult
      · exact .inr hflag
      · exact .inl hown
    · exact .inr (hmade.mono (LoopBody.of_passes c hrecur).later (.refl c'))

/-- **A body becomes a `while` loop.** After the bindings that the target asks for, the loop passes
through the body until the reading exits, and the result is in the result variable. -/
theorem whileLoop_means (hstmt : lowering.MeansStmt V S n) (htail : lowering.MeansTail V S n)
    {target : LoopTarget} (hrecur : target.selfCall = "recur") {body : List Form}
    (hplain : Form.isPlainTailBody target.vars.length body = true)
    (hfits : ∀ form ∈ body, form.Fits S n) (span : Option Span) (c : Context) :
    ∃ stmts c', whileLoop lowering target body span c =
        .ok (Binding.assigns span target.inits ++
          roundStmts (LoopBody.of c target hrecur) stmts (span.filter Span.isReal),
          (LoopBody.of c target hrecur).exit) c' ∧
      c.Passes c' ∧ c.Makes c' (LoopBody.of c target hrecur).exit.result ∧
      c.Assigns c' (target.vars ++ target.rebind.map (·.target))
        (roundStmts (LoopBody.of c target hrecur) stmts (span.filter Span.isReal)) ∧
      (V.Covers c c' → ∀ ⦃interp inner : Interp⦄ ⦃frames : List Nat⦄ ⦃enter : List Value → Exec Env⦄
        ⦃ρ : Env⦄ ⦃σ : Store⦄, V.Enters S c target interp frames enter →
        V.Runs interp inner frames → V.Related S c ρ σ →
        V.Sim frames σ (interp.execAll frames
            (roundStmts (LoopBody.of c target hrecur) stmts (span.filter Span.isReal)))
          (Reading.passes interp inner frames enter body interp.loopLimit ρ) fun τ signal v =>
            signal = .done ∧ τ (LoopBody.of c target hrecur).exit.result = some v) := by
  have hpasses := LoopBody.of_passes c hrecur
  obtain ⟨stmts, c', hrun, hbody⟩ := loopBody_means (L := LoopBody.of c target hrecur) hstmt htail
    hplain hfits (.refl _)
  have hreport : c'.Passes (c'.report (.loweredLoop target.vars (c.fresh "continue_").1)) :=
    ⟨⟨rfl, Nat.le_refl _, rfl⟩, rfl⟩
  have hall := (hpasses.trans hbody.passes).trans hreport
  refine ⟨stmts, _, ?_, hall, (LoopBody.of_result_made c hrecur).mono (.refl c)
    (hbody.passes.trans hreport).later, ?_, ?_⟩
  · have hflag : Compile.fresh "continue_" c =
        .ok (c.fresh "continue_").1 (c.fresh "continue_").2 := rfl
    have hresult : Compile.fresh "result_" (c.fresh "continue_").2 =
        .ok ((c.fresh "continue_").2.fresh "result_").1
          ((c.fresh "continue_").2.fresh "result_").2 := rfl
    unfold whileLoop
    rw [Compile.bind_eq hflag, Compile.bind_eq hresult]
    exact (Compile.bind_eq (Compile.collect_eq hrun hbody.passes.later.helpers)).trans rfl
  · exact (assigns_roundStmts hrecur hbody _).mono (.refl c) hreport.later
  · intro hcovers interp inner frames enter ρ σ henters hruns hρ
    exact roundStmts_mean hbody (hcovers.mono (.refl c) hreport.later) henters hruns hρ _

/-! ### The binders of a loop -/

/-- One binder of a loop and its initializer are added to the target. -/
def loopBinder (self : Lowering) (mode : BindMode) (target : LoopTarget) :
    Form × Form → Compile LoopTarget
  | (binder, init) => do
    let value ← self.expr init
    match binder with
    | .symbol s =>
      let var ← Compile.bind mode (Name.spell s.name)
      return { target with
        vars := target.vars ++ [var]
        inits := target.inits ++ [⟨var, value, binder.span?⟩] }
    | .vector .. =>
      let var ← Compile.fresh "loop_"
      let bindings ← expand self.expr mode binder (.load var) []
      return { target with
        vars := target.vars ++ [var]
        inits := target.inits ++ [⟨var, value, binder.span?⟩] ++ bindings
        rebind := target.rebind ++ bindings }
    | _ => Compile.fail (.ofForm .loopBinder binder)

/-- The target of a loop is built binder by binder. -/
theorem loopTarget_eq (self : Lowering) (mode : BindMode) (bindings : Form) :
    loopTarget self mode bindings = (do
      let pairs ← bindingPairs .loopForm bindings
      pairs.foldlM (loopBinder self mode) {}) := rfl

/-- The binders of a loop are bound by `inits` to the values of their initializers, and by `rebind`
to what the variables hold. -/
structure LoopOpens (V : Veil) (S : String → Bool) (c c' : Context) (items : List Form)
    (vars : List String) (inits rebind : List Binding) : Prop where
  declares : c.Declares c'
  length : vars.length = items.length / 2
  makes : ∀ x ∈ vars, c.Makes c' x
  nodup : vars.Nodup
  starts : V.Covers c c' → ∀ ⦃self inner : Interp⦄ ⦃frames : List Nat⦄ ⦃ρ : Env⦄ ⦃σ : Store⦄
    (outer : Option Span), V.Runs self inner frames → V.Related S c ρ σ →
    V.Sim frames σ (self.execAll frames (Binding.assigns outer inits))
      (Reading.startLoop self inner frames items ρ) (V.Bound S c c' σ)
  enters : V.Covers c c' → ∀ ⦃self inner : Interp⦄ ⦃frames : List Nat⦄ ⦃ρ : Env⦄ ⦃σ : Store⦄
    ⦃vs : List Value⦄ (outer : Option Span), V.Runs self inner frames → V.Related S c ρ σ →
    List.Forall₂ (fun x v => σ x = some v) vars vs →
    V.Sim frames σ (self.execAll frames (Binding.assigns outer rebind))
      (Reading.enterLoop self inner frames items vs ρ) (V.Bound S c c' σ)

theorem LoopOpens.nil (hopen : c.scopes ≠ []) : LoopOpens V S c c [] [] [] [] where
  declares := ⟨.refl c, hopen, rfl⟩
  length := rfl
  makes := by simp
  nodup := .nil
  starts := fun _ _ _ _ _ σ _ _ hρ => .pure ⟨rfl, hρ, .refl c c σ⟩
  enters := by
    intro _ self inner frames ρ σ vs outer _ hρ hvs
    cases hvs
    exact .pure ⟨rfl, hρ, .refl c c σ⟩

/-- A binder before others. The variables of the others are made later, so binding the first one
again leaves them alone. -/
theorem LoopOpens.cons {c₁ : Context} {binder init : Form} {items : List Form} {var : String}
    {vars : List String} {inits inits' rebind rebind' : List Binding}
    (h : LoopOpens V S c c₁ [binder, init] [var] inits rebind)
    (h' : LoopOpens V S c₁ c' items vars inits' rebind') :
    LoopOpens V S c c' (binder :: init :: items) (var :: vars) (inits ++ inits')
      (rebind ++ rebind') := by
  have hlater := h.declares.later
  have hlater' := h'.declares.later
  have hbound {σ τ υ : Store} {signal : Signal} {ρ : Env} (hfills : c.Fills c₁ σ τ)
      (hends : V.Bound S c₁ c' τ υ signal ρ) : V.Bound S c c' σ υ signal ρ :=
    ⟨hends.1, hends.2.1, hfills.trans hends.2.2 hlater hlater'⟩
  refine ⟨h.declares.trans h'.declares, ?_, ?_, ?_, ?_, ?_⟩
  · simp only [List.length_cons, h'.length]
    omega
  · refine List.forall_mem_cons.mpr ⟨(h.makes var List.mem_cons_self).mono (.refl c) hlater', ?_⟩
    exact fun x hx => (h'.makes x hx).mono hlater (.refl c')
  · refine List.nodup_cons.mpr ⟨fun hmem => ?_, h'.nodup⟩
    exact (h.makes var List.mem_cons_self).2 (h'.makes var hmem).1
  · intro hcovers self inner frames ρ σ outer hruns hρ
    have hsplit : Reading.startLoop self inner frames (binder :: init :: items) ρ =
        Reading.startLoop self inner frames [binder, init] ρ >>=
          Reading.startLoop self inner frames items := by
      simp [Reading.startLoop]
    rw [hsplit, Binding.assigns, List.map_append]
    refine (h.starts (hcovers.mono (.refl c) hlater') outer hruns hρ).append ?_
    rintro τ ρ' ⟨hρ', hfills⟩
    exact (h'.starts (hcovers.mono hlater (.refl c')) outer hruns hρ').imp
      fun _ _ _ => hbound hfills
  · intro hcovers self inner frames ρ σ vs outer hruns hρ hvs
    cases hvs with
    | @cons _ v _ vs hv hvs =>
      have hsplit : Reading.enterLoop self inner frames (binder :: init :: items) (v :: vs) ρ =
          Reading.enterLoop self inner frames [binder, init] [v] ρ >>=
            Reading.enterLoop self inner frames items vs := by
        simp [Reading.enterLoop]
      rw [hsplit, Binding.assigns, List.map_append]
      refine (h.enters (hcovers.mono (.refl c) hlater') outer hruns hρ (.cons hv .nil)).append ?_
      rintro τ ρ' ⟨hρ', hfills⟩
      have hvs' : List.Forall₂ (fun x v => τ x = some v) vars vs := by
        rw [List.forall₂_iff_get] at hvs ⊢
        refine ⟨hvs.1, fun i hi hi' => ?_⟩
        rw [hfills _ fun hmade => hmade.2 (h'.makes _ (List.get_mem vars ⟨i, hi⟩)).1]
        exact hvs.2 i hi hi'
      exact (h'.enters (hcovers.mono hlater (.refl c')) outer hruns hρ' hvs').imp
        fun _ _ _ => hbound hfills

/-- A variable that is a name gets its value first and is in scope after that. -/
theorem loopBinder_opens_symbol (h : lowering.MeansPlain V S n) {init : Form}
    (hinit : init.isPlain = true) (hfits : init.Fits S n) (hopen : c.scopes ≠ []) (s : Symbol)
    (target : LoopTarget) :
    ∃ var inits c', loopBinder lowering .fresh target (.symbol s, init) c =
        .ok { target with vars := target.vars ++ [var], inits := target.inits ++ inits } c' ∧
      LoopOpens V S c c' [.symbol s, init] [var] inits [] := by
  obtain ⟨e, he, hmeant⟩ := h init hinit hfits c
  have hdeclares := (c.fresh (Name.spell s.name ++ "_")).2.declares_declare hopen
    (Name.spell s.name) (c.fresh (Name.spell s.name ++ "_")).1
  have hmakes := (c.makes_fresh (Name.spell s.name)).mono (.refl c) hdeclares.later
  refine ⟨(c.fresh (Name.spell s.name ++ "_")).1,
    [⟨(c.fresh (Name.spell s.name ++ "_")).1, e, (Form.symbol s).span?⟩], _, ?_,
    ⟨(c.later_fresh _).trans hdeclares.later, hdeclares.isOpen, hdeclares.outer⟩, by simp,
    by simpa using hmakes, by simp, ?_, ?_⟩
  · simp only [loopBinder]
    rw [Compile.bind_eq he]
    rfl
  · intro hcovers self inner frames ρ σ outer hruns hρ
    simp only [Reading.startLoop, Reading.bindLoopVar, pure_bind]
    refine Sim.assign_cons hruns.scope (hcovers _ hmakes) (hmeant hruns.nests.insulated hρ) ?_
    exact fun v _ => .pure ⟨rfl, hρ.bind hopen _ v, .set hmakes v⟩
  · intro hcovers self inner frames ρ σ vs outer hruns hρ hvs
    obtain ⟨v, others, hv, hothers, rfl⟩ := List.forall₂_cons_left_iff.mp hvs
    simp only [Reading.enterLoop, Reading.bindLoopVar, pure_bind]
    have hρ' := hρ.mono (c.later_fresh (Name.spell s.name ++ "_")) rfl (.refl c σ)
    exact .pure ⟨rfl, hρ'.declare hopen hv (c.not_future_fresh _), .refl c _ σ⟩

/-- A pattern takes its value through a temporary, and a jump binds it again. -/
theorem loopBinder_opens_vector (h : lowering.MeansPlain V S n) {items : List Form} {span : Span}
    {init : Form} (hbinder : Form.isPattern (.vector items span) = true)
    (hinit : init.isPlain = true) (hbinderFits : Form.Fits S n (.vector items span))
    (hfits : init.Fits S n) (hopen : c.scopes ≠ []) (target : LoopTarget) :
    ∃ var inits rebind c', loopBinder lowering .fresh target (.vector items span, init) c =
        .ok { target with
          vars := target.vars ++ [var]
          inits := target.inits ++ inits
          rebind := target.rebind ++ rebind } c' ∧
      LoopOpens V S c c' [.vector items span, init] [var] inits rebind := by
  obtain ⟨e, he, hmeant⟩ := h init hinit hfits c
  have hlater := c.later_fresh "loop_"
  obtain ⟨bindings, c', hexpand, hdeclares, -, hsim⟩ := expand_binds (c := (c.fresh "loop_").2) h
    (Form.binds_isDefault hbinder hbinderFits.names) hbinderFits.depth hopen
    (.load (c.fresh "loop_").1) []
  have hmade : c.Makes (c.fresh "loop_").2 (c.fresh "loop_").1 := c.makes_fresh "loop"
  have hmakes := hmade.mono (.refl c) hdeclares.later
  have hload {σ : Store} {v : Value} (hv : σ (c.fresh "loop_").1 = some v) {self : Interp}
      {frames : List Nat} (τ : Store) (hτ : (c.fresh "loop_").2.Keeps σ τ) :
      V.Reads self frames τ (.load (c.fresh "loop_").1) (pure v) :=
    .veiled none (by rw [hτ _ hmade.2, hv])
  refine ⟨(c.fresh "loop_").1, ⟨(c.fresh "loop_").1, e, some span⟩ :: bindings, bindings, c', ?_,
    ⟨hlater.trans hdeclares.later, hdeclares.isOpen, hdeclares.outer⟩, by simp,
    by simpa using hmakes, by simp, ?_, ?_⟩
  · have hfresh : Compile.fresh "loop_" c = .ok (c.fresh "loop_").1 (c.fresh "loop_").2 := rfl
    simp only [loopBinder]
    rw [Compile.bind_eq he, Compile.bind_eq hfresh, Compile.bind_eq hexpand]
    simp only [List.nil_append, List.append_assoc, List.singleton_append]
    rfl
  · intro hcovers self inner frames ρ σ outer hruns hρ
    simp only [Reading.startLoop, Reading.bindLoopVar, bind_pure]
    refine Sim.assign_cons hruns.scope (hcovers _ hmakes) (hmeant hruns.nests.insulated hρ) ?_
    intro v _
    have hbind := hsim (hcovers.mono hlater (.refl c')) outer hruns (hρ.fresh "loop" v)
      (hload (v := v) (by simp [Store.set]))
    rw [pure_bind] at hbind
    refine hbind.imp ?_
    rintro τ signal ρ' ⟨rfl, hρ', hfills⟩
    exact ⟨rfl, hρ', (Context.Fills.set hmade v).trans hfills hlater hdeclares.later⟩
  · intro hcovers self inner frames ρ σ vs outer hruns hρ hvs
    obtain ⟨v, others, hv, hothers, rfl⟩ := List.forall₂_cons_left_iff.mp hvs
    simp only [Reading.enterLoop, Reading.bindLoopVar, bind_pure]
    have hbind := hsim (hcovers.mono hlater (.refl c')) outer hruns
      (hρ.mono hlater rfl (.refl c σ)) (hload hv)
    rw [pure_bind] at hbind
    refine hbind.imp ?_
    rintro τ signal ρ' ⟨rfl, hρ', hfills⟩
    exact ⟨rfl, hρ', hfills.mono hlater (.refl c')⟩

theorem loopBinder_opens (h : lowering.MeansPlain V S n) {binder init : Form}
    (hbinder : binder.isLoopBinder = true) (hinit : init.isPlain = true)
    (hbinderFits : binder.Fits S n) (hfits : init.Fits S n) (hopen : c.scopes ≠ [])
    (target : LoopTarget) :
    ∃ var inits rebind c', loopBinder lowering .fresh target (binder, init) c =
        .ok { target with
          vars := target.vars ++ [var]
          inits := target.inits ++ inits
          rebind := target.rebind ++ rebind } c' ∧
      LoopOpens V S c c' [binder, init] [var] inits rebind := by
  match binder with
  | .symbol s =>
    obtain ⟨var, inits, c', hrun, hopens⟩ := loopBinder_opens_symbol h hinit hfits hopen s target
    exact ⟨var, inits, [], c', by rw [hrun, List.append_nil], hopens⟩
  | .vector items span =>
    exact loopBinder_opens_vector h hbinder hinit hbinderFits hfits hopen target
  | .const _ | .keyword _ | .list _ _ | .map _ _ => simp [Form.isLoopBinder] at hbinder

/-- The bindings of a loop are sequential. The induction is on the pairs. -/
theorem loopBinders_open (h : lowering.MeansPlain V S n) {items : List Form}
    {pairs : List (Form × Form)} (hpairs : Form.pairUp items = some pairs)
    (hplain : Form.arePlainLoopPairs items = true) (hfits : ∀ item ∈ items, item.Fits S n)
    (hopen : c.scopes ≠ []) (target : LoopTarget) :
    ∃ vars inits rebind c', pairs.foldlM (loopBinder lowering .fresh) target c =
        .ok { target with
          vars := target.vars ++ vars
          inits := target.inits ++ inits
          rebind := target.rebind ++ rebind } c' ∧
      LoopOpens V S c c' items vars inits rebind := by
  fun_induction Form.pairUp items generalizing pairs c target with
  | case1 =>
    cases hpairs
    exact ⟨[], [], [], c, by simp only [List.append_nil]; rfl, .nil hopen⟩
  | case2 => cases hpairs
  | case3 binder init rest ih =>
    obtain ⟨others, hothers, rfl⟩ := Option.map_eq_some_iff.mp hpairs
    simp only [List.forall_mem_cons] at hfits
    simp only [Form.arePlainLoopPairs, Bool.and_eq_true] at hplain
    obtain ⟨var, inits, rebind, c₁, hfirst, hopens⟩ :=
      loopBinder_opens h hplain.1.1 hplain.1.2 hfits.1 hfits.2.1 hopen target
    obtain ⟨vars, inits', rebind', c', hrest, hopens'⟩ :=
      ih hothers hplain.2 hfits.2.2 hopens.declares.isOpen _
    refine ⟨var :: vars, inits ++ inits', rebind ++ rebind', c', ?_, hopens.cons hopens'⟩
    rw [List.foldlM_cons, Compile.bind_eq hfirst, hrest]
    simp only [List.append_assoc, List.singleton_append]

/-! ### Parameters that are names -/

/-- The names are bound as they are, and nothing else changes. -/
structure Names (c c' : Context) (xs : List String) : Prop where
  declares : c.Declares c'
  counter : c'.counter = c.counter
  resolve : ∀ y, c'.resolve y = if y ∈ xs then y else c.resolve y

theorem Names.nil (hopen : c.scopes ≠ []) : Names c c [] :=
  ⟨⟨.refl c, hopen, rfl⟩, rfl, by simp⟩

theorem Names.declare (hopen : c.scopes ≠ []) (x : String) : Names c (c.declare x x) [x] := by
  refine ⟨c.declares_declare hopen x x, ?_, fun y => ?_⟩
  · unfold Context.declare
    split <;> rfl
  · rw [Context.resolve_declare hopen]
    by_cases hyx : y = x <;> simp [hyx]

/-- Two rows of names that are declared one after the other. -/
theorem Names.append {c₁ : Context} {xs ys : List String} (h : Names c c₁ xs)
    (h' : Names c₁ c' ys) : Names c c' (xs ++ ys) := by
  refine ⟨h.declares.trans h'.declares, h'.counter.trans h.counter, fun y => ?_⟩
  rw [h'.resolve, h.resolve]
  by_cases hx : y ∈ xs <;> by_cases hy : y ∈ ys <;> simp [hx, hy]

namespace Params

/-- A parameter after which there are no patterns is a name. -/
theorem bindParam_names {p : Params} {form : Form} {x : String} {patterns : List (Form × String)}
    {c c' : Context} (h : p.bindParam form c = .ok (x, patterns) c') (hopen : c.scopes ≠ []) :
    c'.scopes ≠ [] ∧ (patterns = [] → p.patterns = [] ∧ Names c c' [x]) := by
  unfold bindParam at h
  obtain ⟨pattern, c₁, hpattern, h⟩ := Compile.bind_ok h
  obtain rfl : c₁ = c := by
    cases hform : Pattern.ofForm form with
    | error fault =>
      rw [hform] at hpattern
      cases hpattern
    | ok pattern' =>
      rw [hform] at hpattern
      cases hpattern
      rfl
  cases pattern with
  | name s =>
    obtain ⟨hpair, rfl⟩ := EStateM.Result.ok.inj h
    obtain ⟨rfl, rfl⟩ := Prod.mk.inj hpair
    have hnames : Names c₁ (c₁.declare (Name.spell s.name) (Name.spell s.name)) _ :=
      .declare hopen _
    exact ⟨hnames.declares.isOpen, fun hpatterns => ⟨hpatterns, hnames⟩⟩
  | sequence _ | table _ =>
    obtain ⟨hpair, rfl⟩ := EStateM.Result.ok.inj h
    obtain ⟨-, rfl⟩ := Prod.mk.inj hpair
    exact ⟨hopen, by simp⟩

theorem addParam_names {p q : Params} {form : Form} {c c' : Context}
    (h : p.addParam form c = .ok q c') (hopen : c.scopes ≠ []) :
    q.rest = p.rest ∧ c'.scopes ≠ [] ∧ (q.patterns = [] →
      p.patterns = [] ∧ ∃ x, q.names = p.names ++ [x] ∧ Names c c' [x]) := by
  obtain ⟨⟨x, patterns⟩, c₁, hbind, h⟩ := Compile.bind_ok h
  obtain ⟨rfl, rfl⟩ := Compile.pure_ok h
  obtain ⟨hopen', hnames⟩ := bindParam_names hbind hopen
  exact ⟨rfl, hopen', fun hq => ⟨(hnames hq).1, x, rfl, (hnames hq).2⟩⟩

theorem addRest_names {p q : Params} {form : Form} {items : List Form} {c c' : Context}
    (h : p.addRest form items c = .ok q c') (hq : q.patterns = []) (hopen : c.scopes ≠ []) :
    p.patterns = [] ∧ ∃ x, q.names = p.names ∧ q.rest = some x ∧ Names c c' [x] := by
  cases items with
  | cons next items => cases h
  | nil =>
    obtain ⟨⟨x, patterns⟩, c₁, hbind, h⟩ := Compile.bind_ok h
    obtain ⟨rfl, rfl⟩ := Compile.pure_ok h
    obtain ⟨hp, hnames⟩ := (bindParam_names hbind hopen).2 hq
    exact ⟨hp, x, rfl, rfl, hnames⟩

/-- Parameters without patterns are names, which are bound as they are. -/
theorem addAll_names {p q : Params} {items : List Form} {c c' : Context}
    (h : p.addAll items c = .ok q c') (hq : q.patterns = []) (hp : p.rest = none)
    (hopen : c.scopes ≠ []) :
    p.patterns = [] ∧ ∃ xs, q.vars = p.vars ++ xs ∧ Names c c' xs := by
  induction items generalizing p c with
  | nil =>
    obtain ⟨rfl, rfl⟩ := Compile.pure_ok h
    exact ⟨hq, [], by simp, .nil hopen⟩
  | cons item items ih =>
    have hrest {form : Form} {items : List Form} (h : p.addRest form items c = .ok q c') :
        p.patterns = [] ∧ ∃ xs, q.vars = p.vars ++ xs ∧ Names c c' xs := by
      obtain ⟨hp', x, hnames, hrest, hx⟩ := addRest_names h hq hopen
      exact ⟨hp', [x], by simp [vars, hnames, hrest, hp], hx⟩
    have hparam {form : Form} (h : (p.addParam form >>= fun p => p.addAll items) c = .ok q c') :
        p.patterns = [] ∧ ∃ xs, q.vars = p.vars ++ xs ∧ Names c c' xs := by
      obtain ⟨p₁, c₁, hparam, h⟩ := Compile.bind_ok h
      obtain ⟨hrest₁, hopen₁, hnames⟩ := addParam_names hparam hopen
      obtain ⟨hpatterns, xs, hvars, hxs⟩ := ih h (hrest₁.trans hp) hopen₁
      obtain ⟨hp', x, hx, hnames⟩ := hnames hpatterns
      refine ⟨hp', x :: xs, ?_, hnames.append hxs⟩
      rw [hvars]
      simp [vars, hx, hrest₁, hp]
    cases item with
    | symbol s =>
      simp only [addAll] at h
      split at h
      · split at h
        · cases items with
          | nil => cases h
          | cons param items => exact hrest h
        · exact hrest h
      · exact hparam h
    | _ => exact hparam h

/-- Parameters without patterns are the names of the function, declared in order. -/
theorem ofForm_names {q : Params} {form : Form} {c c' : Context} (h : ofForm form c = .ok q c')
    (hq : q.patterns = []) (hopen : c.scopes ≠ []) : Names c c' q.vars := by
  cases form with
  | vector items span =>
    obtain ⟨-, xs, hvars, hnames⟩ := addAll_names h hq rfl hopen
    rwa [hvars]
  | _ => cases h

end Params

end Lowering

end TailLisp
