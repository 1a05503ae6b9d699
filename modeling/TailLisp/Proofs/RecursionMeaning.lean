import TailLisp.Proofs.LoopMeaning

/-!
# TailLisp.Proofs.RecursionMeaning

**Self-calls mean recursion.** A loop in statement position, and a function whose body has
self-calls, are lowered to a `while` loop that ends with the value which passing through the body
again and again has (`Lowering.selfCalls_mean_recursion`).

For a function the variables of the loop are its parameters, which live in the frame of the call.
The reading has no variables at all there, so the veil is over everything in that frame.
-/

namespace TailLisp

open Veil Interp

namespace Veil

variable {V : Veil} {α β : Type}

/-- Two runs end alike: with the same failure, or with results that `Q` relates. The first one's
world, without the veiled variables, is that of the second. -/
def Agree (V : Veil) (Q : World → α → β → Prop) :
    EStateM.Result Failure World α → EStateM.Result Failure World β → Prop
  | .ok a W, .ok b W' => V.hide W = W' ∧ Q W a b
  | .error e W, .error e' W' => e = e' ∧ V.hide W = W'
  | _, _ => False

/-- If the second run succeeds, so does the first. -/
theorem Agree.ok {Q : World → α → β → Prop} {result : EStateM.Result Failure World α} {b : β}
    {W' : World} (h : V.Agree Q result (.ok b W')) :
    ∃ a W, result = .ok a W ∧ V.hide W = W' ∧ Q W a b := by
  cases result with
  | error e W => exact h.elim
  | ok a W => exact ⟨a, W, rfl, h⟩

/-- A simulation, seen from the worlds that it starts and ends in. -/
theorem Sim.agree {frames : List Nat} {σ : Store} {m : Exec α} {m' : Exec β}
    {Q : Store → α → β → Prop} {R : World → α → β → Prop} {W : World} (h : V.Sim frames σ m m' Q)
    (hready : V.Ready frames W) (hσ : V.hidden W = σ)
    (hR : ∀ W' a b, V.Ready frames W' → Q (V.hidden W') a b → R W' a b) :
    V.Agree R (m W) (m' (V.hide W)) := by
  have hm := h hready hσ
  cases hrun : m W with
  | error e W' =>
    rw [hrun] at hm
    rw [hm]
    exact ⟨rfl, rfl⟩
  | ok a W' =>
    rw [hrun] at hm
    obtain ⟨b, hhide, hready', hQ⟩ := hm
    rw [hhide]
    exact ⟨rfl, hR W' a b hready' hQ⟩

/-- What a body returns is the value of the call. -/
theorem Agree.returned {m : Exec Signal} {m' : Exec Value} {W W' : World}
    (h : V.Agree (fun _ signal v => signal = Signal.returned v) (m W) (m' W')) :
    V.Agree (fun _ r r' => r = r') ((do
      match ← m with
      | .returned v => return v
      | _ => return .nil : Exec Value) W) (m' W') := by
  cases hm : m W with
  | error e W₁ =>
    rw [hm] at h
    rw [Exec.bind_error hm]
    cases hm' : m' W' <;> rw [hm'] at h <;> exact h
  | ok signal W₁ =>
    rw [hm] at h
    rw [Exec.bind_ok hm]
    cases hm' : m' W' with
    | error e W₂ =>
      rw [hm'] at h
      exact h.elim
    | ok v W₂ =>
      rw [hm'] at h
      obtain ⟨hhide, rfl⟩ := h
      exact ⟨hhide, rfl⟩

/-- The variable that holds the result is returned. -/
theorem Sim.append_ret {self : Interp} {frames : List Nat} {σ : Store} {ss : List Stmt}
    {m : Exec Value} {x : String}
    (h : V.Sim frames σ (self.execAll frames ss) m fun τ signal v =>
      signal = .done ∧ τ x = some v) :
    V.Sim frames σ (self.execAll frames (ss ++ [.ret (.load x) none])) m fun _ signal v =>
      signal = .returned v := by
  rw [← bind_pure m]
  refine h.append fun τ v hv => ?_
  simp only [execAll_singleton, exec]
  exact Sim.known (Reads.veiled none hv) fun _ => .pure rfl

/-- The veil over the parameters of a call and the temporaries that are made from one context to
the other. -/
def locals (ref : Nat) (params : List String) (c c' : Context) : Veil where
  scope := some ref
  names x := params.contains x || (temps none c c').names x

section Locals

variable {ref : Nat} {params : List String} {c c' : Context} {x : String}

theorem locals_covers (h : c.Later c') : (locals ref params c c').Covers c c' := by
  intro x hx
  simp only [locals, temps_covers h x hx, Bool.or_true]

theorem names_locals_of_mem (h : x ∈ params) : (locals ref params c c').names x = true := by
  simp [locals, h]

theorem names_locals_of_not_future (h : x ∉ params) (hx : ¬c.Future x) :
    (locals ref params c c').names x = false := by
  simp [locals, h, names_temps_of_not_future hx]

end Locals

end Veil

/-! ### The frame of a call -/

namespace Interp

/-- A name means the same in worlds that have the same variables of that name. -/
theorem found?_of_lookup {W W' : World} {frames : List Nat} {x : String}
    (hglobals : W'.globals = W.globals)
    (h : ∀ ref, (W'.varsOf ref).lookup x = (W.varsOf ref).lookup x) :
    found? W' frames x = found? W frames x := by
  rw [found?_eq, found?_eq, meaning_of_lookup (by rw [hglobals]) fun ref _ => h ref]

variable {fn : Function} {args : List Value} {x : String}

/-- Variables that are assigned one after the other have the values assigned, if they are
distinct. -/
theorem lookup_assign_zip {xs : List String} {vs : List Value} (hnodup : xs.Nodup)
    (hlength : xs.length ≤ vs.length) (vars : List (String × Option Value)) :
    List.Forall₂ (fun x v => ((xs.zip vs).foldl (fun vars (name, v) => assign name (some v) vars)
        vars).lookup x = some (some v)) xs (vs.take xs.length) ∧
      ∀ y, y ∉ xs → ((xs.zip vs).foldl (fun vars (name, v) => assign name (some v) vars)
        vars).lookup y = vars.lookup y := by
  induction xs generalizing vs vars with
  | nil => exact ⟨.nil, fun _ _ => rfl⟩
  | cons x xs ih =>
    cases vs with
    | nil => simp at hlength
    | cons v vs =>
      obtain ⟨hx, hnodup⟩ := List.nodup_cons.mp hnodup
      obtain ⟨hvalues, hothers⟩ :=
        ih hnodup (by simpa using hlength) (assign x (some v) vars)
      refine ⟨.cons ?_ hvalues, fun y hy => ?_⟩
      · simp only [List.zip_cons_cons, List.foldl_cons]
        rw [hothers x hx, lookup_assign, if_pos rfl]
      · rw [List.mem_cons, not_or] at hy
        simp only [List.zip_cons_cons, List.foldl_cons]
        rw [hothers y hy.2, lookup_assign, if_neg hy.1]

/-- The parameters of a call have their arguments as values. -/
theorem lookup_frameOf (hnodup : (fn.params ++ fn.rest.toList).Nodup)
    (hlength : fn.params.length ≤ args.length) :
    List.Forall₂ (fun x v => (frameOf fn args).vars.lookup x = some (some v))
      (fn.params ++ fn.rest.toList) (Reading.arguments fn.params fn.rest args) := by
  obtain ⟨hparams, hrest, hdisjoint⟩ := List.nodup_append.mp hnodup
  have hvalues := (lookup_assign_zip hparams hlength (fn.locals.map (·, none))).1
  cases hname : fn.rest with
  | none =>
    simp only [frameOf, Reading.arguments, hname, Option.toList_none, Option.map_none,
      List.append_nil]
    exact hvalues
  | some r =>
    have hne : ∀ x ∈ fn.params, x ≠ r := fun x hx => hdisjoint x hx r (by simp [hname])
    simp only [frameOf, Reading.arguments, hname, Option.toList_some, Option.map_some]
    refine List.rel_append ?_ (.cons (by rw [lookup_assign, if_pos rfl]) .nil)
    rw [List.forall₂_iff_get] at hvalues ⊢
    refine ⟨hvalues.1, fun i hi hi' => ?_⟩
    rw [lookup_assign, if_neg (hne _ (List.get_mem fn.params ⟨i, hi⟩))]
    exact hvalues.2 i hi hi'

theorem mem_assign_zip {xs : List String} {vs : List Value} {vars : List (String × Option Value)}
    {p : String × Option Value}
    (h : p ∈ (xs.zip vs).foldl (fun vars (name, v) => assign name (some v) vars) vars) :
    p.1 ∈ xs ∨ p ∈ vars := by
  induction xs generalizing vs vars with
  | nil => exact .inr h
  | cons x xs ih =>
    cases vs with
    | nil => exact .inr h
    | cons v vs =>
      simp only [List.zip_cons_cons, List.foldl_cons] at h
      rcases ih h with hmem | hmem
      · exact .inl (List.mem_cons_of_mem x hmem)
      · rcases mem_assign hmem with rfl | hmem
        · exact .inl List.mem_cons_self
        · exact .inr hmem

/-- The variables of a call are the parameters and the local names of the function. -/
theorem mem_frameOf {p : String × Option Value} (h : p ∈ (frameOf fn args).vars) :
    p.1 ∈ fn.params ++ fn.rest.toList ∨ p.1 ∈ fn.locals := by
  have hvars {p : String × Option Value} (h : p ∈ (fn.params.zip args).foldl
      (fun vars (name, v) => assign name (some v) vars) (fn.locals.map (·, none))) :
      p.1 ∈ fn.params ++ fn.rest.toList ∨ p.1 ∈ fn.locals := by
    rcases mem_assign_zip h with hmem | hmem
    · exact .inl (List.mem_append_left _ hmem)
    · obtain ⟨x, hx, rfl⟩ := List.mem_map.mp hmem
      exact .inr hx
  unfold frameOf at h
  cases hname : fn.rest with
  | none =>
    simp only [hname] at h hvars
    exact hvars h
  | some r =>
    simp only [hname] at h hvars
    rcases mem_assign h with rfl | hmem
    · exact .inl (by simp)
    · exact hvars hmem

end Interp

namespace Veil

variable {V : Veil} {W : World} {frame : Frame}

/-- A frame that is not there has nothing to hide. -/
theorem hide_of_size_le {ref : Nat} (hscope : V.scope = some ref) (h : W.frames.size ≤ ref) :
    V.hide W = W := by
  have hmodify : W.frames.modify ref (fun frame => { frame with vars := V.hideVars frame.vars }) =
      W.frames := by
    apply Array.ext_getElem?
    intro i
    rw [Array.getElem?_modify]
    split
    · subst_vars
      simp [Array.getElem?_eq_none h]
    · rfl
  simp only [hide, hscope, hmodify]

theorem varsOf_push : World.varsOf { W with frames := W.frames.push frame } W.frames.size =
    frame.vars := by
  simp [World.varsOf, Array.getD_eq_getD_getElem?]

theorem varsOf_push_of_ne {ref : Nat} (h : ref ≠ W.frames.size) :
    World.varsOf { W with frames := W.frames.push frame } ref = W.varsOf ref := by
  simp [World.varsOf, Array.getD_eq_getD_getElem?, Array.getElem?_push, h]

/-- Code can run in a new frame all of whose variables are veiled if it can in one without
variables. -/
theorem Ready.pushVars {frames : List Nat}
    (h : V.Ready (W.frames.size :: frames)
      { W with frames := W.frames.push ⟨frame.title, []⟩ })
    (hscope : V.scope = some W.frames.size) (hveiled : ∀ p ∈ frame.vars, V.names p.1 = true)
    (hclean : ∀ p ∈ frame.vars, ∀ v ∈ p.2, V.Clean v) :
    V.Ready (W.frames.size :: frames) { W with frames := W.frames.push frame } := by
  have hsize : ∀ ref, ref < (W.frames.push ⟨frame.title, []⟩).size →
      ref < (W.frames.push frame).size := by simp
  refine ⟨⟨h.good.globals, fun ref => ?_, h.good.lists, h.good.iters,
      fun ref href => hsize ref (h.good.scope ref href)⟩,
    fun ref href => hsize ref (h.bound ref href), ⟨[], _, rfl, hscope.symm, by simp⟩, ?_, h.debug⟩
  · by_cases href : ref = W.frames.size
    · subst href
      rw [varsOf_push]
      exact hclean
    · have hvars := h.good.vars ref
      rw [varsOf_push_of_ne href] at hvars ⊢
      exact hvars
  · intro p hp
    obtain ⟨hname, hfound⟩ := h.library p hp
    refine ⟨hname, ?_⟩
    have hlookup : frame.vars.lookup p.1 = none := by
      cases hvalue : frame.vars.lookup p.1 with
      | none => rfl
      | some v => simp [hveiled _ (mem_of_lookup hvalue)] at hname
    rw [← hfound]
    refine found?_of_lookup rfl fun ref => ?_
    by_cases href : ref = W.frames.size
    · subst href
      rw [varsOf_push, varsOf_push, hlookup]
      rfl
    · rw [varsOf_push_of_ne href, varsOf_push_of_ne href]

/-- A new frame all of whose variables are veiled looks like one without variables. -/
theorem hide_push_own (hscope : V.scope = some W.frames.size)
    (h : ∀ p ∈ frame.vars, V.names p.1 = true) :
    V.hide { W with frames := W.frames.push frame } =
      { W with frames := W.frames.push ⟨frame.title, []⟩ } := by
  have hvars : V.hideVars frame.vars = [] :=
    List.filter_eq_nil_iff.mpr fun p hp => by simp [h p hp]
  simp only [hide, hscope, World.mk.injEq, true_and, and_true]
  apply Array.ext_getElem?
  intro i
  simp only [Array.getElem?_modify, Array.getElem?_push]
  by_cases hi : W.frames.size = i
  · simp [hi, hvars]
  · simp [hi, Ne.symm hi]

end Veil

/-! ### Contexts and parameters -/

theorem not_future_of_clears {c : Context} {x : String} (h : clears c.tempPrefix x = true) :
    ¬c.Future x := by
  rintro ⟨k, hk, -⟩
  rw [tempNumber?_of_clears h] at hk
  cases hk

/-- Every name of a context means itself or a temporary that was made before. -/
def Context.Regular (c : Context) : Prop :=
  ∀ x, c.resolve x = x ∨ ∃ k, tempNumber? c.tempPrefix (c.resolve x) = some k ∧ k ≤ c.counter

namespace Context.Regular

variable {c : Context} {x : String}

/-- What a name of the source means is no temporary that is still to be made. -/
theorem not_future (h : c.Regular) (hx : clears c.tempPrefix x = true) :
    ¬c.Future (c.resolve x) := by
  rcases h x with heq | ⟨j, hj, hle⟩
  · rw [heq]
    exact not_future_of_clears hx
  · rintro ⟨k, hk, hlt⟩
    rw [hj] at hk
    cases hk
    omega

end Context.Regular

namespace Veil

variable {V : Veil} {S : String → Bool} {c c' : Context} {xs : List String} {vs : List Value}
  {σ : Store}

theorem bindParams_of_not_mem {x : String} (h : x ∉ xs) (ρ : Env) :
    Reading.bindParams ρ xs vs x = ρ x := by
  induction xs generalizing vs ρ with
  | nil => rfl
  | cons y xs ih =>
    rw [List.mem_cons, not_or] at h
    cases vs with
    | nil => rfl
    | cons v vs =>
      rw [Reading.bindParams, ih h.2, Env.bind, if_neg h.1]

/-- A parameter has the value of its argument. -/
theorem bindParams_of_mem {x : String} (h : x ∈ xs)
    (hvs : List.Forall₂ (fun x v => σ x = some v) xs vs) (ρ : Env) :
    ∃ v, Reading.bindParams ρ xs vs x = .value v ∧ σ x = some v := by
  induction hvs generalizing ρ with
  | nil => simp at h
  | @cons y v xs vs hv hvs ih =>
    rw [Reading.bindParams]
    by_cases hx : x ∈ xs
    · exact ih hx _
    · obtain rfl := (List.mem_cons.mp h).resolve_right hx
      exact ⟨v, by rw [bindParams_of_not_mem hx, Env.bind, if_pos rfl], hv⟩

/-- The parameters of a function stand for the values of their variables, all other names for what
they mean outside. -/
theorem related_bindParams (h : Lowering.Names c c' xs) (hxs : ∀ x ∈ xs, ¬c.Future x)
    (hvs : List.Forall₂ (fun x v => σ x = some v) xs vs)
    (hothers : ∀ x, x ∉ xs → S x = true → V.names (c.resolve x) = false) :
    V.Related S c' (Reading.bindParams c.env xs vs) σ := by
  intro x
  rw [h.resolve]
  by_cases hx : x ∈ xs
  · obtain ⟨v, hbind, hv⟩ := bindParams_of_mem hx hvs c.env
    rw [if_pos hx, hbind]
    exact ⟨hv, fun hfuture => hxs x hx (h.declares.later.future hfuture)⟩
  · rw [if_neg hx, bindParams_of_not_mem hx]
    exact ⟨rfl, hothers x hx⟩

end Veil

theorem Form.fits_of_all {S : String → Bool} {n : Nat} {forms : List Form}
    (h : forms.all (fun form => form.onlyNames S && form.depth < n) = true) :
    ∀ form ∈ forms, form.Fits S n := fun form hform => by
  have hfits := List.all_eq_true.mp h form hform
  rw [Bool.and_eq_true, decide_eq_true_eq] at hfits
  exact ⟨hfits.1, hfits.2⟩

namespace Lowering

variable {V : Veil} {n : Nat} {c c' : Context}

/-! ### Loops in statement position -/

/-- A loop as a statement, with the names that end it. -/
def loopWithExit (self : Lowering) (form bindings : Form) (body : List Form) :
    Compile (List Stmt × LoopExit) := do
  let _ ← analyze body
  Compile.inScope do
    let target ← loopTarget self .fresh bindings
    whileLoop self target body form.span?

theorem loopStmt_eq {self : Lowering} {form bindings : Form} {body : List Form} {stmts : List Stmt}
    {exit : LoopExit} (h : loopWithExit self form bindings body c = .ok (stmts, exit) c') :
    loopStmt self form (bindings :: body) c = .ok stmts c' := by
  obtain ⟨verdict, c₁, hanalyze, h⟩ := Compile.bind_ok h
  obtain ⟨c₂, hbody, rfl⟩ := Compile.inScope_ok h
  obtain ⟨target, c₃, htarget, hwhile⟩ := Compile.bind_ok hbody
  simp only [loopStmt]
  rw [Compile.bind_eq hanalyze]
  refine Compile.inScope_eq ?_
  rw [Compile.bind_eq htarget, Compile.bind_eq hwhile]
  rfl

theorem analyze_eq {body : List Form} (h : (Verdict.ofBody "recur" true body).violation = none)
    (c : Context) : ∃ event, analyze body c = .ok (Verdict.ofBody "recur" true body)
      (c.report event) := by
  refine ⟨.tailCalls (Verdict.ofBody "recur" true body).calls.length, ?_⟩
  simp only [analyze, h]
  rfl

/-- A loop in statement position: the entry binds the variables, and the `while` loop passes through
the body. -/
theorem loopWithExit_means (V : Veil) (hsymbol : V.names "Symbol" = false) (form : Form)
    {items body : List Form} (span : Span) (hitems : Form.arePlainLoopPairs items = true)
    (hbody : Form.isPlainTailBody (items.length / 2) body = true)
    (hok : (Verdict.ofBody "recur" true body).violation = none) {S : String → Bool}
    (hfits : ∀ form ∈ items ++ body, form.Fits S n) (c : Context) :
    ∃ stmts exit c', loopWithExit (upTo n) form (.vector items span) body c =
        .ok (stmts, exit) c' ∧ c.Later c' ∧
      (V.Covers c c' → (∀ x, S x = true → V.names (c.resolve x) = false) →
        ∀ ⦃interp inner : Interp⦄ ⦃frames : List Nat⦄ ⦃σ : Store⦄, V.Runs interp inner frames →
        V.Sim frames σ (interp.execAll frames stmts)
          (Reading.loop interp inner frames interp.loopLimit items body c.env) fun τ signal v =>
            signal = .done ∧ τ exit.result = some v) := by
  rw [List.forall_mem_append] at hfits
  obtain ⟨event, hanalyze⟩ := analyze_eq hok c
  obtain ⟨pairs, hpairs⟩ := Form.pairUp_of_arePlainLoopPairs hitems
  have hopen : (c.report event).enter.scopes ≠ [] := by simp [Context.enter]
  obtain ⟨vars, inits, rebind, c₁, hbinders, hopens⟩ :=
    loopBinders_open (upTo_expr V S hsymbol n) hpairs hitems hfits.1 hopen {}
  simp only [List.nil_append] at hbinders
  have hrecur : ({ vars, inits, rebind } : LoopTarget).selfCall = "recur" := rfl
  obtain ⟨stmts, c₂, hwhile, hpasses, -, -, hmeans⟩ := whileLoop_means (upTo_stmt V S hsymbol n)
    (upTo_tail V S hsymbol n) hrecur (by rw [hopens.length]; exact hbody) hfits.2 form.span? c₁
  have hlater : c.Later c₂.leave := by
    have hall := hopens.declares.later.trans hpasses.later
    exact ⟨hall.tempPrefix, hall.counter, hall.helpers⟩
  refine ⟨Binding.assigns form.span? inits ++ roundStmts (LoopBody.of c₁ _ hrecur) stmts
    (form.span?.filter Span.isReal), (LoopBody.of c₁ _ hrecur).exit, c₂.leave, ?_, hlater, ?_⟩
  · have hbindings : bindingPairs .loopForm (.vector items span) (c.report event).enter =
        .ok pairs (c.report event).enter := by
      simp only [bindingPairs, hpairs]
      rfl
    unfold loopWithExit
    rw [Compile.bind_eq hanalyze]
    refine Compile.inScope_eq ?_
    rw [loopTarget_eq, bind_assoc, Compile.bind_eq hbindings, Compile.bind_eq hbinders]
    exact hwhile
  · intro hcovers hnames interp inner frames σ hruns
    have hcovers : V.Covers (c.report event).enter c₂ := hcovers
    have hcovers₁ := hcovers.mono (.refl _) hpasses.later
    have hcovers₂ := hcovers.mono hopens.declares.later (.refl _)
    have hrelated (σ : Store) : V.Related S (c.report event).enter c.env σ := by
      refine Related.enter fun x => ?_
      exact ⟨rfl, hnames x⟩
    have henters : V.Enters S c₁ { vars, inits, rebind } interp frames
        fun vs => Reading.enterLoop interp inner frames items vs c.env := by
      refine ⟨hopens.nodup, fun x hx => hcovers₁ x (hopens.makes x hx),
        fun x hx => (hopens.makes x hx).2, fun σ vs outer hvs => ?_⟩
      refine (hopens.enters hcovers₁ outer hruns (hrelated σ) hvs).imp ?_
      rintro τ signal ρ ⟨rfl, hρ, hfills⟩
      exact ⟨rfl, hρ, fun x hx => hfills x fun hmade => hmade.2 hx⟩
    refine (hopens.starts hcovers₁ form.span? hruns (hrelated σ)).append ?_
    rintro τ ρ ⟨hρ, -⟩
    exact hmeans hcovers₂ henters hruns hρ

/-! ### Functions with self-calls -/

/-- A function without patterns among its parameters goes straight into its loop. -/
theorem functionBody_eq {self : Lowering} {params : Params} {body : List Form} {span : Option Span}
    {stmts : List Stmt} {exit : LoopExit} (hpatterns : params.patterns = [])
    (h : whileLoop self { vars := params.vars } body span c = .ok (stmts, exit) c') :
    functionBody self params body span true c
      = .ok (stmts ++ [.ret (.load exit.result) none]) c' := by
  have hentry : entryBindings self params = pure [] := by
    simp only [entryBindings, hpatterns, List.foldlM_nil]
  unfold functionBody
  rw [hentry, pure_bind]
  exact (Compile.bind_eq h).trans rfl

theorem execAll_withDoc (self : Interp) (frames : List Nat) (doc : Option String)
    (stmts : List Stmt) : self.execAll frames (withDoc doc stmts) = self.execAll frames stmts := by
  cases doc with
  | none => rfl
  | some text => simp [withDoc, execAll, exec, Expr.constant, eval]

theorem assignedOfAll_withDoc (doc : Option String) (stmts : List Stmt) :
    Stmt.assignedOfAll (withDoc doc stmts) = Stmt.assignedOfAll stmts := by
  cases doc with
  | none => rfl
  | some text => simp [withDoc, Stmt.assignedOfAll, Stmt.assigned]

/-- A function with self-calls whose parameters are names passes through its body until the reading
exits, and returns that value. -/
theorem function_eq {lowering : Lowering} {name : String} {form : Form} {body : List Form}
    {span : Option Span} {params : Params} {verdict : Verdict} {stmts helpers : List Stmt}
    {c₁ c₂ c₃ : Context} (hparams : Params.ofForm form (c.enter.declare name name) = .ok params c₁)
    (hanalyze : analyze body c₁ = .ok verdict c₂)
    (hbody : Compile.collect (functionBody lowering params body span verdict.hasCalls) c₂ =
      .ok (stmts, helpers) c₃) (doc : Option String) :
    function lowering name form body span doc c =
      .ok (.define name params.names params.rest (withDoc doc (helpers ++ stmts))
        (span.filter Span.isReal)) c₃.leave := by
  have hbind : Compile.bind .scoped name c.enter = .ok name (c.enter.declare name name) := rfl
  unfold function
  rw [Compile.bind_eq (Compile.inScope_eq (by
    rw [Compile.bind_eq hbind, Compile.bind_eq hparams, Compile.bind_eq hanalyze,
      Compile.bind_eq hbody]
    rfl))]
  rfl

/-- A call of a function with self-calls: its frame holds the arguments, and the loop runs in it. -/
theorem function_means (V : Veil) (hsymbol : V.names "Symbol" = false) {S : String → Bool}
    {name : String} {form : Form} {params : Params} {c₁ : Context}
    (hparams : Params.ofForm form (c.enter.declare name name) = .ok params c₁)
    (hpatterns : params.patterns = []) (hnodup : params.vars.Nodup)
    (hmade : ∀ x ∈ params.vars, ¬c.Future x) {body : List Form}
    (hbody : Form.isPlainTailBody params.vars.length body = true)
    (hok : (Verdict.ofBody "recur" true body).violation = none)
    (hcalls : (Verdict.ofBody "recur" true body).hasCalls = true)
    (hfits : ∀ form ∈ body, form.Fits S n) (span : Option Span) (doc : Option String) :
    ∃ stmts c', function (upTo n) name form body span doc c =
        .ok (.define name params.names params.rest stmts (span.filter Span.isReal)) c' ∧
      c.Later c' ∧ c.Assigns c' params.vars stmts ∧
      (V.Covers c c' → (∀ x ∈ params.vars, V.names x = true) →
        (∀ x, x ∉ params.vars → S x = true →
          V.names ((c.enter.declare name name).resolve x) = false) →
        ∀ ⦃interp inner : Interp⦄ ⦃frames : List Nat⦄ ⦃σ : Store⦄ ⦃vs : List Value⦄,
        V.Runs interp inner frames → List.Forall₂ (fun x v => σ x = some v) params.vars vs →
        V.Sim frames σ (interp.execAll frames stmts)
          (Reading.passes interp inner frames
            (fun vs => pure
              (Reading.bindParams (c.enter.declare name name).env params.vars vs))
            body interp.loopLimit
            (Reading.bindParams (c.enter.declare name name).env params.vars vs))
          fun _ signal v => signal = .returned v) := by
  have hopen : c.enter.scopes ≠ [] := by simp [Context.enter]
  have hname := c.enter.declares_declare hopen name name
  have hlater₀ : c.Later (c.enter.declare name name) :=
    ⟨hname.later.tempPrefix, hname.later.counter, hname.later.helpers⟩
  have hnames := Params.ofForm_names hparams hpatterns hname.isOpen
  obtain ⟨event, hanalyze⟩ := analyze_eq hok c₁
  have hreport : c₁.Passes (c₁.report event) := ⟨⟨rfl, Nat.le_refl _, rfl⟩, rfl⟩
  have hrecur : ({ vars := params.vars } : LoopTarget).selfCall = "recur" := rfl
  obtain ⟨stmts, c₂, hwhile, hpasses, -, hassigns, hmeans⟩ :=
    whileLoop_means (upTo_stmt V S hsymbol n) (upTo_tail V S hsymbol n) hrecur hbody hfits span
      (c₁.report event)
  have hlater₁ : c.Later (c₁.report event) :=
    (hlater₀.trans hnames.declares.later).trans hreport.later
  have hleave : c₂.Later c₂.leave := ⟨rfl, Nat.le_refl _, rfl⟩
  have hlater := (hlater₁.trans hpasses.later).trans hleave
  refine ⟨withDoc doc (roundStmts (LoopBody.of (c₁.report event) _ hrecur) stmts
      (span.filter Span.isReal) ++
        [.ret (.load (LoopBody.of (c₁.report event) _ hrecur).exit.result) none]),
    c₂.leave, ?_, hlater, ?_, ?_⟩
  · have hfunction := functionBody_eq hpatterns hwhile
    have hcollect := Compile.collect_eq hfunction hpasses.later.helpers
    rw [← hcalls] at hcollect
    exact function_eq hparams hanalyze hcollect doc
  · intro x hx
    rw [assignedOfAll_withDoc, Context.assignedOfAll_append, List.mem_append] at hx
    have hround := hx.resolve_right (by simp [Stmt.assignedOfAll, Stmt.assigned])
    rcases hassigns x hround with hown | hmakes
    · exact .inl (by simpa using hown)
    · exact .inr (hmakes.mono hlater₁ hleave)
  · intro hcovers hveiled hothers interp inner frames σ vs hruns hvs
    have hcovers₂ : V.Covers (c₁.report event) c₂ := hcovers.mono hlater₁ hleave
    have hrelated {σ : Store} {vs : List Value}
        (hvs : List.Forall₂ (fun x v => σ x = some v) params.vars vs) :
        V.Related S (c₁.report event)
          (Reading.bindParams (c.enter.declare name name).env params.vars vs) σ := by
      refine Related.mono ?_ hreport.later hreport.scopes (.refl c₁ σ)
      exact related_bindParams hnames (fun x hx hfuture => hmade x hx (hlater₀.future hfuture)) hvs
        hothers
    have henters : V.Enters S (c₁.report event) { vars := params.vars } interp frames fun vs =>
        pure (Reading.bindParams (c.enter.declare name name).env params.vars vs) := by
      refine ⟨hnodup, hveiled, fun x hx hfuture => hmade x hx (hlater₁.future hfuture),
        fun σ vs outer hvs => ?_⟩
      exact .pure ⟨rfl, hrelated hvs, fun _ _ => rfl⟩
    rw [execAll_withDoc]
    exact (hmeans hcovers₂ henters hruns (hrelated hvs)).append_ret

/-- A call of a function whose body passes through the forms until the reading exits. -/
theorem callFunction_means {interp inner : Interp} {fn : Function} {args : List Value} {W : World}
    {body : List Form} {ρ : Env} (hscope : V.scope = some W.frames.size)
    (hready : V.Ready (W.frames.size :: fn.frames)
      { W with frames := W.frames.push ⟨fn.title, []⟩ })
    (hargs : ∀ v ∈ args, V.Clean v)
    (hveiled : ∀ p ∈ (frameOf fn args).vars, V.names p.1 = true)
    (hparams : ∀ x ∈ fn.params ++ fn.rest.toList, V.names x = true)
    (hnodup : (fn.params ++ fn.rest.toList).Nodup)
    (hbody : ∀ ⦃σ : Store⦄ ⦃vs : List Value⦄,
      List.Forall₂ (fun x v => σ x = some v) (fn.params ++ fn.rest.toList) vs →
      V.Sim (W.frames.size :: fn.frames) σ
        (interp.execAll (W.frames.size :: fn.frames) fn.body)
        (Reading.passes interp inner (W.frames.size :: fn.frames)
          (fun vs => pure (Reading.bindParams ρ (fn.params ++ fn.rest.toList) vs)) body
          interp.loopLimit (Reading.bindParams ρ (fn.params ++ fn.rest.toList) vs))
        fun _ signal v => signal = .returned v) :
    V.Agree (fun _ r r' => r = r') (callFunction interp fn args W)
      (Reading.callRecursive interp inner fn.frames interp.loopLimit fn.title fn.params fn.rest body
        ρ args W) := by
  unfold callFunction Reading.callRecursive
  cases hfault : argumentFault? fn.title fn.params 0 fn.rest.isSome args.length with
  | some failure => exact ⟨rfl, hide_of_size_le hscope (Nat.le_refl _)⟩
  | none =>
    have hlength : fn.params.length ≤ args.length := by
      by_contra hlt
      simp [argumentFault?, Nat.not_le.mp hlt] at hfault
    have hvalues : List.Forall₂ (fun x v =>
        V.hidden { W with frames := W.frames.push (frameOf fn args) } x = some v)
        (fn.params ++ fn.rest.toList) (Reading.arguments fn.params fn.rest args) := by
      have hlookup := lookup_frameOf hnodup hlength
      rw [List.forall₂_iff_get] at hlookup ⊢
      refine ⟨hlookup.1, fun i hi hi' => ?_⟩
      have hname := hparams _ (List.get_mem (fn.params ++ fn.rest.toList) ⟨i, hi⟩)
      simp only [Veil.hidden, hname, hscope, varsOf_push, hlookup.2 i hi hi', if_true,
        Option.join_some]
    have hready : V.Ready (W.frames.size :: fn.frames)
        { W with frames := W.frames.push (frameOf fn args) } :=
      .pushVars hready hscope hveiled (clean_frameOf fn hargs)
    have hagree := (hbody hvalues).agree hready rfl fun W' signal v _ heq => heq
    rw [hide_push_own hscope hveiled] at hagree
    exact hagree.returned

/-! ### Self-calls mean recursion -/

/-- Is the name one that compiled code reads itself, so that no parameter may have it? -/
def isReserved (x : String) : Bool :=
  x == "__debug__" || x == "Symbol" || Native.compiled.any (·.1 == x)

theorem names_locals_of_isReserved {ref : Nat} {params : List String} {x : String}
    (hparams : ∀ y ∈ params, isReserved y = false) (hx : isReserved x = true)
    (hdigits : x.toList.all (fun ch => !ch.isDigit) = true) :
    (locals ref params c c').names x = false := by
  have hmem : x ∉ params := fun hmem => by simp [hparams x hmem] at hx
  simp [locals, hmem, names_temps_of_noDigit hdigits]

/-- **Self-calls mean recursion.** A loop in statement position, or a function with self-calls whose
parameters are names, is lowered to a `while` loop. It runs as passing through the body by recursion
does, with the same failures and the same effects on everything but its own variables; if it ends,
its result is that of the recursion. The functions that it calls may fail, print and make objects
(`Interp.Nests`), but they bind no variable in a frame that exists already, and neither they nor the
functions of the world (`Veil.Hosts`) read the variables of the loop. -/
theorem selfCalls_mean_recursion (n : Nat) (c : Context) (hregular : c.Regular) :
    (∀ (form : Form) (items body : List Form) (span : Span),
      Form.arePlainLoopPairs items = true → Form.isPlainTailBody (items.length / 2) body = true →
      (Verdict.ofBody "recur" true body).violation = none →
      (∀ form ∈ items ++ body, form.Fits (clears c.tempPrefix) n) →
      ∃ stmts exit c', loopStmt (upTo n) form (.vector items span :: body) c = .ok stmts c' ∧
        loopWithExit (upTo n) form (.vector items span) body c = .ok (stmts, exit) c' ∧
        ∀ (interp inner : Interp) (frames : List Nat) (W : World),
          interp.Nests (temps frames.head? c c') inner → (temps frames.head? c c').Hosts frames W →
          (temps frames.head? c c').Agree
            (fun W' signal r => signal = .done ∧ valueOf frames exit.result W' = .ok r W')
            (interp.execAll frames stmts W)
            (Reading.loop interp inner frames interp.loopLimit items body c.env
              ((temps frames.head? c c').hide W))) ∧
    (∀ (name : String) (form : Form) (params : Params) (c₁ : Context) (body : List Form)
      (span : Option Span) (doc : Option String),
      Params.ofForm form (c.enter.declare name name) = .ok params c₁ → params.patterns = [] →
      params.vars.Nodup →
      (∀ x ∈ params.vars, isReserved x = false ∧ clears c.tempPrefix x = true) →
      Form.isPlainTailBody params.vars.length body = true →
      (Verdict.ofBody "recur" true body).violation = none →
      (Verdict.ofBody "recur" true body).hasCalls = true →
      (∀ form ∈ body, form.Fits (clears c.tempPrefix) n) →
      ∃ stmts c', function (upTo n) name form body span doc c =
          .ok (.define name params.names params.rest stmts (span.filter Span.isReal)) c' ∧
        ∀ (interp inner : Interp) (outer : List Nat) (title : String) (id : Nat)
          (args : List Value) (W : World),
          let fn : Function :=
            { name, title, params := params.names, rest := params.rest
              locals := params.vars ++ Stmt.assignedOfAll stmts, body := stmts, frames := outer
              id }
          let V := locals W.frames.size params.vars c c'
          interp.Nests V inner → (∀ v ∈ args, V.Clean v) →
          V.Hosts (W.frames.size :: outer) { W with frames := W.frames.push ⟨title, []⟩ } →
          V.Agree (fun _ r r' => r = r') (callFunction interp fn args W)
            (Reading.callRecursive interp inner outer interp.loopLimit title params.names
              params.rest body (c.enter.declare name name).env args W)) := by
  refine ⟨fun form items body span hitems hbody hok hfits => ?_,
    fun name form params c₁ body span doc hparams hpatterns hnodup hfree hbody hok hcalls hfits =>
      ?_⟩
  -- The statements do not depend on the veil, but the veil is over the temporaries that they make:
  -- in both parts they are taken from another veil first.
  · have hmeans (V : Veil) (hsymbol : V.names "Symbol" = false) :=
      loopWithExit_means V hsymbol form span hitems hbody hok hfits c
    obtain ⟨stmts, exit, c', hrun, hlater, -⟩ :=
      hmeans (temps none c c) (names_temps_of_noDigit (by decide))
    refine ⟨stmts, exit, c', loopStmt_eq hrun, hrun, fun interp inner frames W hnests hhosts => ?_⟩
    obtain ⟨stmts₁, exit₁, c₁, hrun₁, -, hsim⟩ :=
      hmeans (temps frames.head? c c') (names_temps_of_noDigit (by decide))
    obtain ⟨⟨rfl, rfl⟩, rfl⟩ : (stmts = stmts₁ ∧ exit = exit₁) ∧ c' = c₁ := by
      simpa [hrun] using hrun₁
    refine (hsim (temps_covers hlater) (fun x hx => ?_) ⟨hnests, rfl⟩).agree (temps_ready hhosts)
      rfl fun W' signal r hready hend => ?_
    · exact names_temps_of_not_future (hregular.not_future hx)
    · exact ⟨hend.1, valueOf_ok_iff.mpr ⟨rfl, hready.read hend.2⟩⟩
  · have htemp : ∀ x ∈ params.vars, tempNumber? c.tempPrefix x = none := fun x hx =>
      tempNumber?_of_clears (hfree x hx).2
    have hmade : ∀ x ∈ params.vars, ¬c.Future x := fun x hx => not_future_of_clears (hfree x hx).2
    have hmeans (V : Veil) (hsymbol : V.names "Symbol" = false) :=
      function_means V hsymbol hparams hpatterns hnodup hmade hbody hok hcalls hfits span doc
    obtain ⟨stmts, c', hrun, hlater, hassigns, -⟩ :=
      hmeans (temps none c c) (names_temps_of_noDigit (by decide))
    refine ⟨stmts, c', hrun, fun interp inner outer title id args W => ?_⟩
    intro fn V hnests hargs hhosts
    have hreserved : ∀ x ∈ params.vars, isReserved x = false := fun x hx => (hfree x hx).1
    obtain ⟨stmts₁, c₂, hrun₁, -, -, hsim⟩ :=
      hmeans V (names_locals_of_isReserved hreserved (by decide) (by decide))
    obtain ⟨rfl, rfl⟩ : stmts = stmts₁ ∧ c' = c₂ := by simpa [hrun] using hrun₁
    have hruns : V.Runs interp inner (W.frames.size :: outer) := ⟨hnests, rfl⟩
    have hlibrary : ∀ p ∈ Native.compiled,
        isReserved p.1 = true ∧ p.1.toList.all (fun ch => !ch.isDigit) = true := by decide
    have hready := hhosts.ready rfl
      (fun p hp => names_locals_of_isReserved hreserved (hlibrary p hp).1 (hlibrary p hp).2)
      (names_locals_of_isReserved hreserved (by decide) (by decide))
    refine callFunction_means rfl hready hargs ?_ (fun x hx => names_locals_of_mem hx) hnodup ?_
    · intro p hp
      have hmem : p.1 ∈ params.vars ∨ p.1 ∈ params.vars ++ Stmt.assignedOfAll stmts :=
        mem_frameOf hp
      rw [List.mem_append, or_self_left] at hmem
      rcases hmem with hmem | hmem
      · exact names_locals_of_mem hmem
      · rcases hassigns _ hmem with hown | hmakes
        · exact names_locals_of_mem hown
        · exact locals_covers hlater _ hmakes
    · intro σ vs hvs
      refine hsim (locals_covers hlater) (fun x hx => names_locals_of_mem hx) ?_ hruns hvs
      intro x hx hclear
      have hopen : c.enter.scopes ≠ [] := by simp [Context.enter]
      rw [Context.resolve_declare hopen]
      split
      · rename_i heq
        exact names_locals_of_not_future (heq ▸ hx) (heq ▸ not_future_of_clears hclear)
      · rw [Context.resolve_enter]
        refine names_locals_of_not_future (fun hmem => ?_) (hregular.not_future hclear)
        rcases hregular x with heq | ⟨k, hk, -⟩
        · exact hx (heq ▸ hmem)
        · rw [htemp _ hmem] at hk
          cases hk

/-- The call `(head arg …)`. -/
def headed (head : String) (args : List Form) : Form := .list (.named head :: args) none

/-- The items of `[i 3 [a b] [0 1]]`. -/
def fibonacciItems : List Form :=
  [.named "i", .const (.int 3), .vector [.named "a", .named "b"] .none,
    .vector [.const (.int 0), .const (.int 1)] .none]

/-- The body `(if (= i 0) a (recur (- i 1) [b (+ a b)]))`. -/
def fibonacciBody : List Form :=
  [headed "if" [headed "=" [.named "i", .const (.int 0)], .named "a",
    headed "recur" [headed "-" [.named "i", .const (.int 1)],
      .vector [.named "b", headed "+" [.named "a", .named "b"]] .none]]]

/-- The parameters `[n acc]`. -/
def factorialParams : Form := .vector [.named "n", .named "acc"] .none

/-- The body `(if (= n 0) acc (recur (- n 1) (* acc n)))`. -/
def factorialBody : List Form :=
  [headed "if" [headed "=" [.named "n", .const (.int 0)], .named "acc",
    headed "recur" [headed "-" [.named "n", .const (.int 1)],
      headed "*" [.named "acc", .named "n"]]]]

theorem nestedWorld_hosts_call {V : Veil} (h : V.scope = some 0) :
    V.Hosts [0] { nestedWorld with frames := #[⟨"f", []⟩] } := by
  have hvars (ref : Nat) :
      World.varsOf { nestedWorld with frames := #[⟨"f", []⟩] } ref = [] := by
    cases ref with
    | zero => rfl
    | succ ref =>
      simp [World.varsOf]
      rfl
  refine ⟨⟨?_, fun ref => by simp [hvars], ?_, ?_, by simp [h]⟩, by simp, ?_⟩
  · simp [nestedWorld, Native.compiled]
  · simp [nestedWorld, World.listAt]
  · simp [nestedWorld, CleanIter]
  · intro p hp
    simp only [Native.compiled, List.mem_cons, List.not_mem_nil, or_false] at hp
    rcases hp with rfl | rfl | rfl | rfl | rfl <;> rfl

/-- The third Fibonacci number by a loop, and the factorial of three by a function. -/
theorem selfCalls_mean_recursion_numbers :
    (∃ stmts c' result W',
      loopStmt (upTo 5) .nil (.vector fibonacciItems .none :: fibonacciBody) {} = .ok stmts c' ∧
      (bounded 3 5).execAll [] stmts nestedWorld = .ok .done W' ∧
      valueOf [] result W' = .ok (.ofInt 2) W') ∧
    (∃ stmts c' W', function (upTo 5) "f" factorialParams factorialBody none none {} =
        .ok (.define "f" ["n", "acc"] none stmts none) c' ∧
      callFunction (bounded 3 5)
        { name := "f", title := "f", params := ["n", "acc"], rest := none
          locals := ["n", "acc"] ++ Stmt.assignedOfAll stmts, body := stmts, frames := [], id := 0 }
        [.ofInt 3, .ofInt 1] nestedWorld = .ok (.ofInt 6) W') := by
  obtain ⟨hloops, hfunctions⟩ := selfCalls_mean_recursion 5 {} fun x => .inl rfl
  constructor
  · obtain ⟨stmts, exit, c', hrun, -, hmeans⟩ := hloops .nil fibonacciItems fibonacciBody .none
      (by decide) (by decide) (by decide) (Form.fits_of_all (by decide))
    obtain ⟨W'', hreading⟩ : ∃ W'', Reading.loop (bounded 3 5) (Interp.upTo 1) [] 5 fibonacciItems
        fibonacciBody (Context.env {}) nestedWorld = .ok (.ofInt 2) W'' := ⟨_, rfl⟩
    have hagree := hmeans (bounded 3 5) (Interp.upTo 1) [] nestedWorld (bounded_nests _ 1 5)
      (nestedWorld_hosts rfl)
    rw [List.head?_nil, hide_nestedWorld, show (bounded 3 5).loopLimit = 5 from rfl,
      hreading] at hagree
    obtain ⟨signal, W', hrunning, -, rfl, hvalue⟩ := hagree.ok
    exact ⟨stmts, c', exit.result, W', hrun, hrunning, hvalue⟩
  · obtain ⟨stmts, c', hrun, hmeans⟩ := hfunctions "f" factorialParams
      { names := ["n", "acc"] } { scopes := [[("f", "f"), ("n", "n"), ("acc", "acc")]] }
      factorialBody none none rfl rfl (by decide) (by decide) (by decide) (by decide)
      (by decide) (Form.fits_of_all (by decide))
    obtain ⟨W'', hreading⟩ : ∃ W'', Reading.callRecursive (bounded 3 5) (Interp.upTo 1) [] 5 "f"
        ["n", "acc"] none factorialBody
        (Context.env ((Context.enter {}).declare "f" "f")) [.ofInt 3, .ofInt 1] nestedWorld =
          .ok (.ofInt 6) W'' := ⟨_, rfl⟩
    have hagree := hmeans (bounded 3 5) (Interp.upTo 1) [] "f" 0 [.ofInt 3, .ofInt 1] nestedWorld
      (bounded_nests _ 1 5) (by simp) (nestedWorld_hosts_call rfl)
    rw [show (bounded 3 5).loopLimit = 5 from rfl, hreading] at hagree
    obtain ⟨r, W', hcall, -, rfl⟩ := hagree.ok
    exact ⟨stmts, c', W', hrun, hcall⟩

end Lowering

end TailLisp
