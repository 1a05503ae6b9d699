import TailLisp.Proofs.PatternTargets

/-!
# TailLisp.Proofs.PatternMeaning

**Destructuring means what the pattern says.** In a `let` or a `loop` the names of a pattern are
bound to temporaries. An expression that waits in the list of work then reads only temporaries that
were made before it, so nothing overtakes it, and every pattern whose defaults need no helper
function binds its names to the parts of the value (`Lowering.expand_binds`).

The veil of a compilation step is over the temporaries that the step makes (`Veil.temps`). Code that
runs behind it does what the reading does, and all else is as it was
(`Lowering.expand_means_pattern`).
-/

namespace TailLisp

open Veil Interp

/-! ### Patterns with temporaries as targets -/

/-- The statements have come to their end, all names mean what the environment says, and only new
temporaries were filled. -/
def Veil.Bound (V : Veil) (S : String → Bool) (c c' : Context) (σ : Store) :
    Store → Signal → Env → Prop :=
  fun τ signal ρ => signal = .done ∧ V.Related S c' ρ τ ∧ c.Fills c' σ τ

/-- **The expansion of a pattern** against an expression is a row of bindings that bind its names to
the parts of the value of the expression. -/
theorem Lowering.expand_binds {V : Veil} {S : String → Bool} {n : Nat} {lowering : Lowering}
    {c : Context} (h : lowering.MeansPlain V S n) {form : Form}
    (hbinds : form.binds (Form.isDefault S) form.size = true) (hdepth : form.depth < n)
    (hopen : c.scopes ≠ []) (e : Expr) (given : List Binding) :
    ∃ bindings c', expand lowering.expr .fresh form e given c = .ok (given ++ bindings) c' ∧
      c.Declares c' ∧ (∀ b ∈ bindings, c.Makes c' b.target) ∧
      (V.Covers c c' → ∀ ⦃self inner : Interp⦄ ⦃frames : List Nat⦄ ⦃ρ : Env⦄ ⦃σ : Store⦄
        ⦃m : Exec Value⦄ (outer : Option Span), V.Runs self inner frames → V.Related S c ρ σ →
        (∀ τ, c.Keeps σ τ → V.Reads self frames τ e m) →
        V.Sim frames σ (self.execAll frames (Binding.assigns outer bindings))
          (m >>= fun v => Reading.bindPattern self inner frames form v ρ) (V.Bound S c c' σ)) := by
  have hplain (before : List String) :
      lowering.MeansPlain V (Form.mayRead S (fun _ => false) before) n := by
    rwa [Form.mayRead_nothing]
  have htargets : c.Targets .fresh [] := ⟨.inr hopen, nofun, nofun, nofun⟩
  obtain ⟨bindings, c', hexpand, hnew, htargeted, hsim⟩ := expand_binds_targets (X := []) hplain
    nofun (Form.orderly_of_binds hbinds) (by simp) (.inl rfl) hdepth htargets e given
  refine ⟨bindings, c', hexpand, ⟨hnew.later, hnew.targets.isOpen.resolve_left nofun, hnew.outer⟩,
    fun b hb => (htargeted b hb).resolve_right List.not_mem_nil, ?_⟩
  intro hcovers self inner frames ρ σ m outer hruns hρ hreads
  refine (hsim hcovers nofun outer hruns hρ fun τ hτ => hreads τ fun x hx => hτ x hx nofun).imp ?_
  rintro τ signal ρ' ⟨⟨hsignal, hρ', -⟩, hchanges⟩
  exact ⟨hsignal, hρ', fun x hx => hchanges x hx List.not_mem_nil⟩

/-! ### The temporaries of a compilation step -/

/-- A name that ends in no digit is no temporary. -/
theorem tempNumber?_of_noDigit (p : String) {x : String}
    (h : x.toList.all (fun ch => !ch.isDigit) = true) : tempNumber? p x = none := by
  have hdigits : (x.toList.drop p.toList.length).reverse.takeWhile Char.isDigit = [] := by
    refine List.eq_nil_iff_forall_not_mem.mpr fun ch hch => ?_
    have hmem : ch ∈ x.toList :=
      List.mem_of_mem_drop (List.mem_reverse.mp ((List.takeWhile_sublist _).mem hch))
    have hdigit := List.all_eq_true.mp List.all_takeWhile ch hch
    have hnone := List.all_eq_true.mp h ch hmem
    simp [hdigit] at hnone
  simp [tempNumber?, hdigits]

/-- Does the name mean something that is no temporary still to be made? -/
def Context.settled (c : Context) (x : String) : Bool :=
  match tempNumber? c.tempPrefix (c.resolve x) with
  | some k => k ≤ c.counter
  | none => true

namespace Veil

variable {V : Veil} {frames : List Nat} {W : World} {c c' : Context} {scope : Option Nat}

/-- The veil over the temporaries that are made from one context to the other. -/
def temps (scope : Option Nat) (c c' : Context) : Veil where
  scope := scope
  names x :=
    match tempNumber? c.tempPrefix x with
    | some k => c.counter < k && k ≤ c'.counter
    | none => false

theorem temps_covers (h : c.Later c') : (temps scope c c').Covers c c' := by
  rintro x ⟨⟨k, hk, hlt⟩, hmade⟩
  have hle : k ≤ c'.counter := by
    by_contra hgt
    exact hmade ⟨k, by rw [h.tempPrefix, hk], by omega⟩
  simp [temps, hk, hlt, hle]

theorem names_temps_of_noDigit {x : String}
    (h : x.toList.all (fun ch => !ch.isDigit) = true) : (temps scope c c').names x = false := by
  simp [temps, tempNumber?_of_noDigit c.tempPrefix h]

/-- A name that was there before the step is not veiled. -/
theorem names_temps_of_not_future {x : String} (h : ¬c.Future x) :
    (temps scope c c').names x = false := by
  cases hk : tempNumber? c.tempPrefix x with
  | none => simp [temps, hk]
  | some k =>
    have hle : k ≤ c.counter := Nat.not_lt.mp fun hlt => h ⟨k, hk, hlt⟩
    simp [temps, hk, Nat.not_lt.mpr hle]

/-- At the beginning every name stands for the variable that it means. -/
theorem related_env (hscope : ∀ x, c.settled x = true → V.names (c.resolve x) = false)
    (σ : Store) : V.Related c.settled c c.env σ :=
  fun x => ⟨rfl, hscope x⟩

theorem names_temps_of_settled {x : String} (h : c.settled x = true) :
    (temps scope c c').names (c.resolve x) = false := by
  refine names_temps_of_not_future ?_
  rintro ⟨k, hk, hlt⟩
  have hle : k ≤ c.counter := by simpa [Context.settled, hk] using h
  omega

variable (V) in
/-- Code can run in the frames: they exist, the library has its names there, and no function of the
world reads a veiled variable. -/
structure Hosts (frames : List Nat) (W : World) : Prop where
  good : V.Good W
  bound : ∀ ref ∈ frames, ref < W.frames.size
  library : ∀ p ∈ Native.compiled, valueOf frames p.1 W = .ok (.native p.2) W

/-- Frames that host code are ready for it if the library is not veiled. -/
theorem Hosts.ready (h : V.Hosts frames W) (hscope : frames.head? = V.scope)
    (hlibrary : ∀ p ∈ Native.compiled, V.names p.1 = false)
    (hdebug : V.names "__debug__" = false) : V.Ready frames W :=
  ⟨h.good, h.bound, ⟨[], frames, rfl, hscope, by simp⟩,
    fun p hp => ⟨hlibrary p hp, (valueOf_ok_iff.mp (h.library p hp)).2⟩, hdebug⟩

theorem temps_ready (h : (temps frames.head? c c').Hosts frames W) :
    (temps frames.head? c c').Ready frames W := by
  refine h.ready rfl (fun p hp => names_temps_of_noDigit ?_) (names_temps_of_noDigit (by decide))
  have hall : ∀ p ∈ Native.compiled, p.1.toList.all (fun ch => !ch.isDigit) = true := by decide
  exact hall p hp

end Veil

namespace Lowering

/-! ### Patterns mean what they say -/

/-- A name of target code has the given meaning: a value is found under it, a variable is it. -/
def Finds (frames : List Nat) (W : World) (t : String) : Meaning → Prop
  | .value v => valueOf frames t W = .ok v W
  | .outer x => t = x

/-- **Destructuring means what the pattern says.** A pattern all of whose levels parse and whose
defaults need no helper function is expanded to a row of assignments. They run as
`Reading.bindPattern` does against the value of the expression, with the same failures and the same
effects on everything but the new temporaries. If they come to an end, every name that the pattern
binds means a temporary with its value, and every other name means what it did. -/
theorem expand_means_pattern (n depth limit : Nat) (c : Context) (form : Form) (e : Expr)
    (outer : Option Span) (hpattern : form.binds (Form.isDefault c.settled) form.size = true)
    (hdepth : form.depth < n) (hopen : c.scopes ≠ []) (he : ∀ x ∈ e.reads, ¬c.Future x) :
    ∃ bindings c', expand (upTo n).expr .fresh form e [] c = .ok bindings c' ∧
      ∀ (frames : List Nat) (W : World), (temps frames.head? c c').Hosts frames W →
        match (bounded (depth + 2) limit).execAll frames (Binding.assigns outer bindings) W,
          (do
            let v ← (bounded (depth + 2) limit).eval frames e
            Reading.bindPattern (bounded (depth + 2) limit) (Interp.upTo depth) frames form v
              c.env : Exec Env) ((temps frames.head? c c').hide W) with
        | .error failure W', .error failure' W'' =>
          failure = failure' ∧ (temps frames.head? c c').hide W' = W''
        | .ok signal W', .ok ρ W'' =>
          signal = .done ∧ (temps frames.head? c c').hide W' = W'' ∧
            ∀ x, Finds frames W' (c'.resolve x) (ρ x)
        | _, _ => False := by
  have hexpand (V : Veil) (hsymbol : V.names "Symbol" = false) :=
    expand_binds (upTo_expr V c.settled hsymbol n) hpattern hdepth hopen e []
  -- The bindings do not depend on the veil, but the veil is over what they make: they are taken
  -- from another veil first.
  obtain ⟨bindings, c', hrun, hdeclares, -, -⟩ :=
    hexpand (temps none c c) (names_temps_of_noDigit (by decide))
  refine ⟨bindings, c', hrun, fun frames W hhosts => ?_⟩
  obtain ⟨bindings₁, c₁, hrun₁, -, -, hsim⟩ :=
    hexpand (temps frames.head? c c') (names_temps_of_noDigit (by decide))
  obtain ⟨rfl, rfl⟩ : bindings = bindings₁ ∧ c' = c₁ := by simpa [hrun] using hrun₁
  have hruns : (temps frames.head? c c').Runs (bounded (depth + 2) limit) (Interp.upTo depth)
      frames := ⟨bounded_nests _ depth limit, rfl⟩
  have hreads (τ : Store) : (temps frames.head? c c').Reads (bounded (depth + 2) limit) frames τ e
      ((bounded (depth + 2) limit).eval frames e) :=
    .ofInsulated (eval_insulated hruns.nests.insulated e fun _ x hx =>
      names_temps_of_not_future (he x hx))
  have hagree := hsim (temps_covers hdeclares.later) outer hruns
    (related_env (fun _ => names_temps_of_settled) _) (fun τ _ => hreads τ) (temps_ready hhosts) rfl
  cases hres : (bounded (depth + 2) limit).execAll frames (Binding.assigns outer bindings) W with
  | error failure W' =>
    rw [hres] at hagree
    simp only [hagree, and_self]
  | ok signal W' =>
    rw [hres] at hagree
    obtain ⟨ρ, hreading, hready', hsignal, hρ, -⟩ := hagree
    simp only [hreading, true_and]
    refine ⟨hsignal, fun x => ?_⟩
    have hmeans := hρ x
    cases hx : ρ x with
    | value v =>
      rw [hx] at hmeans
      exact valueOf_ok_iff.mpr ⟨rfl, hready'.read hmeans.1⟩
    | outer t =>
      rw [hx] at hmeans
      exact hmeans.1

/-- The pattern `[[a & r] [:: b :k :or {:k a}] :as w]`. -/
def nestedPattern : Form :=
  .vector [
    .vector [.named "a", .named "&", .named "r"] .none,
    .vector [.keyword ⟨":", .none⟩, .named "b", .keyword ⟨"k", .none⟩, .keyword ⟨"or", .none⟩,
      .map [(.keyword ⟨"k", .none⟩, .named "a")] .none] .none,
    .keyword ⟨"as", .none⟩, .named "w"] .none

/-- A world with the library and a variable `v` for a row of numbers and an empty table. -/
def nestedWorld : World where
  globals := (Native.compiled.map fun p => (p.1, .native p.2)) ++
    [("v", .tuple [.tuple [.ofInt 1, .ofInt 2, .ofInt 3], .dict []])]

theorem nestedWorld_hosts {V : Veil} (h : V.scope = none) : V.Hosts [] nestedWorld := by
  refine ⟨⟨?_, fun ref => ?_, ?_, ?_, by simp [h]⟩, by simp, ?_⟩
  · simp [nestedWorld, Native.compiled]
  · have hvars : nestedWorld.varsOf ref = [] := by
      simp [nestedWorld, World.varsOf]
      rfl
    simp [hvars]
  · simp [nestedWorld, World.listAt]
  · simp [nestedWorld, CleanIter]
  · intro p hp
    simp only [Native.compiled, List.mem_cons, List.not_mem_nil, or_false] at hp
    rcases hp with rfl | rfl | rfl | rfl | rfl <;> rfl

theorem hide_nestedWorld (c c' : Context) : (temps none c c').hide nestedWorld = nestedWorld := by
  have hglobals : ∀ p ∈ nestedWorld.globals, p.1.toList.all (fun ch => !ch.isDigit) = true := by
    decide
  have hkeep : (temps none c c').hideVars nestedWorld.globals = nestedWorld.globals :=
    List.filter_eq_self.mpr fun p hp => by simp [names_temps_of_noDigit (hglobals p hp)]
  simp only [hide, temps] at hkeep ⊢
  rw [hkeep]

/-- The default of the inner table reads a name that the pattern binds before it. -/
theorem expand_means_pattern_nested :
    ∃ bindings c' W', expand (upTo 4).expr .fresh nestedPattern (.load "v") []
        { scopes := [[]] } = .ok bindings c' ∧
      (bounded 3 0).execAll [] (Binding.assigns none bindings) nestedWorld = .ok .done W' ∧
      valueOf [] (c'.resolve "b") W' = .ok (.ofInt 1) W' := by
  obtain ⟨bindings, c', hrun, hmeans⟩ := expand_means_pattern 4 1 0 { scopes := [[]] }
    nestedPattern (.load "v") none (by decide) (by decide) (by simp) (by
      rintro x hx ⟨k, hk, -⟩
      rw [List.mem_singleton.mp hx, tempNumber?_of_noDigit _ (by decide)] at hk
      cases hk)
  obtain ⟨ρ, W', hreading, hb⟩ : ∃ ρ W', (do
      let v ← (bounded 3 0).eval [] (.load "v")
      Reading.bindPattern (bounded 3 0) (Interp.upTo 1) [] nestedPattern v
        (Context.env { scopes := [[]] }) : Exec Env) nestedWorld = .ok ρ W' ∧
      ρ "b" = .value (.ofInt 1) := ⟨_, _, rfl, rfl⟩
  have hagree := hmeans [] nestedWorld (nestedWorld_hosts rfl)
  rw [List.head?_nil, hide_nestedWorld, hreading] at hagree
  cases hres : (bounded 3 0).execAll [] (Binding.assigns none bindings) nestedWorld with
  | error failure W' => simp only [hres] at hagree
  | ok signal W' =>
    simp only [hres] at hagree
    obtain ⟨rfl, -, hfinds⟩ := hagree
    have hvalue := hfinds "b"
    rw [hb] at hvalue
    exact ⟨bindings, c', W', hrun, hres, hvalue⟩

end Lowering

end TailLisp
