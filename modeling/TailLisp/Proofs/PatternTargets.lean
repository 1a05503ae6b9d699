import TailLisp.Proofs.PatternParts

/-!
# TailLisp.Proofs.PatternTargets

**Patterns bind what they say.** The expansion of a pattern is a row of assignments. Run in order,
they do what `Reading.bindPattern` does by recursion on the pattern, and afterwards every name that
the pattern binds resolves to a variable with the value that the reading gives it
(`Lowering.expand_binds_targets`).

An expression is evaluated long after it was made, so it has to keep its value while the binders
before it are bound. Where names are bound to temporaries, it reads only temporaries that were made
before. In a helper function, at the entry of a function or in a definition, the names of a pattern
are targets themselves, and an expression that waits can be overtaken: what it reads may be bound
again before it is evaluated. `Form.Orderly` rules this out: the holder of a compound pattern is
bound once, and so is every name of the pattern that a default reads, before the table with the
default is taken apart.
-/

namespace TailLisp

/-! ### Environments that agree on the names of a form -/

namespace Reading

variable {self : Interp} {frames : List Nat} {ρ ρ' : Env} {S : String → Bool}

/-- A symbol reads the variable of its first part. -/
theorem symbolValue_congr (h : ∀ x, S x = true → ρ x = ρ' x) {s : Symbol}
    (hs : (Form.symbol s).onlyNames S = true) :
    symbolValue frames ρ s = symbolValue frames ρ' s := by
  unfold symbolValue
  cases hparts : Name.parts s.name with
  | nil => rfl
  | cons first fields =>
    have hfirst : S (Name.spell first) = true := by
      simp only [Form.onlyNames, hparts, List.map_cons, List.all_cons, Bool.and_eq_true] at hs
      exact hs.2.1
    dsimp only
    rw [h _ hfirst]

theorem value_call_congr {head : Form} (h : ∀ s, head ≠ .symbol s) {args : List Form}
    {span : Option Span} (hhead : value self frames ρ head = value self frames ρ' head)
    (hargs : values self frames ρ args = values self frames ρ' args) :
    value self frames ρ (.list (head :: args) span) =
      value self frames ρ' (.list (head :: args) span) := by
  rw [value, value, hhead, hargs]
  · exact h
  · exact h

mutual

/-- The value of a form depends on what its names stand for. -/
theorem value_congr (h : ∀ x, S x = true → ρ x = ρ' x) :
    (form : Form) → form.onlyNames S = true → value self frames ρ form = value self frames ρ' form
  | .const _, _ => rfl
  | .symbol s, hs => symbolValue_congr h hs
  | .keyword _, _ => rfl
  | .vector items _, hs => by rw [value, value, values_congr h items hs]
  | .map es _, hs => by rw [value, value, valuesOfEntries_congr h es hs]
  | .list [] _, _ => rfl
  | .list (.symbol head :: args) _, hs => by
    obtain ⟨hhead, hargs⟩ := Bool.and_eq_true_iff.mp hs
    rw [value, value, values_congr h args hargs, headed, headed, symbolValue_congr h hhead]
  | .list (.const k :: args) _, hs => value_call_congr (by simp) rfl (values_congr h args hs)
  | .list (.keyword k :: args) _, hs => value_call_congr (by simp) rfl (values_congr h args hs)
  | .list (.list items span :: args) _, hs =>
    have hs := Bool.and_eq_true_iff.mp hs
    value_call_congr (by simp) (value_congr h (.list items span) hs.1) (values_congr h args hs.2)
  | .list (.vector items span :: args) _, hs =>
    have hs := Bool.and_eq_true_iff.mp hs
    value_call_congr (by simp) (value_congr h (.vector items span) hs.1) (values_congr h args hs.2)
  | .list (.map es span :: args) _, hs =>
    have hs := Bool.and_eq_true_iff.mp hs
    value_call_congr (by simp) (value_congr h (.map es span) hs.1) (values_congr h args hs.2)

theorem values_congr (h : ∀ x, S x = true → ρ x = ρ' x) :
    (forms : List Form) → Form.onlyNamesAll S forms = true →
      values self frames ρ forms = values self frames ρ' forms
  | [], _ => rfl
  | form :: forms, hs => by
    obtain ⟨hform, hforms⟩ := Bool.and_eq_true_iff.mp hs
    rw [values, values, value_congr h form hform, values_congr h forms hforms]

theorem valuesOfEntries_congr (h : ∀ x, S x = true → ρ x = ρ' x) :
    (es : List (Form × Form)) → Form.onlyNamesEntries S es = true →
      valuesOfEntries self frames ρ es = valuesOfEntries self frames ρ' es
  | [], _ => rfl
  | (key, value') :: es, hs => by
    obtain ⟨hfirst, hes⟩ := Bool.and_eq_true_iff.mp hs
    obtain ⟨hkey, hvalue⟩ := Bool.and_eq_true_iff.mp hfirst
    rw [valuesOfEntries, valuesOfEntries, value_congr h key hkey, value_congr h value' hvalue,
      valuesOfEntries_congr h es hes]

end

end Reading

/-! ### The names of a pattern -/

/-- The predicate holds of every item, given the names of the items before it. -/
def AllAfter {α : Type} (names : α → List String) (P : List String → α → Prop) :
    List String → List α → Prop
  | _, [] => True
  | before, a :: as => P before a ∧ AllAfter names P (before ++ names a) as

section AllAfter

variable {α β : Type} {names : β → List String} {P : List String → β → Prop}
  {before : List String} {as bs : List β}

theorem AllAfter.of_forall (h : ∀ b ∈ bs, ∀ before, P before b) : AllAfter names P before bs := by
  induction bs generalizing before with
  | nil => trivial
  | cons b bs ih =>
    rw [List.forall_mem_cons] at h
    exact ⟨h.1 before, ih h.2⟩

/-- A row in two parts: the second one is behind the names of the first. -/
theorem AllAfter.append (has : AllAfter names P before as)
    (hbs : AllAfter names P (before ++ as.flatMap names) bs) :
    AllAfter names P before (as ++ bs) := by
  induction as generalizing before with
  | nil => simpa using hbs
  | cons a as ih =>
    refine ⟨has.1, ih has.2 ?_⟩
    rwa [List.flatMap_cons, ← List.append_assoc] at hbs

theorem allAfter_map (f : α → β) (before : List String) (items : List α) :
    AllAfter names P before (items.map f) ↔
      AllAfter (fun a => names (f a)) (fun before a => P before (f a)) before items := by
  induction items generalizing before with
  | nil => rfl
  | cons a items ih => simp only [List.map_cons, AllAfter, ih]

end AllAfter

namespace Form

/-- The name of an alias, if there is one. -/
def aliasNames (whole : Option Symbol) : List String :=
  (whole.map fun s => Name.spell s.name).toList

/-- The names that a pattern binds, in order. Patterns nest at most `depth` deep. -/
def boundNames : Nat → Form → List String
  | 0, _ => []
  | depth + 1, form =>
    match Pattern.ofForm form with
    | .error _ => []
    | .ok (.name s) => [Name.spell s.name]
    | .ok (.sequence p) =>
      aliasNames p.whole ++ (p.items ++ (p.rest.map Form.symbol).toList).flatMap (boundNames depth)
    | .ok (.table p) => aliasNames p.whole ++ (p.entries.map (·.1)).flatMap (boundNames depth)

/-- The names that a default may read: those of which `S` holds, and those that were bound before
and are kept. -/
def mayRead (S keep : String → Bool) (before : List String) (x : String) : Bool :=
  S x || (keep x && before.contains x)

/-- A pattern that can be bound in order, with the names `X` as targets: an alias that is a target
is kept, and every default reads names of which `S` holds or names that are kept and were bound
before its table is taken apart. -/
def Orderly (S keep : String → Bool) (X : List String) : Nat → List String → Form → Prop
  | 0, _, _ => False
  | depth + 1, before, form =>
    match Pattern.ofForm form with
    | .error _ => False
    | .ok (.name _) => True
    | .ok (.sequence p) =>
      (∀ x ∈ aliasNames p.whole, x ∈ X → keep x = true) ∧
        AllAfter (boundNames depth) (Orderly S keep X depth) (before ++ aliasNames p.whole)
          (p.items ++ (p.rest.map Form.symbol).toList)
    | .ok (.table p) =>
      (∀ x ∈ aliasNames p.whole, x ∈ X → keep x = true) ∧
        (∀ entry ∈ p.entries, ∀ default, p.default? entry.2 = some default →
          default.isDefault (mayRead S keep (before ++ aliasNames p.whole)) = true) ∧
        AllAfter (boundNames depth) (Orderly S keep X depth) (before ++ aliasNames p.whole)
          (p.entries.map (·.1))

variable {S keep : String → Bool} {X before : List String} {depth : Nat} {form : Form}

/-- A default that reads no name of its pattern can wait as long as it likes. -/
theorem mayRead_nothing (S : String → Bool) (before : List String) :
    mayRead S (fun _ => false) before = S := by
  funext x
  simp [mayRead]

/-- Where no name is a target, nothing is overtaken. -/
theorem orderly_of_binds (h : form.binds (isDefault S) depth = true) :
    form.Orderly S (fun _ => false) [] depth before := by
  induction depth generalizing before form with
  | zero => simp [binds] at h
  | succ depth ih =>
    unfold binds at h
    unfold Orderly
    cases hpattern : Pattern.ofForm form with
    | error fault => simp [hpattern] at h
    | ok pattern =>
      cases pattern with
      | name s => trivial
      | sequence p =>
        simp only [hpattern, List.all_eq_true] at h
        exact ⟨nofun, .of_forall fun item hitem _ => ih (h item hitem)⟩
      | table p =>
        simp only [hpattern, List.all_eq_true, Bool.and_eq_true] at h
        refine ⟨nofun, fun entry hentry default hdefault => ?_, .of_forall fun item hitem _ => ?_⟩
        · have hall := (h entry hentry).2
          rw [hdefault] at hall
          rwa [mayRead_nothing]
        · obtain ⟨entry, hentry, rfl⟩ := List.mem_map.mp hitem
          exact ih (h entry hentry).1

end Form

/-! ### Targets -/

namespace Context

variable {mode : BindMode} {X : List String} {c c' : Context} {σ τ : Veil.Store}

/-- Binders can be bound with the names `X` as targets. -/
structure Targets (mode : BindMode) (X : List String) (c : Context) : Prop where
  isOpen : mode = .asIs ∨ c.scopes ≠ []
  clear : ∀ x ∈ X, tempNumber? c.tempPrefix x = none
  own : ∀ x ∈ X, ∀ y, c.resolve y = x → y = x
  same : mode = .asIs → ∀ x ∈ X, c.resolve x = x

theorem Targets.not_future (h : c.Targets mode X) {x : String} (hx : x ∈ X) : ¬c.Future x := by
  rintro ⟨k, hk, -⟩
  rw [h.clear x hx] at hk
  cases hk

theorem Targets.of_scopes (h : c.Targets mode X) (hlater : c.Later c')
    (hscopes : c'.scopes = c.scopes) : c'.Targets mode X := by
  have hresolve (x : String) : c'.resolve x = c.resolve x := by simp [resolve, hscopes]
  refine ⟨?_, ?_, ?_, ?_⟩
  · rw [hscopes]
    exact h.isOpen
  · rw [hlater.tempPrefix]
    exact h.clear
  · simpa only [hresolve] using h.own
  · simpa only [hresolve] using h.same

/-- A new name in the innermost scope keeps the targets apart, unless it takes one of them for
another. -/
theorem Targets.declare (h : c.Targets mode X) (hopen : c.scopes ≠ []) {x t : String}
    (ht : t ∈ X → t = x) (hmode : mode ≠ .asIs) : (c.declare x t).Targets mode X := by
  refine ⟨.inr (declare_scopes_ne_nil hopen), ?_, ?_, fun heq => absurd heq hmode⟩
  · rw [(c.later_declare x t).tempPrefix]
    exact h.clear
  · intro z hz y hy
    rw [resolve_declare hopen] at hy
    split at hy
    · rename_i heq
      rw [heq, ← ht (hy ▸ hz), hy]
    · exact h.own z hz y hy

variable (mode X) in
/-- A later context in which binders were bound: names were declared in the innermost scope only. -/
structure Binds (c c' : Context) : Prop where
  targets : c'.Targets mode X
  later : c.Later c'
  outer : c'.scopes.tail = c.scopes.tail

theorem Targets.binds_fresh (h : c.Targets mode X) (stem : String) :
    c.Binds mode X (c.fresh stem).2 :=
  ⟨h.of_scopes (c.later_fresh stem) rfl, c.later_fresh stem, rfl⟩

theorem Binds.trans {c'' : Context} (h : c.Binds mode X c') (h' : c'.Binds mode X c'') :
    c.Binds mode X c'' :=
  ⟨h'.targets, h.later.trans h'.later, h'.outer.trans h.outer⟩

/-- The variables keep their values, apart from temporaries that are still to be made and from names
of `X` that are not kept or not bound yet. -/
def Guards (X : List String) (keep : String → Bool) (before : List String) (c : Context)
    (σ τ : Veil.Store) : Prop :=
  ∀ z, ¬c.Future z → (z ∈ X → keep z = true ∧ z ∈ before) → τ z = σ z

/-- The variables keep their values, apart from names of `X` and temporaries that are made from one
context to the other. -/
def Changes (X : List String) (c c' : Context) (σ τ : Veil.Store) : Prop :=
  ∀ x, ¬c.Makes c' x → x ∉ X → τ x = σ x

theorem Changes.set {t : String} (ht : c.Makes c' t ∨ t ∈ X) (v : Value) :
    c.Changes X c' σ (σ.set t v) := by
  intro x hmade hx
  have hne : x ≠ t := by
    rintro rfl
    exact ht.elim hmade hx
  simp [Veil.Store.set, hne]

/-- Changes of two steps are changes of the whole. -/
theorem Changes.trans {c'' : Context} {υ : Veil.Store} (h : c.Changes X c' σ τ)
    (h' : c'.Changes X c'' τ υ) (hlater : c.Later c') (hlater' : c'.Later c'') :
    c.Changes X c'' σ υ := by
  intro x hmade hx
  have hfirst : ¬c.Makes c' x := fun hx' => hmade (hx'.mono (.refl c) hlater')
  have hsecond : ¬c'.Makes c'' x := fun hx' => hmade (hx'.mono hlater (.refl c''))
  rw [h' x hsecond hx, h x hfirst hx]

theorem Guards.refl {keep : String → Bool} {before : List String} (c : Context) (σ : Veil.Store) :
    c.Guards X keep before σ σ := fun _ _ _ => rfl

end Context

open Veil Interp

/-- A name that means itself is bound under its own name. -/
theorem Veil.Related.bindOwn {V : Veil} {S : String → Bool} {c c₁ : Context} {ρ : Env} {σ : Store}
    {x : String} (h : V.Related S c ρ σ) (hlater : c.Later c₁) (hx : c₁.resolve x = x)
    (hothers : ∀ y, y ≠ x → c₁.resolve y = c.resolve y) (hown : ∀ y, c.resolve y = x → y = x)
    (hmade : ¬c.Future x) (v : Value) : V.Related S c₁ (ρ.bind x v) (σ.set x v) := by
  intro y
  unfold Env.bind
  split
  · rename_i heq
    rw [heq, hx]
    exact ⟨by simp [Store.set], fun hfuture => hmade (hlater.future hfuture)⟩
  · rename_i hne
    rw [hothers y hne]
    have hold := h y
    cases hmeaning : ρ y with
    | outer t =>
      rw [hmeaning] at hold
      exact hold
    | value w =>
      rw [hmeaning] at hold
      have htarget : c.resolve y ≠ x := fun heq => hne (hown y heq)
      exact ⟨by simp only [Store.set, if_neg htarget, hold.1],
        fun hfuture => hold.2 (hlater.future hfuture)⟩

namespace Lowering

variable {mode : BindMode} {X : List String} {c : Context}

/-- A name is bound to a new temporary or to itself. -/
theorem bind_targets (h : c.Targets mode X) {x : String} (hx : mode = .fresh ∨ x ∈ X) :
    ∃ target c₁, Compile.bind mode x c = .ok target c₁ ∧ c.Binds mode X c₁ ∧
      (c.Makes c₁ target ∨ target ∈ [x] ∧ target ∈ X) ∧
      ∀ {V : Veil} {S : String → Bool} {ρ : Env} {σ : Store} (v : Value), V.Related S c ρ σ →
        V.Related S c₁ (ρ.bind x v) (σ.set target v) := by
  cases mode
  · -- The name as it is.
    have hmem : x ∈ X := hx.resolve_left nofun
    refine ⟨x, c, rfl, ⟨h, .refl c, rfl⟩, .inr ⟨.head _, hmem⟩, fun v hρ => ?_⟩
    exact hρ.bindOwn (.refl c) (h.same rfl x hmem) (fun _ _ => rfl) (h.own x hmem)
      (h.not_future hmem) v
  · -- The name, declared as itself in the innermost scope.
    have hmem : x ∈ X := hx.resolve_left nofun
    have hopen : c.scopes ≠ [] := h.isOpen.resolve_left nofun
    have hdeclares := c.declares_declare hopen x x
    refine ⟨x, c.declare x x, rfl,
      ⟨h.declare hopen (fun _ => rfl) nofun, hdeclares.later, hdeclares.outer⟩,
      .inr ⟨.head _, hmem⟩, fun v hρ => ?_⟩
    refine hρ.bindOwn hdeclares.later ?_ (fun y hy => ?_) (h.own x hmem) (h.not_future hmem) v
    · rw [Context.resolve_declare hopen, if_pos rfl]
    · rw [Context.resolve_declare hopen, if_neg hy]
  · -- A new temporary that the name is declared to mean.
    have hopen : c.scopes ≠ [] := h.isOpen.resolve_left nofun
    have hfresh := h.binds_fresh (x ++ "_")
    have hdeclares := (c.fresh (x ++ "_")).2.declares_declare hopen x (c.fresh (x ++ "_")).1
    refine ⟨(c.fresh (x ++ "_")).1, (c.fresh (x ++ "_")).2.declare x (c.fresh (x ++ "_")).1, rfl,
      hfresh.trans ⟨hfresh.targets.declare hopen (fun hmem => ?_) nofun, hdeclares.later,
        hdeclares.outer⟩,
      .inl ((c.makes_fresh x).mono (.refl c) hdeclares.later), fun v hρ => ?_⟩
    · exact absurd (c.future_fresh x) (h.not_future hmem)
    · exact hρ.bind hopen x v

/-- The holder of a compound pattern is a new temporary, or its alias itself. -/
theorem holder_targets (h : c.Targets mode X) {whole : Option Symbol}
    (hwhole : mode = .fresh ∨ ∀ x ∈ Form.aliasNames whole, x ∈ X) :
    ∃ target c₁, holder mode whole c = .ok target c₁ ∧ c.Binds mode X c₁ ∧
      (c.Makes c₁ target ∨ target ∈ Form.aliasNames whole ∧ target ∈ X) ∧
      ∀ {V : Veil} {S : String → Bool} {ρ : Env} {σ : Store} (v : Value), V.Related S c ρ σ →
        V.Related S c₁ (ρ.bindAlias whole v) (σ.set target v) := by
  cases whole with
  | none =>
    exact ⟨(c.fresh "destructure_").1, (c.fresh "destructure_").2, rfl, h.binds_fresh _,
      .inl (c.makes_fresh "destructure"), fun v hρ => hρ.fresh "destructure" v⟩
  | some s => exact bind_targets h (hwhole.imp_right fun h => h _ (.head _))

end Lowering

/-! ### Expressions that wait -/

/-- The environment on the names of which `S` holds; all others stand for what they mean in the
context. -/
def Env.only (ρ : Env) (S : String → Bool) (c : Context) : Env :=
  fun x => if S x then ρ x else .outer (c.resolve x)

namespace Veil

variable {V : Veil} {S keep : String → Bool} {mode : BindMode} {X before before' : List String}
  {self inner : Interp} {frames : List Nat} {c c₁ : Context} {ρ : Env} {σ τ : Store}

/-- The names that a default may read still mean what they did when the table was taken apart. -/
theorem Related.only (h : V.Related S c ρ σ) (hbefore : ∀ x ∈ before, ∃ v, ρ x = .value v)
    (hS : ∀ x ∈ X, S x = false) (hown : ∀ x ∈ X, ∀ y, c.resolve y = x → y = x)
    (hτ : c.Guards X keep before σ τ) :
    V.Related (Form.mayRead S keep before) c (ρ.only (Form.mayRead S keep before) c) τ := by
  intro x
  unfold Env.only
  cases hread : Form.mayRead S keep before x with
  | false => exact ⟨rfl, nofun⟩
  | true =>
    rw [if_pos rfl]
    have hmeans := h x
    rw [Form.mayRead, Bool.or_eq_true, Bool.and_eq_true, List.contains_iff_mem] at hread
    cases hmeaning : ρ x with
    | value v =>
      rw [hmeaning] at hmeans
      refine ⟨?_, hmeans.2⟩
      rw [hτ _ hmeans.2 fun hmem => ?_, hmeans.1]
      -- The variable may be one of `X`; then it is the name itself, which was kept.
      have heq : x = c.resolve x := hown _ hmem x rfl
      rw [← heq] at hmem ⊢
      exact hread.resolve_left fun hx => by simp [hS x hmem] at hx
    | outer t =>
      rw [hmeaning] at hmeans
      refine ⟨hmeans.1, fun _ => hmeans.2 (hread.resolve_right fun hx => ?_)⟩
      obtain ⟨v, hv⟩ := hbefore x hx.2
      rw [hmeaning] at hv
      cases hv

variable (V) in
/-- The expression of a binder has the value that the binder takes, and keeps it while the binders
before it are bound. -/
def Supplied (self : Interp) (frames : List Nat) (X : List String) (keep : String → Bool)
    (before : List String) (c : Context) (σ : Store) (item : Nat × Lowering.Work)
    (take : Reading.Take) : Prop :=
  item.1 = take.depth ∧ item.2.1 = take.binder ∧
    ∀ τ, c.Guards X keep before σ τ → V.Reads self frames τ item.2.2 take.value

/-- An assignment to a new temporary, or to a name that is not kept yet, overtakes nothing. -/
theorem Supplied.step {item : Nat × Lowering.Work} {take : Reading.Take} {t : String}
    (h : V.Supplied self frames X keep before c σ item take) (hlater : c.Later c₁)
    (hbefore : ∀ x ∈ before, x ∈ before')
    (ht : c.Future t ∨ t ∈ X ∧ ¬(keep t = true ∧ t ∈ before)) (v : Value) :
    V.Supplied self frames X keep before' c₁ (σ.set t v) item take := by
  refine ⟨h.1, h.2.1, fun τ hτ => h.2.2 τ fun z hz hkept => ?_⟩
  have hne : z ≠ t := by
    rintro rfl
    rcases ht with hfuture | ⟨hmem, hnot⟩
    · exact hz hfuture
    · exact hnot (hkept hmem)
  rw [hτ z (fun hfuture => hz (hlater.future hfuture)) fun hmem =>
    ⟨(hkept hmem).1, hbefore z (hkept hmem).2⟩, Store.set, if_neg hne]

theorem supplied_cons {d : Nat} {form : Form} {e : Expr} {items : List (Nat × Lowering.Work)}
    {takes : List Reading.Take}
    (h : List.Forall₂ (V.Supplied self frames X keep before c σ) ((d, form, e) :: items) takes) :
    ∃ m others, takes = ⟨d, form, m⟩ :: others ∧ V.Reads self frames σ e m ∧
      List.Forall₂ (V.Supplied self frames X keep before c σ) items others := by
  obtain ⟨⟨depth, binder, m⟩, others, ⟨hdepth, hbinder, hreads⟩, hothers, rfl⟩ :=
    List.forall₂_cons_left_iff.mp h
  dsimp only at hdepth hbinder
  subst hdepth hbinder
  exact ⟨m, others, rfl, hreads σ (.refl c σ), hothers⟩

/-- What binders take from a holder that is kept can be read while they wait. -/
theorem sequenceParts_supplied (hself : self.Insulated V) (p : SequencePattern) (d : Nat)
    {holder : String} {s : Value} (hs : σ holder = some s) (hmade : ¬c.Future holder)
    (hkept : holder ∈ X → keep holder = true ∧ holder ∈ before) :
    List.Forall₂ (V.Supplied self frames X keep before c σ)
      ((Lowering.sequenceParts p holder).map (d, ·))
      ((Reading.sequenceTakes self p s).map fun part => ⟨d, part.1, part.2⟩) := by
  have hcall {x : String} {fn : Native} (hx : (x, fn) ∈ Native.compiled) (i : Int)
      {υ : Store} (hυ : c.Guards X keep before σ υ) :
      V.Reads self frames υ (.callOf x [.load holder, .constant (.int i)])
        (self.call (.native fn) [s, .ofInt i]) := by
    have hholder : V.Reads self frames υ (.load holder) (pure s) :=
      .veiled none (by rw [hυ holder hmade hkept, hs])
    have hreads := Reads.callOf hself hx (.cons hholder (.cons (.const none (.int i)) .nil))
    simp only [Reading.inOrder, pure_bind] at hreads
    exact hreads
  simp only [Lowering.sequenceParts, Reading.sequenceTakes, List.map_append, List.map_map]
  refine List.rel_append ?_ ?_
  · rw [List.forall₂_map_left_iff, List.forall₂_map_right_iff, List.forall₂_same]
    exact fun item _ => ⟨rfl, rfl, fun υ hυ => hcall (by simp [Native.compiled]) _ hυ⟩
  · cases p.rest with
    | none => exact .nil
    | some r => exact .cons ⟨rfl, rfl, fun υ hυ => hcall (by simp [Native.compiled]) _ hυ⟩ .nil

end Veil

namespace Reading

/-- A look-up with a default depends on the names that the default reads. -/
theorem lookup_congr {self inner : Interp} {frames : List Nat} {ρ ρ' : Env} {table key : Value}
    {S : String → Bool} (h : ∀ x, S x = true → ρ x = ρ' x) {default : Option Form}
    (hdefault : ∀ form, default = some form → form.onlyNames S = true) :
    lookup self inner frames ρ table key default =
      lookup self inner frames ρ' table key default := by
  cases default with
  | none => rfl
  | some form =>
    have hvalue (ref : Nat) :
        value inner (ref :: frames) ρ form = value inner (ref :: frames) ρ' form :=
      value_congr h form (hdefault form rfl)
    simp only [lookup, hvalue]

end Reading

namespace Lowering

variable {V : Veil} {S keep : String → Bool} {mode : BindMode} {X before : List String} {n : Nat}
  {lowering : Lowering} {c c₁ c' : Context}

/-- What the entries of a table take from it can be read while they wait. -/
theorem tableParts_supplied {self inner : Interp} {frames : List Nat} {ρ : Env} {σ : Store}
    (hnests : self.Nests V inner) {p : TablePattern} (d : Nat) {holder : String} {table : Value}
    (hρ : V.Related S c ρ σ) (hbefore : ∀ x ∈ before, ∃ v, ρ x = .value v)
    (hS : ∀ x ∈ X, S x = false) (hown : ∀ x ∈ X, ∀ y, c.resolve y = x → y = x)
    (htable : σ holder = some table) (hmade : ¬c.Future holder)
    (hkept : holder ∈ X → keep holder = true ∧ holder ∈ before)
    {entries : List (Form × Key)} {parts : List Work}
    (hdefaults : ∀ entry ∈ entries, ∀ form, p.default? entry.2 = some form →
      form.isDefault (Form.mayRead S keep before) = true)
    (h : List.Forall₂ (fun (entry : Form × Key) (part : Work) => part.1 = entry.1 ∧
      TakesEntry V (Form.mayRead S keep before) c p holder entry part.2) entries parts) :
    List.Forall₂ (V.Supplied self frames X keep before c σ) (parts.map (d, ·))
      (entries.map fun entry =>
        ⟨d, entry.1, do
          let k ← Reading.keyValue self entry.2
          Reading.lookup self inner frames ρ table k (p.default? entry.2)⟩) := by
  rw [List.forall₂_map_left_iff, List.forall₂_map_right_iff]
  induction h with
  | nil => exact .nil
  | @cons entry part entries parts hpart _ ih =>
    rw [List.forall_mem_cons] at hdefaults
    refine .cons ⟨rfl, hpart.1, fun τ hτ => ?_⟩ (ih hdefaults.2)
    -- The default is read in an environment of the names that it may read, which has not changed.
    have hvisible := hρ.only hbefore hS hown hτ
    have hreads : V.Reads self frames τ part.2 _ :=
      hpart.2 hnests hvisible (by rw [hτ holder hmade hkept, htable])
    have hsame (k : Value) : Reading.lookup self inner frames
          (ρ.only (Form.mayRead S keep before) c) table k (p.default? entry.2) =
        Reading.lookup self inner frames ρ table k (p.default? entry.2) :=
      Reading.lookup_congr (S := Form.mayRead S keep before) (fun x hx => if_pos hx)
        fun form hform => (Bool.and_eq_true_iff.mp (hdefaults.1 form hform)).2
    simpa only [hsame] using hreads

/-! ### The list of work -/

/-- The names that an item of the work binds. -/
def namesOf (item : Nat × Work) : List String := item.2.1.boundNames item.1

theorem flatMap_namesOf (d : Nat) (parts : List Work) :
    (parts.map (d, ·)).flatMap namesOf = (parts.map (·.1)).flatMap (Form.boundNames d) := by
  rw [List.flatMap_map, List.flatMap_map]
  rfl

theorem allAfter_work (d : Nat) (parts : List Work) :
    AllAfter namesOf (fun before item => item.2.1.Orderly S keep X item.1 before) before
        (parts.map (d, ·)) ↔
      AllAfter (Form.boundNames d) (Form.Orderly S keep X d) before (parts.map (·.1)) := by
  rw [allAfter_map, allAfter_map]
  rfl

/-- The binders of the work can be bound in order, after the names `before`. A name that is kept is
bound once. -/
structure Orderly (S keep : String → Bool) (mode : BindMode) (X : List String) (n : Nat)
    (before : List String) (items : List (Nat × Work)) : Prop where
  orderly : AllAfter namesOf (fun before item => item.2.1.Orderly S keep X item.1 before) before
    items
  once : ((before ++ items.flatMap namesOf).filter keep).Nodup
  targets : mode = .fresh ∨ ∀ x ∈ items.flatMap namesOf, x ∈ X
  depth : ∀ item ∈ items, item.2.1.depth < n

/-- The statements have come to their end, all names mean what the environment says, and the given
ones have values. -/
def Named (V : Veil) (S : String → Bool) (c : Context) (names : List String) :
    Store → Signal → Env → Prop :=
  fun τ signal ρ => signal = .done ∧ V.Related S c ρ τ ∧ ∀ x ∈ names, ∃ v, ρ x = .value v

/-- The bindings, as assignments, bind the binders to what they take, and change nothing else. -/
def BindsTargets (V : Veil) (S keep : String → Bool) (X before : List String) (c c' : Context)
    (items : List (Nat × Work)) (bindings : List Binding) : Prop :=
  ∀ ⦃self inner : Interp⦄ ⦃frames : List Nat⦄ ⦃ρ : Env⦄ ⦃σ : Store⦄ ⦃takes : List Reading.Take⦄
    (outer : Option Span), V.Runs self inner frames → V.Related S c ρ σ →
    (∀ x ∈ before, ∃ v, ρ x = .value v) →
    List.Forall₂ (V.Supplied self frames X keep before c σ) items takes →
    V.Sim frames σ (self.execAll frames (Binding.assigns outer bindings))
      (Reading.bindAll self inner frames takes ρ) fun τ signal ρ' =>
        Named V S c' (before ++ items.flatMap namesOf) τ signal ρ' ∧ c.Changes X c' σ τ

/-- The target of a binder: it is veiled, nothing that waits reads it, and it is new or one of the
names `X`. -/
structure Free (V : Veil) (X : List String) (keep : String → Bool) (before : List String)
    (c c₁ : Context) (target : String) : Prop where
  veiled : V.names target = true
  unread : c.Future target ∨ target ∈ X ∧ ¬(keep target = true ∧ target ∈ before)
  changed : c.Makes c₁ target ∨ target ∈ X

/-- The first binding fills the target of the first binder, the others go on from there: first with
the parts of what it holds, then with the other binders. -/
theorem bindsTargets_cons {target : String} {own : List String}
    (hfree : Free V X keep before c c₁ target) (hlater₁ : c.Later c₁) (hlater : c₁.Later c')
    {items : List (Nat × Work)} {rest : List Binding} {self inner : Interp} {frames : List Nat}
    {σ : Store} {takes : List Reading.Take} (hruns : V.Runs self inner frames)
    (htakes : List.Forall₂ (V.Supplied self frames X keep before c σ) items takes) {e : Expr}
    {m : Exec Value} (he : V.Reads self frames σ e m) (parts : List (Nat × Work))
    (takes' : Value → List Reading.Take) (ρ' : Value → Env)
    (hrest : BindsTargets V S keep X (before ++ own) c₁ c' (parts ++ items) rest)
    (hρ' : ∀ v, V.Related S c₁ (ρ' v) (σ.set target v))
    (hown : ∀ v, ∀ x ∈ before ++ own, ∃ w, ρ' v x = .value w)
    (hparts : ∀ v, V.Clean v → List.Forall₂
      (V.Supplied self frames X keep (before ++ own) c₁ (σ.set target v)) parts (takes' v))
    (span outer : Option Span) :
    V.Sim frames σ (self.execAll frames (Binding.assigns outer (⟨target, e, span⟩ :: rest)))
      (m >>= fun v => Reading.bindAll self inner frames (takes' v ++ takes) (ρ' v))
      fun τ signal ρ'' =>
        Named V S c' (before ++ (own ++ parts.flatMap namesOf) ++ items.flatMap namesOf) τ signal
          ρ'' ∧ c.Changes X c' σ τ := by
  refine Sim.assign_cons hruns.scope hfree.veiled he fun v hv => ?_
  have hothers := htakes.imp fun _ _ h =>
    h.step hlater₁ (fun x hx => List.mem_append_left own hx) hfree.unread v
  have hsim := hrest outer hruns (hρ' v) (hown v) (List.rel_append (hparts v hv) hothers)
  simp only [List.flatMap_append, List.append_assoc] at hsim ⊢
  refine hsim.imp ?_
  rintro τ signal ρ'' ⟨hnamed, hchanges⟩
  exact ⟨hnamed, (Context.Changes.set hfree.changed v).trans hchanges hlater₁ hlater⟩

/-- The work is expanded to bindings that bind all its binders to what they take. Their targets are
new, or names of `X`. -/
def ExpandsTargets (V : Veil) (S keep : String → Bool) (mode : BindMode) (X : List String)
    (lowering : Lowering) (fuel : Nat) (before : List String) (items : List (Nat × Work))
    (c : Context) : Prop :=
  ∃ bindings c', expandWork lowering.expr mode fuel (items.map (·.2)) c = .ok bindings c' ∧
    c.Binds mode X c' ∧ (∀ b ∈ bindings, c.Makes c' b.target ∨ b.target ∈ X) ∧
    (V.Covers c c' → (∀ x ∈ X, V.names x = true) →
      BindsTargets V S keep X before c c' items bindings)

section Step

variable {fuel d : Nat} {form : Form} {e : Expr} {items : List (Nat × Work)}

theorem expandsTargets_nil (htargets : c.Targets mode X) (fuel : Nat) :
    ExpandsTargets V S keep mode X lowering fuel before [] c := by
  refine ⟨[], c, ?_, ⟨htargets, .refl c, rfl⟩, by simp, ?_⟩
  · unfold expandWork
    rfl
  · intro _ _ self inner frames ρ σ takes outer hruns hρ hbefore htakes
    cases htakes
    refine .pure ⟨⟨rfl, hρ, ?_⟩, fun _ _ _ => rfl⟩
    simpa using hbefore

theorem targets_cons {target : String} {e : Expr} {span : Option Span} {rest : List Binding}
    (hlater₁ : c.Later c₁) (hlater : c₁.Later c') {own : List String}
    (hmakes : c.Makes c₁ target ∨ target ∈ own ∧ target ∈ X)
    (hrest : ∀ b ∈ rest, c₁.Makes c' b.target ∨ b.target ∈ X) :
    ∀ b ∈ ⟨target, e, span⟩ :: rest, c.Makes c' b.target ∨ b.target ∈ X :=
  List.forall_mem_cons.mpr ⟨hmakes.imp (·.mono (.refl c) hlater) (·.2),
    fun b hb => (hrest b hb).imp_left (·.mono hlater₁ (.refl c'))⟩

/-- A name that is kept is bound once, and so no later target is one that an expression waits
for. -/
theorem free_of_once {target : String} {own others : List String} (hcovers : V.Covers c c')
    (hX : ∀ x ∈ X, V.names x = true) (hlater : c₁.Later c')
    (hmakes : c.Makes c₁ target ∨ target ∈ own ∧ target ∈ X)
    (honce : ((before ++ (own ++ others)).filter keep).Nodup) :
    Free V X keep before c c₁ target := by
  rcases hmakes with hmakes | ⟨hown, hmem⟩
  · exact ⟨hcovers target (hmakes.mono (.refl c) hlater), .inl hmakes.1, .inl hmakes⟩
  · -- A kept name that was bound before would be bound twice.
    refine ⟨hX target hmem, .inr ⟨hmem, fun hkept => ?_⟩, .inr hmem⟩
    rw [List.filter_append, List.nodup_append] at honce
    refine honce.2.2 target (List.mem_filter.mpr ⟨hkept.2, hkept.1⟩) target ?_ rfl
    exact List.mem_filter.mpr ⟨List.mem_append_left _ hown, hkept.1⟩

theorem value_bind {ρ : Env} (hbefore : ∀ x ∈ before, ∃ v, ρ x = .value v) (x : String)
    (v : Value) :
    ∀ y ∈ before ++ [x], ∃ w, ρ.bind x v y = .value w := by
  intro y hy
  unfold Env.bind
  split
  · exact ⟨v, rfl⟩
  · rename_i hne
    rcases List.mem_append.mp hy with hy | hy
    · exact hbefore y hy
    · exact absurd (List.mem_singleton.mp hy) hne

theorem value_bindAlias {ρ : Env} (hbefore : ∀ x ∈ before, ∃ v, ρ x = .value v)
    (whole : Option Symbol) (v : Value) :
    ∀ y ∈ before ++ Form.aliasNames whole, ∃ w, ρ.bindAlias whole v y = .value w := by
  cases whole with
  | none => simpa [Form.aliasNames, Env.bindAlias] using hbefore
  | some s => exact value_bind hbefore (Name.spell s.name) v

/-- The parts of a binder take its place. -/
theorem Orderly.parts {item : Nat × Work} {own : List String} {parts : List (Nat × Work)}
    (h : Orderly S keep mode X n before (item :: items))
    (hnames : namesOf item = own ++ parts.flatMap namesOf)
    (hparts : AllAfter namesOf (fun before item => item.2.1.Orderly S keep X item.1 before)
      (before ++ own) parts)
    (hdepth : ∀ part ∈ parts, part.2.1.depth < n) :
    Orderly S keep mode X n (before ++ own) (parts ++ items) := by
  have hall : (before ++ own) ++ (parts ++ items).flatMap namesOf =
      before ++ (item :: items).flatMap namesOf := by
    simp [hnames]
  have hmem {x : String} (hx : x ∈ (parts ++ items).flatMap namesOf) :
      x ∈ (item :: items).flatMap namesOf := by
    rw [List.flatMap_cons, hnames, List.append_assoc, ← List.flatMap_append]
    exact List.mem_append_right own hx
  refine ⟨?_, hall ▸ h.once, h.targets.imp_right fun hX x hx => hX x (hmem hx), ?_⟩
  · have hitems := h.orderly.2
    rw [hnames, ← List.append_assoc] at hitems
    exact hparts.append hitems
  · exact List.forall_mem_append.mpr ⟨hdepth, (List.forall_mem_cons.mp h.depth).2⟩

/-- The names of a binder are targets. -/
theorem Orderly.own {item : Nat × Work} {own others : List String}
    (h : Orderly S keep mode X n before (item :: items)) (hnames : namesOf item = own ++ others) :
    mode = .fresh ∨ ∀ x ∈ own, x ∈ X :=
  h.targets.imp_right fun hX x hx => hX x (by simp [hnames, hx])

theorem Orderly.nodup {item : Nat × Work} {own others : List String}
    (h : Orderly S keep mode X n before (item :: items)) (hnames : namesOf item = own ++ others) :
    ((before ++ (own ++ (others ++ items.flatMap namesOf))).filter keep).Nodup := by
  have honce := h.once
  rwa [List.flatMap_cons, hnames, List.append_assoc own] at honce

/-- A binder that is a name is bound first, then the rest of the work. -/
theorem expandsTargets_name {s : Symbol} (hpattern : Pattern.ofForm form = .ok (.name s))
    (htargets : c.Targets mode X)
    (h : Orderly S keep mode X n before ((d + 1, form, e) :: items))
    (hrest : ∀ {c' : Context}, c'.Targets mode X →
      Orderly S keep mode X n (before ++ [Name.spell s.name]) items →
      ExpandsTargets V S keep mode X lowering fuel (before ++ [Name.spell s.name]) items c') :
    ExpandsTargets V S keep mode X lowering (fuel + 1) before ((d + 1, form, e) :: items) c := by
  have hnames : namesOf (d + 1, form, e) = [Name.spell s.name] ++ [].flatMap namesOf := by
    simp [namesOf, Form.boundNames, hpattern]
  obtain ⟨target, c₁, hbind, hnew, hmakes, hrelated⟩ :=
    bind_targets htargets ((h.own hnames).imp_right fun hX => hX _ (List.mem_singleton.mpr rfl))
  obtain ⟨rest, c', hwork, hlast, htargeted, hbinds⟩ :=
    hrest hnew.targets (h.parts hnames trivial (by simp))
  refine ⟨⟨target, e, form.span?⟩ :: rest, c', ?_, hnew.trans hlast,
    targets_cons hnew.later hlast.later hmakes htargeted, ?_⟩
  · simp only [List.map_cons, expandWork, hpattern, Compile.lift, pure_bind]
    rw [Compile.bind_eq hbind, Compile.bind_eq hwork]
    rfl
  · intro hcovers hX self inner frames ρ σ takes outer hruns hρ hbefore htakes
    obtain ⟨m, others, rfl, hreads, hothers⟩ := supplied_cons htakes
    have hfree := free_of_once hcovers hX hlast.later hmakes (h.nodup hnames)
    rw [Reading.bindAll_name hpattern, List.flatMap_cons, hnames, ← List.append_assoc before]
    exact bindsTargets_cons hfree hnew.later hlast.later hruns hothers hreads [] (fun _ => [])
      (fun v => ρ.bind (Name.spell s.name) v) (hbinds (hcovers.mono hnew.later (.refl c')) hX)
      (fun v => hrelated v hρ) (fun v => value_bind hbefore _ v) (fun _ _ => .nil) form.span? outer

theorem held_of_holder (before : List String) {target : String} {whole : Option Symbol}
    (hnew : c.Binds mode X c₁)
    (hmakes : c.Makes c₁ target ∨ target ∈ Form.aliasNames whole ∧ target ∈ X)
    (hkeep : ∀ x ∈ Form.aliasNames whole, x ∈ X → keep x = true) :
    ¬c₁.Future target ∧
      (target ∈ X → keep target = true ∧ target ∈ before ++ Form.aliasNames whole) := by
  rcases hmakes with hmakes | ⟨halias, hmem⟩
  · refine ⟨hmakes.2, fun hmem => ?_⟩
    obtain ⟨k, hk, -⟩ := hmakes.1
    rw [← hnew.later.tempPrefix, hnew.targets.clear target hmem] at hk
    cases hk
  · exact ⟨hnew.targets.not_future hmem, fun _ =>
      ⟨hkeep target halias hmem, List.mem_append_right _ halias⟩⟩

/-- A sequence pattern is bound to its holder, and its parts go to the front of the work. -/
theorem expandsTargets_sequence {p : SequencePattern}
    (hpattern : Pattern.ofForm form = .ok (.sequence p)) (htargets : c.Targets mode X)
    (h : Orderly S keep mode X n before ((d + 1, form, e) :: items))
    (hrest : ∀ {c' : Context} (holder : String), c'.Targets mode X →
      Orderly S keep mode X n (before ++ Form.aliasNames p.whole)
        ((sequenceParts p holder).map (d, ·) ++ items) →
      ExpandsTargets V S keep mode X lowering fuel (before ++ Form.aliasNames p.whole)
        ((sequenceParts p holder).map (d, ·) ++ items) c') :
    ExpandsTargets V S keep mode X lowering (fuel + 1) before ((d + 1, form, e) :: items) c := by
  have hnames (holder : String) : namesOf (d + 1, form, e) = Form.aliasNames p.whole ++
      ((sequenceParts p holder).map (d, ·)).flatMap namesOf := by
    simp only [namesOf, Form.boundNames, hpattern, flatMap_namesOf, map_fst_sequenceParts]
  obtain ⟨hkeep, hitems⟩ : (∀ x ∈ Form.aliasNames p.whole, x ∈ X → keep x = true) ∧
      AllAfter (Form.boundNames d) (Form.Orderly S keep X d) (before ++ Form.aliasNames p.whole)
        (p.items ++ (p.rest.map Form.symbol).toList) := by
    have horderly : form.Orderly S keep X (d + 1) before := h.orderly.1
    simpa only [Form.Orderly, hpattern] using horderly
  obtain ⟨target, c₁, hholder, hnew, hmakes, hrelated⟩ :=
    holder_targets htargets (h.own (hnames ""))
  have hdepth : ∀ part ∈ (sequenceParts p target).map (d, ·), part.2.1.depth < n := by
    intro part hpart
    obtain ⟨work, hwork, rfl⟩ := List.mem_map.mp hpart
    have hmem : work.1 ∈ p.items ++ (p.rest.map Form.symbol).toList :=
      map_fst_sequenceParts p target ▸ List.mem_map_of_mem hwork
    exact Nat.lt_trans (Pattern.depth_of_ofForm_sequence hpattern _ hmem)
      (List.forall_mem_cons.mp h.depth).1
  obtain ⟨rest, c', hwork, hlast, htargeted, hbinds⟩ := hrest target hnew.targets
    (h.parts (hnames target) (by rwa [allAfter_work, map_fst_sequenceParts]) hdepth)
  refine ⟨⟨target, .callOf "seq" [e], form.span?⟩ :: rest, c', ?_, hnew.trans hlast,
    targets_cons hnew.later hlast.later hmakes htargeted, ?_⟩
  · have hparts : ((sequenceParts p target).map (d, ·) ++ items).map (·.2) =
        sequenceParts p target ++ items.map (·.2) := by
      simp [Function.comp_def]
    rw [hparts] at hwork
    simp only [List.map_cons, expandWork, hpattern, Compile.lift, pure_bind]
    rw [Compile.bind_eq hholder, Compile.bind_eq hwork]
    rfl
  · intro hcovers hX self inner frames ρ σ takes outer hruns hρ hbefore htakes
    obtain ⟨m, others, rfl, hreads, hothers⟩ := supplied_cons htakes
    have hname : ("seq", Native.library .seq) ∈ Native.compiled := by simp [Native.compiled]
    have hseq := Reads.callOf hruns.nests.insulated hname (.cons hreads .nil)
    simp only [Reading.inOrder, bind_assoc, pure_bind] at hseq
    have hfree := free_of_once hcovers hX hlast.later hmakes (h.nodup (hnames target))
    obtain ⟨hmade, hkept⟩ := held_of_holder before hnew hmakes hkeep
    rw [Reading.bindAll_sequence hpattern, List.flatMap_cons, hnames target,
      ← List.append_assoc before]
    exact bindsTargets_cons hfree hnew.later hlast.later hruns hothers hseq _ _
      (fun v => ρ.bindAlias p.whole v) (hbinds (hcovers.mono hnew.later (.refl c')) hX)
      (fun v => hrelated v hρ) (fun v => value_bindAlias hbefore _ v)
      (fun v _ =>
        sequenceParts_supplied hruns.nests.insulated p d (by simp [Store.set]) hmade hkept)
      form.span? outer

/-- A table pattern is bound to its holder. The defaults of its entries are lowered before any of
them is bound. -/
theorem expandsTargets_table {p : TablePattern}
    (hplain : ∀ before, lowering.MeansPlain V (Form.mayRead S keep before) n)
    (hpattern : Pattern.ofForm form = .ok (.table p)) (htargets : c.Targets mode X)
    (hS : ∀ x ∈ X, S x = false)
    (h : Orderly S keep mode X n before ((d + 1, form, e) :: items))
    (hrest : ∀ {c' : Context} (parts : List Work), parts.map (·.1) = p.entries.map (·.1) →
      c'.Targets mode X →
      Orderly S keep mode X n (before ++ Form.aliasNames p.whole) (parts.map (d, ·) ++ items) →
      ExpandsTargets V S keep mode X lowering fuel (before ++ Form.aliasNames p.whole)
        (parts.map (d, ·) ++ items) c') :
    ExpandsTargets V S keep mode X lowering (fuel + 1) before ((d + 1, form, e) :: items) c := by
  have hnames (parts : List Work) (hforms : parts.map (·.1) = p.entries.map (·.1)) :
      namesOf (d + 1, form, e) = Form.aliasNames p.whole ++ (parts.map (d, ·)).flatMap namesOf := by
    simp only [namesOf, Form.boundNames, hpattern, flatMap_namesOf, hforms]
  obtain ⟨hkeep, hdefaults, hentries⟩ : (∀ x ∈ Form.aliasNames p.whole, x ∈ X → keep x = true) ∧
      (∀ entry ∈ p.entries, ∀ default, p.default? entry.2 = some default →
        default.isDefault (Form.mayRead S keep (before ++ Form.aliasNames p.whole)) = true) ∧
      AllAfter (Form.boundNames d) (Form.Orderly S keep X d) (before ++ Form.aliasNames p.whole)
        (p.entries.map (·.1)) := by
    have horderly : form.Orderly S keep X (d + 1) before := h.orderly.1
    simpa only [Form.Orderly, hpattern] using horderly
  have hformDepth := (List.forall_mem_cons.mp h.depth).1
  have hown : namesOf (d + 1, form, e) = Form.aliasNames p.whole ++
      (p.entries.map (·.1)).flatMap (Form.boundNames d) := by
    simp only [namesOf, Form.boundNames, hpattern]
  obtain ⟨target, c₁, hholder, hnew, hmakes, hrelated⟩ := holder_targets htargets (h.own hown)
  obtain ⟨parts, hparts, hforms, htake⟩ := tableParts_take
    (hplain (before ++ Form.aliasNames p.whole)) c₁ p target p.entries
    fun entry hentry default hdefault => ⟨hdefaults entry hentry default hdefault,
      Nat.lt_trans ((Pattern.depth_of_ofForm_table hpattern entry hentry).2 default hdefault)
        hformDepth⟩
  have hdepth : ∀ part ∈ parts.map (d, ·), part.2.1.depth < n := by
    intro part hpart
    obtain ⟨work, hwork, rfl⟩ := List.mem_map.mp hpart
    have hmem : work.1 ∈ p.entries.map (·.1) := hforms ▸ List.mem_map_of_mem hwork
    obtain ⟨entry, hentry, heq⟩ := List.mem_map.mp hmem
    have hlt := (Pattern.depth_of_ofForm_table hpattern entry hentry).1
    rw [heq] at hlt
    exact Nat.lt_trans hlt hformDepth
  obtain ⟨rest, c', hwork, hlast, htargeted, hbinds⟩ := hrest parts hforms hnew.targets
    (h.parts (hnames parts hforms) (by rwa [allAfter_work, hforms]) hdepth)
  refine ⟨⟨target, e, form.span?⟩ :: rest, c', ?_, hnew.trans hlast,
    targets_cons hnew.later hlast.later hmakes htargeted, ?_⟩
  · have hall : (parts.map (d, ·) ++ items).map (·.2) = parts ++ items.map (·.2) := by
      simp [Function.comp_def]
    rw [hall] at hwork
    simp only [List.map_cons, expandWork, hpattern, Compile.lift, pure_bind]
    rw [Compile.bind_eq hholder, Compile.bind_eq hparts, Compile.bind_eq hwork]
    rfl
  · intro hcovers hX self inner frames ρ σ takes outer hruns hρ hbefore htakes
    obtain ⟨m, others, rfl, hreads, hothers⟩ := supplied_cons htakes
    have hfree := free_of_once hcovers hX hlast.later hmakes (h.nodup (hnames parts hforms))
    obtain ⟨hmade, hkept⟩ := held_of_holder before hnew hmakes hkeep
    rw [Reading.bindAll_table hpattern, List.flatMap_cons, hnames parts hforms,
      ← List.append_assoc before]
    refine bindsTargets_cons hfree hnew.later hlast.later hruns hothers hreads _ _
      (fun v => ρ.bindAlias p.whole v) (hbinds (hcovers.mono hnew.later (.refl c')) hX)
      (fun v => hrelated v hρ) (fun v => value_bindAlias hbefore _ v) (fun v _ => ?_)
      form.span? outer
    rw [Reading.tableTakes, List.map_map]
    exact tableParts_supplied hruns.nests d (hrelated v hρ) (value_bindAlias hbefore _ v) hS
      hnew.targets.own (by simp [Store.set]) hmade hkept hdefaults htake

end Step

/-- **The expansion of a list of work** binds all its binders to what they take, in every mode. The
induction is on the fuel; the binders never have more forms in them than there is fuel left. -/
theorem expandWork_targets
    (hplain : ∀ before, lowering.MeansPlain V (Form.mayRead S keep before) n)
    (hS : ∀ x ∈ X, S x = false) {fuel : Nat} {items : List (Nat × Work)}
    (htargets : c.Targets mode X) (h : Orderly S keep mode X n before items)
    (hsize : Form.sizeOfAll (items.map (·.2.1)) ≤ fuel) :
    ExpandsTargets V S keep mode X lowering fuel before items c := by
  induction fuel generalizing before items c with
  | zero =>
    cases items with
    | nil => exact expandsTargets_nil htargets 0
    | cons item items =>
      have hpos := item.2.1.size_pos
      simp only [List.map_cons, Form.sizeOfAll] at hsize
      omega
  | succ fuel ih =>
    cases items with
    | nil => exact expandsTargets_nil htargets (fuel + 1)
    | cons item items =>
      obtain ⟨depth, form, e⟩ := item
      have horderly : form.Orderly S keep X depth before := h.orderly.1
      simp only [List.map_cons, Form.sizeOfAll] at hsize
      cases depth with
      | zero => simp [Form.Orderly] at horderly
      | succ d =>
        cases hpattern : Pattern.ofForm form with
        | error fault => simp [Form.Orderly, hpattern] at horderly
        | ok pattern =>
          cases pattern with
          | name s =>
            have hpos := form.size_pos
            exact expandsTargets_name hpattern htargets h fun htargets' h' =>
              ih htargets' h' (by omega)
          | sequence p =>
            have hparts := Pattern.size_of_ofForm_sequence hpattern
            refine expandsTargets_sequence hpattern htargets h fun holder htargets' h' =>
              ih htargets' h' ?_
            have hsizes := sizeOfAll_sequenceParts p holder
            simp only [List.map_append, List.map_map, Function.comp_def, Form.sizeOfAll_append]
            omega
          | table p =>
            have hparts := Pattern.size_of_ofForm_table hpattern
            refine expandsTargets_table hplain hpattern htargets hS h
              fun parts hforms htargets' h' => ih htargets' h' ?_
            simp only [List.map_append, List.map_map, Function.comp_def, Form.sizeOfAll_append]
            rw [← hforms] at hparts
            omega

/-- **The expansion of an orderly pattern** against an expression is a row of bindings that bind its
names to the parts of the value of the expression, in every mode. -/
theorem expand_binds_targets
    (hplain : ∀ before, lowering.MeansPlain V (Form.mayRead S keep before) n)
    (hS : ∀ x ∈ X, S x = false) {form : Form} (horderly : form.Orderly S keep X form.size [])
    (honce : ((form.boundNames form.size).filter keep).Nodup)
    (hX : mode = .fresh ∨ ∀ x ∈ form.boundNames form.size, x ∈ X) (hdepth : form.depth < n)
    (htargets : c.Targets mode X) (e : Expr) (given : List Binding) :
    ∃ bindings c', expand lowering.expr mode form e given c = .ok (given ++ bindings) c' ∧
      c.Binds mode X c' ∧ (∀ b ∈ bindings, c.Makes c' b.target ∨ b.target ∈ X) ∧
      (V.Covers c c' → (∀ x ∈ X, V.names x = true) →
        ∀ ⦃self inner : Interp⦄ ⦃frames : List Nat⦄ ⦃ρ : Env⦄ ⦃σ : Store⦄ ⦃m : Exec Value⦄
          (outer : Option Span), V.Runs self inner frames → V.Related S c ρ σ →
          (∀ τ, c.Guards X keep [] σ τ → V.Reads self frames τ e m) →
          V.Sim frames σ (self.execAll frames (Binding.assigns outer bindings))
            (m >>= fun v => Reading.bindPattern self inner frames form v ρ) fun τ signal ρ' =>
              Named V S c' (form.boundNames form.size) τ signal ρ' ∧ c.Changes X c' σ τ) := by
  have hexpands :
      ExpandsTargets V S keep mode X lowering form.size [] [(form.size, form, e)] c := by
    refine expandWork_targets hplain hS htargets ⟨⟨horderly, trivial⟩, ?_, ?_, ?_⟩
      (by simp [Form.sizeOfAll])
    · simpa [namesOf] using honce
    · simpa [namesOf] using hX
    · simpa using hdepth
  obtain ⟨bindings, c', hwork, hnew, htargeted, hbinds⟩ := hexpands
  have hone : expandWork lowering.expr mode form.size [(form, e)] c = .ok bindings c' := hwork
  have hreport : c'.Later (c'.report (.expandedPattern form.span? bindings.length)) :=
    ⟨rfl, Nat.le_refl _, rfl⟩
  refine ⟨bindings, c'.report (.expandedPattern form.span? bindings.length), ?_,
    hnew.trans ⟨hnew.targets.of_scopes hreport rfl, hreport, rfl⟩,
    fun b hb => (htargeted b hb).imp_left (·.mono (.refl c) hreport), ?_⟩
  · unfold expand expandWith
    rw [Compile.bind_eq hone]
    rfl
  · intro hcovers hveiled self inner frames ρ σ m outer hruns hρ hreads
    have hsim := hbinds (hcovers.mono (.refl c) hreport) hveiled outer hruns hρ (by simp)
      (.cons (show V.Supplied self frames X keep [] c σ _ ⟨form.size, form, m⟩ from
        ⟨rfl, rfl, hreads⟩) .nil)
    have hbind : Reading.bindAll self inner frames [⟨form.size, form, m⟩] ρ =
        m >>= fun v => Reading.bindPattern self inner frames form v ρ := by
      simp [Reading.bindAll, Reading.bindPattern]
    rw [hbind] at hsim
    refine hsim.imp ?_
    rintro τ signal ρ' ⟨⟨hsignal, hρ', hnamed⟩, hchanges⟩
    refine ⟨⟨hsignal, hρ'.mono hreport rfl (.refl _ _), ?_⟩, hchanges⟩
    simpa [namesOf] using hnamed

end Lowering

end TailLisp
