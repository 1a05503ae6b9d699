import TailLisp.Proofs.Placement
import TailLisp.Proofs.InsulatedCalls
import TailLisp.Proofs.TailMeaning

/-!
# TailLisp.Proofs.OwnNames

**The names that statements bind at their own level.** A form without definitions binds no name of
the source in the function it stands in: its assignments and the helper functions beside them have
temporaries for names, and these were made while that form was lowered (`Lowering.upTo_frugal`).

Which temporaries a step makes is said by their stems: `Context.drawn` are the names that `fresh`
gives for the stems, one after the other. `Compile.Binds` says of a step that everything it binds,
in its result or in a helper that it adds, is one of those or was given to it. What an expression is
given are the names of the functions in it that have one (`Form.hoistedNames`). The code of a helper
function binds names of the source, but not at the level of the statement. So for what ends up in
such a body it is enough that no helper is left over (`Compile.Quiet`).
-/

namespace TailLisp

/-! ### Forms without definitions -/

namespace Form

/-- The special form that the items of a list write. -/
def special? : List Form → Option Special
  | .symbol head :: _ => Special.ofName? head.name
  | _ => none

/-- Do the items write the definition of a name: `def`, `defn`, or `fn` with a name? -/
def isDefinition (items : List Form) : Bool :=
  match special? items, items with
  | some .defForm, _ => true
  | some .defnForm, _ => true
  | some .fnForm, _ :: .symbol _ :: _ => true
  | _, _ => false

mutual

/-- Is there no definition in the form, outside of what is quoted? -/
def definesNothing : Form → Bool
  | .const _ => true
  | .symbol _ => true
  | .keyword _ => true
  | .list items _ =>
    special? items == some .quoteForm || !isDefinition items && definesNothingOfAll items
  | .vector items _ => definesNothingOfAll items
  | .map entries _ => definesNothingOfEntries entries

/-- Is there no definition in the forms? -/
def definesNothingOfAll : List Form → Bool
  | [] => true
  | form :: forms => definesNothing form && definesNothingOfAll forms

/-- Is there no definition in the keys and values? -/
def definesNothingOfEntries : List (Form × Form) → Bool
  | [] => true
  | (key, value) :: entries =>
    definesNothing key && definesNothing value && definesNothingOfEntries entries

end

mutual

/-- The names that functions in the form give themselves beside it. Lowered as an expression, the
form puts their definitions before the statement it stands in; bodies and quoted data keep
theirs. -/
def hoistedNames : Form → List String
  | .const _ => []
  | .symbol _ => []
  | .keyword _ => []
  | .list items _ =>
    match special? items, items with
    | some .quoteForm, _ => []
    | some .letForm, _ => []
    | some .loopForm, _ => []
    | some .fnForm, _ :: .symbol s :: _ => [Name.spell s.name]
    | some .fnForm, _ => []
    | some .doForm, _ :: _ :: _ :: _ => []
    | some .caseForm, _ :: selector :: _ => hoistedNames selector
    | _, items => hoistedNamesOfAll items
  | .vector items _ => hoistedNamesOfAll items
  | .map entries _ => hoistedNamesOfEntries entries

/-- The names that functions in the forms give themselves beside them. -/
def hoistedNamesOfAll : List Form → List String
  | [] => []
  | form :: forms => hoistedNames form ++ hoistedNamesOfAll forms

/-- The names that functions in the keys and values give themselves beside them. -/
def hoistedNamesOfEntries : List (Form × Form) → List String
  | [] => []
  | (key, value) :: entries =>
    hoistedNames key ++ hoistedNames value ++ hoistedNamesOfEntries entries

end

theorem hoistedNamesOfAll_subset {forms : List Form} {own : List String} :
    hoistedNamesOfAll forms ⊆ own ↔ ∀ form ∈ forms, form.hoistedNames ⊆ own := by
  induction forms with
  | nil => simp [hoistedNamesOfAll]
  | cons form forms ih => simp [hoistedNamesOfAll, ih]

theorem hoistedNamesOfEntries_subset {entries : List (Form × Form)} {own : List String} :
    hoistedNamesOfEntries entries ⊆ own ↔
      ∀ entry ∈ entries, entry.1.hoistedNames ⊆ own ∧ entry.2.hoistedNames ⊆ own := by
  induction entries with
  | nil => simp [hoistedNamesOfEntries]
  | cons entry entries ih => simp [hoistedNamesOfEntries, ih, and_assoc]

/-- There is no definition in the form. -/
def Defineless (form : Form) : Prop := form.definesNothing = true

theorem definesNothingOfAll_iff {forms : List Form} :
    definesNothingOfAll forms = true ↔ ∀ form ∈ forms, form.Defineless := by
  induction forms with
  | nil => simp [definesNothingOfAll]
  | cons form forms ih => simp [definesNothingOfAll, Defineless, ih]

theorem definesNothingOfEntries_iff {entries : List (Form × Form)} :
    definesNothingOfEntries entries = true ↔
      ∀ entry ∈ entries, entry.1.Defineless ∧ entry.2.Defineless := by
  induction entries with
  | nil => simp [definesNothingOfEntries]
  | cons entry entries ih => simp [definesNothingOfEntries, Defineless, ih, and_assoc]

namespace Defineless

variable {items : List Form}

theorem nil : Form.nil.Defineless := rfl

theorem inVector {span : Span} (h : (Form.vector items span).Defineless) :
    ∀ item ∈ items, item.Defineless :=
  definesNothingOfAll_iff.mp h

theorem inMap {entries : List (Form × Form)} {span : Span}
    (h : (Form.map entries span).Defineless) :
    ∀ entry ∈ entries, entry.1.Defineless ∧ entry.2.Defineless :=
  definesNothingOfEntries_iff.mp h

theorem inList {span : Option Span} (h : (Form.list items span).Defineless)
    (hquote : special? items ≠ some .quoteForm) :
    isDefinition items = false ∧ ∀ item ∈ items, item.Defineless := by
  have hbool : (special? items == some .quoteForm) = false := by simpa using hquote
  simpa [Defineless, definesNothing, hbool, definesNothingOfAll_iff] using h

/-- The arguments of a call, or of a special form other than `quote`. -/
theorem args {head : Symbol} {args : List Form} {span : Option Span}
    (h : (Form.list (.symbol head :: args) span).Defineless)
    (hquote : Special.ofName? head.name ≠ some .quoteForm) : ∀ arg ∈ args, arg.Defineless :=
  (List.forall_mem_cons.mp (h.inList hquote).2).2

mutual

/-- Without definitions there are no functions with names. -/
theorem hoistedNames_eq_nil : ∀ {form : Form}, form.Defineless → form.hoistedNames = []
  | .const _, _ => by simp [hoistedNames]
  | .symbol _, _ => by simp [hoistedNames]
  | .keyword _, _ => by simp [hoistedNames]
  | .vector items _, h => by
    rw [hoistedNames, ← List.subset_nil, hoistedNamesOfAll_subset]
    exact fun item hitem => List.subset_nil.mpr (hoistedNames_eq_nil_of_all h.inVector item hitem)
  | .map entries _, h => by
    rw [hoistedNames, ← List.subset_nil, hoistedNamesOfEntries_subset]
    intro entry hentry
    obtain ⟨hkey, hvalue⟩ := hoistedNames_eq_nil_of_entries h.inMap entry hentry
    exact ⟨List.subset_nil.mpr hkey, List.subset_nil.mpr hvalue⟩
  | .list items _, h => by
    by_cases hquote : special? items = some .quoteForm
    · simp [hoistedNames, hquote]
    obtain ⟨hdefinition, hitems⟩ := h.inList hquote
    have hall := hoistedNames_eq_nil_of_all hitems
    unfold hoistedNames
    split
    · rfl
    · rfl
    · rfl
    · rename_i hfn
      simp [isDefinition, hfn] at hdefinition
    · rfl
    · rfl
    · exact hall _ (by simp)
    · rw [← List.subset_nil, hoistedNamesOfAll_subset]
      exact fun item hitem => List.subset_nil.mpr (hall item hitem)

theorem hoistedNames_eq_nil_of_all : ∀ {forms : List Form}, (∀ form ∈ forms, form.Defineless) →
    ∀ form ∈ forms, form.hoistedNames = []
  | [], _ => nofun
  | _ :: _, h => by
    rw [List.forall_mem_cons] at h ⊢
    exact ⟨hoistedNames_eq_nil h.1, hoistedNames_eq_nil_of_all h.2⟩

theorem hoistedNames_eq_nil_of_entries : ∀ {entries : List (Form × Form)},
    (∀ entry ∈ entries, entry.1.Defineless ∧ entry.2.Defineless) →
    ∀ entry ∈ entries, entry.1.hoistedNames = [] ∧ entry.2.hoistedNames = []
  | [], _ => nofun
  | (_, _) :: _, h => by
    rw [List.forall_mem_cons] at h ⊢
    exact ⟨⟨hoistedNames_eq_nil h.1.1, hoistedNames_eq_nil h.1.2⟩,
      hoistedNames_eq_nil_of_entries h.2⟩

end

theorem hoists {form : Form} (h : form.Defineless) (own : List String) :
    form.hoistedNames ⊆ own := by
  rw [h.hoistedNames_eq_nil]
  exact List.nil_subset own

end Defineless

end Form

/-! ### Temporaries, one after the other -/

namespace Context

variable {c c₁ c' : Context} {stems stems' : List String}

/-- The temporaries for the stems, made one after the other. -/
def drawn (c : Context) : List String → List String
  | [] => []
  | stem :: stems => (c.fresh (stem ++ "_")).1 :: (c.fresh (stem ++ "_")).2.drawn stems

/-- Temporaries for the stems are made on the way from `c` to `c'`, and no others. -/
structure Draws (c : Context) (stems : List String) (c' : Context) : Prop where
  tempPrefix : c'.tempPrefix = c.tempPrefix
  counter : c'.counter = c.counter + stems.length

theorem Draws.nil (c : Context) : c.Draws [] c := ⟨rfl, rfl⟩

theorem Draws.trans (h : c.Draws stems c₁) (h' : c₁.Draws stems' c') :
    c.Draws (stems ++ stems') c' := by
  refine ⟨h'.tempPrefix.trans h.tempPrefix, ?_⟩
  rw [h'.counter, h.counter, List.length_append, Nat.add_assoc]

/-- Which temporaries are made depends on the prefix and the counter only. -/
theorem drawn_congr (htemp : c'.tempPrefix = c.tempPrefix) (hcounter : c'.counter = c.counter)
    (stems : List String) : c'.drawn stems = c.drawn stems := by
  induction stems generalizing c c' with
  | nil => rfl
  | cons stem stems ih =>
    have hrest : (c'.fresh (stem ++ "_")).2.drawn stems = (c.fresh (stem ++ "_")).2.drawn stems :=
      ih htemp (congrArg (· + 1) hcounter)
    simp only [drawn, hrest]
    simp only [fresh, htemp, hcounter]

/-- What is drawn in two steps is drawn in the order of the steps. -/
theorem Draws.drawn_append (h : c.Draws stems c₁) (stems' : List String) :
    c.drawn (stems ++ stems') = c.drawn stems ++ c₁.drawn stems' := by
  induction stems generalizing c with
  | nil => exact (drawn_congr h.tempPrefix h.counter stems').symm
  | cons stem stems ih =>
    have hrest : (c.fresh (stem ++ "_")).2.Draws stems c₁ := by
      refine ⟨h.tempPrefix, ?_⟩
      rw [h.counter, List.length_cons]
      simp only [fresh]
      omega
    simp only [List.cons_append, drawn, ih hrest]

/-- The temporaries are among those that are still to be made. -/
theorem future_of_mem_drawn {x : String} (hx : x ∈ c.drawn stems) : c.Future x := by
  induction stems generalizing c with
  | nil => cases hx
  | cons stem stems ih =>
    rcases List.mem_cons.mp hx with rfl | hx
    · exact c.future_fresh stem
    · exact (c.later_fresh _).future (ih hx)

end Context

/-! ### What steps bind -/

namespace Compile

open Stmt

variable {α β : Type} {own : List String}

/-- Every successful run of the step makes temporaries, and all names that `names` has of its
result, and all helpers that it adds, are of these or in `own`. -/
def Binds (own : List String) (names : α → List String) (m : Compile α) : Prop :=
  ∀ ⦃c a c'⦄, m c = .ok a c' → ∃ stems helpers, c.Draws stems c' ∧
    c'.helpers = c.helpers ++ helpers ∧
    ∀ x, x ∈ names a ∨ x ∈ assignedOfAll helpers → x ∈ own ∨ x ∈ c.drawn stems

/-- The step adds no helpers. -/
def Quiet (m : Compile α) : Prop :=
  ∀ ⦃c a c'⦄, m c = .ok a c' → c.Later c'

namespace Quiet

protected theorem pure (a : α) : Quiet (pure a : Compile α) := by
  intro c b c' h
  obtain ⟨-, rfl⟩ := pure_ok h
  exact .refl c

protected theorem fail (fault : Fault) : Quiet (fail fault : Compile α) :=
  fun _ _ _ h => (not_fail_ok h).elim

protected theorem bind {m : Compile α} {f : α → Compile β} (hm : Quiet m) (hf : ∀ a, Quiet (f a)) :
    Quiet (m >>= f) := by
  intro c b c' h
  obtain ⟨a, c₁, h₁, h₂⟩ := bind_ok h
  exact (hm h₁).trans (hf a h₂)

theorem still {m : Compile α} (hm : Still m) : Quiet m := by
  intro c a c' h
  obtain ⟨events, rfl⟩ := hm h
  exact ⟨rfl, Nat.le_refl _, rfl⟩

theorem fresh (stem : String) : Quiet (fresh stem) := by
  intro c a c' h
  cases h
  exact c.later_fresh stem

theorem declare (name target : String) :
    Quiet (modify (·.declare name target) : Compile Unit) := by
  intro c a c' h
  cases h
  exact c.later_declare name target

theorem binder : ∀ (mode : BindMode) (name : String), Quiet (Compile.bind mode name)
  | .asIs, name => .pure name
  | .scoped, name => .bind (.declare name name) fun _ => .pure name
  | .fresh, name =>
    .bind (.fresh _) fun target => .bind (.declare name target) fun _ => .pure target

/-- Whatever helpers a step adds, they are taken out. -/
theorem collect (view : List Scope → List Scope) {m : Compile α} (hm : Keeps view m) :
    Quiet (collect m) := by
  intro c result c' h
  obtain ⟨a, helpers⟩ := result
  obtain ⟨c₁, hrun, -, rfl⟩ := collect_ok h
  have hgrows := hm.grows hrun
  obtain ⟨new, hnew, -⟩ := hgrows.helpers
  exact ⟨hgrows.tempPrefix, hgrows.counter, by simp [hnew]⟩

theorem inScope {m : Compile α} (hm : Quiet m) : Quiet (inScope m) := by
  intro c a c' h
  obtain ⟨c₁, hrun, rfl⟩ := inScope_ok h
  exact ⟨(hm hrun).tempPrefix, (hm hrun).counter, (hm hrun).helpers⟩

protected theorem mapM {f : α → Compile β} :
    ∀ {xs : List α}, (∀ x ∈ xs, Quiet (f x)) → Quiet (xs.mapM f)
  | [], _ => .pure []
  | x :: xs, h => by
    rw [List.mapM_cons]
    exact .bind (h x List.mem_cons_self) fun y =>
      .bind (.mapM fun x' hx' => h x' (List.mem_cons_of_mem _ hx')) fun ys => .pure _

end Quiet

namespace Binds

variable {names : α → List String} {m : Compile α}

/-- A step that adds no helpers binds nothing on its way. -/
theorem quiet (hm : Quiet m) (hnames : ∀ a, names a ⊆ own) : Binds own names m := by
  intro c a c' h
  have hlater := hm h
  refine ⟨List.replicate (c'.counter - c.counter) "", [], ⟨hlater.tempPrefix, ?_⟩, ?_, ?_⟩
  · have := hlater.counter
    simp only [List.length_replicate]
    omega
  · rw [hlater.helpers, List.append_nil]
  · intro x hx
    rcases hx with hx | hx
    · exact .inl (hnames a hx)
    · cases hx

theorem silent (hm : Quiet m) : Binds own (fun _ => []) m := quiet hm fun _ => List.nil_subset _

protected theorem pure {a : α} (h : names a ⊆ own) : Binds own names (pure a : Compile α) := by
  intro c b c' hrun
  obtain ⟨rfl, rfl⟩ := pure_ok hrun
  refine ⟨[], [], .nil c, (List.append_nil _).symm, ?_⟩
  intro x hx
  rcases hx with hx | hx
  · exact .inl (h hx)
  · cases hx

protected theorem fail (fault : Fault) : Binds own names (fail fault : Compile α) :=
  fun _ _ _ h => (not_fail_ok h).elim

/-- The second step may bind what the first has made. -/
theorem bind_yields {names' : β → List String} {Q : α → Prop} {f : α → Compile β}
    (hm : Binds own names m) (hQ : Yields Q m)
    (hf : ∀ a, Q a → Binds (names a ++ own) names' (f a)) : Binds own names' (m >>= f) := by
  intro c b c' h
  obtain ⟨a, c₁, h₁, h₂⟩ := bind_ok h
  obtain ⟨stems, helpers, hdraws, hhelpers, hbinds⟩ := hm h₁
  obtain ⟨stems', helpers', hdraws', hhelpers', hbinds'⟩ := hf a (hQ h₁) h₂
  refine ⟨stems ++ stems', helpers ++ helpers', hdraws.trans hdraws', ?_, ?_⟩
  · rw [hhelpers', hhelpers, List.append_assoc]
  · intro x hx
    rw [hdraws.drawn_append, List.mem_append]
    have hfirst (hx : x ∈ names a ∨ x ∈ assignedOfAll helpers) :
        x ∈ own ∨ x ∈ c.drawn stems ∨ x ∈ c₁.drawn stems' := by
      rcases hbinds x hx with hown | hdrawn
      · exact .inl hown
      · exact .inr (.inl hdrawn)
    have hsecond (hx : x ∈ names' b ∨ x ∈ assignedOfAll helpers') :
        x ∈ own ∨ x ∈ c.drawn stems ∨ x ∈ c₁.drawn stems' := by
      rcases hbinds' x hx with hmem | hdrawn
      · rcases List.mem_append.mp hmem with ha | hown
        · exact hfirst (.inl ha)
        · exact .inl hown
      · exact .inr (.inr hdrawn)
    rcases hx with hb | hx
    · exact hsecond (.inl hb)
    · rw [Context.assignedOfAll_append, List.mem_append] at hx
      rcases hx with hx | hx
      · exact hfirst (.inr hx)
      · exact hsecond (.inr hx)

protected theorem bind {names' : β → List String} {f : α → Compile β} (hm : Binds own names m)
    (hf : ∀ a, Binds (names a ++ own) names' (f a)) : Binds own names' (m >>= f) :=
  bind_yields hm (.anything m) fun a _ => hf a

theorem imp {names' : α → List String} (h : Binds own names m)
    (hnames : ∀ a, names' a ⊆ names a) : Binds own names' m := by
  intro c a c' hrun
  obtain ⟨stems, helpers, hdraws, hhelpers, hbinds⟩ := h hrun
  refine ⟨stems, helpers, hdraws, hhelpers, fun x hx => hbinds x ?_⟩
  exact hx.imp_left fun hx => hnames a hx

theorem fresh (s : String) {stem : String} (hstem : stem = s ++ "_") :
    Binds own (fun x => [x]) (fresh stem) := by
  subst hstem
  intro c x c' h
  cases h
  refine ⟨[s], [], ⟨rfl, rfl⟩, (List.append_nil _).symm, ?_⟩
  intro y hy
  rcases hy with hy | hy
  · exact .inr hy
  · cases hy

/-- A helper that is bound is among the names that may be. -/
theorem hoist {helper : Stmt} (h : helper.assigned ⊆ own) :
    Binds own (fun _ => []) (hoist helper) := by
  intro c _ c' hrun
  cases hrun
  refine ⟨[], [helper], ⟨rfl, rfl⟩, rfl, ?_⟩
  intro x hx
  rcases hx with hx | hx
  · cases hx
  · exact .inl (h (by simpa [assignedOfAll] using hx))

/-- The helpers that are taken out become a part of the result. -/
theorem collect (h : Binds own names m) :
    Binds own (fun result => names result.1 ++ assignedOfAll result.2) (collect m) := by
  intro c result c' hrun
  obtain ⟨a, helpers⟩ := result
  obtain ⟨c₁, hm, rfl, rfl⟩ := collect_ok hrun
  obtain ⟨stems, new, hdraws, hnew, hbinds⟩ := h hm
  refine ⟨stems, [], ⟨hdraws.tempPrefix, hdraws.counter⟩, ?_, ?_⟩
  · simp [hnew]
  · intro x hx
    rcases hx with hx | hx
    · rw [hnew, List.drop_left, List.mem_append] at hx
      exact hbinds x hx
    · cases hx

theorem inScope (h : Binds own names m) : Binds own names (inScope m) := by
  intro c a c' hrun
  obtain ⟨c₁, hm, rfl⟩ := inScope_ok hrun
  obtain ⟨stems, new, hdraws, hnew, hbinds⟩ := h hm
  refine ⟨stems, new, ⟨hdraws.tempPrefix, hdraws.counter⟩, hnew, fun x hx => ?_⟩
  have hdrawn : c.enter.drawn stems = c.drawn stems :=
    Context.drawn_congr (show c.enter.tempPrefix = c.tempPrefix from rfl) rfl stems
  exact hdrawn ▸ hbinds x hx

/-- Steps in a row: each of them may bind what was bound before it. -/
protected theorem mapM (names' : β → List String) {f : α → Compile β} :
    ∀ {xs : List α} {own : List String}, (∀ own', own ⊆ own' → ∀ x ∈ xs, Binds own' names' (f x)) →
      Binds own (fun ys => ys.flatMap names') (xs.mapM f)
  | [], _, _ => .pure (List.nil_subset _)
  | x :: xs, own, h => by
    rw [List.mapM_cons]
    refine .bind (h own (List.Subset.refl own) x List.mem_cons_self) fun y => ?_
    refine .bind (.mapM names' fun own' hown' x' hx' => ?_) fun ys => .pure ?_
    · exact h own' (List.append_subset.mp hown').2 x' (List.mem_cons_of_mem _ hx')
    intro z hz
    simp only [List.flatMap_cons, List.mem_append] at hz ⊢
    tauto

protected theorem foldlM (names' : β → List String) {f : β → α → Compile β} :
    ∀ {xs : List α} {own : List String} (b : β), names' b ⊆ own →
      (∀ own', own ⊆ own' → ∀ b, names' b ⊆ own' → ∀ x ∈ xs, Binds own' names' (f b x)) →
      Binds own names' (xs.foldlM f b)
  | [], _, b, hb, _ => .pure hb
  | x :: xs, own, b, hb, h => by
    rw [List.foldlM_cons]
    refine .bind (h own (List.Subset.refl own) b hb x List.mem_cons_self) fun b' => ?_
    refine .foldlM names' b' (List.subset_append_left _ _) fun own' hown' b'' hb'' x' hx' => ?_
    exact h own' (List.append_subset.mp hown').2 b'' hb'' x' (List.mem_cons_of_mem _ hx')

protected theorem foldrM {names' : β → List String} {f : α → β → Compile β} {b : β}
    (hb : names' b ⊆ own) :
    ∀ {xs : List α}, (∀ x ∈ xs, ∀ b, Binds (names' b ++ own) names' (f x b)) →
      Binds own names' (xs.foldrM f b)
  | [], _ => .pure hb
  | x :: xs, h => by
    rw [List.foldrM_cons]
    refine .bind (.foldrM hb fun x' hx' => h x' (List.mem_cons_of_mem _ hx')) fun b' => ?_
    exact h x List.mem_cons_self b'

end Binds

end Compile

/-- The names of the loop are among those that may be assigned, and its self-calls are `recur`. -/
structure LoopTarget.Within (target : LoopTarget) (own : List String) : Prop where
  assigned : target.assigned ⊆ own
  selfCall : target.selfCall = "recur"

theorem LoopTarget.Within.after {target : LoopTarget} {own : List String} (h : target.Within own)
    (names : List String) : target.Within (names ++ own) :=
  ⟨List.Subset.trans h.assigned (List.subset_append_right _ _), h.selfCall⟩

namespace Lowering

open Compile Stmt Form

/-- Forms without definitions bind temporaries of their own only: as expressions in the helpers that
they add, as statements at all. Expressions with named functions bind their names as well. A tail
also assigns the names of the loop that it ends or goes on. -/
structure Frugal (lowering : Lowering) : Prop where
  balanced : lowering.Balanced
  expr : ∀ (form : Form) {own : List String}, form.hoistedNames ⊆ own →
    Binds own (fun _ => []) (lowering.expr form)
  stmt : ∀ form : Form, form.Defineless → ∀ own, Binds own assignedOfAll (lowering.stmt form)
  tail : ∀ (target : LoopTarget) (form : Form), form.Defineless → ∀ own, target.Within own →
    Binds own assignedOfAll (lowering.tail target form)

variable {self : Lowering} {own : List String}

/-- An expression without definitions binds its own temporaries and nothing else. -/
theorem Frugal.value (h : self.Frugal) (form : Form) (hform : form.Defineless) (own : List String) :
    Binds own (fun _ => []) (self.expr form) :=
  h.expr form (hform.hoists own)

/-! ### Common parts -/

theorem still_draws {α : Type} {m : Compile α} (hm : Still m) : Binds own (fun _ => []) m :=
  .quiet (.still hm) fun _ => List.nil_subset _

/-- Expressions in a row. -/
theorem exprs_draw (h : self.Frugal) {forms : List Form}
    (hforms : ∀ form ∈ forms, form.hoistedNames ⊆ own) :
    Binds own (fun _ => []) (forms.mapM self.expr) :=
  (Binds.mapM _ fun _ hown form hform =>
    h.expr form (List.Subset.trans (hforms form hform) hown)).imp fun _ => List.nil_subset _

/-- A helper has a temporary for its name. -/
theorem callHelper_draws (stem : String) {s : String} (hstem : stem = s ++ "_")
    (params : List String) (args : List Expr) (body : List Stmt) (place : Option Span) :
    Binds own (fun _ => []) (callHelper stem params args body place) := by
  refine .bind (.fresh s hstem) fun name => .bind (.hoist ?_) fun _ => .pure (List.nil_subset _)
  exact List.subset_append_left _ _

theorem assignedOfAll_flatten (blocks : List (List Stmt)) :
    assignedOfAll blocks.flatten = blocks.flatMap assignedOfAll := by
  induction blocks with
  | nil => rfl
  | cons block blocks ih =>
    rw [List.flatten_cons, Context.assignedOfAll_append, ih, List.flatMap_cons]

/-! ### Patterns -/

/-- The parts of a pattern without definitions have none. -/
theorem defineless_of_ofForm_sequence {form : Form} {p : SequencePattern} (h : form.Defineless)
    (hpattern : Pattern.ofForm form = .ok (.sequence p)) : ∀ item ∈ p.items, item.Defineless := by
  obtain ⟨items, span, rfl, hfrom⟩ := Pattern.items_of_ofForm_sequence hpattern
  exact fun item hitem => h.inVector item (hfrom item hitem)

/-- The binders and the defaults of a table pattern stand in its form. -/
theorem defineless_of_ofForm_table {form : Form} {p : TablePattern} (h : form.Defineless)
    (hpattern : Pattern.ofForm form = .ok (.table p)) :
    (∀ entry ∈ p.entries, entry.1.Defineless) ∧ ∀ d ∈ p.defaults, d.2.Defineless := by
  obtain ⟨first, items, span, rfl, hfrom⟩ := Pattern.items_of_ofForm_table hpattern
  have hitems := (List.forall_mem_cons.mp h.inVector).2
  refine ⟨fun entry hentry => hitems entry.1 (hfrom.binder entry hentry), fun d hd => ?_⟩
  obtain ⟨entries, span, key, hmap, hmem⟩ := hfrom.default d hd
  exact ((hitems _ hmap).inMap (key, d.2) hmem).2

/-- The names that bindings make, where only temporaries count (`.fresh`) or nothing does. -/
def madeBy (mode : BindMode) (bs : List Binding) : List String :=
  if mode = .fresh then bs.map (·.target) else []

theorem madeBy_cons (mode : BindMode) (b : Binding) (bs : List Binding) :
    madeBy mode (b :: bs) = madeBy mode [b] ++ madeBy mode bs := by
  unfold madeBy
  split <;> rfl

theorem madeBy_append (mode : BindMode) (bs bs' : List Binding) :
    madeBy mode (bs ++ bs') = madeBy mode bs ++ madeBy mode bs' := by
  unfold madeBy
  split
  · exact List.map_append
  · rfl

/-- A binder makes a temporary for itself or binds no new name. -/
theorem binder_draws (mode : BindMode) (name : String) :
    Binds own (fun target => madeBy mode [⟨target, .constant .nil, none⟩])
      (Compile.bind mode name) := by
  by_cases hmode : mode = .fresh
  · subst hmode
    refine .bind (.fresh name rfl) fun target => ?_
    refine .bind (.quiet (.declare name target) fun _ => List.nil_subset _) fun _ => .pure ?_
    exact List.subset_append_left _ _
  · refine .quiet (.binder mode name) fun target => ?_
    simp [madeBy, hmode]

theorem holder_draws (mode : BindMode) (whole : Option Symbol) :
    Binds own (fun target => madeBy mode [⟨target, .constant .nil, none⟩]) (holder mode whole) := by
  cases whole with
  | none =>
    refine (Binds.fresh "destructure" rfl).imp fun target => ?_
    unfold madeBy
    split
    · exact List.Subset.refl _
    · exact List.nil_subset _
  | some s => exact binder_draws mode _

section Patterns

variable {expr : Form → Compile Expr}
  (h : ∀ form : Form, form.Defineless → ∀ own, Binds own (fun _ => []) (expr form))

include h

/-- The default of an entry is an expression, and an entry itself binds nothing. -/
theorem tablePart_draws {p : TablePattern} (hdefaults : ∀ d ∈ p.defaults, d.2.Defineless)
    (target : String) (entry : Form × Key) :
    Binds own (fun _ => []) (tablePart expr p target entry) := by
  unfold tablePart
  split
  · exact .pure (List.nil_subset _)
  · rename_i form hform
    obtain ⟨d, hd, rfl⟩ := Option.map_eq_some_iff.mp hform
    have hdefault := hdefaults d (List.mem_of_find?_eq_some hd)
    exact .bind (h d.2 hdefault own) fun _ => .pure (List.nil_subset _)

/-- In a block every target of an expanded pattern is a temporary that was made for it. The
induction is on the fuel. -/
theorem expandWork_draws (mode : BindMode) :
    ∀ (fuel : Nat) (work : List Work) (own : List String), (∀ w ∈ work, w.1.Defineless) →
      Binds own (madeBy mode) (expandWork expr mode fuel work)
  | 0, [], _, _ => .pure (by simp [madeBy])
  | _ + 1, [], _, _ => .pure (by simp [madeBy])
  | 0, _ :: _, _, _ => .fail _
  | fuel + 1, (binder, value) :: work, own, hwork => by
    rw [List.forall_mem_cons] at hwork
    rw [expandWork]
    -- a target that was made stands in front of what the rest of the work makes
    have hcons (target : String) (value : Expr) (rest : List Binding) :
        Binds (madeBy mode rest ++ (madeBy mode [⟨target, .constant .nil, none⟩] ++ own))
          (madeBy mode)
          (pure (⟨target, value, binder.span?⟩ :: rest) : Compile (List Binding)) := by
      refine .pure ?_
      rw [madeBy_cons]
      intro x hx
      simp only [List.mem_append] at hx ⊢
      exact (hx.symm).imp id .inl
    refine .bind_yields (still_draws (.lift _)) (lift_yields _) fun pattern hpattern => ?_
    cases pattern with
    | name s =>
      refine .bind (binder_draws mode _) fun target => ?_
      exact .bind (expandWork_draws mode fuel work _ hwork.2) fun rest => hcons target _ rest
    | sequence p =>
      have hitems := defineless_of_ofForm_sequence hwork.1 hpattern
      refine .bind (holder_draws mode _) fun target => ?_
      refine .bind (expandWork_draws mode fuel _ _ ?_) fun rest => hcons target _ rest
      refine List.forall_mem_append.mpr ⟨fun w hw => ?_, hwork.2⟩
      rcases List.mem_append.mp hw with hitem | hrest
      · obtain ⟨⟨item, i⟩, hmem, rfl⟩ := List.mem_map.mp hitem
        exact hitems item (List.fst_mem_of_mem_zipIdx hmem)
      · obtain ⟨s, -, rfl⟩ := Option.map_eq_some_iff.mp (Option.mem_toList.mp hrest)
        rfl
    | table p =>
      obtain ⟨hentries, hdefaults⟩ := defineless_of_ofForm_table hwork.1 hpattern
      refine .bind (holder_draws mode _) fun target => ?_
      have hparts (own : List String) : Binds own (fun _ => [])
          (p.entries.mapM (tablePart expr p target)) :=
        (Binds.mapM _ fun own _ entry _ => tablePart_draws h hdefaults target entry).imp
          fun _ => List.nil_subset _
      have hbinders : Yields (fun parts => ∀ w ∈ parts, w.1.Defineless)
          (p.entries.mapM (tablePart expr p target)) :=
        .mapM fun entry hentry => tablePart_entry (hentries entry hentry)
      refine .bind_yields (hparts _) hbinders fun parts hbinders => ?_
      refine .bind (expandWork_draws mode fuel _ _ ?_) fun rest => hcons target _ rest
      exact List.forall_mem_append.mpr ⟨hbinders, hwork.2⟩
where
  tablePart_entry {p : TablePattern} {target : String} {entry : Form × Key}
      (hentry : entry.1.Defineless) :
      Yields (fun w => w.1.Defineless) (tablePart expr p target entry) := by
    unfold tablePart
    split
    · exact .pure hentry
    · exact .after fun _ => .pure hentry

theorem expand_draws (mode : BindMode) {pattern : Form} (hpattern : pattern.Defineless)
    (value : Expr) {given : List Binding} (hgiven : madeBy mode given ⊆ own) :
    Binds own (madeBy mode) (expand expr mode pattern value given) := by
  refine .bind (expandWork_draws h mode _ _ _ (by simpa using hpattern)) fun bindings => ?_
  refine .bind (still_draws (.report _)) fun _ => .pure ?_
  rw [madeBy_append]
  exact List.append_subset.mpr
    ⟨List.Subset.trans hgiven (List.subset_append_right _ _), List.subset_append_left _ _⟩

end Patterns

/-! ### Loops -/

/-- An assignment of a name that may be assigned, before others. -/
theorem assignedOfAll_cons_subset {s : Stmt} {ss : List Stmt} (hs : s.assigned ⊆ own)
    (hss : assignedOfAll ss ⊆ own) : assignedOfAll (s :: ss) ⊆ own :=
  List.append_subset.mpr ⟨hs, hss⟩

theorem assignedOfAll_append_subset {ss ts : List Stmt} (hss : assignedOfAll ss ⊆ own)
    (hts : assignedOfAll ts ⊆ own) : assignedOfAll (ss ++ ts) ⊆ own := by
  rw [Context.assignedOfAll_append]
  exact List.append_subset.mpr ⟨hss, hts⟩

variable {target : LoopTarget}

/-- Leaving a loop assigns its result and its flag. -/
theorem exitWith_draws (hown : target.Within own) (value : Expr) (span : Option Span) :
    Binds own assignedOfAll (exitWith target value span) := by
  unfold exitWith
  split
  · rename_i exit hexit
    refine .pure fun x hx => hown.assigned ?_
    have hmem : x = exit.result ∨ x = exit.flag := by simpa [assignedOfAll, assigned] using hx
    simp [LoopTarget.assigned, hexit, hmem]
  · exact .fail _

/-- A jump assigns temporaries for its arguments, then the variables of the loop and the targets of
its patterns, which are given. -/
theorem jump_draws (h : self.Frugal) (hown : target.Within own) (form : Form)
    {args : List Form} (hargs : ∀ arg ∈ args, arg.Defineless) :
    Binds own assignedOfAll (jump self target form args) := by
  unfold jump
  split
  · have htemp (own' : List String) (_ : own ⊆ own') (arg : Form) (harg : arg ∈ args) :
        Binds own' (fun temp => [temp.1] ++ temp.2.assigned)
          (jumpArgument self form.place? arg) := by
      refine .bind (.fresh "recur" rfl) fun temp => ?_
      refine .bind (h.value arg (hargs arg harg) _) fun value => .pure ?_
      simp [assigned]
    refine .bind (.mapM _ htemp) fun temps => .pure ?_
    have hvars {var : String} (hvar : var ∈ target.vars) : var ∈ own :=
      hown.assigned (by simp [LoopTarget.assigned, hvar])
    refine assignedOfAll_append_subset (assignedOfAll_append_subset
      (assignedOfAll_append_subset ?_ ?_) ?_) (List.nil_subset _)
    · intro x hx
      obtain ⟨s, hs, hx⟩ := mem_assignedOfAll.mp hx
      obtain ⟨temp, htemp, rfl⟩ := List.mem_map.mp hs
      refine List.mem_append.mpr (.inl (List.mem_flatMap.mpr ⟨temp, htemp, ?_⟩))
      exact List.mem_append.mpr (.inr hx)
    · intro x hx
      obtain ⟨s, hs, hx⟩ := mem_assignedOfAll.mp hx
      obtain ⟨pair, hpair, rfl⟩ := List.mem_map.mp hs
      rw [List.mem_singleton.mp hx]
      exact List.mem_append.mpr (.inr (hvars (List.of_mem_zip hpair).1))
    · rw [Context.assignedOfAll_assigns]
      intro x hx
      refine List.mem_append.mpr (.inr (hown.assigned ?_))
      exact List.mem_append.mpr (.inl (List.mem_append.mpr (.inr hx)))
  · exact .fail _

/-- The statements of a loop body bind temporaries of their own; its tail may assign the names of
the loop. -/
theorem loopBody_draws (h : self.Frugal) :
    ∀ (forms : List Form) (own : List String), target.Within own →
      (∀ form ∈ forms, form.Defineless) → Binds own assignedOfAll (loopBody self target forms)
  | [], _, hown, _ => exitWith_draws hown _ _
  | [form], own, hown, hforms => h.tail target form (hforms form List.mem_cons_self) own hown
  | form :: other :: forms, own, hown, hforms => by
    rw [List.forall_mem_cons] at hforms
    refine .bind (h.stmt form hforms.1 own) fun stmts => ?_
    refine .bind (loopBody_draws h (other :: forms) _
      (hown.after _) hforms.2) fun rest => .pure ?_
    refine assignedOfAll_append_subset ?_ (List.subset_append_left _ _)
    exact List.Subset.trans (List.subset_append_left _ _) (List.subset_append_right _ _)

/-- A branch after its arms, of which the first is lowered last. -/
theorem branch_draws (test : Expr) (yes no : List Stmt) (place : Option Span) :
    Binds (assignedOfAll yes ++ (assignedOfAll no ++ own)) assignedOfAll
      (pure [.branch test yes no place] : Compile (List Stmt)) := by
  refine .pure (assignedOfAll_cons_subset (List.append_subset.mpr ⟨?_, ?_⟩) (List.nil_subset _))
  · exact List.subset_append_left _ _
  · exact List.Subset.trans (List.subset_append_left _ _) (List.subset_append_right _ _)

theorem tailIf_draws (h : self.Frugal) (hown : target.Within own) (form : Form)
    {args : List Form} (hargs : ∀ arg ∈ args, arg.Defineless) :
    Binds own assignedOfAll (tailIf self target form args) := by
  have build {test yes no : Form} (htest : test.Defineless) (hyes : yes.Defineless)
      (hno : no.Defineless) :
      Binds own assignedOfAll (tailIf.build self target form test yes no) :=
    .bind (h.value test htest own) fun _ => .bind (h.tail target yes hyes _ hown) fun yes =>
      .bind (h.tail target no hno _ (hown.after _)) fun no => .pure (by
        intro x hx
        simp only [assignedOfAll, assigned, List.append_nil, List.mem_append] at hx ⊢
        tauto)
  unfold tailIf
  split
  · exact build (hargs _ (by simp)) (hargs _ (by simp)) .nil
  · exact build (hargs _ (by simp)) (hargs _ (by simp)) (hargs _ (by simp))
  · exact .fail _

theorem tailCond_draws (h : self.Frugal) (hown : target.Within own) (form : Form)
    {args : List Form} (hargs : ∀ arg ∈ args, arg.Defineless) :
    Binds own assignedOfAll (tailCond self target form args) := by
  refine .bind_yields (still_draws (condClauses_still form args))
    (condClauses_of_all Defineless.nil hargs form) fun parts hparts => ?_
  obtain ⟨hclauses, hdefault⟩ := hparts
  refine .bind (h.tail target parts.2 hdefault own hown) fun last => ?_
  refine .foldrM (List.subset_append_left _ _) fun clause hclause no => ?_
  obtain ⟨htest, hresult⟩ := hclauses clause hclause
  refine .bind (h.value clause.1 htest _) fun test => ?_
  refine .bind (h.tail target clause.2 hresult _ ((hown.after _).after _)) fun yes => ?_
  exact branch_draws test yes no _

/-- The selector of a `case` is a temporary, and its arms are tails. -/
theorem tailCase_draws (h : self.Frugal) (hown : target.Within own) (form : Form)
    {args : List Form} (hargs : ∀ arg ∈ args, arg.Defineless) :
    Binds own assignedOfAll (tailCase self target form args) := by
  refine .bind_yields (still_draws (caseParts_still form args))
    (caseParts_of_all Defineless.nil hargs form) fun parts hparts => ?_
  obtain ⟨hselector, hdefault, hclauses⟩ := hparts
  refine .bind (.fresh "case" rfl) fun selector => ?_
  have hown' := hown.after [selector]
  refine .bind (h.value parts.selector hselector _) fun value => ?_
  refine .bind (h.tail target parts.default hdefault _ hown') fun last => ?_
  refine .bind (.foldrM (List.subset_append_left _ _) fun clause hclause no => ?_) fun stmts => ?_
  · refine .bind (h.tail target clause.2 (hclauses clause hclause) _ ((hown'.after _).after _))
      fun yes => ?_
    exact branch_draws _ yes no _
  · refine .pure (assignedOfAll_cons_subset ?_ (List.subset_append_left _ _))
    simp [assigned]

/-- In a block a `let` binds temporaries only. -/
theorem letBindings_draws (h : self.Frugal) {bindings : Form} (hbindings : bindings.Defineless) :
    Binds own assignedOfAll (letBindings self bindings) := by
  have hpairs : Yields (fun pairs => ∀ pair ∈ pairs, pair.1.Defineless ∧ pair.2.Defineless)
      (bindingPairs .letForm bindings) := by
    refine bindingPairs_of_all fun items span heq => ?_
    subst heq
    exact hbindings.inVector
  refine .bind_yields (still_draws (bindingPairs_still _ _)) hpairs fun pairs hpairs => ?_
  refine .bind (.mapM assignedOfAll fun own _ pair hpair => ?_) fun blocks => .pure ?_
  · obtain ⟨hbinder, hinit⟩ := hpairs pair hpair
    have hblock : Binds own (madeBy .fresh) (do
        let value ← self.expr pair.2
        expand self.expr .fresh pair.1 value []) :=
      .bind (h.value pair.2 hinit own) fun value =>
        expand_draws h.value .fresh hbinder value (List.nil_subset _)
    refine .bind hblock.collect fun result => .pure ?_
    rw [Context.assignedOfAll_append, Context.assignedOfAll_assigns]
    refine List.append_subset.mpr ⟨?_, ?_⟩
    · exact List.Subset.trans (List.subset_append_right _ _) (List.subset_append_left _ _)
    · exact List.Subset.trans (List.subset_append_left _ _) (List.subset_append_left _ _)
  · rw [assignedOfAll_flatten]
    exact List.subset_append_left _ _

theorem tailLet_draws (h : self.Frugal) (hown : target.Within own) (form : Form)
    {args : List Form} (hargs : ∀ arg ∈ args, arg.Defineless) :
    Binds own assignedOfAll (tailLet self target form args) := by
  cases args with
  | nil => exact .fail _
  | cons bindings body =>
    rw [List.forall_mem_cons] at hargs
    refine .inScope (.bind (letBindings_draws h hargs.1) fun stmts => ?_)
    refine .bind (loopBody_draws h body _
      (hown.after _) hargs.2) fun rest => .pure ?_
    refine assignedOfAll_append_subset ?_ (List.subset_append_left _ _)
    exact List.Subset.trans (List.subset_append_left _ _) (List.subset_append_right _ _)

/-- The operands that are tested are put into temporaries. -/
theorem tailLogical_draws (h : self.Frugal) (op : LogicalOp) (form : Form) :
    ∀ (operands : List Form) (own : List String), target.Within own →
      (∀ operand ∈ operands, operand.Defineless) →
      Binds own assignedOfAll (tailLogical self target op form operands)
  | [], _, hown, _ => exitWith_draws hown _ _
  | [operand], own, hown, hforms => h.tail target operand (hforms _ List.mem_cons_self) own hown
  | operand :: other :: operands, own, hown, hforms => by
    rw [List.forall_mem_cons] at hforms
    rw [tailLogical]
    refine .bind (.fresh "test" rfl) fun temp => ?_
    have hown' := hown.after [temp]
    refine .bind (h.value operand hforms.1 _) fun value => ?_
    refine .bind (exitWith_draws hown' _ _) fun settled => ?_
    refine .bind (tailLogical_draws h op form (other :: operands) _
      (hown'.after _) hforms.2) fun undecided => .pure ?_
    intro x hx
    simp only [assignedOfAll, assigned, List.mem_append, List.mem_singleton] at hx ⊢
    tauto

/-- The names that a loop binds before it starts and again by a self-call. -/
def targetNames (target : LoopTarget) : List String :=
  target.vars ++ target.inits.map (·.target) ++ target.rebind.map (·.target)

/-- In a block the variables of a loop and the targets of its patterns are temporaries. -/
theorem loopTarget_draws (h : self.Frugal) {bindings : Form} (hbindings : bindings.Defineless) :
    Binds own targetNames (loopTarget self .fresh bindings) := by
  have hpairs : Yields (fun pairs => ∀ pair ∈ pairs, pair.1.Defineless ∧ pair.2.Defineless)
      (bindingPairs .loopForm bindings) := by
    refine bindingPairs_of_all fun items span heq => ?_
    subst heq
    exact hbindings.inVector
  refine .bind_yields (still_draws (bindingPairs_still _ _)) hpairs fun pairs hpairs => ?_
  refine .foldlM targetNames {} (List.nil_subset _) fun own _ target hown pair hpair => ?_
  obtain ⟨hbinder, hinit⟩ := hpairs pair hpair
  refine .bind (h.value pair.2 hinit own) fun value => ?_
  split
  · refine .bind (binder_draws .fresh _) fun var => .pure ?_
    intro x hx
    have hmem : x = var ∨ x ∈ targetNames target := by
      simp only [targetNames, List.mem_append, List.map_append, List.mem_singleton, List.map_cons,
        List.map_nil] at hx ⊢
      tauto
    rcases hmem with rfl | hmem
    · exact List.mem_append.mpr (.inl (List.mem_singleton.mpr rfl))
    · exact List.mem_append.mpr (.inr (hown hmem))
  · refine .bind (.fresh "loop" rfl) fun var => ?_
    refine .bind (expand_draws h.value .fresh hbinder _ (List.nil_subset _)) fun bs => .pure ?_
    intro x hx
    have hmem : x = var ∨ x ∈ bs.map (·.target) ∨ x ∈ targetNames target := by
      simp only [targetNames, List.mem_append, List.map_append, List.mem_singleton, List.map_cons,
        List.map_nil] at hx ⊢
      tauto
    rcases hmem with rfl | hmem | hmem
    · exact List.mem_append.mpr (.inr (List.mem_append.mpr (.inl (List.mem_singleton.mpr rfl))))
    · exact List.mem_append.mpr (.inl hmem)
    · exact List.mem_append.mpr (.inr (List.mem_append.mpr (.inr (hown hmem))))
  · exact .fail _

/-- Nothing but `recur` is a self-call of a loop. -/
theorem loopTarget_selfCall (mode : BindMode) (bindings : Form) :
    Yields (fun target => target.selfCall = "recur") (loopTarget self mode bindings) := by
  refine .after fun pairs => .foldlM rfl fun target htarget pair _ => .after fun value => ?_
  split
  · exact .after fun _ => .pure htarget
  · exact .after fun _ => .after fun _ => .pure htarget
  · exact .fail _

/-- A loop adds its flag and its result to the names of its target. -/
theorem whileLoop_draws (h : self.Frugal) (hown : targetNames target ⊆ own)
    (hrecur : target.selfCall = "recur") {body : List Form}
    (hbody : ∀ form ∈ body, form.Defineless) (span : Option Span) :
    Binds own (fun result => assignedOfAll result.1) (whileLoop self target body span) := by
  refine .bind (.fresh "continue" rfl) fun flag => .bind (.fresh "result" rfl) fun result => ?_
  have htarget : LoopTarget.assigned { target with exit := some ⟨flag, result⟩ } ⊆
      [result] ++ ([flag] ++ own) := by
    intro x hx
    have hmem : x ∈ target.vars ∨ x ∈ target.rebind.map (·.target) ∨ x = result ∨ x = flag := by
      simpa [LoopTarget.assigned, or_assoc] using hx
    have hold (hx : x ∈ targetNames target) : x ∈ [result] ++ ([flag] ++ own) := by
      simp [hown hx]
    rcases hmem with hvar | hrebind | rfl | rfl
    · exact hold (by simp [targetNames, hvar])
    · exact hold (by simp only [targetNames, List.mem_append]; exact .inr hrebind)
    · simp
    · simp
  refine .bind (loopBody_draws h body _ ⟨htarget, hrecur⟩ hbody).collect fun stmts => ?_
  refine .bind (still_draws (.report _)) fun _ => .pure ?_
  refine assignedOfAll_append_subset ?_ ?_
  · rw [Context.assignedOfAll_assigns]
    intro x hx
    have hx' : x ∈ own := hown (by simp only [targetNames, List.mem_append]; exact .inl (.inr hx))
    simp [hx']
  · intro x hx
    simp only [assignedOfAll, assigned, Context.assignedOfAll_append, List.mem_append,
      List.mem_singleton] at hx ⊢
    tauto

/-! ### Expressions -/

theorem nil_hoists : Form.nil.hoistedNames ⊆ own := Defineless.nil.hoists own

theorem ifExpr_draws (h : self.Frugal) (form : Form) {args : List Form}
    (hargs : ∀ arg ∈ args, arg.hoistedNames ⊆ own) :
    Binds own (fun _ => []) (ifExpr self form args) := by
  have build {test yes no : Form} (htest : test.hoistedNames ⊆ own)
      (hyes : yes.hoistedNames ⊆ own) (hno : no.hoistedNames ⊆ own) :
      Binds own (fun _ => []) (ifExpr.build self form test yes no) :=
    .bind (h.expr test htest) fun _ => .bind (h.expr yes hyes) fun _ =>
      .bind (h.expr no hno) fun _ => .pure (List.nil_subset _)
  unfold ifExpr
  split
  · exact build (hargs _ (by simp)) (hargs _ (by simp)) nil_hoists
  · exact build (hargs _ (by simp)) (hargs _ (by simp)) (hargs _ (by simp))
  · exact .fail _

/-- The parts of a `cond` expression hoist what they hoist on their own. -/
theorem condExpr_draws (h : self.Frugal) (form : Form) {args : List Form}
    (hargs : ∀ arg ∈ args, arg.hoistedNames ⊆ own) :
    Binds own (fun _ => []) (condExpr self form args) := by
  refine .bind_yields (still_draws (condClauses_still form args))
    (condClauses_of_all nil_hoists hargs form) fun parts hparts => ?_
  refine .bind (h.expr parts.2 hparts.2) fun last => ?_
  refine .foldrM (List.nil_subset _) fun clause hclause no => ?_
  obtain ⟨htest, hresult⟩ := hparts.1 clause hclause
  exact .bind (h.expr clause.1 htest) fun _ => .bind (h.expr clause.2 hresult) fun _ =>
    .pure (List.nil_subset _)

/-- Only the selector stands beside the statement; the clauses go into a helper. -/
theorem caseExpr_draws (h : self.Frugal) (form : Form) {args : List Form}
    (hselector : ∀ selector ∈ args.head?, selector.hoistedNames ⊆ own) :
    Binds own (fun _ => []) (caseExpr self form args) := by
  have hparts : Yields (fun parts => parts.selector.hoistedNames ⊆ own) (caseParts form args) := by
    cases args with
    | nil => exact .fail _
    | cons selector rest => exact .after fun _ => .pure (hselector selector rfl)
  refine .bind_yields (still_draws (caseParts_still form args)) hparts fun parts hparts => ?_
  refine .bind (h.expr parts.selector hparts) fun value => ?_
  refine .bind (.silent (.fresh "case_"))
    fun selector => ?_
  refine .bind (.silent (.collect id ?_))
    fun result => callHelper_draws (s := "case_fn") _ rfl _ _ _ _
  exact .bind (h.balanced.expr _) fun _ => .foldrM _ fun _ _ _ =>
    .bind (h.balanced.expr _) fun _ => .pure _

theorem logicalExpr_draws (h : self.Frugal) (op : LogicalOp) (form : Form) {args : List Form}
    (hargs : ∀ arg ∈ args, arg.hoistedNames ⊆ own) :
    Binds own (fun _ => []) (logicalExpr self op form args) := by
  unfold logicalExpr
  split
  · exact .pure (List.nil_subset _)
  · exact h.expr _ (hargs _ List.mem_cons_self)
  · exact .bind (exprs_draw h hargs) fun _ => .pure (List.nil_subset _)

/-- A single form stands for itself. Several forms move into a helper, and may bind any name
there. -/
theorem doExpr_draws (h : self.Frugal) (form : Form) {args : List Form}
    (hargs : ∀ arg, args = [arg] → arg.hoistedNames ⊆ own) :
    Binds own (fun _ => []) (doExpr self form args) := by
  unfold doExpr
  split
  · exact .pure (List.nil_subset _)
  · exact h.expr _ (hargs _ rfl)
  · refine .bind (.silent (.collect id (returning_keeps h.balanced _))) fun result => ?_
    exact callHelper_draws (s := "do") _ rfl _ _ _ _

/-- What a `let` expression binds is local to its helper. -/
theorem letExpr_draws (h : self.Frugal) (form : Form) (args : List Form) :
    Binds own (fun _ => []) (letExpr self form args) := by
  cases args with
  | nil => exact .fail _
  | cons bindings body =>
    refine .bind (.silent (.inScope ?_))
      fun result => callHelper_draws (s := "let") _ rfl _ _ _ _
    refine .bind (.still (bindingPairs_still _ _)) fun pairs => ?_
    refine .bind (.mapM fun pair _ => ?_) fun parts => ?_
    · refine .bind (.collect List.tail ?_) fun _ => .pure _
      exact .bind (h.balanced.expr _).weaken fun _ =>
        expand_keeps (fun form => (h.balanced.expr form).weaken) (.binder _) _ _ _
    · exact .bind (.collect id (returning_keeps h.balanced _)) fun _ => .pure _

theorem loopExpr_draws (h : self.Frugal) (form : Form) (args : List Form) :
    Binds own (fun _ => []) (loopExpr self form args) := by
  cases args with
  | nil => exact .fail _
  | cons bindings body =>
    refine .bind (still_draws (analyze_still body)) fun _ => ?_
    refine .bind (.silent (.inScope ?_))
      fun result => callHelper_draws (s := "loop") _ rfl _ _ _ _
    refine .bind (.collect _ (loopTarget_keeps h.balanced _ _)) fun target => ?_
    exact .bind (.collect _ (whileLoop_keeps h.balanced _ _ _)) fun _ => .pure _

theorem Params.bindParam_quiet (p : Params) (form : Form) : Quiet (p.bindParam form) := by
  refine .bind (.still (.lift _)) fun pattern => ?_
  cases pattern with
  | name s => exact .bind (.binder _ _) fun _ => .pure _
  | _ => exact .bind (.fresh _) fun _ => .pure _

/-- Parameters may make temporaries, but no helpers. -/
theorem Params.addAll_quiet (p : Params) (items : List Form) : Quiet (p.addAll items) := by
  have haddRest (p : Params) (form : Form) (items : List Form) : Quiet (p.addRest form items) := by
    cases items with
    | nil => exact .bind (bindParam_quiet p form) fun _ => .pure _
    | cons item items => exact .fail _
  have haddParam (p : Params) (form : Form) : Quiet (p.addParam form) :=
    .bind (bindParam_quiet p form) fun _ => .pure _
  fun_induction addAll p items with
  | case1 => exact .pure _
  | case2 => exact .fail _
  | case3 p => exact haddRest p _ _
  | case4 p => exact haddRest p _ _
  | case5 p s items _ ih => exact .bind (haddParam p _) ih
  | case6 p item items _ ih => exact .bind (haddParam p _) ih

theorem Params.ofForm_quiet (form : Form) : Quiet (ofForm form) := by
  cases form with
  | vector items span => exact addAll_quiet {} items
  | _ => exact .fail _

/-- Of a function its name is all that is bound where it stands. -/
theorem function_draws (h : self.Balanced) {name : String} (hname : name ∈ own) (params : Form)
    (body : List Form) (span : Option Span) (doc : Option String) :
    Binds own assigned (function self name params body span doc) := by
  refine .bind (.silent (.inScope (.bind (.binder _ _) fun _ => ?_))) fun result => .pure ?_
  · refine .bind (Params.ofForm_quiet params) fun params =>
      .bind (.still (analyze_still body)) fun verdict => ?_
    exact .bind (.collect _ (functionBody_keeps h params body span _)) fun _ => .pure _
  · simpa [assigned] using hname

/-- A function without a name of its own is called by a temporary. -/
theorem fnExpr_draws (h : self.Frugal) (form : Form) {args : List Form}
    (hname : ∀ s rest, args = .symbol s :: rest → Name.spell s.name ∈ own) :
    Binds own (fun _ => []) (fnExpr self form args) := by
  have hdefine {own : List String} {name : String} (hmem : name ∈ own) (args : List Form) :
      Binds own (fun _ => []) (fnExpr.define self form name args) := by
    cases args with
    | nil => exact .fail _
    | cons params body =>
      refine .bind (function_draws h.balanced hmem params body _ _) fun helper => ?_
      refine .bind (.hoist (List.subset_append_left _ _)) fun _ => .pure (List.nil_subset _)
  unfold fnExpr
  split
  · exact hdefine (hname _ _ rfl) _
  · exact .bind (.fresh "fn" rfl) fun name => hdefine (by simp) args

theorem binaryExpr_draws (h : self.Frugal) (op : BinaryOp) (head : String) (form : Form)
    {args : List Form} (hargs : ∀ arg ∈ args, arg.hoistedNames ⊆ own) :
    Binds own (fun _ => []) (binaryExpr self op head form args) := by
  unfold binaryExpr
  split
  · exact .fail _
  · split
    · exact .bind (h.expr _ (hargs _ List.mem_cons_self)) fun _ => .pure (List.nil_subset _)
    · exact h.expr _ (hargs _ List.mem_cons_self)
  · rw [List.forall_mem_cons] at hargs
    refine .bind (h.expr _ hargs.1) fun first => ?_
    refine .foldlM _ first (List.nil_subset _) fun own' hown' _ _ operand hoperand => ?_
    have hoperand := List.Subset.trans (hargs.2 operand hoperand) hown'
    exact .bind (h.expr operand hoperand) fun _ => .pure (List.nil_subset _)

theorem compareExpr_draws (h : self.Frugal) (op : CompareOp) (head : String) (form : Form)
    {args : List Form} (hargs : ∀ arg ∈ args, arg.hoistedNames ⊆ own) :
    Binds own (fun _ => []) (compareExpr self op head form args) := by
  unfold compareExpr
  split
  · rw [List.forall_mem_cons] at hargs
    exact .bind (h.expr _ hargs.1) fun _ => .bind (exprs_draw h hargs.2) fun _ =>
      .pure (List.nil_subset _)
  · exact .fail _

theorem callExpr_draws (h : self.Frugal) (form : Form) {head : Form}
    (hhead : head.hoistedNames ⊆ own) {args : List Form}
    (hargs : ∀ arg ∈ args, arg.hoistedNames ⊆ own) :
    Binds own (fun _ => []) (callExpr self form head args) :=
  .bind (h.expr head hhead) fun _ => .bind (exprs_draw h hargs) fun _ =>
    .pure (List.nil_subset _)

theorem symbolExpr_still (s : Symbol) : Still (symbolExpr s) := by
  have hresolve (name : String) : Still (Compile.resolve name) := by
    intro c target c' h
    cases h
    exact ⟨c.events, rfl⟩
  unfold symbolExpr
  dsimp only
  split
  · exact .fail _
  · split
    · exact .fail _
    · exact .bind (hresolve _) fun _ => .pure _

/-- Every special form, given the names that it hoists. Those which move into a helper hoist
none. -/
theorem specialExpr_draws (h : self.Frugal) {special : Special} {head : Symbol} (form : Form)
    {args : List Form} {span : Option Span} (hspecial : Special.ofName? head.name = some special)
    (hform : (Form.list (.symbol head :: args) span).hoistedNames ⊆ own) :
    Binds own (fun _ => []) (specialExpr self special head.name form args) := by
  have hhead : special? (.symbol head :: args) = some special := hspecial
  unfold hoistedNames at hform
  rw [hhead] at hform
  -- what the definition says of a form that keeps nothing to itself
  have hargs (hitems : hoistedNamesOfAll (.symbol head :: args) ⊆ own) :
      ∀ arg ∈ args, arg.hoistedNames ⊆ own :=
    (List.forall_mem_cons.mp (hoistedNamesOfAll_subset.mp hitems)).2
  cases special with
  | ifForm => exact ifExpr_draws h form (hargs hform)
  | condForm => exact condExpr_draws h form (hargs hform)
  | caseForm =>
    refine caseExpr_draws h form fun selector hselector => ?_
    obtain ⟨rest, rfl⟩ := List.head?_eq_some_iff.mp hselector
    exact hform
  | doForm =>
    refine doExpr_draws h form fun arg heq => ?_
    subst heq
    exact hargs hform arg List.mem_cons_self
  | letForm => exact letExpr_draws h form args
  | loopForm => exact loopExpr_draws h form args
  | fnForm =>
    refine fnExpr_draws h form fun s rest heq => ?_
    subst heq
    exact hform List.mem_cons_self
  | andForm => exact logicalExpr_draws h .and form (hargs hform)
  | orForm => exact logicalExpr_draws h .or form (hargs hform)
  | notForm =>
    simp only [specialExpr]
    split
    · exact .bind (h.expr _ (hargs hform _ List.mem_cons_self)) fun _ =>
        .pure (List.nil_subset _)
    · exact .fail _
  | quoteForm =>
    simp only [specialExpr]
    split
    · exact .pure (List.nil_subset _)
    · exact .fail _
  | recurForm | defForm | defnForm => exact .fail _

/-- One step of lowering as an expression, by the kind of form. -/
theorem exprStep_draws (h : self.Frugal) {form : Form} (hform : form.hoistedNames ⊆ own) :
    Binds own (fun _ => []) (exprStep self form) := by
  cases form with
  | const c => exact .pure (List.nil_subset _)
  | symbol s => exact still_draws (symbolExpr_still s)
  | keyword k => exact .pure (List.nil_subset _)
  | vector items span =>
    have hitems := hoistedNamesOfAll_subset.mp hform
    exact .bind (exprs_draw h hitems) fun _ => .pure (List.nil_subset _)
  | map entries span =>
    have hentries := hoistedNamesOfEntries_subset.mp hform
    have hrow (part : Form × Form → Form)
        (hpart : ∀ entry ∈ entries, (part entry).hoistedNames ⊆ own) :
        Binds own (fun _ => []) (entries.mapM fun entry => self.expr (part entry)) :=
      (Binds.mapM _ fun _ hown entry hentry =>
        h.expr _ (List.Subset.trans (hpart entry hentry) hown)).imp fun _ => List.nil_subset _
    exact .bind (hrow (·.1) fun entry hentry => (hentries entry hentry).1) fun _ =>
      .bind (hrow (·.2) fun entry hentry => (hentries entry hentry).2) fun _ =>
        .pure (List.nil_subset _)
  | list items span =>
    cases items with
    | nil => exact .pure (List.nil_subset _)
    | cons first args =>
      cases first with
      | symbol head =>
        show Binds own (fun _ => []) (headedExpr self _ head args)
        have hargs (hnone : Special.ofName? head.name = none) :
            ∀ arg ∈ args, arg.hoistedNames ⊆ own := by
          have hhead : special? (.symbol head :: args) = none := hnone
          unfold hoistedNames at hform
          rw [hhead] at hform
          exact (List.forall_mem_cons.mp (hoistedNamesOfAll_subset.mp hform)).2
        have hhead : (Form.symbol head).hoistedNames ⊆ own := List.nil_subset own
        unfold headedExpr
        split
        · exact specialExpr_draws h _ ‹_› hform
        · exact binaryExpr_draws h _ _ _ (hargs ‹_›)
        · exact compareExpr_draws h _ _ _ (hargs ‹_›)
        · exact callExpr_draws h _ hhead (hargs ‹_›)
      | _ =>
        have hitems := hoistedNamesOfAll_subset.mp hform
        rw [List.forall_mem_cons] at hitems
        exact callExpr_draws h _ hitems.1 hitems.2

/-! ### Statements and tails -/

theorem stmts_draw (h : self.Frugal) {forms : List Form}
    (hforms : ∀ form ∈ forms, form.Defineless) :
    Binds own assignedOfAll (stmts self forms) := by
  refine .bind (.mapM _ fun own _ form hform => h.stmt form (hforms form hform) own)
    fun blocks => .pure ?_
  rw [assignedOfAll_flatten]
  exact List.subset_append_left _ _

theorem assignedOfAll_block (ss : List Stmt) : assignedOfAll (block ss) = assignedOfAll ss := by
  unfold block
  split
  · rename_i hempty
    rw [List.isEmpty_iff.mp hempty]
    rfl
  · rfl

theorem ifStmt_draws (h : self.Frugal) (form : Form) {args : List Form}
    (hargs : ∀ arg ∈ args, arg.Defineless) : Binds own assignedOfAll (ifStmt self form args) := by
  unfold ifStmt
  split
  · refine .bind (h.value _ (hargs _ (by simp)) own) fun test => ?_
    refine .bind (h.stmt _ (hargs _ (by simp)) _) fun yes => .pure ?_
    simp [assignedOfAll, assigned, assignedOfAll_block]
  · refine .bind (h.value _ (hargs _ (by simp)) own) fun test => ?_
    refine .bind (h.stmt _ (hargs _ (by simp)) _) fun yes => ?_
    refine .bind (h.stmt _ (hargs _ (by simp)) _) fun no => .pure ?_
    intro x hx
    simp only [assignedOfAll, assigned, assignedOfAll_block, List.append_nil, List.mem_append]
      at hx ⊢
    tauto
  · exact .fail _

theorem letStmt_draws (h : self.Frugal) (form : Form) {args : List Form}
    (hargs : ∀ arg ∈ args, arg.Defineless) : Binds own assignedOfAll (letStmt self form args) := by
  cases args with
  | nil => exact .fail _
  | cons bindings body =>
    rw [List.forall_mem_cons] at hargs
    refine .inScope (.bind (letBindings_draws h hargs.1) fun head => ?_)
    refine .bind (stmts_draw h hargs.2) fun rest => .pure ?_
    refine assignedOfAll_append_subset ?_ (List.subset_append_left _ _)
    exact List.Subset.trans (List.subset_append_left _ _) (List.subset_append_right _ _)

theorem loopStmt_draws (h : self.Frugal) (form : Form) {args : List Form}
    (hargs : ∀ arg ∈ args, arg.Defineless) : Binds own assignedOfAll (loopStmt self form args) := by
  cases args with
  | nil => exact .fail _
  | cons bindings body =>
    rw [List.forall_mem_cons] at hargs
    refine .bind (still_draws (analyze_still body)) fun _ => ?_
    refine .inScope (.bind_yields (loopTarget_draws h hargs.1) (loopTarget_selfCall _ _)
      fun target hrecur => ?_)
    refine .bind (whileLoop_draws h (List.subset_append_left _ _) hrecur hargs.2 _)
      fun result => .pure ?_
    exact List.subset_append_left _ _

theorem exprStmt_draws (h : self.Frugal) {form : Form} (hform : form.Defineless) :
    Binds own assignedOfAll (exprStmt self form) :=
  .bind (exprStep_draws h (hform.hoists own)) fun _ => .pure (List.nil_subset _)

/-- One step of lowering as a statement. A form without definitions is neither `def` nor `defn`. -/
theorem bareStmt_draws (h : self.Frugal) {form : Form} (hform : form.Defineless) :
    Binds own assignedOfAll (bareStmt self form) := by
  unfold bareStmt
  split
  · rename_i head args span
    have hargs (special : Special) (hspecial : Special.ofName? head.name = some special)
        (hquote : special ≠ .quoteForm) : ∀ arg ∈ args, arg.Defineless :=
      hform.args (by rw [hspecial]; simpa using hquote)
    have hdefinition (special : Special) (hspecial : Special.ofName? head.name = some special)
        (hdef : special = .defForm ∨ special = .defnForm) : False := by
      have hhead : special? (.symbol head :: args) = some special := hspecial
      obtain ⟨hfalse, -⟩ := hform.inList (by rw [hhead]; rcases hdef with rfl | rfl <;> nofun)
      rcases hdef with rfl | rfl <;> simp [isDefinition, hhead] at hfalse
    split
    · exact ifStmt_draws h _ (hargs _ ‹_› (by nofun))
    · split
      · exact .pure (List.nil_subset _)
      · exact stmts_draw h (hargs _ ‹_› (by nofun))
    · exact (hdefinition _ ‹_› (.inl rfl)).elim
    · exact (hdefinition _ ‹_› (.inr rfl)).elim
    · exact letStmt_draws h _ (hargs _ ‹_› (by nofun))
    · exact loopStmt_draws h _ (hargs _ ‹_› (by nofun))
    · exact .fail _
    · exact exprStmt_draws h hform
  · exact exprStmt_draws h hform

theorem stmtStep_draws (h : self.Frugal) {form : Form} (hform : form.Defineless) :
    Binds own assignedOfAll (stmtStep self form) := by
  refine .bind (bareStmt_draws h hform).collect fun result => .pure ?_
  intro x hx
  simp only [Context.assignedOfAll_append, List.mem_append] at hx ⊢
  tauto

/-- One step of lowering in the tail of a loop. -/
theorem tailStep_draws (h : self.Frugal) (hown : target.Within own) {form : Form}
    (hform : form.Defineless) : Binds own assignedOfAll (tailStep self target form) := by
  have hexit : Binds own assignedOfAll (exitStep self target form) :=
    .bind (exprStep_draws h (hform.hoists own)) fun _ => exitWith_draws hown _ _
  unfold tailStep
  split
  · rename_i head args span
    have hargs (special : Special) (hspecial : Special.ofName? head.name = some special)
        (hquote : special ≠ .quoteForm) : ∀ arg ∈ args, arg.Defineless :=
      hform.args (by rw [hspecial]; simpa using hquote)
    split
    · rename_i hhead
      refine jump_draws h hown _ (hargs .recurForm ?_ nofun)
      rw [hhead, hown.selfCall]
      rfl
    · split
      · exact tailIf_draws h hown _ (hargs _ ‹_› (by nofun))
      · exact tailCond_draws h hown _ (hargs _ ‹_› (by nofun))
      · exact tailCase_draws h hown _ (hargs _ ‹_› (by nofun))
      · exact tailLet_draws h hown _ (hargs _ ‹_› (by nofun))
      · exact loopBody_draws h args own hown (hargs _ ‹_› (by nofun))
      · exact tailLogical_draws h .and _ args own hown (hargs _ ‹_› (by nofun))
      · exact tailLogical_draws h .or _ args own hown (hargs _ ‹_› (by nofun))
      · exact hexit
  · exact hexit

/-- What the parts of a form bind bounds what the form binds. -/
theorem Frugal.step (h : self.Frugal) : Frugal self.step where
  balanced := h.balanced.step
  expr _ _ hform := exprStep_draws h hform
  stmt _ hform _ := stmtStep_draws h hform
  tail _ _ hform _ hown := tailStep_draws h hown hform

/-- **Lowering binds temporaries of its own only**, at every depth of forms. -/
theorem upTo_frugal : ∀ n : Nat, (upTo n).Frugal
  | 0 => ⟨upTo_balanced 0, fun _ _ _ => .fail _, fun _ _ _ => .fail _, fun _ _ _ _ _ => .fail _⟩
  | n + 1 => (upTo_frugal n).step

/-- All names that a statement without definitions binds at its own level are temporaries that were
made while it was lowered. So however a run of it ends, every variable with another name has the
value that it had before, in the function of the statement as anywhere else. -/
theorem stmt_binds_own_temporaries (n : Nat) {form : Form} (hform : form.definesNothing = true)
    {c c' : Context} {ss : List Stmt} (hrun : (upTo n).stmt form c = .ok ss c') :
    ∃ stems, c.Draws stems c' ∧ (∀ x ∈ assignedOfAll ss, x ∈ c.drawn stems) ∧
      (∀ x ∈ c.drawn stems, c.Future x) ∧
      ∀ depth (frames : List Nat) (W : World), W.Leads ⟨frames.head?, (· ∈ c.drawn stems)⟩
        ((Interp.execAll (Interp.upTo depth) frames ss).after W) := by
  obtain ⟨stems, helpers, hdraws, -, hbinds⟩ := (upTo_frugal n).stmt form hform [] hrun
  have hdrawn (x : String) (hx : x ∈ assignedOfAll ss) : x ∈ c.drawn stems :=
    (hbinds x (.inl hx)).resolve_left List.not_mem_nil
  refine ⟨stems, hdraws, hdrawn, fun x hx => Context.future_of_mem_drawn hx, ?_⟩
  intro depth frames W
  exact (Interp.execAll_leads depth frames ss W).mono hdrawn

/-- A loop over the items of a list, with a helper in an initializer and a closure in its body. -/
def closingLoop : String :=
  "(loop [[a &r] [1 2] i (do 0 1)] (let [y (fn [] a)] (if i (recur r 0) (y))))"

theorem stmt_binds_own_temporaries_loop : ∃ form ss c', Form.readAll closingLoop = .ok [form]
    ∧ form.definesNothing = true ∧ (upTo 9).stmt form ({} : Options).context = .ok ss c'
    ∧ "__ll_fn_9" ∈ assignedOfAll ss
    ∧ ∃ stems, ({} : Options).context.Draws stems c'
      ∧ ∀ x ∈ assignedOfAll ss, x ∈ ({} : Options).context.drawn stems := by
  have hread : (Form.readAll closingLoop).toOption.map (List.map fun form =>
      (form.definesNothing,
        ((Compile.outcome ((upTo 9).stmt form) ({} : Options).context).result.map
        fun ss => (assignedOfAll ss).contains "__ll_fn_9").toOption)) =
      some [(true, some true)] := by decide +kernel
  cases hforms : Form.readAll closingLoop with
  | error fault =>
    rw [hforms] at hread
    cases hread
  | ok forms =>
    rw [hforms] at hread
    obtain ⟨form, rfl, hform⟩ := List.map_eq_singleton_iff.mp (Option.some.inj hread)
    obtain ⟨hdefines, hlowered⟩ := Prod.mk.inj hform
    unfold Compile.outcome at hlowered
    cases hrun : (upTo 9).stmt form ({} : Options).context with
    | error fault c' =>
      simp only [EStateM.run, hrun] at hlowered
      cases hlowered
    | ok ss c' =>
      simp only [EStateM.run, hrun] at hlowered
      have hhelper := List.contains_iff_mem.mp (Option.some.inj hlowered)
      obtain ⟨stems, hdraws, hdrawn, -⟩ := stmt_binds_own_temporaries 9 hdefines hrun
      exact ⟨form, ss, c', rfl, hdefines, hrun, hhelper, stems, hdraws, hdrawn⟩

end Lowering

end TailLisp
