import Mathlib.Tactic.Tauto
import TailLisp.Macro
import TailLisp.Proofs.PatternLevel

/-!
# TailLisp.Proofs.Expansion

**What macro expansion leads to.** Expansion works outside of quoted forms, and so do the properties
of forms here: `Form.Throughout` asks for a property at every depth, but not inside of quoted forms.
A step of a macro takes its call apart and puts the arguments together again. Properties that do not
depend on how forms are put together are kept by it (`Macro.Kept`).

An expanded form should have no macro call left (`Macro.IsSettled`), and then expanding it again
changes nothing. It has none if every call is met before its head is looked at for the last time. A
list can have a head that is a macro call itself and stands for the name of another macro, as in
`((-> when) test body)`; `Macro.keepsHead` rules this out.
-/

namespace TailLisp

namespace Form

/-- The form is quoted and its parts do not count. -/
def SkipsQuoted (quoted : Bool) (form : Form) : Prop :=
  quoted = false ∧ form.isCallOf "quote" = true

mutual

/-- `P` holds of the form and of all forms in it, those in quoted forms only if `quoted` is set. -/
def Throughout (quoted : Bool) (P : Form → Prop) : Form → Prop
  | .const c => P (.const c)
  | .symbol s => P (.symbol s)
  | .keyword k => P (.keyword k)
  | .list items span =>
    P (.list items span) ∧ (SkipsQuoted quoted (.list items span) ∨ ThroughoutAll quoted P items)
  | .vector items span => P (.vector items span) ∧ ThroughoutAll quoted P items
  | .map entries span => P (.map entries span) ∧ ThroughoutEntries quoted P entries

/-- `P` holds throughout each of the forms. -/
def ThroughoutAll (quoted : Bool) (P : Form → Prop) : List Form → Prop
  | [] => True
  | form :: forms => Throughout quoted P form ∧ ThroughoutAll quoted P forms

/-- `P` holds throughout each of the keys and values. -/
def ThroughoutEntries (quoted : Bool) (P : Form → Prop) : List (Form × Form) → Prop
  | [] => True
  | (key, value) :: entries =>
    (Throughout quoted P key ∧ Throughout quoted P value) ∧ ThroughoutEntries quoted P entries

end

mutual

/-- A property at every depth can be decided form by form. -/
def decideThroughout (quoted : Bool) (P : Form → Prop) [DecidablePred P] :
    ∀ form, Decidable (Throughout quoted P form)
  | .const c => inferInstanceAs (Decidable (P (.const c)))
  | .symbol s => inferInstanceAs (Decidable (P (.symbol s)))
  | .keyword k => inferInstanceAs (Decidable (P (.keyword k)))
  | .list items span =>
    have := decideThroughoutAll quoted P items
    inferInstanceAs (Decidable (P (.list items span) ∧
      ((quoted = false ∧ (Form.list items span).isCallOf "quote" = true) ∨
        ThroughoutAll quoted P items)))
  | .vector items span =>
    have := decideThroughoutAll quoted P items
    inferInstanceAs (Decidable (P (.vector items span) ∧ ThroughoutAll quoted P items))
  | .map entries span =>
    have := decideThroughoutEntries quoted P entries
    inferInstanceAs (Decidable (P (.map entries span) ∧ ThroughoutEntries quoted P entries))

def decideThroughoutAll (quoted : Bool) (P : Form → Prop) [DecidablePred P] :
    ∀ forms, Decidable (ThroughoutAll quoted P forms)
  | [] => inferInstanceAs (Decidable True)
  | form :: forms =>
    have := decideThroughout quoted P form
    have := decideThroughoutAll quoted P forms
    inferInstanceAs (Decidable (Throughout quoted P form ∧ ThroughoutAll quoted P forms))

def decideThroughoutEntries (quoted : Bool) (P : Form → Prop) [DecidablePred P] :
    ∀ entries, Decidable (ThroughoutEntries quoted P entries)
  | [] => inferInstanceAs (Decidable True)
  | (key, value) :: entries =>
    have := decideThroughout quoted P key
    have := decideThroughout quoted P value
    have := decideThroughoutEntries quoted P entries
    inferInstanceAs (Decidable ((Throughout quoted P key ∧ Throughout quoted P value) ∧
      ThroughoutEntries quoted P entries))

end

instance (quoted : Bool) (P : Form → Prop) [DecidablePred P] (form : Form) :
    Decidable (form.Throughout quoted P) :=
  decideThroughout quoted P form

variable {quoted : Bool} {P : Form → Prop}

theorem throughoutAll_iff {forms : List Form} :
    ThroughoutAll quoted P forms ↔ ∀ form ∈ forms, form.Throughout quoted P := by
  induction forms with
  | nil => simp [ThroughoutAll]
  | cons form forms ih => simp [ThroughoutAll, ih]

theorem throughoutEntries_iff {entries : List (Form × Form)} :
    ThroughoutEntries quoted P entries ↔
      ∀ entry ∈ entries, entry.1.Throughout quoted P ∧ entry.2.Throughout quoted P := by
  induction entries with
  | nil => simp [ThroughoutEntries]
  | cons entry entries ih => simp [ThroughoutEntries, ih]

theorem throughout_list {items : List Form} {span : Option Span} :
    (Form.list items span).Throughout quoted P ↔ P (.list items span) ∧
      (SkipsQuoted quoted (.list items span) ∨ ∀ item ∈ items, item.Throughout quoted P) := by
  rw [Throughout, throughoutAll_iff]

theorem throughout_vector {items : List Form} {span : Span} :
    (Form.vector items span).Throughout quoted P ↔
      P (.vector items span) ∧ ∀ item ∈ items, item.Throughout quoted P := by
  rw [Throughout, throughoutAll_iff]

theorem throughout_map {entries : List (Form × Form)} {span : Span} :
    (Form.map entries span).Throughout quoted P ↔
      P (.map entries span) ∧
        ∀ entry ∈ entries, entry.1.Throughout quoted P ∧ entry.2.Throughout quoted P := by
  rw [Throughout, throughoutEntries_iff]

theorem Throughout.self {form : Form} (h : form.Throughout quoted P) : P form := by
  cases form with
  | const c => exact h
  | symbol s => exact h
  | keyword k => exact h
  | list items span => exact h.1
  | vector items span => exact h.1
  | map entries span => exact h.1

mutual

theorem throughout_of_forall (h : ∀ form, P form) : ∀ form : Form, form.Throughout quoted P
  | .const _ | .symbol _ | .keyword _ => h _
  | .list items _ => ⟨h _, .inr (throughoutAll_of_forall h items)⟩
  | .vector items _ => ⟨h _, throughoutAll_of_forall h items⟩
  | .map entries _ => ⟨h _, throughoutEntries_of_forall h entries⟩

theorem throughoutAll_of_forall (h : ∀ form, P form) :
    ∀ forms : List Form, ThroughoutAll quoted P forms
  | [] => trivial
  | form :: forms => ⟨throughout_of_forall h form, throughoutAll_of_forall h forms⟩

theorem throughoutEntries_of_forall (h : ∀ form, P form) :
    ∀ entries : List (Form × Form), ThroughoutEntries quoted P entries
  | [] => trivial
  | (key, value) :: entries => ⟨⟨throughout_of_forall h key, throughout_of_forall h value⟩,
      throughoutEntries_of_forall h entries⟩

end

/-- Whether a list is quoted is seen from its head. -/
theorem SkipsQuoted.of_head {head : Form} {args : List Form} {span : Option Span}
    (h : SkipsQuoted quoted (.list (head :: args) span)) (args' : List Form)
    (span' : Option Span) : SkipsQuoted quoted (.list (head :: args') span') := by
  refine ⟨h.1, ?_⟩
  have hcall := h.2
  cases head with
  | symbol s => exact hcall
  | _ => cases hcall

theorem SkipsQuoted.name_eq {s : Symbol} {args : List Form} {span : Option Span}
    (h : SkipsQuoted quoted (.list (.symbol s :: args) span)) : s.name = "quote" := by
  simpa [isCallOf, head?] using h.2

/-- The items of a call that is no quoted form. -/
theorem Throughout.items {s : Symbol} {args : List Form} {span : Option Span}
    (h : (Form.list (.symbol s :: args) span).Throughout quoted P) (hs : s.name ≠ "quote") :
    ∀ item ∈ Form.symbol s :: args, item.Throughout quoted P :=
  (throughout_list.1 h).2.resolve_left fun hquote => hs hquote.name_eq

/-- The items of a list whose head is no symbol. -/
theorem Throughout.items_of_head {head : Form} {args : List Form} {span : Option Span}
    (h : (Form.list (head :: args) span).Throughout quoted P) (hhead : ∀ s, head ≠ .symbol s) :
    ∀ item ∈ head :: args, item.Throughout quoted P := by
  refine (throughout_list.1 h).2.resolve_left fun hquote => ?_
  have hcall := hquote.2
  cases head with
  | symbol s => exact hhead s rfl
  | _ => cases hcall

end Form

namespace Macro

/-! ### Steps -/

/-- The property holds of what a macro puts together if it holds of what it has taken apart. -/
structure Kept (P : Form → Prop) : Prop where
  nil : P .nil
  named : ∀ name ∈ ["if", "do"], P (.named name)
  renamed : ∀ {s : Symbol}, P (.symbol s) → P (.named s.name)
  called : ∀ name args, P (.made (.named name :: args))
  /-- A list that takes one more argument. -/
  threaded : ∀ {head : Form} {args : List Form} {span : Option Span} (args' : List Form),
    P (.list (head :: args) span) → P (.made (head :: args'))
  /-- Anything else that is called. -/
  applied : ∀ {step : Form} (x : Form), (∀ head args span, step ≠ .list (head :: args) span) →
    P (.made [step, x])
  placed : ∀ {items items' : List Form} {span : Option Span},
    P (.list items none) → P (.list items' span) → P (.list items span)

variable {quoted : Bool} {P : Form → Prop} {table : MacroTable} {limit : Int}

theorem thread_throughout (hP : Kept P) (last : Bool) {x : Form} {steps : List Form}
    (hx : x.Throughout quoted P) (hsteps : ∀ step ∈ steps, step.Throughout quoted P) :
    (thread last x steps).Throughout quoted P := by
  fun_induction thread last x steps with
  | case1 => exact hx
  | case2 x head args span steps ih =>
    rw [List.forall_mem_cons] at hsteps
    obtain ⟨hstep, hitems⟩ := Form.throughout_list.1 hsteps.1
    have hsplit : (if last = true then head :: args ++ [x] else head :: x :: args) =
        head :: if last = true then args ++ [x] else x :: args := by split <;> rfl
    rw [hsplit] at ih ⊢
    refine ih (Form.throughout_list.2 ⟨hP.threaded _ hstep, ?_⟩) hsteps.2
    -- the head decides whether the list is quoted, and it has not changed
    rcases hitems with hquote | hitems
    · exact .inl (hquote.of_head _ _)
    · refine .inr fun item hitem => ?_
      have hmem : item = x ∨ item ∈ head :: args := by
        cases last <;> simp at hitem ⊢ <;> tauto
      rcases hmem with rfl | hmem
      · exact hx
      · exact hitems item hmem
  | case3 x step steps hstep ih =>
    rw [List.forall_mem_cons] at hsteps
    refine ih (Form.throughout_list.2 ⟨hP.applied x hstep, .inr ?_⟩) hsteps.2
    exact List.forall_mem_cons.2 ⟨hsteps.1, List.forall_mem_singleton.2 hx⟩

/-- What a macro makes of its arguments has the property, if macros only put together what has
it. -/
theorem replace_throughout (hP : Kept P) {m : Macro} {s : Symbol} {args : List Form} {form : Form}
    (hs : P (.symbol s)) (hargs : ∀ arg ∈ args, arg.Throughout quoted P)
    (h : m.replace s.name args = .ok form) : form.Throughout quoted P := by
  have hcall {head : String} {items : List Form} (hhead : P (.named head))
      (hitems : ∀ item ∈ items, item.Throughout quoted P) :
      (Form.made (.named head :: items)).Throughout quoted P :=
    Form.throughout_list.2 ⟨hP.called head items, .inr (List.forall_mem_cons.2 ⟨hhead, hitems⟩)⟩
  have hif : P (.named "if") := hP.named _ (by simp)
  have hdo : P (.named "do") := hP.named _ (by simp)
  have hnil : Form.nil.Throughout quoted P := hP.nil
  unfold replace at h
  split at h
  · cases h
    rw [List.forall_mem_cons] at hargs
    exact hcall hif (by simpa using ⟨hargs.1, hcall hdo hargs.2, hnil⟩)
  · cases h
    rw [List.forall_mem_cons] at hargs
    exact hcall hif (by simpa using ⟨hargs.1, hnil, hcall hdo hargs.2⟩)
  · cases h
    exact hcall hif (by simpa using ⟨hargs _ (by simp), hnil, hargs _ (by simp)⟩)
  · cases h
    exact hcall hif (by simpa using ⟨hargs _ (by simp), hargs _ (by simp), hargs _ (by simp)⟩)
  · cases h
  · cases h
    rw [List.forall_mem_cons] at hargs
    exact thread_throughout hP false hargs.1 hargs.2
  · cases h
    rw [List.forall_mem_cons] at hargs
    exact thread_throughout hP true hargs.1 hargs.2
  · cases h
    exact hcall (hP.renamed hs) hargs
  · cases h

theorem placed_throughout (hP : Kept P) {form : Form} {items : List Form} {span : Option Span}
    (hform : form.Throughout quoted P) (hcall : P (.list items span)) :
    (placed span form).Throughout quoted P := by
  unfold placed
  split
  · rename_i made
    obtain ⟨hmade, hitems⟩ := Form.throughout_list.1 hform
    refine Form.throughout_list.2 ⟨hP.placed hmade hcall, hitems.imp_left fun hquote => ?_⟩
    cases made with
    | nil => cases hquote.2
    | cons head args => exact hquote.of_head args span
  · exact hform

/-- A macro step keeps a property of all parts of the form, if macros only put together what has
it. -/
theorem expandOnce_throughout (hP : Kept P) (hquote : table.lookup "quote" = none)
    {form form' : Form} (hform : form.Throughout quoted P) (h : expandOnce table form = .ok form') :
    form'.Throughout quoted P := by
  unfold expandOnce at h
  split at h
  · rename_i s args span
    split at h
    · rename_i m hm
      have hs : s.name ≠ "quote" := by
        rintro hs
        rw [hs, hquote] at hm
        cases hm
      split at h
      · cases h
        obtain ⟨hsymbol, hargs⟩ := List.forall_mem_cons.1 (hform.items hs)
        exact placed_throughout hP (replace_throughout hP hsymbol hargs ‹_›) hform.self
      · cases h
    · cases h
      exact hform
  · cases h
    exact hform

/-- The steps at the head of a form keep the property. The induction is on the steps. -/
theorem expandSteps_throughout (hP : Kept P) (hquote : table.lookup "quote" = none) {whole : Form} :
    ∀ {steps : Nat} {form form' : Form}, form.Throughout quoted P →
      expandSteps table limit whole steps form = .ok form' → form'.Throughout quoted P
  | 0, form, form', hform, h => by
    unfold expandSteps at h
    split at h
    · cases h
    · cases h
      exact hform
  | steps + 1, form, form', hform, h => by
    unfold expandSteps at h
    split at h
    · obtain ⟨made, hmade, h⟩ := Parsing.bind_ok h
      exact expandSteps_throughout hP hquote (expandOnce_throughout hP hquote hform hmade) h
    · cases h
      exact hform

/-- Expansion of the head stops at a form that is no macro call. -/
theorem ofCall?_of_expandSteps {whole : Form} : ∀ {steps : Nat} {form form' : Form},
    expandSteps table limit whole steps form = .ok form' → ofCall? table form' = none
  | 0, form, form', h => by
    unfold expandSteps at h
    split at h
    · cases h
    · cases h
      exact Option.not_isSome_iff_eq_none.1 ‹_›
  | steps + 1, form, form', h => by
    unfold expandSteps at h
    split at h
    · obtain ⟨made, -, h⟩ := Parsing.bind_ok h
      exact ofCall?_of_expandSteps h
    · cases h
      exact Option.not_isSome_iff_eq_none.1 ‹_›

theorem expandHead_of_ofCall? {form : Form} (h : ofCall? table form = none) :
    expandHead table limit form = .ok form := by
  unfold expandHead expandSteps
  simp [h]

/-! ### Walking -/

/-- A property that does not look at the parts of a collection. -/
structure Shallow (P : Form → Prop) : Prop where
  list : ∀ {items : List Form} (items' : List Form) {span : Option Span},
    P (.list items span) → P (.list items' span)
  vector : ∀ {items : List Form} (items' : List Form) {span : Span},
    P (.vector items span) → P (.vector items' span)
  map : ∀ {entries : List (Form × Form)} (entries' : List (Form × Form)) {span : Span},
    P (.map entries span) → P (.map entries' span)

/-- What the step makes of a form has the property throughout if the form has. -/
def KeepsThroughout (quoted : Bool) (P : Form → Prop) (step : Form → Except Fault Form) : Prop :=
  ∀ ⦃form form'⦄, form.Throughout quoted P → step form = .ok form' → form'.Throughout quoted P

section Walk

variable {resume : Form → Except Fault Form}

mutual

/-- Walking keeps a property of all parts, by recursion on the form. -/
theorem walk_throughout (hP : Kept P) (hshallow : Shallow P) (hquote : table.lookup "quote" = none)
    (hresume : KeepsThroughout quoted P resume) :
    ∀ {form form' : Form}, form.Throughout quoted P → walk table limit resume form = .ok form' →
      form'.Throughout quoted P
  | .list items span, form', hform, h => by
    unfold walk at h
    split at h
    · obtain ⟨made, hmade, h⟩ := Parsing.bind_ok h
      exact hresume (expandSteps_throughout hP hquote hform hmade) h
    · split at h
      · cases h
        exact hform
      · rename_i hcall
        obtain ⟨items', hitems, h⟩ := Parsing.bind_ok h
        cases h
        exact ⟨hshallow.list items' hform.1, .inr (walkAll_throughout hP hshallow hquote hresume
          (hform.2.resolve_left fun hskip => hcall hskip.2) hitems)⟩
  | .vector items span, form', hform, h => by
    unfold walk at h
    obtain ⟨items', hitems, h⟩ := Parsing.bind_ok h
    cases h
    exact ⟨hshallow.vector items' hform.1,
      walkAll_throughout hP hshallow hquote hresume hform.2 hitems⟩
  | .map entries span, form', hform, h => by
    unfold walk at h
    obtain ⟨entries', hentries, h⟩ := Parsing.bind_ok h
    cases h
    exact ⟨hshallow.map entries' hform.1,
      walkEntries_throughout hP hshallow hquote hresume hform.2 hentries⟩
  | .const _, _, hform, h => by cases h; exact hform
  | .symbol _, _, hform, h => by cases h; exact hform
  | .keyword _, _, hform, h => by cases h; exact hform

theorem walkAll_throughout (hP : Kept P) (hshallow : Shallow P)
    (hquote : table.lookup "quote" = none) (hresume : KeepsThroughout quoted P resume) :
    ∀ {forms forms' : List Form}, Form.ThroughoutAll quoted P forms →
      walkAll table limit resume forms = .ok forms' → Form.ThroughoutAll quoted P forms'
  | [], _, _, h => by cases h; trivial
  | form :: forms, _, hforms, h => by
    unfold walkAll at h
    obtain ⟨form', hform, h⟩ := Parsing.bind_ok h
    obtain ⟨forms', htail, h⟩ := Parsing.bind_ok h
    cases h
    exact ⟨walk_throughout hP hshallow hquote hresume hforms.1 hform,
      walkAll_throughout hP hshallow hquote hresume hforms.2 htail⟩

theorem walkEntries_throughout (hP : Kept P) (hshallow : Shallow P)
    (hquote : table.lookup "quote" = none) (hresume : KeepsThroughout quoted P resume) :
    ∀ {entries entries' : List (Form × Form)}, Form.ThroughoutEntries quoted P entries →
      walkEntries table limit resume entries = .ok entries' →
      Form.ThroughoutEntries quoted P entries'
  | [], _, _, h => by cases h; trivial
  | (key, value) :: entries, _, hentries, h => by
    unfold walkEntries at h
    obtain ⟨key', hkey, h⟩ := Parsing.bind_ok h
    obtain ⟨value', hvalue, h⟩ := Parsing.bind_ok h
    obtain ⟨entries', htail, h⟩ := Parsing.bind_ok h
    cases h
    exact ⟨⟨walk_throughout hP hshallow hquote hresume hentries.1.1 hkey,
        walk_throughout hP hshallow hquote hresume hentries.1.2 hvalue⟩,
      walkEntries_throughout hP hshallow hquote hresume hentries.2 htail⟩

end

end Walk

theorem expandRounds_throughout (hP : Kept P) (hshallow : Shallow P)
    (hquote : table.lookup "quote" = none) :
    ∀ rounds : Nat, KeepsThroughout quoted P (expandRounds table limit rounds)
  | 0, _, _, hform, h => walk_throughout hP hshallow hquote (fun _ _ _ h => by cases h) hform h
  | rounds + 1, _, _, hform, h =>
    walk_throughout hP hshallow hquote (expandRounds_throughout hP hshallow hquote rounds) hform h

/-- What is made of each form of a row. -/
theorem forall_of_mapM {f : Form → Except Fault Form} {Q : Form → Prop} {forms forms' : List Form}
    (hf : ∀ form ∈ forms, ∀ form', f form = .ok form' → Q form')
    (h : forms.mapM f = .ok forms') : ∀ form' ∈ forms', Q form' := by
  induction forms generalizing forms' with
  | nil => cases h; exact nofun
  | cons form forms ih =>
    rw [List.mapM_cons] at h
    rw [List.forall_mem_cons] at hf
    obtain ⟨form', hform, h⟩ := Parsing.bind_ok h
    obtain ⟨forms', htail, h⟩ := Parsing.bind_ok h
    cases h
    exact List.forall_mem_cons.2 ⟨hf.1 form' hform, ih hf.2 htail⟩

/-- Expansion keeps a property that is kept by each step of a macro and does not look at parts. -/
theorem expandAll_throughout (hP : Kept P) (hshallow : Shallow P)
    (hquote : table.lookup "quote" = none) {forms forms' : List Form}
    (hforms : ∀ form ∈ forms, form.Throughout quoted P)
    (h : expandAll table limit forms = .ok forms') :
    ∀ form ∈ forms', form.Throughout quoted P :=
  forall_of_mapM (fun form hform _ h =>
    expandRounds_throughout hP hshallow hquote _ (hforms form hform) h) h

/-! ### Settled forms -/

/-- No macro is called in the form, except inside of quoted forms. -/
def IsSettled (table : MacroTable) (form : Form) : Prop :=
  form.Throughout false fun f => ofCall? table f = none

section Settled

variable {resume : Form → Except Fault Form}

mutual

/-- Where no macro is called, nothing changes. -/
theorem walk_of_settled : ∀ form : Form, IsSettled table form →
    walk table limit resume form = .ok form
  | .list items span, h => by
    have hcall : ¬(ofCall? table (.list items span)).isSome = true :=
      Option.not_isSome_iff_eq_none.2 h.1
    rw [walk, if_neg hcall]
    split
    · rfl
    · rename_i hquote
      rw [walkAll_of_settled items (h.2.resolve_left fun hskip => hquote hskip.2)]
      rfl
  | .vector items span, h => by
    rw [walk, walkAll_of_settled items h.2]
    rfl
  | .map entries span, h => by
    rw [walk, walkEntries_of_settled entries h.2]
    rfl
  | .const _, _ => rfl
  | .symbol _, _ => rfl
  | .keyword _, _ => rfl

theorem walkAll_of_settled : ∀ forms : List Form,
    Form.ThroughoutAll false (fun f => ofCall? table f = none) forms →
      walkAll table limit resume forms = .ok forms
  | [], _ => rfl
  | form :: forms, h => by
    rw [walkAll, walk_of_settled form h.1, walkAll_of_settled forms h.2]
    rfl

theorem walkEntries_of_settled : ∀ entries : List (Form × Form),
    Form.ThroughoutEntries false (fun f => ofCall? table f = none) entries →
      walkEntries table limit resume entries = .ok entries
  | [], _ => rfl
  | (key, value) :: entries, h => by
    rw [walkEntries, walk_of_settled key h.1.1, walk_of_settled value h.1.2,
      walkEntries_of_settled entries h.2]
    rfl

end

end Settled

/-- Forms without macro calls are left as they are. -/
theorem expandAll_of_settled {forms : List Form} (h : ∀ form ∈ forms, IsSettled table form) :
    expandAll table limit forms = .ok forms := by
  unfold expandAll
  induction forms with
  | nil => rfl
  | cons form forms ih =>
    rw [List.forall_mem_cons] at h
    have hform : expandDeep table limit form = .ok form := by
      unfold expandDeep
      cases nameCount table form <;> exact walk_of_settled form h.1
    rw [List.mapM_cons, hform, ih h.2]
    rfl

/-! ### Heads that stay -/

/-- If the head of a list is a list itself, it does not expand to the name of a macro. -/
def keepsHead (table : MacroTable) (limit : Int) : Form → Bool
  | .list (.list items span :: _) _ =>
    match expandHead table limit (.list items span) with
    | .ok (.symbol s) => (table.lookup s.name).isNone
    | _ => true
  | _ => true

theorem keepsHead_cons (head : Form) (args args' : List Form) (span span' : Option Span) :
    keepsHead table limit (.list (head :: args) span) =
      keepsHead table limit (.list (head :: args') span') := by
  cases head <;> rfl

/-- Macros bring a form to the head of a list only if it is no call, or the head of a list
already. -/
theorem keepsHead_kept : Kept fun form => keepsHead table limit form = true where
  nil := rfl
  named _ _ := rfl
  renamed _ := rfl
  called _ _ := rfl
  threaded args' h := by rwa [Form.made, keepsHead_cons _ args' _ none _]
  applied {step} x hstep := by
    cases step with
    | list items span =>
      cases items with
      | nil =>
        have hempty : ofCall? table (.list [] span) = none := rfl
        simp only [Form.made, keepsHead, expandHead_of_ofCall? hempty]
      | cons head args => exact absurd rfl (hstep head args span)
    | _ => rfl
  placed {items items' span} hmade _ := by
    cases items with
    | nil => rfl
    | cons head args => rwa [keepsHead_cons head args args span none]

/-- From forms whose heads stay, the step leads to settled forms. -/
def Settles (table : MacroTable) (limit : Int) (step : Form → Except Fault Form) : Prop :=
  ∀ ⦃form form'⦄, form.Throughout false (fun f => keepsHead table limit f = true) →
    step form = .ok form' → IsSettled table form'

/-- The step makes a name only of that name. -/
def KeepsNames (table : MacroTable) (step : Form → Except Fault Form) : Prop :=
  ∀ ⦃form s⦄, ofCall? table form = none → step form = .ok (.symbol s) → form = .symbol s

theorem walk_keepsNames {resume : Form → Except Fault Form} :
    KeepsNames table (walk table limit resume) := by
  intro form s hcall h
  cases form with
  | symbol s' => cases h; rfl
  | const c => cases h
  | keyword k => cases h
  | list items span =>
    rw [walk, if_neg (Option.not_isSome_iff_eq_none.2 hcall)] at h
    split at h
    · cases h
    · obtain ⟨_, -, h⟩ := Parsing.bind_ok h
      cases h
  | vector items span =>
    rw [walk] at h
    obtain ⟨_, -, h⟩ := Parsing.bind_ok h
    cases h
  | map entries span =>
    rw [walk] at h
    obtain ⟨_, -, h⟩ := Parsing.bind_ok h
    cases h

section Settles

variable {resume : Form → Except Fault Form}

/-- After its items have been walked, a list that was no macro call is none. -/
theorem ofCall?_walked (hnames : KeepsNames table resume) {items items' : List Form}
    {span : Option Span} (hcall : ofCall? table (.list items span) = none)
    (hhead : keepsHead table limit (.list items span) = true)
    (h : walkAll table limit resume items = .ok items') :
    ofCall? table (.list items' span) = none := by
  cases items with
  | nil => cases h; rfl
  | cons head args =>
    unfold walkAll at h
    obtain ⟨head', hwalk, h⟩ := Parsing.bind_ok h
    obtain ⟨args', -, h⟩ := Parsing.bind_ok h
    cases h
    cases head' with
    | symbol s =>
      -- the head was this name before, or a macro call that stands for it
      by_cases hmacro : ofCall? table head = none
      · obtain rfl := walk_keepsNames hmacro hwalk
        exact hcall
      · cases head with
        | list inner innerSpan =>
          rw [walk, if_pos (Option.isSome_iff_ne_none.2 hmacro)] at hwalk
          obtain ⟨made, hmade, hwalk⟩ := Parsing.bind_ok hwalk
          obtain rfl := hnames (ofCall?_of_expandSteps hmade) hwalk
          simp only [keepsHead, hmade, Option.isNone_iff_eq_none] at hhead
          exact hhead
        | _ => exact absurd rfl hmacro
    | _ => rfl

mutual

/-- Where heads stay, a form that has been walked through has no macro call left. -/
theorem walk_settles (hquote : table.lookup "quote" = none) (hresume : Settles table limit resume)
    (hnames : KeepsNames table resume) :
    ∀ {form form' : Form}, form.Throughout false (fun f => keepsHead table limit f = true) →
      walk table limit resume form = .ok form' → IsSettled table form'
  | .list items span, form', hform, h => by
    unfold walk at h
    split at h
    · obtain ⟨made, hmade, h⟩ := Parsing.bind_ok h
      exact hresume (expandSteps_throughout keepsHead_kept hquote hform hmade) h
    · rename_i hcall
      rw [Option.not_isSome_iff_eq_none] at hcall
      split at h
      · rename_i hquoted
        cases h
        exact ⟨hcall, .inl ⟨rfl, hquoted⟩⟩
      · rename_i hquoted
        obtain ⟨items', hitems, h⟩ := Parsing.bind_ok h
        cases h
        -- expanding the items leaves no name of a macro at the head, so no call comes up there
        have hparts := hform.2.resolve_left fun hskip => hquoted hskip.2
        exact ⟨ofCall?_walked hnames hcall hform.1 hitems,
          .inr (walkAll_settles hquote hresume hnames hparts hitems)⟩
  | .vector items span, form', hform, h => by
    unfold walk at h
    obtain ⟨items', hitems, h⟩ := Parsing.bind_ok h
    cases h
    exact ⟨rfl, walkAll_settles hquote hresume hnames hform.2 hitems⟩
  | .map entries span, form', hform, h => by
    unfold walk at h
    obtain ⟨entries', hentries, h⟩ := Parsing.bind_ok h
    cases h
    exact ⟨rfl, walkEntries_settles hquote hresume hnames hform.2 hentries⟩
  | .const _, _, _, h => by cases h; exact rfl
  | .symbol _, _, _, h => by cases h; exact rfl
  | .keyword _, _, _, h => by cases h; exact rfl

theorem walkAll_settles (hquote : table.lookup "quote" = none)
    (hresume : Settles table limit resume) (hnames : KeepsNames table resume) :
    ∀ {forms forms' : List Form},
      Form.ThroughoutAll false (fun f => keepsHead table limit f = true) forms →
      walkAll table limit resume forms = .ok forms' →
      Form.ThroughoutAll false (fun f => ofCall? table f = none) forms'
  | [], _, _, h => by cases h; trivial
  | form :: forms, _, hforms, h => by
    unfold walkAll at h
    obtain ⟨form', hform, h⟩ := Parsing.bind_ok h
    obtain ⟨forms', htail, h⟩ := Parsing.bind_ok h
    cases h
    exact ⟨walk_settles hquote hresume hnames hforms.1 hform,
      walkAll_settles hquote hresume hnames hforms.2 htail⟩

theorem walkEntries_settles (hquote : table.lookup "quote" = none)
    (hresume : Settles table limit resume) (hnames : KeepsNames table resume) :
    ∀ {entries entries' : List (Form × Form)},
      Form.ThroughoutEntries false (fun f => keepsHead table limit f = true) entries →
      walkEntries table limit resume entries = .ok entries' →
      Form.ThroughoutEntries false (fun f => ofCall? table f = none) entries'
  | [], _, _, h => by cases h; trivial
  | (key, value) :: entries, _, hentries, h => by
    unfold walkEntries at h
    obtain ⟨key', hkey, h⟩ := Parsing.bind_ok h
    obtain ⟨value', hvalue, h⟩ := Parsing.bind_ok h
    obtain ⟨entries', htail, h⟩ := Parsing.bind_ok h
    cases h
    exact ⟨⟨walk_settles hquote hresume hnames hentries.1.1 hkey,
        walk_settles hquote hresume hnames hentries.1.2 hvalue⟩,
      walkEntries_settles hquote hresume hnames hentries.2 htail⟩

end

end Settles

theorem expandRounds_keepsNames : ∀ rounds : Nat, KeepsNames table (expandRounds table limit rounds)
  | 0 => walk_keepsNames
  | _ + 1 => walk_keepsNames

/-- What rounds of expansion give has no macro call left. The induction is on the rounds. -/
theorem expandRounds_settles (hquote : table.lookup "quote" = none) :
    ∀ rounds : Nat, Settles table limit (expandRounds table limit rounds)
  | 0, _, _, hform, h =>
    walk_settles hquote (fun _ _ _ h => by cases h) (fun _ _ _ h => by cases h) hform h
  | rounds + 1, _, _, hform, h =>
    walk_settles hquote (expandRounds_settles hquote rounds) (expandRounds_keepsNames rounds)
      hform h

/-! ### Faults -/

section Faults

open Parsing

variable {table : MacroTable} {limit : Int}

theorem expandOnce_faults (form : Form) : Faults (· = .compile) (expandOnce table form) := by
  unfold expandOnce
  split
  · split
    · next m _ =>
      split
      · exact .ok _
      · next cause hcause =>
        refine .error ?_
        unfold replace at hcause
        split at hcause <;> cases hcause <;> rfl
    · exact .ok _
  · exact .ok _

/-- The steps at a head end in a fault of the macro or in that of the limit. -/
theorem expandSteps_faults (whole : Form) :
    ∀ (steps : Nat) (form : Form), Faults (· = .compile) (expandSteps table limit whole steps form)
  | 0, form => by
    unfold expandSteps
    split
    · exact .error rfl
    · exact .ok _
  | steps + 1, form => by
    unfold expandSteps
    split
    · exact .bind (expandOnce_faults form) fun next => expandSteps_faults whole steps next
    · exact .ok _

mutual

theorem walk_faults {resume : Form → Except Fault Form}
    (h : ∀ form, Faults (· = .compile) (resume form)) :
    ∀ form : Form, Faults (· = .compile) (walk table limit resume form)
  | .list items span => by
    unfold walk
    split
    · exact .bind (expandSteps_faults _ _ _) h
    split
    · exact .ok _
    · exact .bind (walkAll_faults h items) fun _ => .ok _
  | .vector items span => .bind (walkAll_faults h items) fun _ => .ok _
  | .map entries span => .bind (walkEntries_faults h entries) fun _ => .ok _
  | .const _ => .ok _
  | .symbol _ => .ok _
  | .keyword _ => .ok _

theorem walkAll_faults {resume : Form → Except Fault Form}
    (h : ∀ form, Faults (· = .compile) (resume form)) :
    ∀ forms : List Form, Faults (· = .compile) (walkAll table limit resume forms)
  | [] => .ok _
  | form :: forms =>
    .bind (walk_faults h form) fun _ => .bind (walkAll_faults h forms) fun _ => .ok _

theorem walkEntries_faults {resume : Form → Except Fault Form}
    (h : ∀ form, Faults (· = .compile) (resume form)) :
    ∀ entries : List (Form × Form), Faults (· = .compile) (walkEntries table limit resume entries)
  | [] => .ok _
  | (key, value) :: entries =>
    .bind (walk_faults h key) fun _ => .bind (walk_faults h value) fun _ =>
      .bind (walkEntries_faults h entries) fun _ => .ok _

end

theorem expandRounds_faults :
    ∀ (rounds : Nat) (form : Form), Faults (· = .compile) (expandRounds table limit rounds form)
  | 0, form => walk_faults (fun _ => .error rfl) form
  | rounds + 1, form => walk_faults (expandRounds_faults rounds) form

/-- Expanding macros has faults of its own only. -/
theorem expandAll_faults :
    ∀ forms : List Form, Faults (· = .compile) (expandAll table limit forms)
  | [] => .ok _
  | form :: forms => by
    rw [expandAll, List.mapM_cons]
    exact .bind (expandRounds_faults _ form) fun _ => .bind (expandAll_faults forms) fun _ => .ok _

end Faults

/-- **Expansion reaches a settled form.** If the head of no list expands to the name of a macro, the
forms that a row of forms expands to call no macro, except inside of quoted forms, and expanding
them once more, with whatever limit, changes nothing. -/
theorem expandAll_settles (limit : Int) (forms forms' : List Form)
    (hheads : ∀ form ∈ forms, form.Throughout false fun f => keepsHead standard limit f = true)
    (h : expandAll standard limit forms = .ok forms') :
    (∀ form ∈ forms', IsSettled standard form) ∧
      ∀ limit', expandAll standard limit' forms' = .ok forms' := by
  have hsettled : ∀ form ∈ forms', IsSettled standard form :=
    forall_of_mapM (fun form hform _ h => expandRounds_settles rfl _ (hheads form hform) h) h
  exact ⟨hsettled, fun _ => expandAll_of_settled hsettled⟩

/-- A macro call for a head, a threaded step that becomes a macro call, and a quoted macro call:
`((if-not a (-> f (g))) (-> x (when '(-> z))) b)`. -/
def threadedCalls : List Form :=
  [.made [
    .made [.named "if-not", .named "a", .made [.named "->", .named "f", .made [.named "g"]]],
    .made [.named "->", .named "x",
      .made [.named "when", .made [.named "quote", .made [.named "->", .named "z"]]]],
    .named "b"]]

theorem expandAll_settles_threadedCalls :
    ∃ forms', expandAll standard 3 threadedCalls = .ok forms' ∧
      (∀ form ∈ forms', IsSettled standard form) ∧
      ∀ limit', expandAll standard limit' forms' = .ok forms' :=
  ⟨_, rfl, expandAll_settles 3 threadedCalls _ (by decide +kernel) rfl⟩

end Macro

end TailLisp
