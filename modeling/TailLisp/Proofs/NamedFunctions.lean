import TailLisp.Proofs.Deeds
import TailLisp.Proofs.OwnNames

/-!
# TailLisp.Proofs.NamedFunctions

**What the name of a function hides.** A function expression is defined before the statement it
stands in, and one with a name is defined under that name (`Lowering.fnExpr`). So its name is not
kept to its body: a reference beside it that means the variable of that name finds the function
(`Lowering.fnExpr_takes_name`). All other references are left alone. They mean what they would mean
beside the same expression without names (`Lowering.references_beside_named_functions`). Among these
are all references to a name that a `let` statement binds, for which a temporary stands.

Helpers are definitions, and a run of definitions gives each of their names a function and leaves
the others alone (`Interp.execAll_defines`).
-/

namespace TailLisp

/-! ### Running definitions -/

namespace Interp

variable {frames : List Nat} {x : String} {W W₁ : World}

/-- From one world to the other the names were defined as functions, and nothing else was. -/
structure Defines (frames : List Nat) (names : List String) (W W₁ : World) : Prop where
  isOpen : IsOpen frames W → IsOpen frames W₁
  others : ∀ x ∉ names, ∀ frames, meaning frames x W₁ = meaning frames x W
  functions : IsOpen frames W → ∀ x ∈ names, x ≠ "__debug__" →
    ∃ fn : Function, fn.name = x ∧ meaning frames x W₁ = .ok (.function fn)

theorem Defines.nil (W : World) : Defines frames [] W W :=
  ⟨id, fun _ _ _ => rfl, fun _ _ hx => nomatch hx⟩

/-- Definitions in a row, each of which leaves the other names alone. -/
theorem Defines.append {names names' : List String} {W₂ : World} (h : Defines frames names W W₁)
    (h' : Defines frames names' W₁ W₂) : Defines frames (names ++ names') W W₂ := by
  refine ⟨fun hopen => h'.isOpen (h.isOpen hopen), fun x hx other => ?_,
    fun hopen x hx hdebug => ?_⟩
  · rw [List.mem_append, not_or] at hx
    rw [h'.others x hx.2, h.others x hx.1]
  · -- a name that is defined twice is the function that was defined last
    by_cases hlast : x ∈ names'
    · exact h'.functions (h.isOpen hopen) x hlast hdebug
    · rw [h'.others x hlast]
      exact h.functions hopen x ((List.mem_append.mp hx).resolve_right hlast) hdebug

/-- An assignment of a function defines its name. -/
theorem defines_assignName (frames : List Nat) (fn : Function) (W : World) :
    ∃ W₁, assignName frames fn.name (.function fn) W = .ok () W₁ ∧
      Defines frames [fn.name] W W₁ := by
  cases frames with
  | nil =>
    refine ⟨_, rfl, id, fun x hx other => ?_, fun _ x hx hdebug => ?_⟩
    · have hne : x ≠ fn.name := by simpa using hx
      refine meaning_of_lookup ?_ ?_
      · simp only [lookup_assign, if_neg hne]
      · exact fun _ _ => rfl
    · obtain rfl : x = fn.name := by simpa using hx
      refine ⟨fn, rfl, ?_⟩
      simp [meaning, frameValue?, lookup_assign, hdebug]
  | cons ref frames =>
    refine ⟨_, rfl, fun hopen other hother => ?_, fun x hx other => ?_, fun hopen x hx hdebug => ?_⟩
    · simpa using hopen other hother
    · have hne : x ≠ fn.name := by simpa using hx
      refine meaning_of_lookup ?_ ?_
      · rfl
      · intro site _
        rw [Veil.varsOf_assignVar]
        split
        · rw [lookup_assign, if_neg hne]
        · rfl
    · obtain rfl : x = fn.name := by simpa using hx
      have href : ref < W.frames.size := hopen ref rfl
      refine ⟨fn, rfl, ?_⟩
      simp [meaning, frameValue?, Veil.varsOf_assignVar, href, lookup_assign, hdebug]

/-- A definition gives its name a function and changes nothing else. -/
theorem exec_define (self : Interp) (frames : List Nat) (name : String) (params : List String)
    (rest : Option String) (body : List Stmt) (place : Option Span) (W : World) :
    ∃ W₁, exec self frames (.define name params rest body place) W = .ok .done W₁ ∧
      Defines frames [name] W W₁ := by
  obtain ⟨fn, hname, hnew⟩ : ∃ fn : Function, fn.name = name ∧
      newFunction frames name params rest body W =
        .ok (.function fn) { W with made := W.made + 1 } := by
    cases frames with
    | nil => exact ⟨_, rfl, rfl⟩
    | cons ref frames => exact ⟨_, rfl, rfl⟩
  obtain ⟨W₁, hassign, hdefines⟩ := defines_assignName frames fn { W with made := W.made + 1 }
  rw [hname] at hassign hdefines
  refine ⟨W₁, ?_, hdefines.isOpen, fun x hx other => ?_, hdefines.functions⟩
  · rw [exec]
    exact (Exec.bind_ok hnew).trans (Exec.bind_ok hassign)
  · rw [hdefines.others x hx other]
    refine meaning_of_lookup ?_ ?_
    · rfl
    · exact fun _ _ => rfl

/-- A run of definitions comes to its end and defines their names. -/
theorem execAll_defines (self : Interp) (frames : List Nat) {ss : List Stmt}
    (hss : ∀ s ∈ ss, s.isDefine = true) (W : World) :
    ∃ W₁, execAll self frames ss W = .ok .done W₁ ∧
      Defines frames (Stmt.assignedOfAll ss) W W₁ := by
  induction ss generalizing W with
  | nil => exact ⟨W, rfl, .nil W⟩
  | cons s ss ih =>
    rw [List.forall_mem_cons] at hss
    cases s with
    | define name params rest body place =>
      obtain ⟨W₁, hexec, hdefines⟩ := exec_define self frames name params rest body place W
      obtain ⟨W₂, hexecAll, hdefinesAll⟩ := ih hss.2 W₁
      refine ⟨W₂, ?_, hdefines.append hdefinesAll⟩
      rw [execAll]
      exact (Exec.bind_ok hexec).trans hexecAll
    | _ => cases hss.1

/-- However a run of statements ends, a name that they do not assign means what it did. -/
theorem meaning_after_execAll (depth : Nat) (hbound : ∀ ref ∈ frames, ref < W.frames.size)
    {ss : List Stmt} (hx : x ∉ Stmt.assignedOfAll ss) :
    meaning frames x ((execAll (upTo depth) frames ss).after W) = meaning frames x W := by
  have hleads := execAll_leads depth frames ss W
  refine meaning_of_lookup (hleads.globals x fun _ => hx) fun ref href => ?_
  exact hleads.vars ref (hbound ref href) x hx

end Interp

/-! ### References beside an expression -/

namespace Lowering

open Compile Stmt Interp

variable {c c₁ c₂ : Context} {e e' : Expr} {form form' : Form}

/-- The helpers of an expression are definitions, of functions that have a name there and of
temporaries. -/
theorem expr_hoists (n : Nat) (hrun : (upTo n).expr form c = .ok e c₁) :
    ∃ helpers, c₁.helpers = c.helpers ++ helpers ∧ (∀ s ∈ helpers, s.isDefine = true) ∧
      ∀ x ∈ assignedOfAll helpers, x ∈ form.hoistedNames ∨ c.Future x := by
  obtain ⟨helpers, hhelpers, hdefine⟩ := (((upTo_balanced n).expr form).grows hrun).helpers
  obtain ⟨stems, drawn, -, hdrawn, hbinds⟩ :=
    (upTo_frugal n).expr form (List.Subset.refl form.hoistedNames) hrun
  obtain rfl : drawn = helpers := List.append_cancel_left (hdrawn.symm.trans hhelpers)
  refine ⟨drawn, hhelpers, hdefine, fun x hx => ?_⟩
  exact (hbinds x (.inr hx)).imp_right Context.future_of_mem_drawn

/-- References around an expression mean the variables that they meant before it. -/
theorem expr_resolve (n : Nat) (hrun : (upTo n).expr form c = .ok e c₁) (name : String) :
    c₁.resolve name = c.resolve name := by
  have hscopes : c₁.scopes = c.scopes := (((upTo_balanced n).expr form).grows hrun).scopes
  simp only [Context.resolve, hscopes]

/-- Of a function only its name is assigned where it stands. -/
theorem function_assigned {self : Lowering} {name : String} {params : Form} {body : List Form}
    {span : Option Span} {doc : Option String} {s : Stmt}
    (hrun : function self name params body span doc c = .ok s c₁) : s.assigned = [name] := by
  obtain ⟨_, _, -, hpure⟩ := bind_ok hrun
  obtain ⟨rfl, -⟩ := pure_ok hpure
  rfl

/-- A reference that means the variable with the name of a function finds that function. -/
theorem fnExpr_takes_name (n : Nat) {head s : Symbol} {args : List Form} {span : Option Span}
    (hhead : Special.ofName? head.name = some .fnForm)
    (hrun : (upTo n).expr (.list (.symbol head :: .symbol s :: args) span) c = .ok e c₁) :
    ∃ helpers, c₁.helpers = c.helpers ++ helpers ∧
      ∀ depth (frames : List Nat) (W : World), IsOpen frames W → Name.spell s.name ≠ "__debug__" →
        ∃ fn : Function, fn.name = Name.spell s.name ∧ meaning frames (Name.spell s.name)
          ((execAll (Interp.upTo depth) frames helpers).after W) = .ok (.function fn) := by
  obtain ⟨helpers, hhelpers, hdefine, -⟩ := expr_hoists n hrun
  have hname : Name.spell s.name ∈ assignedOfAll helpers := by
    cases n with
    | zero => cases hrun
    | succ n =>
      replace hrun : specialExpr (upTo n) .fnForm head.name
          (.list (.symbol head :: .symbol s :: args) span) (.symbol s :: args) c = .ok e c₁ := by
        simpa only [upTo, step, exprStep, headedExpr, hhead] using hrun
      cases args with
      | nil => exact (not_fail_ok hrun).elim
      | cons params body =>
        obtain ⟨helper, c', hfunction, hhoist⟩ := bind_ok hrun
        obtain ⟨new, hnew, -⟩ :=
          ((function_keeps (upTo_balanced n) _ _ _ _ _).grows hfunction).helpers
        have hlast : c₁.helpers = c.helpers ++ (new ++ [helper]) := by
          rw [← List.append_assoc, ← hnew]
          cases hhoist
          rfl
        obtain rfl : helpers = new ++ [helper] :=
          List.append_cancel_left (hhelpers.symm.trans hlast)
        rw [Context.assignedOfAll_append, assignedOfAll, function_assigned hfunction]
        simp
  refine ⟨helpers, hhelpers, fun depth frames W hopen hdebug => ?_⟩
  obtain ⟨W₁, hexec, hdefines⟩ := execAll_defines (Interp.upTo depth) frames hdefine W
  rw [Exec.after, hexec]
  exact hdefines.functions hopen _ hname hdebug

/-- **The name of a function hides nothing but the variable of that name.** Beside an expression
with functions that have names, every reference to another variable has the value that it has beside
an expression without, such as the same one with its functions left unnamed. This is so from the
helpers of the expression on, until code that follows assigns the variable itself, and neither
expression makes the variable one of the function around it. -/
theorem references_beside_named_functions (n : Nat) (hplain : form'.hoistedNames = [])
    (hrun : (upTo n).expr form c = .ok e c₁) (hrun' : (upTo n).expr form' c = .ok e' c₂) :
    ∃ helpers helpers', c₁.helpers = c.helpers ++ helpers ∧ c₂.helpers = c.helpers ++ helpers' ∧
      ∀ name x, x = c.resolve name → x ∉ form.hoistedNames → ¬c.Future x →
        c₁.resolve name = x ∧ c₂.resolve name = x ∧
        x ∉ assignedOfAll helpers ∧ x ∉ assignedOfAll helpers' ∧
        ∀ ss ss', x ∉ assignedOfAll ss → x ∉ assignedOfAll ss' → ∀ depth frames (W : World),
          (∀ ref ∈ frames, ref < W.frames.size) →
          meaning frames x ((execAll (Interp.upTo depth) frames (helpers ++ ss)).after W) =
            meaning frames x ((execAll (Interp.upTo depth) frames (helpers' ++ ss')).after W) := by
  obtain ⟨helpers, hhelpers, -, hnames⟩ := expr_hoists n hrun
  obtain ⟨helpers', hhelpers', -, hnames'⟩ := expr_hoists n hrun'
  refine ⟨helpers, helpers', hhelpers, hhelpers', fun name x heq hx hfuture => ?_⟩
  have hother : x ∉ assignedOfAll helpers := fun hmem => (hnames x hmem).elim hx hfuture
  have hother' : x ∉ assignedOfAll helpers' := by
    rw [hplain] at hnames'
    exact fun hmem => (hnames' x hmem).elim List.not_mem_nil hfuture
  refine ⟨heq ▸ expr_resolve n hrun name, heq ▸ expr_resolve n hrun' name, hother, hother', ?_⟩
  intro ss ss' hss hss' depth frames W hbound
  have hcode : x ∉ assignedOfAll (helpers ++ ss) := by
    rw [Context.assignedOfAll_append, List.mem_append, not_or]
    exact ⟨hother, hss⟩
  have hcode' : x ∉ assignedOfAll (helpers' ++ ss') := by
    rw [Context.assignedOfAll_append, List.mem_append, not_or]
    exact ⟨hother', hss'⟩
  rw [meaning_after_execAll depth hbound hcode, meaning_after_execAll depth hbound hcode']

/-- In the body of a `let` that binds `f`. -/
def insideLet : Context := { counter := 1, scopes := [[("f", "__ll_f_1")]] }

/-- A text that writes one expression, lowered in the body of the `let`. -/
theorem expr_of_text (text : String) (names : List String)
    (h : (Form.readAll text).toOption.map (List.map fun form =>
      (form.hoistedNames, (Compile.outcome ((upTo 9).expr form) insideLet).result.isOk)) =
      some [(names, true)]) :
    ∃ form e c₁, Form.readAll text = .ok [form] ∧ form.hoistedNames = names ∧
      (upTo 9).expr form insideLet = .ok e c₁ := by
  cases hforms : Form.readAll text with
  | error fault =>
    rw [hforms] at h
    cases h
  | ok forms =>
    rw [hforms] at h
    obtain ⟨form, rfl, hform⟩ := List.map_eq_singleton_iff.mp (Option.some.inj h)
    obtain ⟨hnames, hlowered⟩ := Prod.mk.inj hform
    unfold Compile.outcome at hlowered
    cases hrun : (upTo 9).expr form insideLet with
    | error fault c₁ =>
      simp only [EStateM.run, hrun] at hlowered
      cases hlowered
    | ok e c₁ => exact ⟨form, e, c₁, rfl, hnames, hrun⟩

theorem references_beside_named_functions_let : ∃ form form' helpers helpers',
    Form.readAll "[((fn f [x] (+ x 1)) 1) f]" = .ok [form] ∧
    Form.readAll "[((fn [x] (+ x 1)) 1) f]" = .ok [form'] ∧
    (∃ e c₁, (upTo 9).expr form insideLet = .ok e c₁ ∧ c₁.helpers = helpers) ∧
    (∃ e' c₂, (upTo 9).expr form' insideLet = .ok e' c₂ ∧ c₂.helpers = helpers') ∧
    form.hoistedNames = ["f"] ∧ insideLet.resolve "f" = "__ll_f_1" ∧
    ∀ depth (W : World), 0 < W.frames.size →
      meaning [0] "__ll_f_1" ((execAll (Interp.upTo depth) [0] helpers).after W) =
        meaning [0] "__ll_f_1" ((execAll (Interp.upTo depth) [0] helpers').after W) := by
  obtain ⟨form, e, c₁, hread, hnames, hrun⟩ :=
    expr_of_text "[((fn f [x] (+ x 1)) 1) f]" ["f"] (by decide +kernel)
  obtain ⟨form', e', c₂, hread', hnames', hrun'⟩ :=
    expr_of_text "[((fn [x] (+ x 1)) 1) f]" [] (by decide +kernel)
  obtain ⟨helpers, helpers', hhelpers, hhelpers', hvalues⟩ :=
    references_beside_named_functions 9 hnames' hrun hrun'
  have hresolve : insideLet.resolve "f" = "__ll_f_1" := by decide
  have hother : "__ll_f_1" ∉ form.hoistedNames := by
    rw [hnames]
    decide
  have hpast : ¬insideLet.Future "__ll_f_1" := by
    rintro ⟨k, hk, hlt⟩
    have hnumber : tempNumber? insideLet.tempPrefix "__ll_f_1" = some 1 := by decide +kernel
    obtain rfl : 1 = k := Option.some.inj (hnumber.symm.trans hk)
    exact Nat.lt_irrefl _ hlt
  obtain ⟨-, -, -, -, hmeaning⟩ := hvalues "f" "__ll_f_1" hresolve.symm hother hpast
  refine ⟨form, form', helpers, helpers', hread, hread', ⟨e, c₁, hrun, hhelpers⟩,
    ⟨e', c₂, hrun', hhelpers'⟩, hnames, hresolve, fun depth W hframe => ?_⟩
  have hvalue := hmeaning [] [] List.not_mem_nil List.not_mem_nil depth [0] W
    (by simpa using hframe)
  rwa [List.append_nil, List.append_nil] at hvalue

end Lowering

end TailLisp
