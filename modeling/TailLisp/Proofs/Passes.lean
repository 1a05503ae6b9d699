import TailLisp.Proofs.Crafting
import TailLisp.Proofs.Deeds

/-!
# TailLisp.Proofs.Passes

**The shape of a pass through a loop.** The lowered body of a loop is code that runs to its end,
and after it one of the two exits: the result and the flag are assigned, or the variables of the
loop and the targets of its patterns are, and the loop goes on (`Lowering.Pass`). In between there
are only branches both of whose arms are such passes again.

Some names are spared by all code in between: `Z` says which. For the pass of a loop they are its
own flag and its own result, two temporaries that were made before the body is lowered. So no
temporary of the body is one of them, and whatever else the body assigns is a name that its forms
spell: its code is made of a material without these names (`Material.sparing`).
-/

namespace TailLisp

namespace Stmt

variable {Z : String → Bool} {inLoop : Bool} {ss ts : List Stmt}

mutual

/-- Is no name of `Z` assigned or given to a function in the statement, at any depth? -/
def spares (Z : String → Bool) : Stmt → Bool
  | .assign target _ _ => !Z target
  | .eval _ _ => true
  | .ret _ _ => true
  | .branch _ yes no _ => allSpare Z yes && allSpare Z no
  | .loop _ body _ => allSpare Z body
  | .define name _ _ body _ => !Z name && allSpare Z body
  | .skip _ => true
  | .next _ => true

/-- Is no name of `Z` assigned or given to a function in the statements? -/
def allSpare (Z : String → Bool) : List Stmt → Bool
  | [] => true
  | s :: ss => spares Z s && allSpare Z ss

end

mutual

theorem spares_assigned : ∀ s : Stmt, s.spares Z = true → ∀ x ∈ s.assigned, Z x = false
  | .assign target _ _, h => by simpa [spares, assigned] using h
  | .eval _ _, _ => nofun
  | .ret _ _, _ => nofun
  | .branch _ yes no _, h => by
    simp only [spares, Bool.and_eq_true] at h
    exact List.forall_mem_append.mpr ⟨allSpare_assigned yes h.1, allSpare_assigned no h.2⟩
  | .loop _ body _, h => allSpare_assigned body h
  | .define name _ _ _ _, h => by
    simp only [spares, Bool.and_eq_true, Bool.not_eq_true'] at h
    exact List.forall_mem_singleton.mpr h.1
  | .skip _, _ => nofun
  | .next _, _ => nofun

/-- What statements assign at their own level, they assign. -/
theorem allSpare_assigned : ∀ ss : List Stmt, allSpare Z ss = true →
    ∀ x ∈ assignedOfAll ss, Z x = false
  | [], _ => nofun
  | s :: ss, h => by
    simp only [allSpare, Bool.and_eq_true] at h
    exact List.forall_mem_append.mpr ⟨spares_assigned s h.1, allSpare_assigned ss h.2⟩

end

/-- The statements assign no name of `Z` and run to their end, or inside of a loop to a `continue`
of it. -/
structure Tame (Z : String → Bool) (inLoop : Bool) (ss : List Stmt) : Prop where
  spare : allSpare Z ss = true
  stay : allStay inLoop ss = true

theorem Tame.append (h : Tame Z inLoop ss) (h' : Tame Z inLoop ts) : Tame Z inLoop (ss ++ ts) := by
  induction ss with
  | nil => exact h'
  | cons s ss ih =>
    have hspare := Bool.and_eq_true_iff.mp h.spare
    have hstay := Bool.and_eq_true_iff.mp h.stay
    have hrest := ih ⟨hspare.2, hstay.2⟩
    exact ⟨Bool.and_eq_true_iff.mpr ⟨hspare.1, hrest.spare⟩,
      Bool.and_eq_true_iff.mpr ⟨hstay.1, hrest.stay⟩⟩

section Material

variable {M : Material}

mutual

/-- Code of a material without the names of `Z` spares them. -/
theorem MadeOf.spares (hZ : ∀ x, M.target x → Z x = false) :
    ∀ {s : Stmt} {spot : Tree.Spot}, s.MadeOf M spot → s.spares Z = true
  | .assign _ _ _, _, h => by simp [Stmt.spares, hZ _ h.1]
  | .eval _ _, _, _ | .ret _ _, _, _ | .skip _, _, _ | .next _, _, _ => rfl
  | .branch _ _ _ _, _, h => by simp [Stmt.spares, h.2.1.allSpare hZ, h.2.2.1.allSpare hZ]
  | .loop _ _ _, _, h => h.2.1.allSpare hZ
  | .define _ _ _ _ _, _, h => by simp [Stmt.spares, hZ _ h.1, h.2.2.1.allSpare hZ]

theorem MadeOfAll.allSpare (hZ : ∀ x, M.target x → Z x = false) :
    ∀ {ss : List Stmt} {spot : Tree.Spot}, MadeOfAll M spot ss → allSpare Z ss = true
  | [], _, _ => rfl
  | _ :: _, _, h => by simp [Stmt.allSpare, h.1.spares hZ, h.2.allSpare hZ]

end

mutual

/-- Code that can stand outside of functions has no `return`. -/
theorem MadeOf.stays : ∀ {s : Stmt} {spot : Tree.Spot}, s.MadeOf M spot →
    spot.inFunction = false → s.stays spot.inLoop = true
  | .assign _ _ _, _, _, _ | .eval _ _, _, _, _ | .skip _, _, _, _ | .define _ _ _ _ _, _, _, _ =>
    rfl
  | .ret _ _, _, h, hspot => nomatch hspot.symm.trans h.2.2
  | .branch _ _ _ _, _, h, hspot => by
    have hyes := h.2.1.allStay hspot
    have hno := h.2.2.1.allStay hspot
    simp [Stmt.stays, hyes, hno]
  | .loop _ _ _, _, h, hspot => h.2.1.allStay hspot
  | .next _, _, h, _ => h.2.1

theorem MadeOfAll.allStay : ∀ {ss : List Stmt} {spot : Tree.Spot}, MadeOfAll M spot ss →
    spot.inFunction = false → allStay spot.inLoop ss = true
  | [], _, _, _ => rfl
  | _ :: _, spot, h, hspot => by
    have hfirst : _ = true := h.1.stays hspot
    exact Bool.and_eq_true_iff.mpr ⟨hfirst, h.2.allStay hspot⟩

end

/-- Code of a material without the names `Z` assigns none of them, and runs to its end. -/
theorem MadeOfAll.tame (hZ : ∀ x, M.target x → Z x = false) (h : MadeOfAll M {} ss) :
    Tame Z false ss := ⟨h.allSpare hZ, h.allStay rfl⟩

end Material

end Stmt

/-- No name that the form can spell is in `Z`. -/
def Form.Avoids (Z : String → Bool) (form : Form) : Prop := form.spells (fun x => !Z x) = true

/-! ### Steps that spare names -/

/-- None of the names is a temporary that is still to be made. -/
def Context.Sets (Z : String → Bool) (c : Context) : Prop := ∀ x, Z x = true → ¬c.Future x

/-- Any place, and names to be bound that are not in `Z`: the temporaries that are still to be made
and others. -/
def Material.sparing (Z : String → Bool) (c : Context) : Material where
  place _ := True
  name _ := True
  target x := Z x = false
  temp before n := before = c.tempPrefix ∧ c.counter < n

namespace Material

variable {Z : String → Bool} {c : Context}

theorem sparing_tempers (h : c.Sets Z) (s : String) : (sparing Z c).Tempers (s ++ "_") := by
  rintro _ n ⟨rfl, hn⟩
  exact Bool.eq_false_iff.mpr fun hx => h _ hx ⟨n, tempNumber?_temp _ _ _, hn⟩

/-- The symbol spells no name of `Z`. -/
abbrev Spared (Z : String → Bool) : Form → Prop :=
  Form.Named fun name => (Name.targets name).all fun x => !Z x

theorem Spared.avoids {s : Symbol} (h : Spared Z (.symbol s)) : (Form.symbol s).Avoids Z := h s rfl

/-- Names that are not of `Z` are a material for forms that avoid `Z`. -/
theorem sparing_covers (h : c.Sets Z) : (sparing Z c).Covers (Spared Z) where
  nil := nofun
  place _ _ _ := trivial
  fused _ _ _ _ _ := trivial
  read _ _ := trivial
  bound _ := trivial
  unchecked {_ s} _ hs _ :=
    ⟨by simpa [sparing] using Pattern.spells_symbol (Spared.avoids hs), sparing_tempers h _⟩
  bindable {s} hs _ := by
    refine ⟨?_, sparing_tempers h _⟩
    rcases hs with hs | ⟨s', hs', hrest, rfl⟩
    · simpa [sparing] using Pattern.spells_symbol (Spared.avoids hs)
    · simpa [sparing] using Pattern.spells_fusedRest (Spared.avoids hs') hrest
  tempers stem hstem := by
    have hends : stems.all (fun stem =>
        String.ofList stem.toList.dropLast ++ "_" == stem) = true := by decide
    rw [← beq_iff_eq.mp (List.all_eq_true.mp hends stem hstem)]
    exact sparing_tempers h _
  library _ _ := trivial

end Material

theorem Form.Avoids.throughout {Z : String → Bool} {form : Form} (h : form.Avoids Z) :
    form.Throughout true (Material.Spared Z) := (Form.allSymbols_iff_throughout form).mp h

namespace Lowering

open Compile Stmt

/-! ### Passes -/

/-- A way through the body of a loop. -/
inductive Pass (Z : String → Bool) (target : LoopTarget) (exit : LoopExit) : List Stmt → Prop
  /-- Leave the loop with a value. -/
  | leave (value : Expr) (place : Option Span) :
      Pass Z target exit [.assign exit.result value place,
        .assign exit.flag (.constant (.bool false)) place]
  /-- Give the variables of the loop the values of temporaries, bind its patterns again, and go
  on. -/
  | jump (temps : List String) (place outer : Option Span)
      (hlength : temps.length = target.vars.length) :
      Pass Z target exit ((target.vars.zip temps).map
          (fun pair => .assign pair.1 (.load pair.2) place)
        ++ Binding.assigns outer target.rebind ++ [.next place])
  | branch (test : Expr) (place : Option Span) {yes no : List Stmt} :
      Pass Z target exit yes → Pass Z target exit no →
      Pass Z target exit [.branch test yes no place]
  /-- First something else. -/
  | after {ss rest : List Stmt} : Tame Z false ss → Pass Z target exit rest →
      Pass Z target exit (ss ++ rest)

/-- In tail position, forms with the property `P` are lowered to passes that spare the names. -/
def Passing (M : Material) (P : Form → Prop) (Z : String → Bool) (lowering : Lowering) : Prop :=
  ∀ {target : LoopTarget} {exit : LoopExit} (form : Form), target.exit = some exit →
    form.Throughout true P → Crafts M (Pass Z target exit) (lowering.tail target form)

section Tails

variable {M : Material} {P : Form → Prop} {Z : String → Bool} {target : LoopTarget}
  {exit : LoopExit} {self : Lowering} (hM : M.Covers P) (hZ : ∀ x, M.target x → Z x = false)
  (h : self.Crafted M true P) (htail : self.Passing M P Z)

/-- Leaving the loop is the end of a pass. -/
theorem exitWith_passes (hexit : target.exit = some exit) (value : Expr) (span : Option Span) :
    Crafts M (Pass Z target exit) (exitWith target value span) := by
  unfold exitWith
  rw [hexit]
  exact .pure (.leave value _)

include hZ in
theorem tame_assign {x : String} (hx : M.target x) (value : Expr) (place : Option Span) :
    Tame Z false [.assign x value place] := ⟨by simp [allSpare, spares, hZ x hx], rfl⟩

include hM hZ h

/-- A jump is the end of a pass; it assigns nothing that is to be spared. -/
theorem jump_passes (exit : LoopExit) (form : Form) {args : List Form}
    (hargs : ∀ arg ∈ args, arg.Throughout true P) :
    Crafts M (Pass Z target exit) (jump self target form args) := by
  have hargument (arg : Form) (harg : arg.Throughout true P) :
      Crafts M (fun temp => Tame Z false [temp.2]) (jumpArgument self form.place? arg) :=
    .bind (fresh_crafts hM (by simp [stems])) fun _ htemp => .bind (h.expr arg harg) fun _ _ =>
      .pure (tame_assign hZ htemp _ _)
  unfold jump
  split
  · rename_i hlength
    refine .bind (.mapM fun arg harg => hargument arg (hargs arg harg)) fun temps htemps =>
      .pure ?_
    have htemporaries : Tame Z false (temps.map (·.2)) := by
      have hall := htemps.2
      clear hlength htemps
      induction temps with
      | nil => exact ⟨rfl, rfl⟩
      | cons temp temps ih =>
        rw [List.forall_mem_cons] at hall
        exact hall.1.append (ih hall.2)
    have hvars : (target.vars.zip temps).map
          (fun pair => Stmt.assign pair.1 (.load pair.2.1) form.place?) =
        (target.vars.zip (temps.map (·.1))).map
          (fun pair => Stmt.assign pair.1 (.load pair.2) form.place?) := by
      rw [List.zip_map_right, List.map_map]
      rfl
    have hjump : Pass Z target exit _ :=
      .jump (temps.map (·.1)) form.place? form.span? (by rw [List.length_map, htemps.1, hlength])
    rw [← hvars] at hjump
    simpa only [List.append_assoc] using hjump.after htemporaries
  · exact .fail _

include htail

omit hM in
/-- The statements before the tail are tame. -/
theorem loopBody_passes (hexit : target.exit = some exit) :
    ∀ body : List Form, (∀ form ∈ body, form.Throughout true P) →
      Crafts M (Pass Z target exit) (loopBody self target body)
  | [], _ => exitWith_passes hexit _ _
  | [form], hbody => htail form hexit (hbody form List.mem_cons_self)
  | form :: other :: forms, hbody => by
    rw [List.forall_mem_cons] at hbody
    exact .bind (h.stmt form hbody.1) fun _ hstmts =>
      .bind (loopBody_passes hexit (other :: forms) hbody.2) fun _ hrest =>
        .pure (.after (hstmts.tame hZ) hrest)

omit hZ in
/-- Both branches end a pass. -/
theorem tailIf_passes (hexit : target.exit = some exit) (form : Form) {args : List Form}
    (hargs : ∀ arg ∈ args, arg.Throughout true P) :
    Crafts M (Pass Z target exit) (tailIf self target form args) := by
  have build {test yes no : Form} (htest : test.Throughout true P)
      (hyes : yes.Throughout true P) (hno : no.Throughout true P) :
      Crafts M (Pass Z target exit) (tailIf.build self target form test yes no) :=
    .bind (h.expr test htest) fun _ _ => .bind (htail yes hexit hyes) fun _ hyes =>
      .bind (htail no hexit hno) fun _ hno => .pure (.branch _ _ hyes hno)
  unfold tailIf
  split
  · exact build (hargs _ (by simp)) (hargs _ (by simp)) hM.nil
  · exact build (hargs _ (by simp)) (hargs _ (by simp)) (hargs _ (by simp))
  · exact .fail _

omit hZ in
theorem tailCond_passes (hexit : target.exit = some exit) (form : Form) {args : List Form}
    (hargs : ∀ arg ∈ args, arg.Throughout true P) :
    Crafts M (Pass Z target exit) (tailCond self target form args) :=
  .bind (condClauses_crafts hM hargs form) fun ⟨_, default⟩ ⟨hclauses, hdefault⟩ =>
    .bind (htail default hexit hdefault) fun _ hlast =>
      .foldrM hlast fun ⟨test, result⟩ hclause _ hno =>
        .bind (h.expr test (hclauses _ hclause).1) fun _ _ =>
          .bind (htail result hexit (hclauses _ hclause).2) fun _ hyes =>
            .pure (.branch _ _ hyes hno)

theorem tailCase_passes (hexit : target.exit = some exit) (form : Form) {args : List Form}
    (hargs : ∀ arg ∈ args, arg.Throughout true P) :
    Crafts M (Pass Z target exit) (tailCase self target form args) :=
  .bind (caseParts_crafts hM hargs form) fun parts ⟨hselector, hdefault, hclauses⟩ =>
    .bind (fresh_crafts hM (by simp [stems])) fun _ hname =>
      .bind (h.expr parts.selector hselector) fun _ _ =>
      .bind (htail parts.default hexit hdefault) fun _ hlast =>
        .bind (.foldrM hlast fun ⟨_, result⟩ hclause _ hno =>
            .bind (htail result hexit (hclauses _ hclause).2) fun _ hyes =>
              .pure (.branch _ _ hyes hno))
          fun _ hstmts => .pure (.after (tame_assign hZ hname _ _) hstmts)

theorem tailLet_passes (hexit : target.exit = some exit) (form : Form) {args : List Form}
    (hargs : ∀ arg ∈ args, arg.Throughout true P) :
    Crafts M (Pass Z target exit) (tailLet self target form args) := by
  cases args with
  | nil => exact .fail _
  | cons bindings body =>
    rw [List.forall_mem_cons] at hargs
    exact .inScope (.bind (letBindings_crafts hM h hargs.1) fun _ hstmts =>
      .bind (loopBody_passes hZ h htail hexit body hargs.2) fun _ hrest =>
        .pure (.after (hstmts.tame hZ) hrest))

/-- Each operand but the last may end the pass with its value. -/
theorem tailLogical_passes (hexit : target.exit = some exit) (op : LogicalOp) (form : Form) :
    ∀ args : List Form, (∀ arg ∈ args, arg.Throughout true P) →
      Crafts M (Pass Z target exit) (tailLogical self target op form args)
  | [], _ => exitWith_passes hexit _ _
  | [operand], hargs => htail operand hexit (hargs operand List.mem_cons_self)
  | operand :: other :: operands, hargs => by
    rw [List.forall_mem_cons] at hargs
    exact .bind (fresh_crafts hM (by simp [stems])) fun _ htemp =>
      .bind (h.expr operand hargs.1) fun _ _ => .bind (exitWith_passes hexit _ _) fun _ hsettled =>
        .bind (tailLogical_passes hexit op form (other :: operands) hargs.2) fun _ hundecided =>
          .pure (.after (tame_assign hZ htemp _ _) (.branch _ _ hsettled hundecided))

/-- One step of lowering in the tail of a loop ends a pass. -/
theorem tailStep_passes (hexit : target.exit = some exit) {form : Form}
    (hform : form.Throughout true P) :
    Crafts M (Pass Z target exit) (tailStep self target form) := by
  have leave : Crafts M (Pass Z target exit) (exitStep self target form) :=
    .bind (exprStep_crafts hM h hform) fun _ _ => exitWith_passes hexit _ _
  unfold tailStep
  split
  · rename_i head args _
    have hitems := (Form.throughout_list.mp hform).2.resolve_left fun hskips => nomatch hskips.1
    have hargs := (List.forall_mem_cons.mp hitems).2
    split
    · exact jump_passes hM hZ h exit _ hargs
    · split
      · exact tailIf_passes hM h htail hexit _ hargs
      · exact tailCond_passes hM h htail hexit _ hargs
      · exact tailCase_passes hM hZ h htail hexit _ hargs
      · exact tailLet_passes hM hZ h htail hexit _ hargs
      · exact loopBody_passes hZ h htail hexit args hargs
      · exact tailLogical_passes hM hZ h htail hexit _ _ args hargs
      · exact tailLogical_passes hM hZ h htail hexit _ _ args hargs
      · exact leave
  · exact leave

omit h htail

/-- The tails of forms of any depth are passes. -/
theorem upTo_passing : ∀ n : Nat, (upTo n).Passing M P Z
  | 0 => fun _ _ _ => .fail _
  | n + 1 => fun _ hexit hform =>
    tailStep_passes hM hZ (upTo_crafted hM n) (upTo_passing n) hexit hform

end Tails

end Lowering

end TailLisp
