import TailLisp.Run.Machine
import TailLisp.Proofs.Insulation

/-!
# TailLisp.Proofs.InsulatedCalls

**Functions of the program do not see veiled variables.** Code that spares the veiled variables
runs alike with and without them, and a call makes a frame of its own and writes to no other. So
calls and iterators are insulated at every depth (`Interp.upTo_insulated`), provided that all
functions of the world spare the veiled variables. Where nothing is veiled, this still says which
variables statements can change (`Interp.execAll_leads`).
-/

namespace TailLisp

/-! ### Association lists -/

section Assoc

variable {α : Type}

/-- What a filter on names does to the value of a name that passes it. -/
theorem lookup_filter (keep : String → Bool) {x : String} (hx : keep x = true)
    (vars : List (String × α)) : (vars.filter fun p => keep p.1).lookup x = vars.lookup x := by
  induction vars with
  | nil => rfl
  | cons p vars ih =>
    obtain ⟨y, v⟩ := p
    by_cases hxy : x = y
    · subst hxy
      simp [hx]
    · have hne : (x == y) = false := by simpa using hxy
      by_cases hy : keep y = true <;> simp [List.lookup_cons, hne, hy, ih]

/-- An assignment to a variable that a filter keeps. -/
theorem assign_filter (keep : String → Bool) {x : String} (hx : keep x = true) {v : α}
    (vars : List (String × α)) :
    (assign x v vars).filter (fun p => keep p.1) = assign x v (vars.filter fun p => keep p.1) := by
  induction vars with
  | nil => simp [assign, hx]
  | cons p vars ih =>
    obtain ⟨y, u⟩ := p
    by_cases hyx : y = x
    · subst hyx
      simp [assign, hx]
    · cases hy : keep y with
      | true => simp [assign, hyx, hy, ih]
      | false => simp [assign, hyx, hy, ih]

theorem mem_of_lookup {x : String} {v : α} {vars : List (String × α)}
    (h : vars.lookup x = some v) : (x, v) ∈ vars := by
  induction vars with
  | nil => simp at h
  | cons p vars ih =>
    obtain ⟨y, u⟩ := p
    by_cases hxy : x = y
    · subst hxy
      simp at h
      simp [h]
    · have hne : (x == y) = false := by simpa using hxy
      simp only [List.lookup_cons, hne] at h
      exact List.mem_cons_of_mem _ (ih h)

theorem lookup_assign {x y : String} {v : α} (vars : List (String × α)) :
    (assign x v vars).lookup y = if y = x then some v else vars.lookup y := by
  induction vars with
  | nil =>
    by_cases h : y = x
    · simp [assign, h]
    · have hne : (y == x) = false := by simpa using h
      simp [assign, List.lookup_cons, h, hne]
  | cons p vars ih =>
    obtain ⟨z, u⟩ := p
    unfold assign
    by_cases hzx : z = x
    · subst hzx
      by_cases hyz : y = z
      · simp [hyz]
      · have hne : (y == z) = false := by simpa using hyz
        simp [List.lookup_cons, hyz, hne]
    · rw [if_neg hzx]
      by_cases hyz : y = z
      · subst hyz
        simp [hzx]
      · have hne : (y == z) = false := by simpa using hyz
        simp [List.lookup_cons, hne, ih]

theorem mem_assign {x : String} {v : α} {vars : List (String × α)} {p : String × α}
    (h : p ∈ assign x v vars) : p = (x, v) ∨ p ∈ vars := by
  induction vars with
  | nil => simpa [assign] using h
  | cons q vars ih =>
    obtain ⟨y, u⟩ := q
    unfold assign at h
    split at h
    · rcases List.mem_cons.mp h with rfl | h
      · exact .inl rfl
      · exact .inr (List.mem_cons_of_mem _ h)
    · rcases List.mem_cons.mp h with rfl | h
      · exact .inr List.mem_cons_self
      · rcases ih h with rfl | h
        · exact .inl rfl
        · exact .inr (List.mem_cons_of_mem _ h)

end Assoc

namespace Veil

variable {V : Veil} {W : World}

/-! ### Variables without the veiled ones -/

theorem getElem?_hide_frames (ref : Nat) (h : V.scope ≠ some ref) :
    (V.hide W).frames[ref]? = W.frames[ref]? := by
  unfold hide
  cases hscope : V.scope with
  | none => rfl
  | some scope =>
    have hne : scope ≠ ref := fun heq => h (by rw [hscope, heq])
    simp [Array.getElem?_modify, hne]

/-- The veil takes variables out of one frame and leaves the others as they are. -/
theorem varsOf_hide (ref : Nat) :
    (V.hide W).varsOf ref =
      if V.scope = some ref then V.hideVars (W.varsOf ref) else W.varsOf ref := by
  split
  · rename_i hscope
    have hnone : (default : Frame).vars = [] := rfl
    cases hframe : W.frames[ref]? <;>
      simp [hide, hscope, World.varsOf, Array.getD_eq_getD_getElem?, Array.getElem?_modify, hframe,
        hideVars, hnone]
  · rename_i hscope
    simp [World.varsOf, Array.getD_eq_getD_getElem?, getElem?_hide_frames ref hscope]

theorem title_hide (ref : Nat) :
    ((V.hide W).frames.getD ref default).title = (W.frames.getD ref default).title := by
  by_cases hscope : V.scope = some ref
  · cases hframe : W.frames[ref]? <;>
      simp [hide, hscope, Array.getD_eq_getD_getElem?, Array.getElem?_modify, hframe]
  · simp [Array.getD_eq_getD_getElem?, getElem?_hide_frames ref hscope]

theorem lookup_varsOf_hide {ref : Nat} {x : String} (h : V.scope ≠ some ref ∨ V.names x = false) :
    ((V.hide W).varsOf ref).lookup x = (W.varsOf ref).lookup x := by
  rw [varsOf_hide]
  split
  · rename_i hscope
    have hx : V.names x = false := h.resolve_left fun hne => hne hscope
    exact lookup_filter (fun y => !V.names y) (by simp [hx]) _
  · rfl

theorem globals_hide (h : V.scope ≠ none) : (V.hide W).globals = W.globals := by
  unfold hide
  cases hscope : V.scope with
  | none => exact absurd hscope h
  | some ref => rfl

theorem lookup_globals_hide {x : String} (h : V.scope ≠ none ∨ V.names x = false) :
    (V.hide W).globals.lookup x = W.globals.lookup x := by
  by_cases hscope : V.scope = none
  · have hx : V.names x = false := h.resolve_left fun hne => hne hscope
    simp only [hide, hscope]
    exact lookup_filter (fun y => !V.names y) (by simp [hx]) _
  · rw [globals_hide hscope]

/-- A name that is not veiled, or that is looked for elsewhere. -/
theorem Spares.visible {frames : List Nat} {x : String} (h : V.Spares frames [x]) {ref : Nat}
    (href : ref ∈ frames) : V.scope ≠ some ref ∨ V.names x = false := by
  by_cases hscope : V.scope = some ref
  · refine .inr (h ?_ x (by simp))
    intro other hother
    rw [hscope] at hother
    cases hother
    exact href
  · exact .inl hscope

theorem Spares.visible_global {frames : List Nat} {x : String} (h : V.Spares frames [x]) :
    V.scope ≠ none ∨ V.names x = false := by
  by_cases hscope : V.scope = none
  · exact .inr (h (by simp [Sees, hscope]) x (by simp))
  · exact .inl hscope

theorem frameValue?_hide {frames : List Nat} {x : String}
    (h : ∀ ref ∈ frames, V.scope ≠ some ref ∨ V.names x = false) :
    Interp.frameValue? (V.hide W) x frames = Interp.frameValue? W x frames := by
  induction frames with
  | nil => rfl
  | cons ref frames ih =>
    rw [List.forall_mem_cons] at h
    simp only [Interp.frameValue?, lookup_varsOf_hide h.1, ih h.2]

theorem isLocal_hide {frames : List Nat} {x : String}
    (h : ∀ ref ∈ frames, V.scope ≠ some ref ∨ V.names x = false) :
    Interp.isLocal (V.hide W) x frames = Interp.isLocal W x frames := by
  cases frames with
  | nil => rfl
  | cons ref frames => simp only [Interp.isLocal, lookup_varsOf_hide (h ref List.mem_cons_self)]

/-- The values of variables are clean. -/
theorem Good.frameValue? (hgood : V.Good W) {x : String} {frames : List Nat} {v : Value}
    (h : Interp.frameValue? W x frames = some (some v)) : V.Clean v := by
  induction frames with
  | nil => simp [Interp.frameValue?] at h
  | cons ref frames ih =>
    unfold Interp.frameValue? at h
    cases hvar : (W.varsOf ref).lookup x with
    | none =>
      rw [hvar] at h
      exact ih h
    | some value =>
      rw [hvar] at h
      cases h
      exact hgood.vars ref _ (mem_of_lookup hvar) v rfl

/-! ### Assignments -/

/-- The variables of the frames after an assignment in one of them. -/
theorem varsOf_assignVar (ref other : Nat) (x : String) (v : Value) :
    World.varsOf { W with frames := W.frames.modify ref fun frame =>
        { frame with vars := assign x (some v) frame.vars } } other =
      if ref = other ∧ other < W.frames.size then assign x (some v) (W.varsOf other)
      else W.varsOf other := by
  simp only [World.varsOf, Array.getD_eq_getD_getElem?, Array.getElem?_modify]
  by_cases hother : ref = other
  · by_cases hlt : other < W.frames.size <;> simp [hother, hlt]
  · simp [hother]

/-- A good world stays good if a clean value is assigned in a frame. -/
theorem Good.assignVar (h : V.Good W) (ref : Nat) (x : String) {v : Value} (hv : V.Clean v) :
    V.Good { W with frames := W.frames.modify ref fun frame =>
      { frame with vars := assign x (some v) frame.vars } } := by
  refine ⟨h.globals, fun other p hp u hu => ?_, h.lists, h.iters, fun scope hscope => ?_⟩
  · rw [varsOf_assignVar] at hp
    split at hp
    · rcases mem_assign hp with rfl | hp
      · cases hu
        exact hv
      · exact h.vars other p hp u hu
    · exact h.vars other p hp u hu
  · simpa using h.scope scope hscope

theorem Good.assignGlobal (h : V.Good W) (x : String) {v : Value} (hv : V.Clean v) :
    V.Good { W with globals := assign x v W.globals } := by
  refine ⟨fun p hp => ?_, h.vars, h.lists, h.iters, h.scope⟩
  rcases mem_assign hp with rfl | hp
  · exact hv
  · exact h.globals p hp

theorem hideVars_assign_of_not {α : Type} {x : String} (hx : V.names x = false) (v : α)
    (vars : List (String × α)) : V.hideVars (assign x v vars) = assign x v (V.hideVars vars) :=
  assign_filter (fun y => !V.names y) (by simp [hx]) vars

/-! ### Frames -/

/-- A good world stays good with one more frame. -/
theorem Good.push (h : V.Good W) {frame : Frame} (hframe : ∀ p ∈ frame.vars, ∀ v ∈ p.2, V.Clean v) :
    V.Good { W with frames := W.frames.push frame } := by
  refine ⟨h.globals, fun ref => ?_, h.lists, h.iters, fun ref href => ?_⟩
  · by_cases href : ref = W.frames.size
    · subst href
      simpa [World.varsOf, Array.getD_eq_getD_getElem?] using hframe
    · have hold := h.vars ref
      simp only [World.varsOf, Array.getD_eq_getD_getElem?] at hold ⊢
      rwa [Array.getElem?_push, if_neg href]
  · have hlt := h.scope ref href
    simp only [Array.size_push]
    omega

theorem hide_push (h : V.Good W) (frame : Frame) :
    V.hide { W with frames := W.frames.push frame } =
      { V.hide W with frames := (V.hide W).frames.push frame } := by
  unfold hide
  cases hscope : V.scope with
  | none => rfl
  | some ref =>
    have hlt : ref < W.frames.size := h.scope ref hscope
    have hframes : (W.frames.push frame).modify ref
          (fun frame => { frame with vars := V.hideVars frame.vars }) =
        (W.frames.modify ref fun frame => { frame with vars := V.hideVars frame.vars }).push
          frame := by
      apply Array.ext_getElem?
      intro i
      rw [Array.getElem?_modify, Array.getElem?_push, Array.getElem?_push, Array.getElem?_modify,
        Array.size_modify]
      by_cases hi : i = W.frames.size
      · have hne : ref ≠ W.frames.size := by omega
        simp [hi, hne]
      · simp [hi]
    simp only [hframes]

/-- What is done in a frame of its own changes no variables of others. -/
theorem Insulated.inFrame {α : Type} {frame : Frame} {k : Nat → Exec α} {Q : α → Prop}
    (hframe : ∀ p ∈ frame.vars, ∀ v ∈ p.2, V.Clean v)
    (h : ∀ ref, V.scope ≠ some ref → V.Insulated (.frame ref) (k ref) Q) :
    V.Insulated .nothing
      ((modifyGet fun w : World => (w.frames.size, { w with frames := w.frames.push frame })) >>= k)
      Q := by
  intro W hW
  have hne : V.scope ≠ some W.frames.size := fun hscope =>
    Nat.lt_irrefl _ (hW.scope W.frames.size hscope)
  have hk := h W.frames.size hne (hW.push hframe)
  have hrun : ((modifyGet fun w : World =>
        (w.frames.size, { w with frames := w.frames.push frame })) >>= k) W =
      k W.frames.size { W with frames := W.frames.push frame } := rfl
  have hrunHidden : ((modifyGet fun w : World =>
        (w.frames.size, { w with frames := w.frames.push frame })) >>= k) (V.hide W) =
      k W.frames.size (V.hide { W with frames := W.frames.push frame }) := by
    rw [hide_push hW, ← hide_size (V := V) W]
    rfl
  have hleads {W' : World}
      (hk : World.Leads (.frame W.frames.size) { W with frames := W.frames.push frame } W') :
      W.Leads .nothing W' :=
    ((World.Leads.push W frame).weaken.trans hk).ofNew (Nat.le_refl _)
  rw [hrun, hrunHidden]
  cases hres : k W.frames.size { W with frames := W.frames.push frame } with
  | error e W' =>
    rw [hres] at hk
    exact ⟨hk.1, hleads hk.2⟩
  | ok a W' =>
    rw [hres] at hk
    obtain ⟨hhide, hgood, hQ, hk⟩ := hk
    exact ⟨hhide, hgood, hQ, hleads hk⟩

end Veil

namespace Interp

open Veil

variable {V : Veil} {self : Interp} {reach : Reach} {frames : List Nat}

/-! ### Names -/

/-- What a name means in a world. -/
def meaning (frames : List Nat) (x : String) (W : World) : Except Failure Value :=
  if x = "__debug__" then .ok (.ofBool true)
  else
    match frameValue? W x frames with
    | some (some v) => .ok v
    | some none =>
      .error (if isLocal W x frames then .unassignedLocal x else .unassignedOuter x)
    | none =>
      match W.globals.lookup x with
      | some v => .ok v
      | none =>
        match Native.builtins.lookup x with
        | some fn => .ok (.native fn)
        | none => .error (.undefined x)

/-- A name means the same in worlds that have the same variables of that name. -/
theorem meaning_of_lookup {frames : List Nat} {x : String} {W W₁ : World}
    (hglobals : W₁.globals.lookup x = W.globals.lookup x)
    (hvars : ∀ ref ∈ frames, (W₁.varsOf ref).lookup x = (W.varsOf ref).lookup x) :
    meaning frames x W₁ = meaning frames x W := by
  have hframe : frameValue? W₁ x frames = frameValue? W x frames := by
    induction frames with
    | nil => rfl
    | cons ref frames ih =>
      rw [List.forall_mem_cons] at hvars
      simp only [frameValue?, hvars.1, ih hvars.2]
  have hlocal : isLocal W₁ x frames = isLocal W x frames := by
    cases frames with
    | nil => rfl
    | cons ref frames => simp only [isLocal, hvars ref List.mem_cons_self]
  simp only [meaning, hframe, hlocal, hglobals]

theorem valueOf_eq (frames : List Nat) (x : String) (W : World) :
    valueOf frames x W = Exec.lift (meaning frames x W) W := by
  unfold valueOf meaning
  by_cases hx : x = "__debug__"
  · simp only [hx, if_true]
    rfl
  · have hget {k : World → Exec Value} : (get >>= k) W = k W W := rfl
    rw [if_neg hx, if_neg hx, hget]
    cases frameValue? W x frames with
    | some value =>
      cases value with
      | some v => rfl
      | none =>
        dsimp only
        split <;> rfl
    | none =>
      dsimp only
      cases W.globals.lookup x with
      | some v => rfl
      | none => cases Native.builtins.lookup x <;> rfl

/-- A name that code may read has the same value without the veiled variables. -/
theorem valueOf_insulated {x : String} (h : V.Spares frames [x]) :
    V.Insulated reach (valueOf frames x) V.Clean := by
  unfold valueOf
  split
  · exact .pure (clean_ofBool true)
  · refine .get (fun W => ?_) fun W hW => ?_
    · simp only [frameValue?_hide fun ref href => h.visible href,
        isLocal_hide fun ref href => h.visible href, lookup_globals_hide h.visible_global]
    · cases hvalue : frameValue? W x frames with
      | some value =>
        cases value with
        | some v => exact .pure (hW.frameValue? hvalue)
        | none =>
          dsimp only
          split
          · exact .fail
          · exact .fail
      | none =>
        dsimp only
        cases hglobal : W.globals.lookup x with
        | some v => exact .pure (hW.globals _ (mem_of_lookup hglobal))
        | none =>
          dsimp only
          split
          · exact .pure (clean_native _)
          · exact .fail

theorem titleIn_insulated (frames : List Nat) (name : String) :
    V.Insulated reach (titleIn frames name) fun _ => True := by
  cases frames with
  | nil => exact .pure trivial
  | cons ref frames => exact .get (fun W => by rw [title_hide]) fun _ _ => .pure trivial

/-- An assignment reaches the innermost frame, or the outermost level. -/
theorem leads_assignName (hsite : reach.site = frames.head?) {x : String} (hname : reach.names x)
    (v : Value) (W : World) : W.Leads reach ((assignName frames x v).after W) := by
  cases frames with
  | nil =>
    refine ⟨⟨Nat.le_refl _, Nat.le_refl _, Nat.le_refl _, Nat.le_refl _⟩, fun y hy => ?_,
      fun _ _ _ => rfl, fun _ _ _ _ => rfl⟩
    have hne : y ≠ x := fun heq => hy hsite (heq ▸ hname)
    exact (lookup_assign W.globals).trans (if_neg hne)
  | cons ref frames =>
    refine ⟨⟨Nat.le_of_eq Array.size_modify.symm, Nat.le_refl _, Nat.le_refl _, Nat.le_refl _⟩,
      fun _ _ => rfl, fun other _ hother => ?_, fun other _ y hy => ?_⟩
    · have hne : ref ≠ other := fun heq => hother (by rw [hsite, heq]; rfl)
      exact (Array.getElem?_modify ..).trans (if_neg hne)
    · have hne : y ≠ x := fun heq => hy (heq ▸ hname)
      refine (congrArg (List.lookup y) (varsOf_assignVar ref other x v)).trans ?_
      split
      · rw [lookup_assign, if_neg hne]
      · rfl

/-- An assignment to a variable that is not veiled. -/
theorem assignName_insulated (hsite : reach.site = frames.head?) {x : String}
    (hname : reach.names x) (hx : V.scope = frames.head? → V.names x = false) {v : Value}
    (hv : V.Clean v) : V.Insulated reach (assignName frames x v) fun _ => True := by
  cases frames with
  | nil =>
    refine .change (fun W => ?_) (fun W hW => hW.assignGlobal x hv) (fun _ => trivial)
      fun W => leads_assignName hsite hname v W
    cases hscope : V.scope with
    | none => simp [hide, hscope, hideVars_assign_of_not (hx hscope)]
    | some scope => simp [hide, hscope]
  | cons ref frames =>
    refine .change (fun W => ?_) (fun W hW => hW.assignVar ref x hv) (fun _ => trivial)
      fun W => leads_assignName hsite hname v W
    cases hscope : V.scope with
    | none => simp [hide, hscope]
    | some scope =>
      simp only [hide, hscope, Prod.mk.injEq, World.mk.injEq, true_and, and_true]
      apply Array.ext_getElem?
      intro i
      simp only [Array.getElem?_modify]
      by_cases hi : scope = i
      · by_cases href : ref = i
        · have hnot : V.names x = false := hx (by rw [hscope, hi, href]; rfl)
          cases W.frames[i]? <;> simp [hi, href, hideVars_assign_of_not hnot]
        · simp [hi, href]
      · simp [hi]

/-! ### Expressions -/

mutual

/-- Expressions that read no veiled variable are insulated, by recursion on the expression. -/
theorem eval_insulated (hself : self.Insulated V) :
    (e : Expr) → V.Spares frames e.reads → V.Insulated reach (eval self frames e) V.Clean
  | .const c _, _ => .pure (clean_const c)
  | .name x _, h => valueOf_insulated h
  | .field value member _, h =>
    (eval_insulated hself value h).bind fun _ hv => fieldOf_insulated hv member
  | .call callee args _, h => by
    rw [Expr.reads, spares_append] at h
    refine (eval_insulated hself callee h.1).bind fun fn hfn => ?_
    refine (evalAll_insulated hself args h.2).bind fun vs hvs => ?_
    exact (hself.call fn vs hfn hvs).weaken
  | .list items _, h =>
    (evalAll_insulated hself items h).bind fun _ hvs => newList_insulated hvs
  | .dict entries _, h =>
    (evalEntries_insulated hself entries h _ (by simp)).bind fun _ hes => .pure (clean_dict.mpr hes)
  | .binary op left right _, h => by
    rw [Expr.reads, spares_append] at h
    refine (eval_insulated hself left h.1).bind fun a ha => ?_
    exact (eval_insulated hself right h.2).bind fun b hb => binary_insulated op ha hb
  | .unary op operand _, h =>
    (eval_insulated hself operand h).bind fun a _ => unary_insulated op a
  | .logical op operands _, h => evalLogical_insulated hself op operands h
  | .compare op first others _, h => by
    rw [Expr.reads, spares_append] at h
    refine (eval_insulated hself first h.1).bind fun a _ => ?_
    exact evalCompare_insulated hself op others h.2 a
  | .conditional test yes no _, h => by
    rw [Expr.reads, spares_append, spares_append] at h
    refine (eval_insulated hself test h.1.1).bind fun v _ => ?_
    refine (truth_insulated v).bind fun holds _ => ?_
    split
    · exact eval_insulated hself yes h.1.2
    · exact eval_insulated hself no h.2
  | .thunk body _, h => by
    refine (titleIn_insulated frames _).bind fun title _ => newId_insulated.bind fun id _ => ?_
    exact .pure (clean_function.mpr (by simpa [Stmt.readsOfAll, Stmt.reads, Expr.reads] using h))

theorem evalAll_insulated (hself : self.Insulated V) :
    (es : List Expr) → V.Spares frames (Expr.readsOfAll es) →
      V.Insulated reach (evalAll self frames es) fun vs => ∀ v ∈ vs, V.Clean v
  | [], _ => .pure (by simp)
  | e :: es, h => by
    rw [Expr.readsOfAll, spares_append] at h
    refine (eval_insulated hself e h.1).bind fun v hv => ?_
    refine (evalAll_insulated hself es h.2).bind fun vs hvs => ?_
    exact .pure (List.forall_mem_cons.mpr ⟨hv, hvs⟩)

theorem evalPairs_insulated (hself : self.Insulated V) :
    (es : List (Expr × Expr)) → V.Spares frames (Expr.readsOfEntries es) →
      V.Insulated reach (evalPairs self frames es) fun ps => ∀ p ∈ ps, V.Clean p.1 ∧ V.Clean p.2
  | [], _ => .pure (by simp)
  | (key, value) :: es, h => by
    rw [Expr.readsOfEntries, spares_append, spares_append] at h
    refine (eval_insulated hself key h.1.1).bind fun k hk => ?_
    refine (eval_insulated hself value h.1.2).bind fun v hv => ?_
    refine (evalPairs_insulated hself es h.2).bind fun ps hps => ?_
    exact .pure (List.forall_mem_cons.mpr ⟨⟨hk, hv⟩, hps⟩)

theorem evalEntries_insulated (hself : self.Insulated V) :
    (es : List (Expr × Expr)) → V.Spares frames (Expr.readsOfEntries es) →
      ∀ eager {entries}, (∀ e ∈ entries, V.Clean e.1 ∧ V.Clean e.2) →
        V.Insulated reach (evalEntries self frames eager entries es)
          fun ps => ∀ p ∈ ps, V.Clean p.1 ∧ V.Clean p.2
  | [], _, _, _, hentries => .pure hentries
  | (key, value) :: es, h, eager, entries, hentries => by
    rw [Expr.readsOfEntries, spares_append, spares_append] at h
    refine (eval_insulated hself key h.1.1).bind fun k hk => ?_
    refine (eval_insulated hself value h.1.2).bind fun v hv => ?_
    cases eager with
    | zero =>
      refine (evalPairs_insulated hself es h.2).bind fun ps hps => ?_
      refine .foldlM hentries fun entries hentries p hp => putEntry_insulated hentries ?_
      rcases List.mem_cons.mp hp with rfl | hp
      · exact ⟨hk, hv⟩
      · exact hps p hp
    | succ eager =>
      refine (putEntry_insulated hentries ⟨hk, hv⟩).bind fun entries hentries => ?_
      exact evalEntries_insulated hself es h.2 eager hentries

theorem evalLogical_insulated (hself : self.Insulated V) (op : LogicalOp) :
    (es : List Expr) → V.Spares frames (Expr.readsOfAll es) →
      V.Insulated reach (evalLogical self frames op es) V.Clean
  | [], _ => .pure clean_nil
  | [e], h => eval_insulated hself e (by simpa [Expr.readsOfAll] using h)
  | e :: next :: es, h => by
    rw [Expr.readsOfAll, spares_append] at h
    refine (eval_insulated hself e h.1).bind fun v hv => (truth_insulated v).bind fun holds _ => ?_
    split
    · exact .pure hv
    · exact evalLogical_insulated hself op (next :: es) h.2

theorem evalCompare_insulated (hself : self.Insulated V) (op : CompareOp) :
    (es : List Expr) → V.Spares frames (Expr.readsOfAll es) → ∀ left,
      V.Insulated reach (evalCompare self frames op left es) V.Clean
  | [], _, _ => .pure (clean_ofBool true)
  | e :: es, h, left => by
    rw [Expr.readsOfAll, spares_append] at h
    refine (eval_insulated hself e h.1).bind fun right hright => ?_
    refine (compare_insulated hself op left hright).bind fun holds _ => ?_
    split
    · exact evalCompare_insulated hself op es h.2 right
    · exact .pure (clean_ofBool false)

end

/-! ### Statements -/

/-- A value that is returned is clean. -/
def Signal.Clean (V : Veil) : Signal → Prop
  | .returned v => V.Clean v
  | _ => True

/-- A loop is insulated if its test and its body are. The induction is on the rounds that are
left. -/
theorem rounds_insulated {test : Exec Bool} {body : Exec Signal}
    (htest : V.Insulated reach test fun _ => True) (hbody : V.Insulated reach body (Signal.Clean V))
    (left : Nat) : V.Insulated reach (rounds test body left) (Signal.Clean V) := by
  induction left with
  | zero =>
    refine htest.bind fun holds _ => ?_
    split
    · exact .fail
    · exact .pure trivial
  | succ left ih =>
    refine htest.bind fun holds _ => ?_
    split
    · refine hbody.bind fun signal hsignal => ?_
      cases signal with
      | returned v => exact .pure hsignal
      | done | next => exact ih
    · exact .pure trivial

theorem newFunction_insulated (name : String) (params : List String) (rest : Option String)
    {body : List Stmt} (h : V.Spares frames (Stmt.readsOfAll body)) :
    V.Insulated reach (newFunction frames name params rest body) V.Clean :=
  (titleIn_insulated frames name).bind fun _ _ => newId_insulated.bind fun _ _ =>
    .pure (clean_function.mpr h)

/-- The names may be assigned: the run reaches them, and none of them is veiled. -/
def Assignable (V : Veil) (reach : Reach) (frames : List Nat) (names : List String) : Prop :=
  ∀ x ∈ names, reach.names x ∧ (V.scope = frames.head? → V.names x = false)

mutual

/-- Statements that neither read nor assign veiled variables are insulated, by recursion on the
statement. -/
theorem exec_insulated (hself : self.Insulated V) (hsite : reach.site = frames.head?) :
    (s : Stmt) → V.Spares frames s.reads → Assignable V reach frames s.assigned →
      V.Insulated reach (exec self frames s) (Signal.Clean V)
  | .assign target value _, h, hnames => by
    obtain ⟨hname, hx⟩ := hnames target List.mem_cons_self
    exact (eval_insulated hself value h).bind fun _ hv =>
      (assignName_insulated hsite hname hx hv).bind fun _ _ => .pure trivial
  | .eval value _, h, _ => (eval_insulated hself value h).bind fun _ _ => .pure trivial
  | .ret value _, h, _ => (eval_insulated hself value h).bind fun _ hv => .pure hv
  | .branch test yes no _, h, hnames => by
    rw [Stmt.reads, spares_append, spares_append] at h
    rw [Stmt.assigned, Assignable, List.forall_mem_append] at hnames
    refine (eval_insulated hself test h.1.1).bind fun v _ =>
      (truth_insulated v).bind fun holds _ => ?_
    split
    · exact execAll_insulated hself hsite yes h.1.2 hnames.1
    · exact execAll_insulated hself hsite no h.2 hnames.2
  | .loop test body _, h, hnames => by
    rw [Stmt.reads, spares_append] at h
    refine rounds_insulated ?_ (execAll_insulated hself hsite body h.2 hnames) _
    exact (eval_insulated hself test h.1).bind fun v _ => truth_insulated v
  | .define name params rest body _, h, hnames => by
    obtain ⟨hname, hx⟩ := hnames name List.mem_cons_self
    exact (newFunction_insulated name params rest h).bind fun _ hv =>
      (assignName_insulated hsite hname hx hv).bind fun _ _ => .pure trivial
  | .skip _, _, _ => .pure trivial
  | .next _, _, _ => .pure trivial

theorem execAll_insulated (hself : self.Insulated V) (hsite : reach.site = frames.head?) :
    (ss : List Stmt) → V.Spares frames (Stmt.readsOfAll ss) →
      Assignable V reach frames (Stmt.assignedOfAll ss) →
      V.Insulated reach (execAll self frames ss) (Signal.Clean V)
  | [], _, _ => .pure trivial
  | s :: ss, h, hnames => by
    rw [Stmt.readsOfAll, spares_append] at h
    rw [Stmt.assignedOfAll, Assignable, List.forall_mem_append] at hnames
    refine (exec_insulated hself hsite s h.1 hnames.1).bind fun signal hsignal => ?_
    cases signal with
    | done => exact execAll_insulated hself hsite ss h.2 hnames.2
    | next | returned => exact .pure hsignal

end

/-! ### Calls -/

theorem clean_assign {x : String} {v : Value} {vars : List (String × Option Value)}
    (hv : V.Clean v) (hvars : ∀ p ∈ vars, ∀ v ∈ p.2, V.Clean v) :
    ∀ p ∈ assign x (some v) vars, ∀ v ∈ p.2, V.Clean v := by
  intro p hp u hu
  rcases mem_assign hp with rfl | hp
  · cases hu
    exact hv
  · exact hvars p hp u hu

theorem clean_assignPairs (pairs : List (String × Value)) (hpairs : ∀ p ∈ pairs, V.Clean p.2)
    (vars : List (String × Option Value)) (hvars : ∀ p ∈ vars, ∀ v ∈ p.2, V.Clean v) :
    ∀ p ∈ pairs.foldl (fun vars (name, v) => assign name (some v) vars) vars,
      ∀ v ∈ p.2, V.Clean v := by
  induction pairs generalizing vars with
  | nil => exact hvars
  | cons p pairs ih =>
    rw [List.forall_mem_cons] at hpairs
    exact ih hpairs.2 _ (clean_assign hpairs.1 hvars)

theorem clean_frameOf (fn : Function) {args : List Value} (h : ∀ v ∈ args, V.Clean v) :
    ∀ p ∈ (frameOf fn args).vars, ∀ v ∈ p.2, V.Clean v := by
  have hparams := clean_assignPairs (fn.params.zip args) (fun p hp => h p.2 (List.of_mem_zip hp).2)
    (fn.locals.map (·, none)) (by simp)
  unfold frameOf
  dsimp only
  split
  · refine clean_assign (clean_tuple.mpr fun v hv => h v (List.mem_of_mem_drop hv)) hparams
  · exact hparams

/-- A call runs the body of the function in a new frame, which no veil is over. -/
theorem callFunction_insulated (hself : self.Insulated V) {fn : Function}
    (hfn : V.Clean (.function fn)) {args : List Value} (h : ∀ v ∈ args, V.Clean v) :
    V.Insulated .nothing (callFunction self fn args) V.Clean := by
  unfold callFunction
  split
  · exact .fail
  · refine Veil.Insulated.inFrame (clean_frameOf fn h) fun ref href => ?_
    have hbody : V.Insulated (.frame ref) (execAll self (ref :: fn.frames) fn.body) _ :=
      execAll_insulated hself rfl fn.body ((clean_function.mp hfn).cons href)
        fun _ _ => ⟨trivial, fun hscope => absurd hscope href⟩
    refine hbody.bind fun signal hsignal => ?_
    cases signal with
    | returned v => exact .pure hsignal
    | done | next => exact .pure clean_nil

/-- One more level of calls is insulated if the levels below are. -/
theorem callStep_insulated (hself : self.Insulated V) {fn : Value} (hfn : V.Clean fn)
    {args : List Value} (h : ∀ v ∈ args, V.Clean v) :
    V.Insulated .nothing (callStep self fn args) V.Clean := by
  unfold callStep
  split
  · exact callFunction_insulated hself hfn h
  · exact callNative_insulated hself _ h
  · exact callBound_insulated _ h
  · exact callKeyword_insulated h
  · exact (typeName_insulated _).bind fun _ _ => .fail

/-- Calls and iterators do not see the veiled variables, however deeply calls may nest. -/
theorem upTo_insulated (V : Veil) (n : Nat) : (upTo n).Insulated V := by
  induction n with
  | zero => exact ⟨fun _ _ _ _ => .fail, fun _ => .fail⟩
  | succ n ih => exact ⟨fun _ _ hfn h => callStep_insulated ih hfn h, nextStep_insulated ih⟩

end Interp

/-! ### Runs without a veil -/

namespace Veil

/-- Nothing is veiled. -/
def nothing : Veil := ⟨none, fun _ => false⟩

theorem nothing_spares (frames : List Nat) (reads : List String) : nothing.Spares frames reads :=
  fun _ _ _ => rfl

mutual

theorem nothing_clean : ∀ v : Value, nothing.Clean v
  | .const _ | .complex _ | .list _ | .range .. | .native _ | .bound _ | .iterator _ => trivial
  | .tuple items => nothing_cleanAll items
  | .dict entries => nothing_cleanEntries entries
  | .keyword name place _ => ⟨nothing_clean name, nothing_cleanAll place⟩
  | .symbol name place => ⟨nothing_clean name, nothing_cleanAll place⟩
  | .function _ => nothing_spares _ _

theorem nothing_cleanAll : ∀ vs : List Value, nothing.CleanAll vs
  | [] => trivial
  | v :: vs => ⟨nothing_clean v, nothing_cleanAll vs⟩

theorem nothing_cleanEntries : ∀ es : List (Value × Value), nothing.CleanEntries es
  | [] => trivial
  | (k, v) :: es => ⟨⟨nothing_clean k, nothing_clean v⟩, nothing_cleanEntries es⟩

end

theorem nothing_good (W : World) : nothing.Good W where
  globals _ _ := nothing_clean _
  vars _ _ _ _ _ := nothing_clean _
  lists _ _ _ := nothing_clean _
  iters ref := by
    cases W.iters.getD ref (.row "" []) with
    | list | range => trivial
    | row _ items => exact nothing_cleanAll items
    | map fn _ => exact nothing_clean fn
    | calls fn last => exact ⟨nothing_clean fn, nothing_clean last⟩
  scope := nofun

end Veil

namespace Interp

open Veil

/-- An expression assigns nothing at its own level. -/
theorem eval_leads (n : Nat) (frames : List Nat) (e : Expr) (W : World) :
    W.Leads .nothing ((eval (upTo n) frames e).after W) :=
  Insulated.leads (eval_insulated (upTo_insulated nothing n) e (nothing_spares _ _))
    (nothing_good W)

/-- However a run of statements ends, it has assigned nothing but what the statements assign at
their own level, in the innermost frame or outside of functions. -/
theorem execAll_leads (n : Nat) (frames : List Nat) (ss : List Stmt) (W : World) :
    W.Leads ⟨frames.head?, (· ∈ Stmt.assignedOfAll ss)⟩ ((execAll (upTo n) frames ss).after W) :=
  Insulated.leads (execAll_insulated (upTo_insulated nothing n) rfl ss (nothing_spares _ _)
    fun _ hx => ⟨hx, fun _ => rfl⟩) (nothing_good W)

end Interp

end TailLisp
