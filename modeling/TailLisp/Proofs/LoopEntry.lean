import TailLisp.Proofs.Footprint
import TailLisp.Proofs.StmtMeaning

/-!
# TailLisp.Proofs.LoopEntry

**A jump against an entry.** A loop that is entered assigns each of its variables and expands the
pattern of that variable before it goes on to the next one. A jump assigns all variables first and
expands the patterns afterwards, in a frame where the names still have their old values. Both leave
the same world behind, or fail alike, where no pattern reads or binds the variable of a later
binding, no name is read before it is bound, and no function of the world reads the names
(`Lowering.jump_enters_afresh`).
-/

namespace TailLisp

/-! ### Runs that end alike -/

namespace Exec

variable {α β : Type}

/-- Two outcomes are the same value in the same world, or the same failure. -/
def EndsAlike : EStateM.Result Failure World α → EStateM.Result Failure World α → Prop
  | .ok a W, .ok b W' => a = b ∧ W = W'
  | .error e _, .error e' _ => e = e'
  | _, _ => False

variable {r r' r'' : EStateM.Result Failure World α}

theorem EndsAlike.refl : (r : EStateM.Result Failure World α) → EndsAlike r r
  | .ok _ _ => ⟨rfl, rfl⟩
  | .error _ _ => rfl

theorem EndsAlike.trans (h : EndsAlike r r') (h' : EndsAlike r' r'') : EndsAlike r r'' := by
  cases r <;> cases r' <;> cases r'' <;> simp_all [EndsAlike]

/-- Runs that end alike go on alike. -/
theorem EndsAlike.bind {m m' : Exec α} {W W' : World} (h : EndsAlike (m W) (m' W'))
    (f : α → Exec β) : EndsAlike ((m >>= f) W) ((m' >>= f) W') := by
  cases hrun : m W with
  | error e W₁ =>
    cases hrun' : m' W' with
    | error e' W₁' =>
      rw [hrun, hrun'] at h
      rw [bind_error hrun, bind_error hrun']
      exact h
    | ok b W₁' =>
      rw [hrun, hrun'] at h
      exact h.elim
  | ok a W₁ =>
    cases hrun' : m' W' with
    | error e' W₁' =>
      rw [hrun, hrun'] at h
      exact h.elim
    | ok b W₁' =>
      rw [hrun, hrun'] at h
      obtain ⟨rfl, rfl⟩ := h
      rw [bind_ok hrun, bind_ok hrun']
      exact .refl _

/-- A first step in common. -/
theorem EndsAlike.bind_left {m : Exec α} {f g : α → Exec β} {W : World}
    (h : ∀ a W', m W = .ok a W' → EndsAlike (f a W') (g a W')) :
    EndsAlike ((m >>= f) W) ((m >>= g) W) := by
  cases hrun : m W with
  | error e W' =>
    rw [bind_error hrun, bind_error hrun]
    exact .refl _
  | ok a W' =>
    rw [bind_ok hrun, bind_ok hrun]
    exact h a W' hrun

end Exec

/-! ### Rows of bindings -/

namespace Binding

/-- A row that only copies variables. -/
def OnlyLoads (row : List Binding) : Prop := ∀ b ∈ row, ∃ t, b.value = .load t

instance ReadEarly.decidable (x : String) : (steps : List Step) → Decidable (ReadEarly x steps)
  | [] => inferInstanceAs (Decidable False)
  | (target, names) :: rest =>
    have := ReadEarly.decidable x rest
    inferInstanceAs (Decidable (x ∈ names ∨ x ≠ target ∧ ReadEarly x rest))

theorem readBeforeBound_eq_nil_iff {steps : List Step} :
    readBeforeBound steps = [] ↔ ∀ x ∈ steps.map (·.1), ¬ReadEarly x steps := by
  simp only [List.eq_nil_iff_forall_not_mem, mem_readBeforeBound, not_and]

end Binding

namespace Interp

variable (self : Interp) (frames : List Nat)

/-- Bind the targets of a row one after the other. -/
def bindRow : List Binding → Exec Unit
  | [] => pure ()
  | b :: bs => do
    let v ← eval self frames b.value
    assignName frames b.target v
    bindRow bs

theorem bindRow_append (bs bs' : List Binding) :
    bindRow self frames (bs ++ bs') = (do
      bindRow self frames bs
      bindRow self frames bs') := by
  induction bs with
  | nil => simp [bindRow]
  | cons b bs ih => simp only [List.cons_append, bindRow, ih, bind_assoc]

/-- The assignments of a row bind its targets, wherever they are placed. -/
theorem execAll_bindRow (place : Binding → Option Span) (bs : List Binding) (stmts : List Stmt) :
    self.execAll frames (bs.map (fun b => .assign b.target b.value (place b)) ++ stmts) = (do
      bindRow self frames bs
      self.execAll frames stmts) := by
  induction bs with
  | nil => simp [bindRow]
  | cons b bs ih =>
    rw [List.map_cons, List.cons_append, Veil.execAll_assign, ih]
    simp only [bindRow, bind_assoc]

/-- The assignments of a row of bindings bind the row and go on. -/
theorem execAll_assigns (outer : Option Span) (bs : List Binding) :
    self.execAll frames (Binding.assigns outer bs) = (do
      bindRow self frames bs
      return .done) := by
  have hassigns := execAll_bindRow self frames
    (fun b => (b.span <|> outer).filter Span.isReal) bs []
  rw [List.append_nil, execAll] at hassigns
  exact hassigns

end Interp

/-! ### Smaller veils -/

namespace Veil

variable {V V' : Veil} {W W' : World}

theorem Spares.ofLess {frames : List Nat} {r : List String} (h : V.Spares frames r)
    (hscope : V'.scope = V.scope) (hnames : ∀ x, V'.names x = true → V.names x = true) :
    V'.Spares frames r := by
  intro hsees x hx
  have hx' : V.names x = false := h (fun ref href => hsees ref (hscope.trans href)) x hx
  cases hname : V'.names x with
  | false => rfl
  | true => rw [hnames x hname] at hx'; exact hx'

mutual

/-- A value that spares the variables of a veil spares those of a smaller one. -/
theorem Clean.ofLess (hscope : V'.scope = V.scope)
    (hnames : ∀ x, V'.names x = true → V.names x = true) :
    (v : Value) → V.Clean v → V'.Clean v
  | .const _, _ => trivial
  | .complex _, _ => trivial
  | .list _, _ => trivial
  | .tuple items, h => cleanAll_ofLess hscope hnames items h
  | .dict entries, h => cleanEntries_ofLess hscope hnames entries h
  | .range .., _ => trivial
  | .keyword name place _, h =>
    ⟨Clean.ofLess hscope hnames name h.1, cleanAll_ofLess hscope hnames place h.2⟩
  | .symbol name place, h =>
    ⟨Clean.ofLess hscope hnames name h.1, cleanAll_ofLess hscope hnames place h.2⟩
  | .function _, h => Spares.ofLess h hscope hnames
  | .native _, _ => trivial
  | .bound _, _ => trivial
  | .iterator _, _ => trivial

theorem cleanAll_ofLess (hscope : V'.scope = V.scope)
    (hnames : ∀ x, V'.names x = true → V.names x = true) :
    (vs : List Value) → V.CleanAll vs → V'.CleanAll vs
  | [], _ => trivial
  | v :: vs, h => ⟨Clean.ofLess hscope hnames v h.1, cleanAll_ofLess hscope hnames vs h.2⟩

theorem cleanEntries_ofLess (hscope : V'.scope = V.scope)
    (hnames : ∀ x, V'.names x = true → V.names x = true) :
    (es : List (Value × Value)) → V.CleanEntries es → V'.CleanEntries es
  | [], _ => trivial
  | (k, v) :: es, h =>
    ⟨⟨Clean.ofLess hscope hnames k h.1.1, Clean.ofLess hscope hnames v h.1.2⟩,
      cleanEntries_ofLess hscope hnames es h.2⟩

end

theorem CleanIter.ofLess (hscope : V'.scope = V.scope)
    (hnames : ∀ x, V'.names x = true → V.names x = true) :
    {iter : Iter} → V.CleanIter iter → V'.CleanIter iter
  | .list .., _ => trivial
  | .row _ items, h => cleanAll_ofLess hscope hnames items h
  | .range .., _ => trivial
  | .map fn _, h => Clean.ofLess hscope hnames fn h
  | .calls fn last, h => ⟨Clean.ofLess hscope hnames fn h.1, Clean.ofLess hscope hnames last h.2⟩

/-- A world that is good where more variables are veiled. -/
theorem Good.ofLess (h : V.Good W) (hscope : V'.scope = V.scope)
    (hnames : ∀ x, V'.names x = true → V.names x = true) : V'.Good W where
  globals p hp := (h.globals p hp).ofLess hscope hnames
  vars ref p hp v hv := (h.vars ref p hp v hv).ofLess hscope hnames
  lists ref v hv := (h.lists ref v hv).ofLess hscope hnames
  iters ref := (h.iters ref).ofLess hscope hnames
  scope ref href := h.scope ref (hscope.symm.trans href)

/-! ### Two worlds under one veil -/

/-- Names that code may read mean the same without the veiled variables. -/
theorem meaning_hide {frames : List Nat} {x : String} (h : V.Spares frames [x]) :
    Interp.meaning frames x (V.hide W) = Interp.meaning frames x W := by
  simp only [Interp.meaning, frameValue?_hide fun ref href => h.visible href,
    isLocal_hide fun ref href => h.visible href, lookup_globals_hide h.visible_global]

/-- Two outcomes that cannot be told apart under the veil, of runs that wrote to no variable that
was there before. -/
def Twins (V : Veil) (W W' : World) :
    EStateM.Result Failure World Value → EStateM.Result Failure World Value → Prop
  | .ok v W₁, .ok v' W₁' => v = v' ∧ V.hide W₁ = V.hide W₁' ∧
      W.Leads .nothing W₁ ∧ W'.Leads .nothing W₁' ∧
      (V.Good W → V.Good W' → V.Clean v ∧ V.Good W₁ ∧ V.Good W₁')
  | .error e _, .error e' _ => e = e'
  | _, _ => False

/-- A computation that does not see the veil ends alike in two worlds that differ only in veiled
variables. -/
theorem Insulated.twins {m : Exec Value} (h : V.Insulated .nothing m V.Clean) (hW : V.Good W)
    (hW' : V.Good W') (heq : V.hide W = V.hide W') : V.Twins W W' (m W) (m W') := by
  have hrun := h hW
  have hrun' := h hW'
  rw [heq] at hrun
  cases hm : m W with
  | ok v W₁ =>
    rw [hm] at hrun
    obtain ⟨hhide, hgood, hv, hleads⟩ := hrun
    rw [hhide] at hrun'
    cases hm' : m W' with
    | ok v' W₁' =>
      rw [hm'] at hrun'
      obtain ⟨hhide', hgood', -, hleads'⟩ := hrun'
      injection hhide' with hval hworld
      exact ⟨hval, hworld, hleads, hleads', fun _ _ => ⟨hv, hgood, hgood'⟩⟩
    | error e' W₁' =>
      rw [hm'] at hrun'
      cases hrun'.1
  | error e W₁ =>
    rw [hm] at hrun
    rw [hrun.1] at hrun'
    cases hm' : m W' with
    | ok v' W₁' =>
      rw [hm'] at hrun'
      cases hrun'.1
    | error e' W₁' =>
      rw [hm'] at hrun'
      injection hrun'.1

/-- A name that is not veiled is read alike in every two worlds that look the same. -/
theorem twins_load (self : Interp) {frames : List Nat} {x : String} (h : V.Spares frames [x])
    (heq : V.hide W = V.hide W') :
    V.Twins W W' (self.eval frames (.load x) W) (self.eval frames (.load x) W') := by
  have hmeaning : Interp.meaning frames x W = Interp.meaning frames x W' := by
    rw [← meaning_hide (W := W) h, heq, meaning_hide h]
  have heval (W : World) : self.eval frames (.load x) W = Interp.valueOf frames x W := by
    rw [Expr.load, Interp.eval]
  rw [heval, heval, Interp.valueOf_eq, Interp.valueOf_eq, hmeaning]
  cases hvalue : Interp.meaning frames x W' with
  | error e => exact rfl
  | ok v =>
    refine ⟨rfl, heq, .refl W, .refl W', fun hW hW' => ⟨?_, hW, hW'⟩⟩
    have hread : V.Insulated .nothing (Interp.valueOf frames x) V.Clean :=
      Interp.valueOf_insulated h
    have hrun := hread hW'
    rw [Interp.valueOf_eq, hvalue] at hrun
    exact hrun.2.2.1

end Veil

/-! ### Variables of one frame -/

section Vars

variable {α : Type} {hidden : String → Bool} {l r : List (String × α)} {x y : String} {v w : α}

/-- The same variables in the same order, with the same values apart from the hidden ones. -/
def VarsAgree (hidden : String → Bool) (l r : List (String × α)) : Prop :=
  List.Forall₂ (fun p q => p.1 = q.1 ∧ (hidden p.1 = false → p.2 = q.2)) l r

theorem VarsAgree.filter (h : VarsAgree hidden l r) (keep : String → Bool)
    (hkeep : ∀ x, keep x = true → hidden x = false) :
    l.filter (fun p => keep p.1) = r.filter fun p => keep p.1 := by
  induction h with
  | nil => rfl
  | @cons p q l r hpq _ ih =>
    obtain ⟨hname, hvalue⟩ := hpq
    cases hp : keep p.1 with
    | false => simp [← hname, hp, ih]
    | true =>
      have heq : p = q := Prod.ext hname (hvalue (hkeep p.1 hp))
      simp [← heq, hp, ih]

theorem VarsAgree.keys (h : VarsAgree hidden l r) : l.map (·.1) = r.map (·.1) := by
  induction h with
  | nil => rfl
  | cons hpq _ ih => rw [List.map_cons, List.map_cons, hpq.1, ih]

theorem VarsAgree.eq (h : VarsAgree hidden l r) (hhidden : ∀ x, hidden x = false) : l = r := by
  induction h with
  | nil => rfl
  | cons hpq _ ih => rw [Prod.ext hpq.1 (hpq.2 (hhidden _)), ih]

/-- A name that no variable has need not be hidden. -/
theorem VarsAgree.narrow (h : VarsAgree hidden l r) (hx : x ∉ l.map (·.1)) :
    VarsAgree (fun y => hidden y && y != x) l r := by
  induction h with
  | nil => exact .nil
  | @cons p q l r hpq _ ih =>
    rw [List.map_cons, List.mem_cons, not_or] at hx
    refine .cons ⟨hpq.1, fun hp => hpq.2 ?_⟩ (ih hx.2)
    simpa [Ne.symm hx.1] using hp

/-- An assignment on both sides. -/
theorem VarsAgree.assign (h : VarsAgree hidden l r) (hnodup : (l.map (·.1)).Nodup) (x : String)
    (v : α) : VarsAgree (fun y => hidden y && y != x) (assign x v l) (assign x v r) := by
  induction h with
  | nil => exact .cons ⟨rfl, fun _ => rfl⟩ .nil
  | @cons p q l r hpq htail ih =>
    obtain ⟨y, u⟩ := p
    obtain ⟨z, w⟩ := q
    obtain ⟨hname, hvalue⟩ := hpq
    cases hname
    rw [List.map_cons, List.nodup_cons] at hnodup
    unfold TailLisp.assign
    by_cases hyx : y = x
    · subst hyx
      rw [if_pos rfl, if_pos rfl]
      -- no other variable has the name that is assigned
      exact .cons ⟨rfl, fun _ => rfl⟩ (VarsAgree.narrow htail hnodup.1)
    · rw [if_neg hyx, if_neg hyx]
      refine .cons ⟨rfl, fun hy => hvalue ?_⟩ (ih hnodup.2)
      simpa [hyx] using hy

/-- Filters on names keep agreement. -/
theorem VarsAgree.restrict (h : VarsAgree hidden l r) (keep : String → Bool) :
    VarsAgree hidden (l.filter fun p => keep p.1) (r.filter fun p => keep p.1) := by
  induction h with
  | nil => exact .nil
  | @cons p q l r hpq _ ih =>
    cases hp : keep p.1 with
    | true =>
      rw [List.filter_cons_of_pos (by simp [hp]), List.filter_cons_of_pos (by simp [← hpq.1, hp])]
      exact .cons hpq ih
    | false =>
      rw [List.filter_cons_of_neg (by simp [hp]), List.filter_cons_of_neg (by simp [← hpq.1, hp])]
      exact ih

/-- Variables are known from their names and the two parts that a filter on names makes. -/
theorem eq_of_filters (keep : String → Bool) (hkeys : l.map (·.1) = r.map (·.1))
    (h : l.filter (fun p => keep p.1) = r.filter fun p => keep p.1)
    (h' : l.filter (fun p => !keep p.1) = r.filter fun p => !keep p.1) : l = r := by
  induction l generalizing r with
  | nil => exact (List.map_eq_nil_iff.mp hkeys.symm).symm
  | cons p l ih =>
    cases r with
    | nil => cases hkeys
    | cons q r =>
      rw [List.map_cons, List.map_cons, List.cons.injEq] at hkeys
      cases hp : keep p.1 with
      | true =>
        simp only [List.filter_cons, ← hkeys.1, hp, if_true, Bool.not_true, Bool.false_eq_true,
          if_false, List.cons.injEq] at h h'
        rw [h.1, ih hkeys.2 h.2 h']
      | false =>
        simp only [List.filter_cons, ← hkeys.1, hp, if_true, Bool.not_false, Bool.false_eq_true,
          if_false, List.cons.injEq] at h h'
        rw [h'.1, ih hkeys.2 h h'.2]

theorem keys_assign (hx : x ∈ l.map (·.1)) : (assign x v l).map (·.1) = l.map (·.1) := by
  induction l with
  | nil => simp at hx
  | cons p l ih =>
    obtain ⟨y, u⟩ := p
    unfold TailLisp.assign
    by_cases hyx : y = x
    · simp [hyx]
    · rw [if_neg hyx]
      have hmem : x ∈ l.map (·.1) := by
        rcases List.mem_cons.mp hx with heq | hmem
        · exact absurd heq.symm hyx
        · exact hmem
      rw [List.map_cons, List.map_cons, ih hmem]

/-- Assignments to two variables can be made in either order. -/
theorem assign_comm (hxy : x ≠ y) (hx : x ∈ l.map (·.1)) :
    assign y w (assign x v l) = assign x v (assign y w l) := by
  induction l with
  | nil => simp at hx
  | cons p l ih =>
    obtain ⟨z, u⟩ := p
    by_cases hzx : z = x
    · subst hzx
      simp [TailLisp.assign, hxy]
    · have hmem : x ∈ l.map (·.1) := by
        rcases List.mem_cons.mp hx with heq | hmem
        · exact absurd heq.symm hzx
        · exact hmem
      by_cases hzy : z = y
      · simp [TailLisp.assign, hzy, Ne.symm hxy]
      · simp [TailLisp.assign, hzx, hzy, ih hmem]

end Vars

/-! ### Worlds that agree apart from one frame -/

namespace Veil

variable {V : Veil} {W W' : World} {ref : Nat}

/-- The veil over all variables of a frame. -/
def whole (ref : Nat) : Veil := ⟨some ref, fun _ => true⟩

theorem whole_hide (hscope : V.scope = some ref) :
    (whole ref).hide (V.hide W) = (whole ref).hide W := by
  simp only [hide, hscope, whole, World.mk.injEq, true_and, and_true]
  apply Array.ext_getElem?
  intro i
  simp only [Array.getElem?_modify]
  by_cases hi : ref = i
  · cases W.frames[i]? <;> simp [hi, hideVars]
  · simp [hi]

/-- A world is known from what lies outside of a frame and the variables of the frame. -/
theorem eq_of_whole (ref : Nat) (h : (whole ref).hide W = (whole ref).hide W')
    (hvars : W.varsOf ref = W'.varsOf ref) : W = W' := by
  have hframes : W.frames = W'.frames := by
    apply Array.ext_getElem?
    intro i
    by_cases hi : ref = i
    · subst hi
      have htitle := congrArg (fun W : World => (W.frames.getD ref default).title) h
      have hsize := congrArg (fun W : World => W.frames.size) h
      simp only [title_hide, hide_size] at htitle hsize
      simp only [World.varsOf] at hvars
      by_cases hlt : ref < W.frames.size
      · have hlt' : ref < W'.frames.size := hsize ▸ hlt
        simp only [Array.getD_eq_getD_getElem?, Array.getElem?_eq_getElem hlt,
          Array.getElem?_eq_getElem hlt', Option.getD_some] at htitle hvars ⊢
        congr 1
        cases hframe : W.frames[ref]
        cases hframe' : W'.frames[ref]
        simp_all
      · rw [Array.getElem?_eq_none (by omega), Array.getElem?_eq_none (by omega)]
    · have hne : (whole ref).scope ≠ some i := fun heq => hi (Option.some.inj heq)
      rw [← getElem?_hide_frames (W := W) i hne, h, getElem?_hide_frames i hne]
  have hglobals := congrArg World.globals h
  rw [globals_hide (by simp [whole]), globals_hide (by simp [whole])] at hglobals
  have hlists := congrArg World.lists h
  have hiters := congrArg World.iters h
  have hmade := congrArg World.made h
  have hroom := congrArg World.room h
  have houtput := congrArg World.output h
  simp only [hide_lists, hide_iters, hide_made, hide_room, hide_output]
    at hlists hiters hmade hroom houtput
  cases W
  cases W'
  simp_all

/-- Worlds that agree outside of the frame, and in it apart from the veil, are equal under the
veil. -/
theorem hide_eq_of_whole (hscope : V.scope = some ref)
    (h : (whole ref).hide W = (whole ref).hide W')
    (hvars : V.hideVars (W.varsOf ref) = V.hideVars (W'.varsOf ref)) : V.hide W = V.hide W' := by
  apply eq_of_whole ref
  · rw [whole_hide hscope, whole_hide hscope, h]
  · rw [varsOf_hide, varsOf_hide, if_pos hscope, if_pos hscope, hvars]

theorem whole_of_hide_eq (hscope : V.scope = some ref) (h : V.hide W = V.hide W') :
    (whole ref).hide W = (whole ref).hide W' := by
  rw [← whole_hide (W := W) hscope, h, whole_hide hscope]

theorem varsOf_assigned (hscope : V.scope = some ref) (hlt : ref < W.frames.size) {x : String}
    {v : Value} : (V.assigned x v W).varsOf ref = assign x (some v) (W.varsOf ref) := by
  simp only [assigned, hscope, varsOf_assignVar, hlt, and_true, if_true]

theorem assignName_assigned (hscope : V.scope = some ref) {outer : List Nat} {x : String}
    {v : Value} : Interp.assignName (ref :: outer) x v W = .ok () (V.assigned x v W) :=
  assignName_eq (by rw [hscope]; rfl)

@[simp] theorem size_assigned {x : String} {v : Value} :
    (V.assigned x v W).frames.size = W.frames.size := by
  unfold assigned
  split <;> simp

end Veil

/-- The worlds are the same apart from the values of the hidden variables of a frame. -/
structure World.Agree (ref : Nat) (hidden : String → Bool) (W W' : World) : Prop where
  outside : (Veil.whole ref).hide W = (Veil.whole ref).hide W'
  vars : VarsAgree hidden (W.varsOf ref) (W'.varsOf ref)

/-- A frame that has the variables, each name once. -/
structure World.HasVars (ref : Nat) (xs : List String) (W : World) : Prop where
  bound : ref < W.frames.size
  nodup : ((W.varsOf ref).map (·.1)).Nodup
  mem : ∀ x ∈ xs, x ∈ (W.varsOf ref).map (·.1)

namespace World

variable {ref : Nat} {hidden : String → Bool} {xs : List String} {W W' W₁ W₁' : World} {x : String}
  {v : Value} {V : Veil}

theorem HasVars.of_leads (h : W.HasVars ref xs) (hleads : W.Leads .nothing W₁) :
    W₁.HasVars ref xs := by
  have hvars : W₁.varsOf ref = W.varsOf ref := hleads.varsOf h.bound
  exact ⟨Nat.lt_of_lt_of_le h.bound hleads.within.frames, hvars ▸ h.nodup, hvars ▸ h.mem⟩

theorem HasVars.sub {ys : List String} (h : W.HasVars ref xs) (hys : ∀ y ∈ ys, y ∈ xs) :
    W.HasVars ref ys :=
  ⟨h.bound, h.nodup, fun y hy => h.mem y (hys y hy)⟩

theorem HasVars.assigned (h : W.HasVars ref xs) (hscope : V.scope = some ref) (hx : x ∈ xs) :
    (V.assigned x v W).HasVars ref xs := by
  have hkeys : ((V.assigned x v W).varsOf ref).map (·.1) = (W.varsOf ref).map (·.1) := by
    rw [Veil.varsOf_assigned hscope h.bound, keys_assign (h.mem x hx)]
  exact ⟨by simpa using h.bound, hkeys ▸ h.nodup, hkeys ▸ h.mem⟩

theorem Agree.size (h : W.Agree ref hidden W') : W.frames.size = W'.frames.size := by
  have hsize := congrArg (fun W : World => W.frames.size) h.outside
  simpa using hsize

theorem Agree.hasVars (h : W.Agree ref hidden W') (hvars : W.HasVars ref xs) :
    W'.HasVars ref xs :=
  ⟨h.size ▸ hvars.bound, h.vars.keys ▸ hvars.nodup, h.vars.keys ▸ hvars.mem⟩

theorem Agree.hide (h : W.Agree ref hidden W') :
    (⟨some ref, hidden⟩ : Veil).hide W = (⟨some ref, hidden⟩ : Veil).hide W' :=
  Veil.hide_eq_of_whole rfl h.outside
    (h.vars.filter (fun x => !hidden x) fun x hx => by simpa using hx)

/-- The names of a frame without the veiled ones. -/
theorem HasVars.hide (h : W.HasVars ref xs) (hscope : V.scope = some ref)
    (hxs : ∀ x ∈ xs, V.names x = false) : (V.hide W).HasVars ref xs := by
  have hvars : (V.hide W).varsOf ref = V.hideVars (W.varsOf ref) := by
    rw [Veil.varsOf_hide, if_pos hscope]
  refine ⟨by simpa using h.bound, ?_, fun x hx => ?_⟩
  · rw [hvars]
    exact h.nodup.sublist (List.filter_sublist.map _)
  · obtain ⟨p, hp, rfl⟩ := List.mem_map.mp (h.mem x hx)
    rw [hvars]
    exact List.mem_map_of_mem (List.mem_filter.mpr ⟨hp, by simp [hxs p.1 hx]⟩)

theorem Agree.hideBoth (h : W.Agree ref hidden W') (hscope : V.scope = some ref) :
    (V.hide W).Agree ref hidden (V.hide W') := by
  refine ⟨?_, ?_⟩
  · rw [Veil.whole_hide hscope, Veil.whole_hide hscope, h.outside]
  · rw [Veil.varsOf_hide, Veil.varsOf_hide, if_pos hscope, if_pos hscope]
    exact h.vars.restrict fun x => !V.names x

theorem Agree.of_leads (h : W.Agree ref hidden W') (hlt : ref < W.frames.size)
    (heq : (⟨some ref, hidden⟩ : Veil).hide W₁ = (⟨some ref, hidden⟩ : Veil).hide W₁')
    (hleads : W.Leads .nothing W₁) (hleads' : W'.Leads .nothing W₁') :
    W₁.Agree ref hidden W₁' := by
  refine ⟨Veil.whole_of_hide_eq rfl heq, ?_⟩
  rw [hleads.varsOf hlt, hleads'.varsOf (h.size ▸ hlt)]
  exact h.vars

/-- A variable that is assigned in both worlds is no longer one in which they differ. -/
theorem Agree.assigned (h : W.Agree ref hidden W') (hvars : W.HasVars ref xs)
    (hscope : V.scope = some ref) :
    (V.assigned x v W).Agree ref (fun y => hidden y && y != x) (V.assigned x v W') := by
  constructor
  · have hwhole (W : World) : V.assigned x v W = (Veil.whole ref).assigned x v W := by
      simp only [Veil.assigned, hscope, Veil.whole]
    rw [hwhole, hwhole, Veil.hide_assigned rfl, Veil.hide_assigned rfl, h.outside]
  · rw [Veil.varsOf_assigned hscope hvars.bound, Veil.varsOf_assigned hscope (h.size ▸ hvars.bound)]
    exact h.vars.assign hvars.nodup x (some v)

theorem Agree.eq (h : W.Agree ref hidden W') (hhidden : ∀ x, hidden x = false) : W = W' :=
  Veil.eq_of_whole ref h.outside (h.vars.eq hhidden)

end World

/-! ### Stale values -/

namespace Interp

open Exec Veil

variable {n : Nat} {ref : Nat} {outer : List Nat} {hidden : String → Bool} {W W' : World}

/-- The old values of names that a row binds before it reads them do not matter. -/
theorem bindRow_agree {row : List Binding} (hagree : W.Agree ref hidden W')
    (hvars : W.HasVars ref (row.map (·.target)))
    (hearly : ∀ x, hidden x = true →
      ¬Binding.ReadEarly x (row.map fun b => (b.target, b.value.reads)))
    (hbinds : ∀ x, hidden x = true → x ∈ row.map (·.target))
    (hcalm : Binding.OnlyLoads row ∨
      (⟨some ref, hidden⟩ : Veil).Good W ∧ (⟨some ref, hidden⟩ : Veil).Good W') :
    EndsAlike (bindRow (upTo n) (ref :: outer) row W) (bindRow (upTo n) (ref :: outer) row W') := by
  induction row generalizing hidden W W' with
  | nil =>
    have hnone : ∀ x, hidden x = false := by
      intro x
      cases hx : hidden x with
      | false => rfl
      | true => simpa using hbinds x hx
    exact ⟨rfl, hagree.eq hnone⟩
  | cons b row ih =>
    have hspares : (⟨some ref, hidden⟩ : Veil).Spares (ref :: outer) b.value.reads := by
      intro _ x hx
      cases hname : hidden x with
      | false => exact hname
      | true => exact absurd (.inl hx) (hearly x hname)
    have htwins : (⟨some ref, hidden⟩ : Veil).Twins W W'
        (eval (upTo n) (ref :: outer) b.value W) (eval (upTo n) (ref :: outer) b.value W') := by
      rcases hcalm with hloads | ⟨hW, hW'⟩
      · obtain ⟨t, ht⟩ := hloads b List.mem_cons_self
        rw [ht] at hspares ⊢
        exact twins_load _ (by simpa [Expr.load, Expr.reads] using hspares) hagree.hide
      · exact (eval_insulated (upTo_insulated _ n) b.value hspares).twins hW hW' hagree.hide
    unfold bindRow
    cases hrun : eval (upTo n) (ref :: outer) b.value W with
    | error e W₁ =>
      cases hrun' : eval (upTo n) (ref :: outer) b.value W' with
      | error e' W₁' =>
        rw [hrun, hrun'] at htwins
        rw [bind_error hrun, bind_error hrun']
        exact htwins
      | ok v' W₁' =>
        rw [hrun, hrun'] at htwins
        exact htwins.elim
    | ok v W₁ =>
      cases hrun' : eval (upTo n) (ref :: outer) b.value W' with
      | error e' W₁' =>
        rw [hrun, hrun'] at htwins
        exact htwins.elim
      | ok v' W₁' =>
        rw [hrun, hrun'] at htwins
        obtain ⟨rfl, hhide, hleads, hleads', hgood⟩ := htwins
        rw [bind_ok hrun, bind_ok hrun']
        have hscope : (⟨some ref, hidden⟩ : Veil).scope = some ref := rfl
        rw [bind_ok (assignName_assigned hscope), bind_ok (assignName_assigned hscope)]
        have hvars₁ := hvars.of_leads hleads
        have hagree₁ := hagree.of_leads hvars.bound hhide hleads hleads'
        have hless : ∀ x, (hidden x && x != b.target) = true → hidden x = true := by
          intro x hx
          exact (Bool.and_eq_true _ _ ▸ hx).1
        refine ih (hagree₁.assigned hvars₁ rfl) ?_ ?_ ?_ ?_
        · exact (hvars₁.assigned rfl List.mem_cons_self).sub fun x hx => List.mem_cons_of_mem _ hx
        · intro x hx
          rw [Bool.and_eq_true, bne_iff_ne] at hx
          exact fun hread => hearly x hx.1 (.inr ⟨hx.2, hread⟩)
        · intro x hx
          rw [Bool.and_eq_true, bne_iff_ne] at hx
          exact (List.mem_cons.mp (hbinds x hx.1)).resolve_left hx.2
        · rcases hcalm with hloads | ⟨hW, hW'⟩
          · exact .inl fun b' hb' => hloads b' (List.mem_cons_of_mem _ hb')
          · obtain ⟨hv, hW₁, hW₁'⟩ := hgood hW hW'
            have hW₂ := hW₁.assigned (x := b.target) hv
            have hW₂' := hW₁'.assigned (x := b.target) hv
            exact .inr ⟨hW₂.ofLess rfl hless, hW₂'.ofLess rfl hless⟩

/-! ### Assignments past a row -/

/-- Code in a frame can run under the veil: the frame has the variables, and the names that hold
values have them. -/
structure Poised (V : Veil) (frames : List Nat) (ref : Nat) (xs ts : List String)
    (held : String → Value) (W : World) : Prop where
  good : V.Good W
  bound : ∀ ref ∈ frames, ref < W.frames.size
  vars : W.HasVars ref xs
  holds : ∀ t ∈ ts, found? W frames t = some (held t)

section Poised

variable {V : Veil} {xs ts : List String} {held : String → Value} {x : String} {v : Value}
  {frames : List Nat} {W₁ : World}

theorem Poised.of_leads (h : Poised V frames ref xs ts held W) (hgood : V.Good W₁)
    (hleads : W.Leads .nothing W₁) : Poised V frames ref xs ts held W₁ where
  good := hgood
  bound other hother := Nat.lt_of_lt_of_le (h.bound other hother) hleads.within.frames
  vars := h.vars.of_leads hleads
  holds t ht := by rw [found?_of_leads hleads h.bound, h.holds t ht]

/-- An assignment to a variable of the loop leaves the temporaries of the arguments as they are. -/
theorem Poised.assigned (h : Poised V frames ref xs ts held W) (hscope : V.scope = some ref)
    (hx : x ∈ xs) (hxt : x ∉ ts) (hv : V.Clean v) :
    Poised V frames ref xs ts held (V.assigned x v W) where
  good := h.good.assigned hv
  bound other hother := by simpa using h.bound other hother
  vars := h.vars.assigned hscope hx
  holds t ht := by
    have hne : t ≠ x := fun heq => hxt (heq ▸ ht)
    rw [found?_assigned hne, h.holds t ht]

/-- A step under the veil, then an assignment. -/
theorem Poised.step (h : Poised V frames ref xs ts held W) (hscope : V.scope = some ref)
    {e : Expr} (he : V.Spares frames e.reads) (hx : x ∈ xs) (hxt : x ∉ ts)
    (hrun : eval (upTo n) frames e W = .ok v W₁) :
    Poised V frames ref xs ts held W₁ ∧ Poised V frames ref xs ts held (V.assigned x v W₁) := by
  have hins : V.Insulated .nothing (eval (upTo n) frames e) V.Clean :=
    eval_insulated (upTo_insulated V n) e he
  have heval := hins h.good
  rw [hrun] at heval
  obtain ⟨-, hgood, hv, hleads⟩ := heval
  have h₁ := h.of_leads hgood hleads
  exact ⟨h₁, h₁.assigned hscope hx hxt hv⟩

/-- A name that holds a value is copied. -/
theorem Poised.load (h : Poised V frames ref xs ts held W) {t : String} (ht : t ∈ ts) :
    eval (upTo n) frames (.load t) W = .ok (held t) W := by
  rw [Expr.load, eval, valueOf_ok_iff]
  exact ⟨rfl, h.holds t ht⟩

theorem Poised.clean (h : Poised V frames ref xs ts held W) {t : String} (ht : t ∈ ts)
    (hname : V.names t = false) : V.Clean (held t) := by
  have hspares : V.Spares frames [t] := fun _ y hy => List.mem_singleton.mp hy ▸ hname
  have hread : V.Insulated .nothing (valueOf frames t) V.Clean := valueOf_insulated hspares
  have hrun := hread h.good
  rw [valueOf_ok_iff.mpr ⟨rfl, h.holds t ht⟩] at hrun
  exact hrun.2.2.1

theorem Poised.ofLess {V' : Veil} (h : Poised V frames ref xs ts held W)
    (hscope : V'.scope = V.scope) (hnames : ∀ x, V'.names x = true → V.names x = true) :
    Poised V' frames ref xs ts held W :=
  ⟨h.good.ofLess hscope hnames, h.bound, h.vars, h.holds⟩

/-- A row under the veil that binds variables of the frame and none of the names that hold
values. -/
structure Fits (V : Veil) (frames : List Nat) (xs ts : List String) (row : List Binding) :
    Prop where
  spares : ∀ b ∈ row, V.Spares frames b.value.reads
  mem : ∀ b ∈ row, b.target ∈ xs
  free : ∀ b ∈ row, b.target ∉ ts

theorem Fits.tail {b : Binding} {row : List Binding} (h : Fits V frames xs ts (b :: row)) :
    Fits V frames xs ts row :=
  ⟨fun b hb => h.spares b (List.mem_cons_of_mem _ hb),
    fun b hb => h.mem b (List.mem_cons_of_mem _ hb),
    fun b hb => h.free b (List.mem_cons_of_mem _ hb)⟩

/-- A row of bindings that assigns variables of the loop leaves the temporaries of the arguments as
they are. -/
theorem Poised.bindRow {row : List Binding} (h : Poised V (ref :: outer) ref xs ts held W)
    (hscope : V.scope = some ref) (hrow : Fits V (ref :: outer) xs ts row)
    (hrun : bindRow (upTo n) (ref :: outer) row W = .ok () W₁) :
    Poised V (ref :: outer) ref xs ts held W₁ := by
  induction row generalizing W with
  | nil =>
    cases hrun
    exact h
  | cons b row ih =>
    unfold Interp.bindRow at hrun
    cases heval : eval (upTo n) (ref :: outer) b.value W with
    | error e W₂ =>
      rw [bind_error heval] at hrun
      cases hrun
    | ok v W₂ =>
      rw [bind_ok heval, bind_ok (assignName_assigned hscope)] at hrun
      exact ih (h.step hscope (hrow.spares b List.mem_cons_self) (hrow.mem b List.mem_cons_self)
        (hrow.free b List.mem_cons_self) heval).2 hrow.tail hrun

/-- An assignment to a veiled variable changes nothing about what an expression does. -/
theorem eval_assigned {e : Expr} (h : Poised V (ref :: outer) ref xs ts held W)
    (hscope : V.scope = some ref) (he : V.Spares (ref :: outer) e.reads)
    (hx : V.names x = true) {u : Value} (hu : V.Clean u) :
    EndsAlike
      ((do
        let v ← eval (upTo n) (ref :: outer) e
        assignName (ref :: outer) x u
        return v) W)
      (eval (upTo n) (ref :: outer) e (V.assigned x u W)) := by
  have hhide : V.hide W = V.hide (V.assigned x u W) := (hide_assigned hx).symm
  have hins : V.Insulated .nothing (eval (upTo n) (ref :: outer) e) V.Clean :=
    eval_insulated (upTo_insulated V n) e he
  have htwins := hins.twins h.good (h.good.assigned (x := x) hu) hhide
  cases hrun : eval (upTo n) (ref :: outer) e W with
  | error f W₁ =>
    rw [hrun] at htwins
    cases hrun' : eval (upTo n) (ref :: outer) e (V.assigned x u W) with
    | error f' W₁' =>
      rw [hrun'] at htwins
      rw [bind_error hrun]
      exact htwins
    | ok v' W₁' =>
      rw [hrun'] at htwins
      exact htwins.elim
  | ok v W₁ =>
    rw [hrun] at htwins
    cases hrun' : eval (upTo n) (ref :: outer) e (V.assigned x u W) with
    | error f' W₁' =>
      rw [hrun'] at htwins
      exact htwins.elim
    | ok v' W₁' =>
      rw [hrun'] at htwins
      obtain ⟨rfl, hsame, hleads, hleads', -⟩ := htwins
      rw [bind_ok hrun, bind_ok (assignName_assigned hscope)]
      have hlt : ref < W₁.frames.size := Nat.lt_of_lt_of_le h.vars.bound hleads.within.frames
      refine ⟨rfl, eq_of_whole ref ?_ ?_⟩
      · refine whole_of_hide_eq hscope ?_
        rw [hide_assigned hx, hsame]
      · rw [varsOf_assigned hscope hlt, hleads.varsOf h.vars.bound,
          hleads'.varsOf (by simpa using h.vars.bound),
          varsOf_assigned hscope h.vars.bound]

/-- Two assignments in one frame. -/
theorem assigned_comm {y : String} {u : Value} (hscope : V.scope = some ref)
    (hvars : W.HasVars ref xs) (hx : x ∈ xs) (hxy : x ≠ y) :
    V.assigned y v (V.assigned x u W) = V.assigned x u (V.assigned y v W) := by
  have hwhole (x : String) (v : Value) (W : World) :
      V.assigned x v W = (whole ref).assigned x v W := by
    simp only [Veil.assigned, hscope, whole]
  apply eq_of_whole ref
  · simp only [hwhole, hide_assigned (V := whole ref) rfl]
  · rw [varsOf_assigned hscope (by simpa using hvars.bound), varsOf_assigned hscope hvars.bound,
      varsOf_assigned hscope (by simpa using hvars.bound), varsOf_assigned hscope hvars.bound,
      assign_comm hxy (hvars.mem x hx)]

/-- An assignment to a veiled variable can be made before a row instead of after it. -/
theorem bindRow_assigned {row : List Binding} {u : Value}
    (h : Poised V (ref :: outer) ref xs ts held W) (hscope : V.scope = some ref)
    (hrow : Fits V (ref :: outer) xs ts row) (hx : V.names x = true) (hmem : x ∈ xs)
    (hne : ∀ b ∈ row, b.target ≠ x) (hu : V.Clean u) :
    EndsAlike
      ((do
        bindRow (upTo n) (ref :: outer) row
        assignName (ref :: outer) x u) W)
      (bindRow (upTo n) (ref :: outer) row (V.assigned x u W)) := by
  induction row generalizing W with
  | nil =>
    rw [Interp.bindRow, pure_bind, assignName_assigned hscope]
    exact ⟨rfl, rfl⟩
  | cons b row ih =>
    have heval := eval_assigned (n := n) h hscope (hrow.spares b List.mem_cons_self) hx hu
    rw [Interp.bindRow, bind_assoc]
    refine EndsAlike.trans ?_ (heval.bind fun v => do
      assignName (ref :: outer) b.target v
      bindRow (upTo n) (ref :: outer) row)
    rw [bind_assoc]
    refine .bind_left fun v W₁ hrun => ?_
    obtain ⟨h₁, h₂⟩ := h.step hscope (hrow.spares b List.mem_cons_self)
      (hrow.mem b List.mem_cons_self) (hrow.free b List.mem_cons_self) hrun
    rw [bind_assoc, bind_ok (assignName_assigned hscope), bind_assoc,
      bind_ok (assignName_assigned hscope), pure_bind, bind_ok (assignName_assigned hscope),
      assigned_comm hscope h₁.vars hmem (hne b List.mem_cons_self).symm]
    exact ih h₂ hrow.tail fun b' hb' => hne b' (List.mem_cons_of_mem _ hb')

end Poised

end Interp

/-! ### The two orders -/

/-- A binding of a loop: the assignment to its variable, and the bindings of its pattern. -/
structure LoopPart where
  init : Binding
  row : List Binding

namespace LoopPart

/-- The assignment to the variable, with a value that another name holds. -/
def copy (p : LoopPart) (t : String) : Binding := { p.init with value := .load t }

/-- Enter the loop with the values that the names hold: each pattern is expanded right after its
variable is bound. -/
def entering (parts : List (LoopPart × String)) : List Binding :=
  parts.flatMap fun p => p.1.copy p.2 :: p.1.row

/-- Jump back with the values that the names hold: all variables are bound, then all patterns are
expanded. -/
def jumping (parts : List (LoopPart × String)) : List Binding :=
  parts.map (fun p => p.1.copy p.2) ++ parts.flatMap (·.1.row)

/-- No pattern reads or binds the variable of a later binding. -/
def Ordered (parts : List LoopPart) : Prop :=
  parts.Pairwise fun p q => ∀ b ∈ p.row, b.target ≠ q.init.target ∧ q.init.target ∉ b.value.reads

instance (parts : List LoopPart) : Decidable (Ordered parts) :=
  inferInstanceAs (Decidable (parts.Pairwise _))

/-- The veil over the variables of a loop in the frame. -/
def veil (ref : Nat) (parts : List (LoopPart × String)) : Veil :=
  ⟨some ref, fun x => parts.any fun p => p.1.init.target == x⟩

theorem veil_names {ref : Nat} {parts : List (LoopPart × String)} {x : String} :
    (veil ref parts).names x = true ↔ ∃ p ∈ parts, p.1.init.target = x := by
  simp [veil]

end LoopPart

namespace Interp

open Exec Veil LoopPart

variable {n ref : Nat} {outer : List Nat} {W W' : World} {V : Veil} {xs ts : List String}
  {held : String → Value} {parts : List (LoopPart × String)}

/-- The variables and names of a loop that is entered or jumped to: the variables belong to the
frame, and the names that hold the values are others. -/
structure Arrives (xs ts : List String) (parts : List (LoopPart × String)) : Prop where
  mem : ∀ b ∈ entering parts, b.target ∈ xs
  free : ∀ b ∈ entering parts, b.target ∉ ts
  held : ∀ p ∈ parts, p.2 ∈ ts

theorem Arrives.var {p : LoopPart × String} (h : Arrives xs ts parts) (hp : p ∈ parts) :
    p.1.init.target ∈ xs ∧ p.1.init.target ∉ ts := by
  have hmem : p.1.copy p.2 ∈ entering parts := List.mem_flatMap.mpr ⟨p, hp, List.mem_cons_self⟩
  exact ⟨h.mem (p.1.copy p.2) hmem, h.free (p.1.copy p.2) hmem⟩

theorem Arrives.tail {p : LoopPart × String} (h : Arrives xs ts (p :: parts)) :
    Arrives xs ts parts := by
  have hmem {b : Binding} (hb : b ∈ entering parts) : b ∈ entering (p :: parts) :=
    List.mem_append_right _ hb
  exact ⟨fun b hb => h.mem b (hmem hb), fun b hb => h.free b (hmem hb),
    fun q hq => h.held q (List.mem_cons_of_mem _ hq)⟩

/-- The variable gets the value that the name holds. -/
theorem bindRow_copy (h : Poised V (ref :: outer) ref xs ts held W) (hscope : V.scope = some ref)
    {p : LoopPart} {t : String} (ht : t ∈ ts) (row : List Binding) :
    bindRow (upTo n) (ref :: outer) (p.copy t :: row) W =
      bindRow (upTo n) (ref :: outer) row (V.assigned p.init.target (held t) W) := by
  have hload : eval (upTo n) (ref :: outer) (p.copy t).value W = .ok (held t) W := h.load ht
  rw [bindRow, bind_ok hload, bind_ok (assignName_assigned hscope)]
  rfl

/-- The assignments to variables that a row neither reads nor binds can be made before it. -/
theorem bindRow_copies {row : List Binding} (h : Poised V (ref :: outer) ref xs ts held W)
    (hscope : V.scope = some ref) (hrow : Fits V (ref :: outer) xs ts row)
    (hparts : Arrives xs ts parts) (hnames : ∀ p ∈ parts, V.names p.1.init.target = true)
    (hheld : ∀ t ∈ ts, V.names t = false)
    (hne : ∀ p ∈ parts, ∀ b ∈ row, b.target ≠ p.1.init.target) :
    EndsAlike (bindRow (upTo n) (ref :: outer) (row ++ parts.map fun p => p.1.copy p.2) W)
      (bindRow (upTo n) (ref :: outer) ((parts.map fun p => p.1.copy p.2) ++ row) W) := by
  induction parts generalizing W with
  | nil =>
    rw [List.map_nil, List.append_nil, List.nil_append]
    exact .refl _
  | cons p parts ih =>
    obtain ⟨hmem, hfree⟩ := hparts.var List.mem_cons_self
    have ht : p.2 ∈ ts := hparts.held p List.mem_cons_self
    have hclean : V.Clean (held p.2) := h.clean ht (hheld p.2 ht)
    have hname := hnames p List.mem_cons_self
    have hih := ih (h.assigned hscope hmem hfree hclean) hparts.tail
      (fun q hq => hnames q (List.mem_cons_of_mem _ hq))
      fun q hq => hne q (List.mem_cons_of_mem _ hq)
    rw [List.map_cons, List.cons_append, bindRow_copy h hscope ht]
    refine EndsAlike.trans ?_ hih
    -- the first of the assignments moves to the front of the row
    have hmove := bindRow_assigned (n := n) h hscope hrow hname hmem (hne p List.mem_cons_self)
      hclean
    rw [bindRow_append, bindRow_append]
    refine EndsAlike.trans ?_ (hmove.bind fun _ => bindRow (upTo n) (ref :: outer) _)
    rw [bind_assoc]
    refine .bind_left fun _ W₁ hrun => ?_
    have h₁ := h.bindRow hscope hrow hrun
    rw [bindRow_copy h₁ hscope ht, bind_ok (assignName_assigned hscope)]
    exact .refl _

/-- Entering a loop and jumping back to it with the same values do the same in one world. -/
theorem bindRow_entering (h : Poised (veil ref parts) (ref :: outer) ref xs ts held W)
    (hparts : Arrives xs ts parts) (hordered : Ordered (parts.map (·.1))) :
    EndsAlike (bindRow (upTo n) (ref :: outer) (entering parts) W)
      (bindRow (upTo n) (ref :: outer) (jumping parts) W) := by
  induction parts generalizing W with
  | nil => exact .refl _
  | cons p parts ih =>
    rw [List.map_cons, Ordered, List.pairwise_cons] at hordered
    obtain ⟨hmem, hfree⟩ := hparts.var List.mem_cons_self
    have ht : p.2 ∈ ts := hparts.held p List.mem_cons_self
    have hheld : ∀ t ∈ ts, (veil ref parts).names t = false := by
      intro t ht
      rw [Bool.eq_false_iff, ne_eq, veil_names]
      rintro ⟨q, hq, rfl⟩
      exact (hparts.tail.var hq).2 ht
    have hless : Poised (veil ref parts) (ref :: outer) ref xs ts held W :=
      h.ofLess rfl fun x hx => by
        obtain ⟨q, hq, hqx⟩ := veil_names.mp hx
        exact veil_names.mpr ⟨q, List.mem_cons_of_mem _ hq, hqx⟩
    have h₁ : Poised (veil ref parts) (ref :: outer) ref xs ts held
        ((veil ref parts).assigned p.1.init.target (held p.2) W) :=
      hless.assigned rfl hmem hfree (hless.clean ht (hheld p.2 ht))
    have hrow : Fits (veil ref parts) (ref :: outer) xs ts p.1.row := by
      have hentering {b : Binding} (hb : b ∈ p.1.row) : b ∈ entering (p :: parts) :=
        List.mem_append_left _ (List.mem_cons_of_mem _ hb)
      refine ⟨fun b hb _ x hx => ?_, fun b hb => hparts.mem b (hentering hb),
        fun b hb => hparts.free b (hentering hb)⟩
      rw [Bool.eq_false_iff, ne_eq, veil_names]
      rintro ⟨q, hq, rfl⟩
      exact (hordered.1 q.1 (List.mem_map_of_mem hq) b hb).2 hx
    have hentering : entering (p :: parts) = p.1.copy p.2 :: (p.1.row ++ entering parts) := rfl
    have hjumping : jumping (p :: parts) =
        p.1.copy p.2 :: (((parts.map fun q => q.1.copy q.2) ++ p.1.row) ++
          parts.flatMap (·.1.row)) := by
      simp [jumping]
    rw [hentering, hjumping, bindRow_copy hless rfl ht, bindRow_copy hless rfl ht]
    have hcopies := bindRow_copies (n := n) h₁ rfl hrow hparts.tail
      (fun q hq => veil_names.mpr ⟨q, hq, rfl⟩) hheld
      fun q hq b hb => (hordered.1 q.1 (List.mem_map_of_mem hq) b hb).1
    rw [bindRow_append _ _ (_ ++ p.1.row)]
    refine EndsAlike.trans ?_ (hcopies.bind fun _ => bindRow (upTo n) (ref :: outer) _)
    rw [← bindRow_append, List.append_assoc, ← jumping, bindRow_append, bindRow_append]
    exact .bind_left fun _ W₂ hrun => ih (h₁.bindRow rfl hrow hrun) hparts.tail hordered.2

end Interp

/-! ### Names set aside -/

namespace Veil

/-- An assignment to a variable that is not veiled. -/
theorem hide_assigned_of_not {V : Veil} {W : World} {x : String} {v : Value}
    (hx : V.names x = false) : V.hide (V.assigned x v W) = V.assigned x v (V.hide W) := by
  unfold hide assigned
  cases V.scope with
  | none => simp only [hideVars_assign_of_not hx]
  | some ref =>
    simp only [World.mk.injEq, true_and, and_true]
    apply Array.ext_getElem?
    intro i
    simp only [Array.getElem?_modify]
    by_cases hi : ref = i
    · cases W.frames[i]? <;> simp [hi, hideVars_assign_of_not hx]
    · simp [hi]

end Veil

namespace Interp

open Exec Veil

variable {n ref : Nat} {outer : List Nat} {W W' : World} {V : Veil}

/-- A row that neither reads nor binds a veiled variable runs alike without them, and leaves them as
they were. -/
theorem bindRow_hide {row : List Binding} (n : Nat) (outer : List Nat)
    (hscope : V.scope = some ref) (hgood : V.Good W)
    (hvars : W.HasVars ref (row.map (·.target)))
    (hrow : ∀ b ∈ row, V.names b.target = false ∧ ∀ y ∈ b.value.reads, V.names y = false) :
    match bindRow (upTo n) (ref :: outer) row W with
    | .ok _ W₁ =>
      bindRow (upTo n) (ref :: outer) row (V.hide W) = .ok () (V.hide W₁) ∧
        (W₁.varsOf ref).map (·.1) = (W.varsOf ref).map (·.1) ∧
        (W₁.varsOf ref).filter (fun p => V.names p.1) =
          (W.varsOf ref).filter fun p => V.names p.1
    | .error e W₁ => bindRow (upTo n) (ref :: outer) row (V.hide W) = .error e (V.hide W₁) := by
  induction row generalizing W with
  | nil => exact ⟨rfl, rfl, rfl⟩
  | cons b row ih =>
    obtain ⟨htarget, hreads⟩ := hrow b List.mem_cons_self
    have hins : V.Insulated .nothing (eval (upTo n) (ref :: outer) b.value) V.Clean :=
      eval_insulated (upTo_insulated V n) b.value fun _ => hreads
    have heval := hins hgood
    unfold bindRow
    cases hrun : eval (upTo n) (ref :: outer) b.value W with
    | error e W₁ =>
      rw [hrun] at heval
      rw [bind_error hrun]
      exact bind_error heval.1
    | ok v W₁ =>
      rw [hrun] at heval
      obtain ⟨hhide, hgood₁, hv, hleads⟩ := heval
      rw [bind_ok hrun, bind_ok (assignName_assigned hscope), bind_ok hhide,
        bind_ok (assignName_assigned hscope), ← hide_assigned_of_not htarget]
      have hvars₁ := hvars.of_leads hleads
      have hih := ih (hgood₁.assigned (x := b.target) hv)
        ((hvars₁.assigned hscope List.mem_cons_self).sub fun x hx => List.mem_cons_of_mem _ hx)
        fun b' hb' => hrow b' (List.mem_cons_of_mem _ hb')
      have hsame : W₁.varsOf ref = W.varsOf ref := hleads.varsOf hvars.bound
      rw [varsOf_assigned hscope hvars₁.bound,
        keys_assign (hvars₁.mem b.target List.mem_cons_self), filter_assign V.names htarget,
        hsame] at hih
      exact hih

/-- Variables that two rows neither read nor bind can be left out to see that they end alike. -/
theorem endsAlike_of_hide {row row' : List Binding} {hidden : String → Bool}
    (hscope : V.scope = some ref) (hgood : V.Good W) (hgood' : V.Good W')
    (hagree : W.Agree ref hidden W') (hhidden : ∀ x, V.names x = true → hidden x = false)
    (hvars : W.HasVars ref (row.map (·.target))) (hvars' : W'.HasVars ref (row'.map (·.target)))
    (hrow : ∀ b ∈ row, V.names b.target = false ∧ ∀ y ∈ b.value.reads, V.names y = false)
    (hrow' : ∀ b ∈ row', V.names b.target = false ∧ ∀ y ∈ b.value.reads, V.names y = false)
    (h : EndsAlike (bindRow (upTo n) (ref :: outer) row (V.hide W))
      (bindRow (upTo n) (ref :: outer) row' (V.hide W'))) :
    EndsAlike (bindRow (upTo n) (ref :: outer) row W)
      (bindRow (upTo n) (ref :: outer) row' W') := by
  have hrun := bindRow_hide n outer hscope hgood hvars hrow
  have hrun' := bindRow_hide n outer hscope hgood' hvars' hrow'
  cases hend : bindRow (upTo n) (ref :: outer) row W with
  | error e W₁ =>
    rw [hend] at hrun
    cases hend' : bindRow (upTo n) (ref :: outer) row' W' with
    | error e' W₁' =>
      rw [hend'] at hrun'
      rw [hrun, hrun'] at h
      exact h
    | ok _ W₁' =>
      rw [hend'] at hrun'
      rw [hrun, hrun'.1] at h
      exact h.elim
  | ok _ W₁ =>
    rw [hend] at hrun
    cases hend' : bindRow (upTo n) (ref :: outer) row' W' with
    | error e' W₁' =>
      rw [hend'] at hrun'
      rw [hrun.1, hrun'] at h
      exact h.elim
    | ok _ W₁' =>
      rw [hend'] at hrun'
      rw [hrun.1, hrun'.1] at h
      obtain ⟨-, hkeys, haside⟩ := hrun
      obtain ⟨-, hkeys', haside'⟩ := hrun'
      refine ⟨rfl, eq_of_whole ref (whole_of_hide_eq hscope h.2) ?_⟩
      have hseen := congrArg (fun W : World => W.varsOf ref) h.2
      simp only [varsOf_hide, if_pos hscope] at hseen
      refine eq_of_filters V.names ?_ ?_ hseen
      · rw [hkeys, hkeys', hagree.vars.keys]
      · rw [haside, haside']
        exact hagree.vars.filter V.names hhidden

end Interp

/-! ### Loops -/

/-- The variables of a loop and what binds them, from its bindings. -/
def LoopTarget.ofParts (parts : List LoopPart) : LoopTarget where
  vars := parts.map (·.init.target)
  inits := parts.flatMap fun p => p.init :: p.row
  rebind := parts.flatMap (·.row)

namespace Lowering

open Exec Interp LoopPart

/-- A binding of a loop, lowered. -/
def loopPart (self : Lowering) (mode : BindMode) : Form × Form → Compile LoopPart
  | (binder, init) => do
    let value ← self.expr init
    match binder with
    | .symbol s =>
      let var ← Compile.bind mode (Name.spell s.name)
      return ⟨⟨var, value, binder.span?⟩, []⟩
    | .vector .. =>
      let var ← Compile.fresh "loop_"
      let bindings ← expand self.expr mode binder (.load var) []
      return ⟨⟨var, value, binder.span?⟩, bindings⟩
    | _ => Compile.fail (.ofForm .loopBinder binder)

/-- The bindings of a loop, each lowered by itself. -/
def loopParts (self : Lowering) (mode : BindMode) (bindings : Form) : Compile (List LoopPart) := do
  (← bindingPairs .loopForm bindings).mapM (loopPart self mode)

/-- A loop grows by one binding after the other. -/
theorem foldlM_ofParts {α : Type} {f : LoopTarget → α → Compile LoopTarget}
    {g : α → Compile LoopPart}
    (h : ∀ parts x, f (.ofParts parts) x = (do return .ofParts (parts ++ [← g x]))) (xs : List α)
    (parts : List LoopPart) :
    xs.foldlM f (.ofParts parts) = (do return .ofParts (parts ++ (← xs.mapM g))) := by
  induction xs generalizing parts with
  | nil => simp
  | cons x xs ih => simp only [List.foldlM_cons, List.mapM_cons, h, ih, bind_assoc, pure_bind,
      List.append_assoc, List.singleton_append]

/-- The target of a loop, taken apart into the variables and their patterns. -/
theorem loopTarget_eq_parts (self : Lowering) (mode : BindMode) (bindings : Form) :
    loopTarget self mode bindings =
      (do return .ofParts (← loopParts self mode bindings)) := by
  unfold loopTarget loopParts
  rw [bind_assoc]
  congr 1
  funext pairs
  refine foldlM_ofParts (g := loopPart self mode) (fun parts pair => ?_) pairs []
  obtain ⟨binder, init⟩ := pair
  unfold loopPart
  simp only [bind_assoc]
  congr 1
  funext value
  cases binder with
  | symbol s => simp [LoopTarget.ofParts]
  | vector items span => simp [LoopTarget.ofParts]
  | _ => rfl

/-- What a jump does once its arguments stand in the temporaries. -/
def jumpBack (target : LoopTarget) (temps : List (String × Stmt)) (form : Form) : List Stmt :=
  (target.vars.zip temps).map (fun p => .assign p.1 (.load p.2.1) form.place?) ++
    Binding.assigns form.span? target.rebind

theorem length_mapM {α β : Type} (f : α → Compile β) :
    (xs : List α) → Compile.Yields (fun ys => ys.length = xs.length) (xs.mapM f)
  | [] => .pure rfl
  | x :: xs => by
    rw [List.mapM_cons]
    exact .after fun y => .bind (length_mapM f xs) fun ys hys => .pure (by simp [hys])

/-- A jump that is lowered is a row of assignments to temporaries, followed by the way back. -/
theorem jump_ok {self : Lowering} {target : LoopTarget} {form : Form} {args : List Form}
    {c c' : Context} {stmts : List Stmt} (h : jump self target form args c = .ok stmts c') :
    ∃ temps, args.mapM (jumpArgument self form.place?) c = .ok temps c' ∧
      temps.length = target.vars.length ∧
      stmts = temps.map (·.2) ++ jumpBack target temps form ++ [.next form.place?] := by
  unfold jump at h
  split at h
  · rename_i hlength
    obtain ⟨temps, c₁, htemps, h⟩ := Compile.bind_ok h
    obtain ⟨rfl, rfl⟩ := Compile.pure_ok h
    refine ⟨temps, htemps, (length_mapM _ _ htemps).trans hlength, ?_⟩
    simp only [jumpBack, List.append_assoc]
  · exact (Compile.not_fail_ok h).elim

end Lowering

namespace LoopPart

open Exec Interp

variable {parts : List LoopPart} {ts : List String}

/-- The names of a loop are kept apart: no pattern reads or binds the variable of a later binding,
no name is read before the entry of the loop binds it, and the names that hold the values are none
of the loop. -/
structure Unmixed (parts : List LoopPart) (ts : List String) : Prop where
  ordered : Ordered parts
  early : Binding.readBeforeBound (Binding.steps [] (entering (parts.zip ts))) = []
  free : ∀ b ∈ entering (parts.zip ts), b.target ∉ ts

instance (parts : List LoopPart) (ts : List String) : Decidable (Unmixed parts ts) :=
  decidable_of_iff (Ordered parts ∧
      (∀ x ∈ (Binding.steps [] (entering (parts.zip ts))).map Prod.fst,
        ¬Binding.ReadEarly x (Binding.steps [] (entering (parts.zip ts)))) ∧
      ∀ b ∈ entering (parts.zip ts), b.target ∉ ts)
    ⟨fun h => ⟨h.1, Binding.readBeforeBound_eq_nil_iff.mpr h.2.1, h.2.2⟩,
      fun h => ⟨h.ordered, Binding.readBeforeBound_eq_nil_iff.mp h.early, h.free⟩⟩

/-- Two worlds in which a loop can be entered: the names of the loop are variables of the innermost
frame, the worlds differ in their values only, and the names `ts` have values. -/
structure Reentry (parts : List LoopPart) (ts : List String) (ref : Nat) (outer : List Nat)
    (W W' : World) : Prop where
  bound : ∀ other ∈ ref :: outer, other < W.frames.size
  vars : W.HasVars ref ((LoopTarget.ofParts parts).inits.map (·.target))
  agree : W.Agree ref ((LoopTarget.ofParts parts).inits.map (·.target)).contains W'
  holds : ∀ t ∈ ts, ∃ v, found? W' (ref :: outer) t = some v

/-- The functions that read a name of the loop in the frame are values of the variables `aside`,
which nothing reads. -/
structure SetsAside (row : List Binding) (ref : Nat) (aside : List String) (W : World) : Prop where
  free : ∀ b ∈ row, b.target ∉ aside ∧ ∀ y ∈ b.value.reads, y ∉ aside
  unread : (⟨some ref, aside.contains⟩ : Veil).Good W
  good : (⟨some ref, (row.map (·.target)).contains⟩ : Veil).Good
    ((⟨some ref, aside.contains⟩ : Veil).hide W)

theorem targets_entering (hlength : parts.length = ts.length) :
    (entering (parts.zip ts)).map (·.target) =
      (LoopTarget.ofParts parts).inits.map (·.target) := by
  induction parts generalizing ts with
  | nil => rfl
  | cons p parts ih =>
    cases ts with
    | nil => cases hlength
    | cons t ts =>
      have hrest := ih (Nat.succ.inj hlength)
      simp only [entering, LoopTarget.ofParts, List.zip_cons_cons, List.flatMap_cons,
        List.map_append, List.map_cons] at hrest ⊢
      rw [hrest]
      rfl

theorem steps_nil (row : List Binding) :
    Binding.steps [] row = row.map fun b => (b.target, b.value.reads) := by
  cases row <;> simp [Binding.steps]

section NoPatterns

variable {arrivals : List (LoopPart × String)} (h : arrivals.flatMap (·.1.row) = [])

include h

theorem onlyLoads_entering : Binding.OnlyLoads (entering arrivals) := by
  intro b hb
  obtain ⟨p, hp, hb⟩ := List.mem_flatMap.mp hb
  rw [List.flatMap_eq_nil_iff.mp h p hp, List.mem_singleton] at hb
  exact ⟨p.2, by rw [hb]; rfl⟩

/-- Without patterns, entering and jumping assign the same row. -/
theorem entering_eq_jumping : entering arrivals = jumping arrivals := by
  rw [jumping, h, List.append_nil, entering, List.map_eq_flatMap]
  refine List.flatMap_congr fun p hp => ?_
  rw [List.flatMap_eq_nil_iff.mp h p hp]

end NoPatterns

theorem rows_zip (hlength : parts.length = ts.length) :
    (parts.zip ts).flatMap (·.1.row) = (LoopTarget.ofParts parts).rebind := by
  rw [← List.flatMap_map, List.map_fst_zip (by omega)]
  rfl

variable {n ref : Nat} {outer : List Nat} {W W' : World}

/-- A jump does what entering the loop with the same values does, where no function reads a name of
the loop. -/
theorem Reentry.endsAlike_of_good (hlength : parts.length = ts.length) (hnames : Unmixed parts ts)
    (h : Reentry parts ts ref outer W W')
    (hcalm : (LoopTarget.ofParts parts).rebind = [] ∨
      (⟨some ref, ((entering (parts.zip ts)).map (·.target)).contains⟩ : Veil).Good W ∧
      (⟨some ref, ((entering (parts.zip ts)).map (·.target)).contains⟩ : Veil).Good W') :
    EndsAlike (bindRow (upTo n) (ref :: outer) (entering (parts.zip ts)) W)
      (bindRow (upTo n) (ref :: outer) (jumping (parts.zip ts)) W') := by
  have htargets := targets_entering hlength
  have hrows := rows_zip hlength
  have hstale : EndsAlike (bindRow (upTo n) (ref :: outer) (entering (parts.zip ts)) W)
      (bindRow (upTo n) (ref :: outer) (entering (parts.zip ts)) W') := by
    refine bindRow_agree h.agree (htargets ▸ h.vars) (fun x hx hread => ?_) (fun x hx => ?_) ?_
    · refine Binding.readBeforeBound_eq_nil_iff.mp hnames.early x ?_ (steps_nil _ ▸ hread)
      rw [steps_nil, List.map_map]
      exact htargets ▸ List.contains_iff_mem.mp hx
    · exact htargets ▸ List.contains_iff_mem.mp hx
    · rw [htargets] at hcalm
      exact hcalm.imp_left fun hnone => onlyLoads_entering (hrows.trans hnone)
  refine hstale.trans ?_
  rcases hcalm with hnone | ⟨-, hgood⟩
  · rw [entering_eq_jumping (hrows.trans hnone)]
    exact .refl _
  · have hpoised : Poised (veil ref (parts.zip ts)) (ref :: outer) ref
        ((entering (parts.zip ts)).map (·.target)) ts
        (fun t => (found? W' (ref :: outer) t).getD .nil) W' := by
      refine ⟨hgood.ofLess rfl fun x hx => ?_, fun other hother => ?_, ?_, fun t ht => ?_⟩
      · obtain ⟨p, hp, rfl⟩ := veil_names.mp hx
        refine List.contains_iff_mem.mpr (List.mem_map.mpr ⟨p.1.copy p.2, ?_, rfl⟩)
        exact List.mem_flatMap.mpr ⟨p, hp, List.mem_cons_self⟩
      · exact h.agree.size ▸ h.bound other hother
      · exact htargets ▸ h.agree.hasVars h.vars
      · obtain ⟨v, hv⟩ := h.holds t ht
        rw [hv]
        rfl
    refine bindRow_entering hpoised ⟨?_, hnames.free, ?_⟩ ?_
    · exact fun b hb => List.mem_map_of_mem hb
    · exact fun p hp => (List.of_mem_zip hp).2
    · rw [List.map_fst_zip (by omega)]
      exact hnames.ordered

theorem mem_entering_of_jumping {arrivals : List (LoopPart × String)} {b : Binding}
    (hb : b ∈ jumping arrivals) : b ∈ entering arrivals := by
  rcases List.mem_append.mp hb with hb | hb
  · obtain ⟨p, hp, rfl⟩ := List.mem_map.mp hb
    exact List.mem_flatMap.mpr ⟨p, hp, List.mem_cons_self⟩
  · obtain ⟨p, hp, hb⟩ := List.mem_flatMap.mp hb
    exact List.mem_flatMap.mpr ⟨p, hp, List.mem_cons_of_mem _ hb⟩

/-- A jump does what entering the loop with the same values does. -/
theorem Reentry.endsAlike (hlength : parts.length = ts.length) (hnames : Unmixed parts ts)
    (h : Reentry parts ts ref outer W W')
    (hcalm : (LoopTarget.ofParts parts).rebind = [] ∨
      ∃ aside, SetsAside (entering (parts.zip ts)) ref aside W ∧
        SetsAside (entering (parts.zip ts)) ref aside W') :
    EndsAlike (bindRow (upTo n) (ref :: outer) (entering (parts.zip ts)) W)
      (bindRow (upTo n) (ref :: outer) (jumping (parts.zip ts)) W') := by
  rcases hcalm with hnone | ⟨aside, hcalm, hcalm'⟩
  · exact h.endsAlike_of_good hlength hnames (.inl hnone)
  · have htargets := targets_entering hlength
    have hfree : ∀ x ∈ (entering (parts.zip ts)).map (·.target), x ∉ aside := by
      intro x hx
      obtain ⟨b, hb, rfl⟩ := List.mem_map.mp hx
      exact (hcalm.free b hb).1
    have hrow : ∀ b ∈ entering (parts.zip ts),
        aside.contains b.target = false ∧ ∀ y ∈ b.value.reads, aside.contains y = false := by
      simpa using hcalm.free
    -- without the names set aside no function reads a name of the loop
    have hentry : Reentry parts ts ref outer
        ((⟨some ref, aside.contains⟩ : Veil).hide W)
        ((⟨some ref, aside.contains⟩ : Veil).hide W') := by
      refine ⟨fun other hother => ?_, ?_, h.agree.hideBoth rfl, fun t ht => ?_⟩
      · simpa using h.bound other hother
      · refine h.vars.hide rfl fun x hx => ?_
        simpa using hfree x (htargets ▸ hx)
      · obtain ⟨v, hv⟩ := h.holds t ht
        have hsnd : (parts.zip ts).map Prod.snd = ts := List.map_snd_zip (by omega)
        rw [← hsnd] at ht
        obtain ⟨p, hp, rfl⟩ := List.mem_map.mp ht
        have hread : (⟨some ref, aside.contains⟩ : Veil).Spares (ref :: outer) [p.2] := fun _ =>
          (hrow (p.1.copy p.2) (List.mem_flatMap.mpr ⟨p, hp, List.mem_cons_self⟩)).2
        exact ⟨v, by rw [found?_eq, Veil.meaning_hide hread, ← found?_eq, hv]⟩
    refine endsAlike_of_hide rfl hcalm.unread hcalm'.unread h.agree (fun x hx => ?_)
      (htargets ▸ h.vars) ?_ hrow (fun b hb => hrow b (mem_entering_of_jumping hb))
      (hentry.endsAlike_of_good hlength hnames (.inr ⟨hcalm.good, hcalm'.good⟩))
    · rw [← htargets, Bool.eq_false_iff, ne_eq, List.contains_iff_mem]
      exact fun hmem => hfree x hmem (List.contains_iff_mem.mp hx)
    · refine (h.agree.hasVars (htargets ▸ h.vars)).sub fun x hx => ?_
      obtain ⟨b, hb, rfl⟩ := List.mem_map.mp hx
      exact List.mem_map_of_mem (mem_entering_of_jumping hb)

end LoopPart

namespace Lowering

open Exec Interp LoopPart

variable {self : Lowering} {mode : BindMode} {bindings form : Form} {args : List Form}
  {c c' c₁ c₂ : Context} {target : LoopTarget} {exit : Option LoopExit} {stmts : List Stmt}

/-- The second half of a jump binds the row of its arrivals. -/
theorem execAll_jumpBack {interp : Interp} {frames : List Nat} {parts : List LoopPart}
    {temps : List (String × Stmt)} (hlength : parts.length = temps.length) :
    interp.execAll frames (jumpBack (.ofParts parts) temps form) = (do
      bindRow interp frames (jumping (parts.zip (temps.map (·.1))))
      return .done) := by
  have hcopies : ((LoopTarget.ofParts parts).vars.zip temps).map
        (fun p => Stmt.assign p.1 (.load p.2.1) form.place?) =
      ((parts.zip (temps.map (·.1))).map fun p => p.1.copy p.2).map
        fun b => .assign b.target b.value form.place? := by
    simp only [LoopTarget.ofParts, List.zip_map_left, List.zip_map_right, List.map_map]
    rfl
  rw [jumpBack, hcopies, execAll_bindRow, execAll_assigns, jumping,
    rows_zip (by simpa using hlength), bindRow_append, bind_assoc]

/-- **A jump is the same as entering the loop afresh.** After the arguments of a self-call stand in
temporaries, the jump binds the names of the loop as its entry does with the same values in place
of the initializers: both end in the same world or fail alike. The names of the loop have to be kept
apart, but the values that they had before the jump do not matter. -/
theorem jump_enters_afresh (hloop : loopTarget self mode bindings c = .ok target c')
    (hjump : jump self { target with exit } form args c₁ = .ok stmts c₂) :
    ∃ parts temps, loopParts self mode bindings c = .ok parts c' ∧ target = .ofParts parts ∧
      args.mapM (jumpArgument self form.place?) c₁ = .ok temps c₂ ∧
      stmts = temps.map (·.2) ++ jumpBack target temps form ++ [.next form.place?] ∧
      (Unmixed parts (temps.map (·.1)) → ∀ (depth ref : Nat) (outer : List Nat) (W W' : World),
        Reentry parts (temps.map (·.1)) ref outer W W' →
        (target.rebind = [] ∨ ∃ aside,
          SetsAside (entering (parts.zip (temps.map (·.1)))) ref aside W ∧
          SetsAside (entering (parts.zip (temps.map (·.1)))) ref aside W') →
        EndsAlike
          (execAll (Interp.upTo depth) (ref :: outer)
            (Binding.assigns form.span? (entering (parts.zip (temps.map (·.1))))) W)
          (execAll (Interp.upTo depth) (ref :: outer) (jumpBack target temps form) W')) := by
  rw [loopTarget_eq_parts] at hloop
  obtain ⟨parts, c₃, hparts, hloop⟩ := Compile.bind_ok hloop
  obtain ⟨rfl, rfl⟩ := Compile.pure_ok hloop
  obtain ⟨temps, htemps, hlength, hstmts⟩ := jump_ok hjump
  have hlength' : parts.length = temps.length := by
    rw [hlength]
    simp [LoopTarget.ofParts]
  refine ⟨parts, temps, hparts, rfl, htemps, hstmts, ?_⟩
  intro hnames depth ref outer W W' hentry hcalm
  rw [execAll_jumpBack hlength']
  rw [execAll_assigns]
  exact (hentry.endsAlike (by simpa using hlength') hnames hcalm).bind _

/-- The bindings of a loop over the items of a row. -/
def rowBindings : Form :=
  .vector [.vector [.named "a", .named "&", .named "r"] .none, .named "xs",
    .named "s", .named "n"] .none

def rowJump : Form := .list [.named "recur", .named "r", .named "a"] .none

/-- A world in the frame of that loop, whose names have the value `old`, if any. The temporaries of
a jump hold a row and a number, and a helper of the body reads `a`. -/
def rowWorld (old : Option Value) : World where
  globals := Native.compiled.map fun p => (p.1, .native p.2)
  frames := #[⟨"loop", [("__ll_loop_1", old), ("__ll_destructure_2", old), ("a", old), ("r", old),
    ("s", old), ("__ll_recur_3", some (.tuple [.ofInt 5, .ofInt 6])),
    ("__ll_recur_4", some (.ofInt 7)),
    ("__ll_do_5", some (.function ⟨"do", "do", [], none, [], [.ret (.load "a") none], [0], 0⟩))]⟩]

theorem rowWorld_reentry {parts : List LoopPart} {ts : List String}
    (htargets : (LoopTarget.ofParts parts).inits.map (·.target) =
      ["__ll_loop_1", "__ll_destructure_2", "a", "r", "s"])
    (hts : ts = ["__ll_recur_3", "__ll_recur_4"]) (old old' : Option Value) :
    Reentry parts ts 0 [] (rowWorld old) (rowWorld old') := by
  subst hts
  refine ⟨by simp [rowWorld], ?_, ?_, ?_⟩
  · rw [htargets]
    exact ⟨by simp [rowWorld], by simp [rowWorld, World.varsOf], by simp [rowWorld, World.varsOf]⟩
  · rw [htargets]
    refine ⟨rfl, ?_⟩
    simp [rowWorld, World.varsOf, VarsAgree]
  · simp [rowWorld, found?, frameValue?, World.varsOf, List.lookup_cons]

theorem rowWorld_setsAside {row : List Binding}
    (hfree : ∀ b ∈ row, b.target ∉ ["__ll_do_5"] ∧ ∀ y ∈ b.value.reads, y ∉ ["__ll_do_5"])
    {old : Option Value} (hold : old = none ∨ old = some .nil) :
    SetsAside row 0 ["__ll_do_5"] (rowWorld old) := by
  have hnone : (default : Frame).vars = [] := rfl
  refine ⟨hfree, ⟨?_, fun ref => ?_, ?_, ?_, ?_⟩, ⟨?_, fun ref => ?_, ?_, ?_, ?_⟩⟩
  · simp [rowWorld, Native.compiled]
  · cases ref with
    | zero =>
      rcases hold with rfl | rfl <;>
        simp [rowWorld, World.varsOf, Veil.Spares, Stmt.readsOfAll, Stmt.reads, Expr.load,
          Expr.reads]
    | succ ref => simp [rowWorld, World.varsOf, hnone]
  · simp [rowWorld, World.listAt]
  · simp [rowWorld, Veil.CleanIter]
  · simp [rowWorld]
  · simp [rowWorld, Native.compiled, Veil.hide]
  · rw [Veil.varsOf_hide]
    cases ref with
    | zero =>
      rcases hold with rfl | rfl <;> simp [rowWorld, World.varsOf, Veil.hideVars]
    | succ ref => simp [rowWorld, World.varsOf, hnone]
  · simp [rowWorld, World.listAt]
  · simp [rowWorld, Veil.CleanIter]
  · simp [rowWorld]

theorem jump_enters_afresh_row :
    ∃ target c' stmts c₂ parts temps W₁,
      loopTarget (upTo 4) .scoped rowBindings { scopes := [[]] } = .ok target c' ∧
      jump (upTo 4) { target with exit := none } rowJump [.named "r", .named "a"] c' =
        .ok stmts c₂ ∧
      target = .ofParts parts ∧
      stmts = temps.map (·.2) ++ jumpBack target temps rowJump ++ [.next none] ∧
      execAll (Interp.upTo 3) [0] (Binding.assigns none (entering (parts.zip (temps.map (·.1)))))
        (rowWorld none) = .ok .done W₁ ∧
      execAll (Interp.upTo 3) [0] (jumpBack target temps rowJump) (rowWorld (some .nil)) =
        .ok .done W₁ ∧
      found? W₁ [0] "a" = some (.ofInt 5) := by
  obtain ⟨target, c', hloop, stmts, c₂, hjump⟩ : ∃ target c',
      loopTarget (upTo 4) .scoped rowBindings { scopes := [[]] } = .ok target c' ∧
      ∃ stmts c₂, jump (upTo 4) { target with exit := none } rowJump [.named "r", .named "a"] c' =
        .ok stmts c₂ := ⟨_, _, rfl, _, _, rfl⟩
  obtain ⟨parts, temps, hparts, rfl, htemps, hstmts, hall⟩ := jump_enters_afresh hloop hjump
  obtain ⟨parts', c₃, hparts', temps', c₄, htemps', hnames, htargets, hts, hfree, W₁, hrun, ha⟩ :
      ∃ parts c₃, loopParts (upTo 4) .scoped rowBindings { scopes := [[]] } = .ok parts c₃ ∧
      ∃ temps c₄, [.named "r", .named "a"].mapM (jumpArgument (upTo 4) rowJump.place?) c₃ =
        .ok temps c₄ ∧
      Unmixed parts (temps.map (·.1)) ∧
      (LoopTarget.ofParts parts).inits.map (·.target) =
        ["__ll_loop_1", "__ll_destructure_2", "a", "r", "s"] ∧
      temps.map (·.1) = ["__ll_recur_3", "__ll_recur_4"] ∧
      (∀ b ∈ entering (parts.zip (temps.map (·.1))),
        b.target ∉ ["__ll_do_5"] ∧ ∀ y ∈ b.value.reads, y ∉ ["__ll_do_5"]) ∧
      ∃ W₁, execAll (Interp.upTo 3) [0]
          (Binding.assigns none (entering (parts.zip (temps.map (·.1))))) (rowWorld none) =
        .ok .done W₁ ∧ found? W₁ [0] "a" = some (.ofInt 5) := by
    refine ⟨_, _, rfl, _, _, rfl, by decide +kernel, by decide +kernel, by decide +kernel,
      by decide +kernel, ?_⟩
    exact ⟨_, rfl, rfl⟩
  rw [hparts] at hparts'
  injection hparts' with hparts' hc
  subst hparts' hc
  rw [htemps] at htemps'
  injection htemps' with htemps' hc
  subst htemps'
  have hend := hall hnames 3 0 [] (rowWorld none) (rowWorld (some .nil))
    (rowWorld_reentry htargets hts _ _)
    (.inr ⟨["__ll_do_5"], rowWorld_setsAside hfree (.inl rfl), rowWorld_setsAside hfree (.inr rfl)⟩)
  cases hrun' : execAll (Interp.upTo 3) [0] (jumpBack (.ofParts parts) temps rowJump)
      (rowWorld (some .nil)) with
  | error e W₁' =>
    rw [show rowJump.span? = none from rfl, hrun, hrun'] at hend
    exact hend.elim
  | ok signal W₁' =>
    rw [show rowJump.span? = none from rfl, hrun, hrun'] at hend
    obtain ⟨rfl, rfl⟩ := hend
    exact ⟨_, c', stmts, c₂, parts, temps, W₁, hloop, hjump, rfl, hstmts, hrun, hrun', ha⟩

end Lowering

end TailLisp
