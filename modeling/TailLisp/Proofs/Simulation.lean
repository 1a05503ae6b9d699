import TailLisp.Proofs.Balance
import TailLisp.Proofs.InsulatedCalls
import TailLisp.Proofs.Reading

/-!
# TailLisp.Proofs.Simulation

**Target code against the reading of forms.** Target code keeps in variables what the reading keeps
in an environment. The variables are veiled, so a run of target code in a world is compared with a
run of the reading in the world without them (`Veil.Sim`): both fail alike, or both succeed and
lead to worlds that again differ in the veiled variables only.

The values of the veiled variables at the beginning are a parameter of `Sim` and their values at
the end are one of its postcondition. This is how the rules below say what an assignment does and
that nothing else touches the veiled variables. `Veil.Related` connects an environment to these
values through the scopes of a compilation context.
-/

namespace TailLisp

/-! ### Names in a world -/

/-- The functions of the library that compiled code calls, by the names it calls them by. -/
def Native.compiled : List (String × Native) :=
  [("seq", .library .seq), ("nth", .library .nth), ("subseq", .library .subseq),
   ("lookup", .library .lookup), ("Keyword", .type .keyword)]

namespace Interp

variable {W W' : World} {frames : List Nat} {x : String} {v : Value}

/-- The value of a name, if it has one. -/
def found? (W : World) (frames : List Nat) (x : String) : Option Value :=
  if x = "__debug__" then some (.ofBool true)
  else
    match frameValue? W x frames with
    | some value => value
    | none =>
      match W.globals.lookup x with
      | some v => some v
      | none => (Native.builtins.lookup x).map .native

theorem found?_eq (W : World) (frames : List Nat) (x : String) :
    found? W frames x = (meaning frames x W).toOption := by
  unfold found? meaning
  split
  · rfl
  · cases frameValue? W x frames with
    | some value => cases value <;> rfl
    | none =>
      dsimp only
      cases W.globals.lookup x with
      | some v => rfl
      | none => cases Native.builtins.lookup x <;> rfl

theorem valueOf_ok_iff : valueOf frames x W = .ok v W' ↔ W' = W ∧ found? W frames x = some v := by
  rw [valueOf_eq, found?_eq]
  cases meaning frames x W with
  | error e => exact ⟨nofun, nofun⟩
  | ok u =>
    rw [show (Exec.lift (.ok u) : Exec Value) W = .ok u W from rfl]
    simp [Except.toOption, eq_comm, and_comm]

/-- Names mean what they did as long as no variables change. -/
theorem frameValue?_of_leads (h : W.Leads .nothing W')
    (hbound : ∀ ref ∈ frames, ref < W.frames.size) (x : String) :
    frameValue? W' x frames = frameValue? W x frames := by
  induction frames with
  | nil => rfl
  | cons ref frames ih =>
    rw [List.forall_mem_cons] at hbound
    simp only [frameValue?, h.varsOf hbound.1, ih hbound.2]

/-- Where no variable is assigned, names mean what they did. -/
theorem found?_of_leads (h : W.Leads .nothing W')
    (hbound : ∀ ref ∈ frames, ref < W.frames.size) (x : String) :
    found? W' frames x = found? W frames x := by
  simp only [found?, frameValue?_of_leads h hbound, h.globals x fun _ hx => hx]

/-- Frames without variables do not matter to names. -/
theorem found?_append {calls : List Nat} (h : ∀ ref ∈ calls, W.varsOf ref = []) :
    found? W (calls ++ frames) x = found? W frames x := by
  have hframe : frameValue? W x (calls ++ frames) = frameValue? W x frames := by
    induction calls with
    | nil => rfl
    | cons ref calls ih =>
      rw [List.forall_mem_cons] at h
      simp only [List.cons_append, frameValue?, h.1, List.lookup_nil, ih h.2]
  simp only [found?, hframe]

end Interp

/-! ### Assignments to veiled variables -/

section Assign

variable {α : Type} {x : String} {v : α}

theorem filter_assign (keep : String → Bool) (h : keep x = false) (vars : List (String × α)) :
    (assign x v vars).filter (fun p => keep p.1) = vars.filter fun p => keep p.1 := by
  induction vars with
  | nil => simp [assign, h]
  | cons p vars ih =>
    obtain ⟨z, u⟩ := p
    unfold assign
    by_cases hzx : z = x
    · subst hzx
      simp [h]
    · rw [if_neg hzx]
      by_cases hz : keep z = true <;> simp [hz, ih]

end Assign

namespace Veil

/-- The values of the veiled variables. -/
abbrev Store := String → Option Value

/-- The values after an assignment. -/
def Store.set (σ : Store) (x : String) (v : Value) : Store := fun y => if y = x then some v else σ y

variable {V : Veil} {W : World}

theorem hideVars_assign {α : Type} {x : String} {v : α} (hx : V.names x = true)
    (vars : List (String × α)) : V.hideVars (assign x v vars) = V.hideVars vars :=
  filter_assign (fun y => !V.names y) (by simp [hx]) vars

variable (V) in
/-- The world after an assignment in the scope of the veil. -/
def assigned (x : String) (v : Value) (W : World) : World :=
  match V.scope with
  | none => { W with globals := assign x v W.globals }
  | some ref =>
    { W with frames := W.frames.modify ref fun frame =>
      { frame with vars := assign x (some v) frame.vars } }

section Assigned

variable {x : String} {v : Value} {frames : List Nat}

theorem assignName_eq (hscope : frames.head? = V.scope) :
    Interp.assignName frames x v W = .ok () (V.assigned x v W) := by
  unfold assigned
  rw [← hscope]
  cases frames with
  | nil => rfl
  | cons ref frames => rfl

/-- An assignment to a veiled variable is not seen without them. -/
theorem hide_assigned (hx : V.names x = true) : V.hide (V.assigned x v W) = V.hide W := by
  unfold hide assigned
  cases hscope : V.scope with
  | none => simp [hideVars_assign hx]
  | some ref =>
    simp only [World.mk.injEq, true_and, and_true]
    apply Array.ext_getElem?
    intro i
    simp only [Array.getElem?_modify]
    by_cases hi : ref = i
    · cases W.frames[i]? <;> simp [hi, hideVars_assign hx]
    · simp [hi]

theorem Good.assigned (h : V.Good W) (hv : V.Clean v) : V.Good (V.assigned x v W) := by
  unfold Veil.assigned
  cases hscope : V.scope with
  | none => exact h.assignGlobal x hv
  | some ref => exact h.assignVar ref x hv

/-- An assignment to a veiled variable changes that one. -/
theorem hidden_assigned (h : V.Good W) (hx : V.names x = true) :
    V.hidden (V.assigned x v W) = Store.set (V.hidden W) x v := by
  funext y
  unfold hidden Veil.assigned Store.set
  cases hscope : V.scope with
  | none =>
    by_cases hyx : y = x
    · simp [hyx, hx, lookup_assign]
    · simp [hyx, lookup_assign]
  | some ref =>
    have hlt : ref < W.frames.size := h.scope ref hscope
    by_cases hyx : y = x
    · simp [hyx, hx, varsOf_assignVar, hlt, lookup_assign]
    · simp [hyx, varsOf_assignVar, hlt, lookup_assign]

/-- An assignment to one name does not change what another one means. -/
theorem found?_assigned {y : String} (hyx : y ≠ x) :
    Interp.found? (V.assigned x v W) frames y = Interp.found? W frames y := by
  unfold Veil.assigned
  cases hscope : V.scope with
  | none =>
    have hframe : Interp.frameValue? { W with globals := assign x v W.globals } y frames =
        Interp.frameValue? W y frames := by
      induction frames with
      | nil => rfl
      | cons ref frames ih =>
        simp only [Interp.frameValue?, ih]
        rfl
    simp only [Interp.found?, hframe, lookup_assign, if_neg hyx]
  | some ref =>
    have hframe : Interp.frameValue? { W with frames := W.frames.modify ref fun frame =>
          { frame with vars := assign x (some v) frame.vars } } y frames =
        Interp.frameValue? W y frames := by
      induction frames with
      | nil => rfl
      | cons other frames ih =>
        have hvar : (World.varsOf { W with frames := W.frames.modify ref fun frame =>
            { frame with vars := assign x (some v) frame.vars } } other).lookup y =
            (W.varsOf other).lookup y := by
          rw [varsOf_assignVar]
          split
          · rw [lookup_assign, if_neg hyx]
          · rfl
        simp only [Interp.frameValue?, hvar, ih]
    simp only [Interp.found?, hframe]

end Assigned

/-! ### Worlds that code can run in -/

variable (V) in
/-- Code that runs in the frames finds the veiled variables and the library. Frames of calls that
have no variables may lie before the scope of the veil. -/
structure Ready (frames : List Nat) (W : World) : Prop where
  good : V.Good W
  bound : ∀ ref ∈ frames, ref < W.frames.size
  scope : ∃ calls own, frames = calls ++ own ∧ own.head? = V.scope ∧
    ∀ ref ∈ calls, W.varsOf ref = []
  library : ∀ p ∈ Native.compiled,
    V.names p.1 = false ∧ Interp.found? W frames p.1 = some (.native p.2)
  debug : V.names "__debug__" = false

namespace Ready

variable {frames : List Nat} {W' : World}

theorem of_leads (h : V.Ready frames W) (hgood : V.Good W') (hleads : W.Leads .nothing W') :
    V.Ready frames W' := by
  obtain ⟨calls, own, hframes, hown, hcalls⟩ := h.scope
  refine ⟨hgood, fun ref href => Nat.lt_of_lt_of_le (h.bound ref href) hleads.within.frames,
    ⟨calls, own, hframes, hown, fun ref href => ?_⟩, fun p hp => ?_, h.debug⟩
  · have hlt : ref < W.frames.size := h.bound ref (by simp [hframes, href])
    rw [hleads.varsOf hlt, hcalls ref href]
  · rw [Interp.found?_of_leads hleads h.bound]
    exact h.library p hp

/-- After an assignment to a veiled variable, code can run as before. -/
theorem assigned (h : V.Ready frames W) (hscope : frames.head? = V.scope) {x : String} {v : Value}
    (hx : V.names x = true) (hv : V.Clean v) : V.Ready frames (V.assigned x v W) := by
  refine ⟨h.good.assigned hv, fun ref href => ?_, ⟨[], frames, rfl, hscope, by simp⟩,
    fun p hp => ?_, h.debug⟩
  · have hlt := h.bound ref href
    unfold Veil.assigned
    split
    · exact hlt
    · simpa using hlt
  · obtain ⟨hname, hfound⟩ := h.library p hp
    have hne : p.1 ≠ x := by
      rintro heq
      rw [heq, hx] at hname
      cases hname
    exact ⟨hname, by rw [found?_assigned hne, hfound]⟩

/-- A veiled variable that has a value is found. -/
theorem read (h : V.Ready frames W) {x : String} {v : Value} (hv : V.hidden W x = some v) :
    Interp.found? W frames x = some v := by
  obtain ⟨calls, own, rfl, hown, hcalls⟩ := h.scope
  rw [Interp.found?_append hcalls]
  unfold hidden at hv
  split at hv
  · rename_i hname
    have hx : x ≠ "__debug__" := by
      rintro rfl
      rw [h.debug] at hname
      cases hname
    rw [← hown] at hv
    cases own with
    | nil =>
      have hglobal : W.globals.lookup x = some v := hv
      simp [Interp.found?, Interp.frameValue?, hx, hglobal]
    | cons ref own =>
      have hvar : (W.varsOf ref).lookup x = some (some v) := Option.join_eq_some_iff.mp hv
      simp [Interp.found?, Interp.frameValue?, hx, hvar]
  · cases hv

end Ready

/-- What veiled variables hold does not read veiled variables itself. -/
theorem Good.hidden_clean (h : V.Good W) {x : String} {v : Value} (hv : V.hidden W x = some v) :
    V.Clean v := by
  unfold hidden at hv
  split at hv
  · split at hv
    · exact h.globals _ (mem_of_lookup hv)
    · exact h.vars _ _ (mem_of_lookup (Option.join_eq_some_iff.mp hv)) v rfl
  · cases hv

/-! ### Simulation -/

variable {α β γ δ : Type}

variable (V) in
/-- The computation `m` runs in a world with the values `σ` of the veiled variables as `m'` does in
the world without these variables. If they succeed, `Q` holds of the values of the veiled
variables afterwards and of what the two return. -/
def Sim (frames : List Nat) (σ : Store) (m : Exec α) (m' : Exec β)
    (Q : Store → α → β → Prop) : Prop :=
  ∀ ⦃W : World⦄, V.Ready frames W → V.hidden W = σ →
    match m W with
    | .ok a W' => ∃ b, m' (V.hide W) = .ok b (V.hide W') ∧ V.Ready frames W' ∧ Q (V.hidden W') a b
    | .error e W' => m' (V.hide W) = .error e (V.hide W')

/-- Both sides return the same value, which has the property `C`, and the veiled variables keep
their values. -/
def Alike (σ : Store) (C : α → Prop) : Store → α → α → Prop := fun τ a b => τ = σ ∧ a = b ∧ C a

namespace Sim

variable {frames : List Nat} {σ : Store} {m : Exec α} {m' : Exec β} {Q R : Store → α → β → Prop}

protected theorem pure {a : α} {b : β} (h : Q σ a b) : V.Sim frames σ (pure a) (pure b) Q :=
  fun _ hready hσ => ⟨b, rfl, hready, hσ ▸ h⟩

theorem fail {e : Failure} : V.Sim frames σ (Exec.fail e) (Exec.fail e) Q := fun _ _ _ => rfl

protected theorem bind {S : Store → γ → δ → Prop} {f : α → Exec γ} {f' : β → Exec δ}
    (h : V.Sim frames σ m m' Q) (hf : ∀ τ a b, Q τ a b → V.Sim frames τ (f a) (f' b) S) :
    V.Sim frames σ (m >>= f) (m' >>= f') S := by
  intro W hready hσ
  have hm := h hready hσ
  cases hrun : m W with
  | error e W' =>
    rw [hrun] at hm
    rw [Exec.bind_error hrun, Exec.bind_error hm]
  | ok a W' =>
    rw [hrun] at hm
    obtain ⟨b, hhide, hready', hQ⟩ := hm
    rw [Exec.bind_ok hrun, Exec.bind_ok hhide]
    exact hf _ a b hQ hready' rfl

theorem imp (h : V.Sim frames σ m m' Q) (hQ : ∀ τ a b, Q τ a b → R τ a b) :
    V.Sim frames σ m m' R := by
  intro W hready hσ
  have hm := h hready hσ
  cases hrun : m W with
  | error e W' => rwa [hrun] at hm
  | ok a W' =>
    rw [hrun] at hm
    obtain ⟨b, hhide, hready', hb⟩ := hm
    exact ⟨b, hhide, hready', hQ _ a b hb⟩

/-- What does not see the veiled variables runs alike. -/
theorem ofInsulated {m : Exec α} {C : α → Prop} (h : V.Insulated .nothing m C) :
    V.Sim frames σ m m (Alike σ C) := by
  intro W hready hσ
  have hm := h hready.good
  cases hrun : m W with
  | error e W' =>
    rw [hrun] at hm
    exact hm.1
  | ok a W' =>
    rw [hrun] at hm
    obtain ⟨hhide, hgood, hC, hleads⟩ := hm
    refine ⟨a, hhide, hready.of_leads hgood hleads, ?_, rfl, hC⟩
    rw [hidden_of_leads hready.good hleads, hσ]

/-- After computations that return the same value and leave the veiled variables alone. -/
theorem alike {m m' : Exec α} {C : α → Prop} {S : Store → γ → δ → Prop} {f : α → Exec γ}
    {f' : α → Exec δ} (h : V.Sim frames σ m m' (Alike σ C))
    (hf : ∀ a, C a → V.Sim frames σ (f a) (f' a) S) :
    V.Sim frames σ (m >>= f) (m' >>= f') S := by
  refine h.bind ?_
  rintro τ a b ⟨rfl, rfl, ha⟩
  exact hf a ha

/-- Reading a veiled variable. -/
theorem read {x : String} {v : Value} (hv : σ x = some v) :
    V.Sim frames σ (Interp.valueOf frames x) (pure v) (Alike σ V.Clean) := by
  intro W hready hσ
  have hv' : V.hidden W x = some v := by rw [hσ, hv]
  have hrun : Interp.valueOf frames x W = .ok v W :=
    Interp.valueOf_ok_iff.mpr ⟨rfl, hready.read hv'⟩
  rw [hrun]
  exact ⟨v, rfl, hready, hσ, rfl, hready.good.hidden_clean hv'⟩

/-- Reading the name of a library function. -/
theorem library {x : String} {fn : Native} (hx : (x, fn) ∈ Native.compiled) :
    V.Sim frames σ (Interp.valueOf frames x) (pure (Value.native fn))
      (Alike σ (· = .native fn)) := by
  intro W hready hσ
  have hrun : Interp.valueOf frames x W = .ok (.native fn) W :=
    Interp.valueOf_ok_iff.mpr ⟨rfl, (hready.library _ hx).2⟩
  rw [hrun]
  exact ⟨_, rfl, hready, hσ, rfl, rfl⟩

/-- Assigning a veiled variable. -/
theorem assign (hscope : frames.head? = V.scope) {x : String} {v : Value} {b : β}
    (hx : V.names x = true) (hv : V.Clean v) :
    V.Sim frames σ (Interp.assignName frames x v) (pure b)
      fun τ _ b' => τ = σ.set x v ∧ b' = b := by
  intro W hready hσ
  rw [assignName_eq hscope]
  refine ⟨b, ?_, hready.assigned hscope hx hv, ?_, rfl⟩
  · rw [hide_assigned hx]
    rfl
  · rw [hidden_assigned hready.good hx, hσ]

end Sim

end Veil

/-! ### Names of the source -/

/-- Can the name not be taken for a temporary that begins with `p`? -/
def clears (p x : String) : Bool := !p.toList.isPrefixOf x.toList

theorem tempNumber?_of_clears {p x : String} (h : clears p x = true) : tempNumber? p x = none :=
  tempNumber?_eq_none (by simpa [clears] using h)

mutual

/-- Does `S` hold of every name in the form? -/
def Form.onlyNames (S : String → Bool) : Form → Bool
  | .const _ => true
  | .symbol s => (Name.spell s.name :: (Name.parts s.name).map Name.spell).all S
  | .keyword _ => true
  | .list items _ => onlyNamesAll S items
  | .vector items _ => onlyNamesAll S items
  | .map entries _ => onlyNamesEntries S entries

/-- Does `S` hold of every name in the forms? -/
def Form.onlyNamesAll (S : String → Bool) : List Form → Bool
  | [] => true
  | form :: forms => onlyNames S form && onlyNamesAll S forms

/-- Does `S` hold of every name in the keys and values? -/
def Form.onlyNamesEntries (S : String → Bool) : List (Form × Form) → Bool
  | [] => true
  | (key, value) :: entries =>
    onlyNames S key && onlyNames S value && onlyNamesEntries S entries

end

namespace Context

/-- Is the name a temporary that is still to be made? -/
def Future (c : Context) (x : String) : Prop :=
  ∃ k, tempNumber? c.tempPrefix x = some k ∧ c.counter < k

/-- The variables other than the temporaries that are still to be made keep their values. -/
def Keeps (c : Context) (σ τ : Veil.Store) : Prop := ∀ x, ¬c.Future x → τ x = σ x

/-- Is the name a temporary that is made from one context to the other? -/
def Makes (c c' : Context) (x : String) : Prop := c.Future x ∧ ¬c'.Future x

/-- The variables other than the temporaries that are made from one context to the other keep their
values. -/
def Fills (c c' : Context) (σ τ : Veil.Store) : Prop := ∀ x, ¬c.Makes c' x → τ x = σ x

/-- A later context in which no more helpers wait. -/
structure Later (c c' : Context) : Prop where
  tempPrefix : c'.tempPrefix = c.tempPrefix
  counter : c.counter ≤ c'.counter
  helpers : c'.helpers = c.helpers

variable {c c' c'' : Context} {σ τ υ : Veil.Store} {x y t : String}

theorem Later.refl (c : Context) : c.Later c := ⟨rfl, Nat.le_refl _, rfl⟩

theorem Later.trans (h : c.Later c') (h' : c'.Later c'') : c.Later c'' :=
  ⟨h'.tempPrefix.trans h.tempPrefix, Nat.le_trans h.counter h'.counter,
    h'.helpers.trans h.helpers⟩

/-- What is still to be made later is still to be made now. -/
theorem Later.future (h : c.Later c') (hx : c'.Future x) : c.Future x := by
  obtain ⟨k, hk, hlt⟩ := hx
  rw [h.tempPrefix] at hk
  exact ⟨k, hk, Nat.lt_of_le_of_lt h.counter hlt⟩

theorem Keeps.refl (c : Context) (σ : Veil.Store) : c.Keeps σ σ := fun _ _ => rfl

theorem Keeps.trans (h : c.Keeps σ τ) (hlater : c.Later c') (h' : c'.Keeps τ υ) :
    c.Keeps σ υ := fun x hx => by
  rw [h' x fun hx' => hx (hlater.future hx'), h x hx]

theorem Fills.refl (c c' : Context) (σ : Veil.Store) : c.Fills c' σ σ := fun _ _ => rfl

theorem Fills.keeps (h : c.Fills c' σ τ) : c.Keeps σ τ := fun x hx => h x fun hx' => hx hx'.1

theorem Makes.mono {c₁ c₂ : Context} (hx : c₁.Makes c₂ x) (hbefore : c.Later c₁)
    (hafter : c₂.Later c') : c.Makes c' x :=
  ⟨hbefore.future hx.1, fun hfuture => hx.2 (hafter.future hfuture)⟩

theorem Fills.trans (h : c.Fills c' σ τ) (h' : c'.Fills c'' τ υ) (hlater : c.Later c')
    (hlater' : c'.Later c'') : c.Fills c'' σ υ := by
  intro x hx
  have hfirst : ¬c.Makes c' x := fun hx' => hx (hx'.mono (.refl c) hlater')
  have hsecond : ¬c'.Makes c'' x := fun hx' => hx (hx'.mono hlater (.refl c''))
  rw [h' x hsecond, h x hfirst]

theorem Fills.mono {c₁ c₂ : Context} (h : c₁.Fills c₂ σ τ) (hbefore : c.Later c₁)
    (hafter : c₂.Later c') : c.Fills c' σ τ :=
  fun x hx => h x fun hx' => hx (hx'.mono hbefore hafter)

theorem Fills.set (hx : c.Makes c' x) (v : Value) : c.Fills c' σ (σ.set x v) := by
  intro y hy
  have hne : y ≠ x := fun heq => hy (heq ▸ hx)
  simp [Veil.Store.set, hne]

/-! ### Making and declaring names -/

theorem future_fresh (c : Context) (stem : String) : c.Future (c.fresh (stem ++ "_")).1 :=
  ⟨c.counter + 1, tempNumber?_temp _ _ _, Nat.lt_succ_self _⟩

/-- A temporary that has been made is not still to be made. -/
theorem not_future_fresh (c : Context) (stem : String) :
    ¬(c.fresh (stem ++ "_")).2.Future (c.fresh (stem ++ "_")).1 := by
  rintro ⟨k, hk, hlt⟩
  have hnumber : tempNumber? c.tempPrefix (c.fresh (stem ++ "_")).1 = some (c.counter + 1) :=
    tempNumber?_temp _ _ _
  have heq : c.counter + 1 = k := Option.some.inj (hnumber.symm.trans hk)
  exact Nat.lt_irrefl _ (heq ▸ hlt)

theorem makes_fresh (c : Context) (stem : String) :
    c.Makes (c.fresh (stem ++ "_")).2 (c.fresh (stem ++ "_")).1 :=
  ⟨c.future_fresh stem, c.not_future_fresh stem⟩

theorem later_fresh (c : Context) (stem : String) : c.Later (c.fresh stem).2 :=
  ⟨rfl, Nat.le_succ _, rfl⟩

theorem lookup_insert (scope : Scope) :
    (scope.insert x t).lookup y = if y = x then some t else scope.lookup y := by
  have heq : scope.insert x t = assign x t scope := by
    induction scope with
    | nil => rfl
    | cons p scope ih =>
      obtain ⟨z, u⟩ := p
      simp only [Scope.insert, assign, ih]
  rw [heq, lookup_assign]

/-- A name that is declared in the innermost scope hides the others of that name. -/
theorem resolve_declare (h : c.scopes ≠ []) :
    (c.declare x t).resolve y = if y = x then t else c.resolve y := by
  cases hscopes : c.scopes with
  | nil => exact absurd hscopes h
  | cons scope outer =>
    by_cases hyx : y = x
    · simp [declare, resolve, hscopes, lookup_insert, hyx]
    · simp [declare, resolve, hscopes, List.findSome?_cons, lookup_insert, hyx]

theorem later_declare (c : Context) (x t : String) : c.Later (c.declare x t) := by
  unfold declare
  split
  · exact .refl c
  · exact ⟨rfl, Nat.le_refl _, rfl⟩

theorem declare_scopes_ne_nil (h : c.scopes ≠ []) : (c.declare x t).scopes ≠ [] := by
  unfold declare
  split <;> simp_all

end Context

namespace Veil

variable {V : Veil} {c c' : Context} {ρ : Env} {σ τ : Store}

/-- A name of target code has the given meaning: a value is that of a veiled variable which was
made before; another variable is not veiled if the name is used. -/
def Means (V : Veil) (c : Context) (σ : Store) (t : String) (used : Bool) : Meaning → Prop
  | .value v => σ t = some v ∧ ¬c.Future t
  | .outer x => t = x ∧ (used = true → V.names x = false)

/-- The names of the source mean in target code what they mean in the environment. The names that
code may use are those of which `S` holds. -/
def Related (V : Veil) (S : String → Bool) (c : Context) (ρ : Env) (σ : Store) : Prop :=
  ∀ x, V.Means c σ (c.resolve x) (S x) (ρ x)

variable {S : String → Bool}

/-- What a name means does not change while it keeps its value. -/
theorem Means.mono {t : String} {used : Bool} {a : Meaning} (h : V.Means c σ t used a)
    (hlater : c.Later c') (hkeeps : c.Keeps σ τ) : V.Means c' τ t used a := by
  cases a with
  | value v => exact ⟨by rw [hkeeps t h.2, h.1], fun hfuture => h.2 (hlater.future hfuture)⟩
  | outer x => exact h

/-- Later code that declares no names sees the same meanings. -/
theorem Related.mono (h : V.Related S c ρ σ) (hlater : c.Later c')
    (hscopes : c'.scopes = c.scopes) (hkeeps : c.Keeps σ τ) : V.Related S c' ρ τ := by
  intro x
  have hresolve : c'.resolve x = c.resolve x := by simp [Context.resolve, hscopes]
  rw [hresolve]
  exact (h x).mono hlater hkeeps

/-- A name that is declared to mean a veiled variable stands for its value. -/
theorem Related.declare (h : V.Related S c ρ σ) (hscopes : c.scopes ≠ []) {x t : String}
    {v : Value} (hv : σ t = some v) (ht : ¬c.Future t) :
    V.Related S (c.declare x t) (ρ.bind x v) σ := by
  intro y
  rw [Context.resolve_declare hscopes]
  unfold Env.bind
  split
  · exact ⟨hv, fun hfuture => ht ((c.later_declare x t).future hfuture)⟩
  · exact (h y).mono (c.later_declare x t) (.refl c σ)

end Veil

end TailLisp
