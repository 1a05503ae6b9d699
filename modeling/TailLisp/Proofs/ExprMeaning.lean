import Mathlib.Data.List.Forall2
import TailLisp.Proofs.Balance
import TailLisp.Proofs.Simulation

/-!
# TailLisp.Proofs.ExprMeaning

**Plain forms as expressions.** A form that needs no helper function is lowered to one expression,
without any change of the context, and the value of the expression is the value of the form
(`Lowering.upTo_expr`). The first half of the module goes through the expressions of the target
language, the second through the forms.
-/

namespace TailLisp

open Veil Interp

namespace Veil

variable {V : Veil} {self : Interp} {frames : List Nat} {σ : Store}

variable (V) in
/-- The expression has the value that the computation gives. -/
def Reads (self : Interp) (frames : List Nat) (σ : Store) (e : Expr) (m : Exec Value) : Prop :=
  V.Sim frames σ (self.eval frames e) m (Alike σ V.Clean)

/-! ### Expressions -/

namespace Reads

variable {e : Expr} {m : Exec Value} (place : Option Span)

theorem const (c : Constant) : V.Reads self frames σ (.const c place) (pure (.const c)) :=
  .pure ⟨rfl, rfl, clean_const c⟩

/-- A name that is not veiled. -/
theorem name {x : String} (hx : V.names x = false) :
    V.Reads self frames σ (.name x place) (valueOf frames x) :=
  .ofInsulated (valueOf_insulated fun _ y hy => by rwa [List.mem_singleton.mp hy])

/-- A veiled variable. -/
theorem veiled {x : String} {v : Value} (hv : σ x = some v) :
    V.Reads self frames σ (.name x place) (pure v) := Sim.read hv

theorem placed (h : V.Reads self frames σ e m) : V.Reads self frames σ (e.placed place) m := by
  have heval : self.eval frames (e.placed place) = self.eval frames e := by
    cases place with
    | none => rfl
    | some span => cases e <;> rfl
  unfold Reads
  rw [heval]
  exact h

theorem field (h : V.Reads self frames σ e m) (member : String) :
    V.Reads self frames σ (.field e member place) (do fieldOf (← m) member) :=
  h.alike fun _ hv => .ofInsulated (fieldOf_insulated hv member)

/-- The fields of a value, one of the other. -/
theorem fields (fields : List String) (h : V.Reads self frames σ e m) :
    V.Reads self frames σ (fields.foldl (fun e field => .field e (Name.spell field) place) e)
      (do fields.foldlM (fun v field => fieldOf v (Name.spell field)) (← m)) := by
  induction fields generalizing e m with
  | nil => simpa using h
  | cons field fields ih =>
    have hfield := ih (h.field place (Name.spell field))
    simpa [List.foldlM_cons] using hfield

theorem unary (h : V.Reads self frames σ e m) (op : UnaryOp) :
    V.Reads self frames σ (.unary op e place) (do Interp.unary op (← m)) :=
  h.alike fun v _ => .ofInsulated (unary_insulated op v)

theorem binary {e' : Expr} {m' : Exec Value} (h : V.Reads self frames σ e m)
    (h' : V.Reads self frames σ e' m') (op : BinaryOp) :
    V.Reads self frames σ (.binary op e e' place) (do Interp.binary op (← m) (← m')) :=
  h.alike fun _ ha => h'.alike fun _ hb => .ofInsulated (binary_insulated op ha hb)

theorem conditional {yes no : Expr} {m₁ m₂ : Exec Value} (h : V.Reads self frames σ e m)
    (hyes : V.Reads self frames σ yes m₁) (hno : V.Reads self frames σ no m₂) :
    V.Reads self frames σ (.conditional e yes no place) (Reading.choose m m₁ m₂) := by
  refine h.alike fun v _ => (Sim.ofInsulated (truth_insulated v)).alike fun holds _ => ?_
  split
  · exact hyes
  · exact hno

end Reads

section Rows

variable {es : List Expr} {ms : List (Exec Value)} (place : Option Span)

theorem evalAll_reads (h : List.Forall₂ (V.Reads self frames σ) es ms) :
    V.Sim frames σ (evalAll self frames es) (Reading.inOrder ms)
      (Alike σ fun vs => ∀ v ∈ vs, V.Clean v) := by
  induction h with
  | nil => exact .pure ⟨rfl, rfl, by simp⟩
  | cons h _ ih =>
    refine Sim.alike h fun v hv => ih.alike fun vs hvs => ?_
    exact .pure ⟨rfl, rfl, List.forall_mem_cons.mpr ⟨hv, hvs⟩⟩

theorem Reads.list (h : List.Forall₂ (V.Reads self frames σ) es ms) :
    V.Reads self frames σ (.list es place) (do Exec.newList (← Reading.inOrder ms)) :=
  (evalAll_reads h).alike fun _ hvs => .ofInsulated (newList_insulated hvs)

/-- A call runs the function on values that spare the veiled variables, and so its result does. -/
theorem Reads.call {e : Expr} {m : Exec Value} (hself : self.Insulated V)
    (h : V.Reads self frames σ e m) (hargs : List.Forall₂ (V.Reads self frames σ) es ms) :
    V.Reads self frames σ (.call e es place) (Reading.call self m ms) :=
  h.alike fun fn hfn => (evalAll_reads hargs).alike fun vs hvs =>
    .ofInsulated (hself.call fn vs hfn hvs)

/-- A library function by its name. -/
theorem Reads.library {x : String} {fn : Native} (hx : (x, fn) ∈ Native.compiled) :
    V.Reads self frames σ (.load x) (pure (.native fn)) := by
  refine (Sim.library hx).imp ?_
  rintro τ a b ⟨rfl, rfl, rfl⟩
  exact ⟨rfl, rfl, clean_native fn⟩

theorem Reads.logical {op : LogicalOp} (hne : ms ≠ [])
    (h : List.Forall₂ (V.Reads self frames σ) es ms) :
    V.Reads self frames σ (.logical op es place) (Reading.logical op ms) := by
  induction h with
  | nil => exact absurd rfl hne
  | @cons e m es ms h hrest ih =>
    cases hrest with
    | nil => exact h
    | cons h' hrest =>
      refine Sim.alike h fun v hv => ?_
      have hnext := ih (by simp)
      simp only [Reading.settles, bind_assoc, pure_bind]
      refine (Sim.ofInsulated (truth_insulated v)).alike fun holds _ => ?_
      split
      · exact .pure ⟨rfl, rfl, hv⟩
      · exact hnext

theorem evalCompare_reads (hself : self.Insulated V) (op : CompareOp)
    (h : List.Forall₂ (V.Reads self frames σ) es ms) (left : Value) :
    V.Sim frames σ (evalCompare self frames op left es) (Reading.chain self op left ms)
      (Alike σ V.Clean) := by
  induction h generalizing left with
  | nil => exact .pure ⟨rfl, rfl, clean_ofBool true⟩
  | cons h _ ih =>
    refine Sim.alike h fun right hright => ?_
    refine (Sim.ofInsulated (compare_insulated hself op left hright)).alike fun holds _ => ?_
    split
    · exact ih right
    · exact .pure ⟨rfl, rfl, clean_ofBool false⟩

end Rows

section Entries

variable {es : List (Expr × Expr)} {ms : List (Exec Value × Exec Value)}

theorem evalPairs_reads
    (h : List.Forall₂ (fun e m => V.Reads self frames σ e.1 m.1 ∧ V.Reads self frames σ e.2 m.2)
      es ms) :
    V.Sim frames σ (evalPairs self frames es) (Reading.pairsInOrder ms)
      (Alike σ fun ps => ∀ p ∈ ps, V.Clean p.1 ∧ V.Clean p.2) := by
  induction h with
  | nil => exact .pure ⟨rfl, rfl, by simp⟩
  | cons h _ ih =>
    refine Sim.alike h.1 fun k hk => Sim.alike h.2 fun v hv => ih.alike fun ps hps => ?_
    exact .pure ⟨rfl, rfl, List.forall_mem_cons.mpr ⟨⟨hk, hv⟩, hps⟩⟩

/-- The entries of a dictionary are evaluated and put in one after the other. -/
theorem evalEntries_reads
    (h : List.Forall₂ (fun e m => V.Reads self frames σ e.1 m.1 ∧ V.Reads self frames σ e.2 m.2)
      es ms) (eager : Nat) {given : List (Value × Value)}
    (hgiven : ∀ p ∈ given, V.Clean p.1 ∧ V.Clean p.2) :
    V.Sim frames σ (evalEntries self frames eager given es) (Reading.entries eager given ms)
      (Alike σ fun ps => ∀ p ∈ ps, V.Clean p.1 ∧ V.Clean p.2) := by
  induction h generalizing eager given with
  | nil =>
    simp only [evalEntries, Reading.entries]
    exact .pure ⟨rfl, rfl, hgiven⟩
  | @cons e m es ms h hrest ih =>
    obtain ⟨key, value⟩ := e
    obtain ⟨mk, mv⟩ := m
    cases eager with
    | zero =>
      refine Sim.alike h.1 fun k hk => Sim.alike h.2 fun v hv => ?_
      refine (evalPairs_reads hrest).alike fun ps hps => .ofInsulated ?_
      refine .foldlM hgiven fun given hgiven p hp => putEntry_insulated hgiven ?_
      rcases List.mem_cons.mp hp with rfl | hp
      · exact ⟨hk, hv⟩
      · exact hps p hp
    | succ eager =>
      refine Sim.alike h.1 fun k hk => Sim.alike h.2 fun v hv => ?_
      refine (Sim.ofInsulated (putEntry_insulated hgiven ⟨hk, hv⟩)).alike fun given hgiven => ?_
      exact ih eager hgiven

theorem Reads.dict (place : Option Span)
    (h : List.Forall₂ (fun e m => V.Reads self frames σ e.1 m.1 ∧ V.Reads self frames σ e.2 m.2)
      es ms) :
    V.Reads self frames σ (.dict es place)
      (do return .dict (← Reading.entries (eagerEntries es.length) [] ms)) :=
  (evalEntries_reads h _ (by simp)).alike fun _ hps => .pure ⟨rfl, rfl, clean_dict.mpr hps⟩

end Entries

/-! ### Keys and quoted data -/

/-- A call with one string. -/
theorem Reads.callString {e : Expr} {m : Exec Value} (hself : self.Insulated V)
    (h : V.Reads self frames σ e m) (s : String) :
    V.Reads self frames σ (.call e [.constant (.str s)] none)
      (do self.call (← m) [.ofString s]) := by
  have hcall := h.call none hself (.cons (.const none (.str s)) .nil)
  simp only [Reading.call, Reading.inOrder, pure_bind] at hcall
  exact hcall

theorem Reads.key (hself : self.Insulated V) (key : Key) :
    V.Reads self frames σ key.expr (Reading.keyValue self key) := by
  cases key with
  | const c => exact .const none c
  | keyword k =>
    have hname : V.Reads self frames σ (.load "Keyword") (pure (.native (.type .keyword))) :=
      .library (by simp [Native.compiled])
    have hcall := hname.callString hself k.name
    rw [pure_bind] at hcall
    exact hcall

theorem length_quotedEntries (entries : List (Form × Form)) :
    (Lowering.quotedEntries entries).length = entries.length := by
  induction entries with
  | nil => rfl
  | cons e entries ih => simp [Lowering.quotedEntries, ih]

mutual

/-- Quoted data are built as the reading builds them, by recursion on the form. -/
theorem quoted_reads (hself : self.Insulated V) (hsymbol : V.names "Symbol" = false) :
    (form : Form) → V.Reads self frames σ (Lowering.quoted form) (Reading.datum self frames form)
  | .const c => .const none c
  | .symbol s => (Reads.name none hsymbol).callString hself s.name
  | .keyword k => .key hself (.keyword k)
  | .list items _ => .list none (quotedAll_reads hself hsymbol items)
  | .vector items _ => .list none (quotedAll_reads hself hsymbol items)
  | .map entries _ => by
    have hdict := Reads.dict none (quotedEntries_reads hself hsymbol entries)
    rw [length_quotedEntries] at hdict
    exact hdict

theorem quotedAll_reads (hself : self.Insulated V) (hsymbol : V.names "Symbol" = false) :
    (forms : List Form) → List.Forall₂ (V.Reads self frames σ) (Lowering.quotedAll forms)
      (Reading.data self frames forms)
  | [] => .nil
  | form :: forms =>
    .cons (quoted_reads hself hsymbol form) (quotedAll_reads hself hsymbol forms)

theorem quotedEntries_reads (hself : self.Insulated V) (hsymbol : V.names "Symbol" = false) :
    (entries : List (Form × Form)) →
      List.Forall₂ (fun e m => V.Reads self frames σ e.1 m.1 ∧ V.Reads self frames σ e.2 m.2)
        (Lowering.quotedEntries entries) (Reading.dataOfEntries self frames entries)
  | [] => .nil
  | (key, value) :: entries =>
    .cons ⟨quoted_reads hself hsymbol key, quoted_reads hself hsymbol value⟩
      (quotedEntries_reads hself hsymbol entries)

end

end Veil

/-! ### Parts of forms -/

theorem Compile.bind_eq {α β : Type} {m : Compile α} {f : α → Compile β} {c c' : Context} {a : α}
    (h : m c = .ok a c') : (m >>= f) c = f a c' := by
  show EStateM.bind m f c = _
  simp [EStateM.bind, h]

theorem Compile.foldrM_cons_bind {α β : Type} {m : Compile β} {f : α → β → Compile β} {x : α}
    {xs : List α} :
    (m >>= fun b => (x :: xs).foldrM f b) = (m >>= fun b => xs.foldrM f b) >>= f x := by
  simp only [List.foldrM_cons, bind_assoc]

namespace Form

theorem depth_le_of_mem {form : Form} {forms : List Form} (h : form ∈ forms) :
    form.depth ≤ depthOfAll forms := by
  induction forms with
  | nil => simp at h
  | cons other forms ih =>
    rw [depthOfAll]
    rcases List.mem_cons.mp h with rfl | h
    · exact Nat.le_max_left _ _
    · exact Nat.le_trans (ih h) (Nat.le_max_right _ _)

theorem depth_le_of_mem_entries {entry : Form × Form} {entries : List (Form × Form)}
    (h : entry ∈ entries) :
    entry.1.depth ≤ depthOfEntries entries ∧ entry.2.depth ≤ depthOfEntries entries := by
  induction entries with
  | nil => simp at h
  | cons other entries ih =>
    obtain ⟨key, value⟩ := other
    rw [depthOfEntries]
    rcases List.mem_cons.mp h with rfl | h
    · dsimp only
      exact ⟨by omega, by omega⟩
    · have hle := ih h
      exact ⟨by omega, by omega⟩

theorem onlyNamesAll_iff {S : String → Bool} {forms : List Form} :
    onlyNamesAll S forms = true ↔ ∀ form ∈ forms, form.onlyNames S = true := by
  induction forms with
  | nil => simp [onlyNamesAll]
  | cons form forms ih => simp [onlyNamesAll, ih]

theorem onlyNamesEntries_iff {S : String → Bool} {entries : List (Form × Form)} :
    onlyNamesEntries S entries = true ↔
      ∀ entry ∈ entries, entry.1.onlyNames S = true ∧ entry.2.onlyNames S = true := by
  induction entries with
  | nil => simp [onlyNamesEntries]
  | cons entry entries ih => simp [onlyNamesEntries, ih, and_assoc]

theorem arePlain_iff {forms : List Form} :
    arePlain forms = true ↔ ∀ form ∈ forms, form.isPlain = true := by
  induction forms with
  | nil => simp [arePlain]
  | cons form forms ih => simp [arePlain, ih]

theorem arePlainEntries_iff {entries : List (Form × Form)} :
    arePlainEntries entries = true ↔
      ∀ entry ∈ entries, entry.1.isPlain = true ∧ entry.2.isPlain = true := by
  induction entries with
  | nil => simp [arePlainEntries]
  | cons entry entries ih => simp [arePlainEntries, ih, and_assoc]

/-- The form has names of which `S` holds only, and it is less deep than `n`. -/
structure Fits (S : String → Bool) (n : Nat) (form : Form) : Prop where
  names : form.onlyNames S = true
  depth : form.depth < n

namespace Fits

variable {S : String → Bool} {n : Nat} {items : List Form}

theorem list {span : Option Span} (h : Fits S (n + 1) (.list items span)) :
    ∀ item ∈ items, Fits S n item := fun item hitem => by
  have hnames : onlyNamesAll S items = true := h.names
  have hdepth : depthOfAll items + 1 < n + 1 := h.depth
  have hle := depth_le_of_mem hitem
  exact ⟨onlyNamesAll_iff.mp hnames item hitem, by omega⟩

theorem vector {span : Span} (h : Fits S (n + 1) (.vector items span)) :
    ∀ item ∈ items, Fits S n item := fun item hitem => by
  have hnames : onlyNamesAll S items = true := h.names
  have hdepth : depthOfAll items + 1 < n + 1 := h.depth
  have hle := depth_le_of_mem hitem
  exact ⟨onlyNamesAll_iff.mp hnames item hitem, by omega⟩

theorem map {entries : List (Form × Form)} {span : Span}
    (h : Fits S (n + 1) (.map entries span)) :
    ∀ entry ∈ entries, Fits S n entry.1 ∧ Fits S n entry.2 := fun entry hentry => by
  have hnames : onlyNamesEntries S entries = true := h.names
  have hdepth : depthOfEntries entries + 1 < n + 1 := h.depth
  have hle := depth_le_of_mem_entries hentry
  have hentry := onlyNamesEntries_iff.mp hnames entry hentry
  exact ⟨⟨hentry.1, by omega⟩, ⟨hentry.2, by omega⟩⟩

theorem inVector {span : Span} (h : Fits S n (.vector items span)) :
    ∀ item ∈ items, Fits S n item := fun item hitem => by
  have hnames : onlyNamesAll S items = true := h.names
  have hdepth : depthOfAll items + 1 < n := h.depth
  have hle := depth_le_of_mem hitem
  exact ⟨onlyNamesAll_iff.mp hnames item hitem, by omega⟩

theorem nil {form : Form} (h : Fits S n form) : Fits S n .nil :=
  ⟨rfl, Nat.lt_of_le_of_lt (Nat.zero_le _) h.depth⟩

end Fits

end Form

/-! ### Plain forms -/

theorem Form.pairUp_of_even {items : List Form} (h : items.length % 2 = 0) :
    ∃ pairs, Form.pairUp items = some pairs := by
  fun_induction Form.pairUp items with
  | case1 => exact ⟨[], rfl⟩
  | case2 => simp at h
  | case3 first second rest ih =>
    obtain ⟨pairs, hpairs⟩ := ih (by simp only [List.length_cons] at h; omega)
    exact ⟨(first, second) :: pairs, by rw [hpairs]; rfl⟩

namespace Veil

variable {V : Veil} {S : String → Bool} {c : Context}

/-- The expression has the value that `m` gives, whatever the names of the context stand for. -/
def Gives (V : Veil) (S : String → Bool) (c : Context) (e : Expr)
    (m : Interp → List Nat → Env → Exec Value) : Prop :=
  ∀ ⦃self : Interp⦄ ⦃frames : List Nat⦄ ⦃ρ : Env⦄ ⦃σ : Store⦄, self.Insulated V →
    V.Related S c ρ σ → V.Reads self frames σ e (m self frames ρ)

/-- The expression has the value of the form, whatever the names of the context stand for. -/
def Meant (V : Veil) (S : String → Bool) (c : Context) (form : Form) (e : Expr) : Prop :=
  V.Gives S c e fun self frames ρ => Reading.value self frames ρ form

theorem forall₂_reads_entries {entries : List (Form × Form)} {es : List (Expr × Expr)}
    (h : List.Forall₂ (fun entry e => V.Meant S c entry.1 e.1 ∧ V.Meant S c entry.2 e.2)
      entries es) {self : Interp} {ρ : Env} {σ : Store} (hself : self.Insulated V)
    (hρ : V.Related S c ρ σ) (frames : List Nat) :
    List.Forall₂ (fun e m => V.Reads self frames σ e.1 m.1 ∧ V.Reads self frames σ e.2 m.2) es
      (Reading.valuesOfEntries self frames ρ entries) := by
  induction h with
  | nil => exact .nil
  | cons h _ ih => exact .cons ⟨h.1 hself hρ, h.2 hself hρ⟩ ih

theorem forall₂_reads {forms : List Form} {es : List Expr}
    (h : List.Forall₂ (V.Meant S c) forms es) {self : Interp} {frames : List Nat} {ρ : Env}
    {σ : Store} (hself : self.Insulated V) (hρ : V.Related S c ρ σ) :
    List.Forall₂ (V.Reads self frames σ) es (Reading.values self frames ρ forms) := by
  induction h with
  | nil => exact .nil
  | cons h _ ih => exact .cons (h hself hρ) ih

end Veil

namespace Lowering

variable {V : Veil} {S : String → Bool} {n : Nat} {lowering : Lowering} {c : Context}

/-- Plain forms are lowered to expressions that have their values. -/
def MeansPlain (V : Veil) (S : String → Bool) (n : Nat) (lowering : Lowering) : Prop :=
  ∀ form : Form, form.isPlain = true → form.Fits S n → ∀ c : Context,
    ∃ e, lowering.expr form c = .ok e c ∧ V.Meant S c form e

theorem mapM_meant (h : lowering.MeansPlain V S n) {forms : List Form}
    (hplain : Form.arePlain forms = true) (hfits : ∀ form ∈ forms, form.Fits S n) :
    ∃ es, forms.mapM lowering.expr c = .ok es c ∧ List.Forall₂ (V.Meant S c) forms es := by
  induction forms with
  | nil => exact ⟨[], rfl, .nil⟩
  | cons form forms ih =>
    rw [Form.arePlain_iff, List.forall_mem_cons] at hplain
    rw [List.forall_mem_cons] at hfits
    obtain ⟨e, he, hmeant⟩ := h form hplain.1 hfits.1 c
    obtain ⟨es, hes, hrest⟩ := ih (Form.arePlain_iff.mpr hplain.2) hfits.2
    refine ⟨e :: es, ?_, .cons hmeant hrest⟩
    rw [List.mapM_cons, Compile.bind_eq he, Compile.bind_eq hes]
    rfl

/-! ### Names -/

theorem parts_ne_nil (name : String) : Name.parts name ≠ [] := by
  have hsplit (cs : List Char) : Name.splitPoints cs ≠ [] := by
    cases cs with
    | nil => simp [Name.splitPoints]
    | cons c cs =>
      unfold Name.splitPoints
      split
      · simp
      · unfold Name.extendFirst
        split <;> simp
  simp [Name.parts, hsplit]

/-- A symbol means its first part in the environment, and the fields of that. -/
theorem symbolExpr_meant {s : Symbol} (hproper : Form.isProper s = true)
    (hused : (Form.symbol s).onlyNames S = true) :
    ∃ e, symbolExpr s c = .ok e c ∧ V.Meant S c (.symbol s) e := by
  unfold symbolExpr
  cases hparts : Name.parts s.name with
  | nil => exact absurd hparts (parts_ne_nil _)
  | cons first fields =>
    have hnames : (first :: fields).contains "" = false := by
      simpa [Form.isProper, hparts] using hproper
    have hfirst : S (Name.spell first) = true := by
      simp only [Form.onlyNames, hparts, List.map_cons, List.all_cons, Bool.and_eq_true] at hused
      exact hused.2.1
    dsimp only
    rw [if_neg (by rw [hnames]; simp)]
    refine ⟨_, rfl, fun self frames ρ σ hself hρ => ?_⟩
    have hname : V.Reads self frames σ
        (.name (c.resolve (Name.spell first)) (Form.symbol s).place?)
        (Reading.valueOfMeaning frames (ρ (Name.spell first))) := by
      have hmeans := hρ (Name.spell first)
      cases hmeaning : ρ (Name.spell first) with
      | value v =>
        rw [hmeaning] at hmeans
        exact .veiled _ hmeans.1
      | outer x =>
        rw [hmeaning] at hmeans
        rw [hmeans.1]
        exact .name _ (hmeans.2 hfirst)
    have hfields := hname.fields (Form.symbol s).place? fields
    simpa only [Reading.value, Reading.symbolValue, hparts] using hfields

/-! ### Branches -/

theorem ifExpr_build_gives (h : lowering.MeansPlain V S n)
    {test yes no : Form} (hplain : Form.arePlain [test, yes, no] = true)
    (hfits : ∀ form ∈ [test, yes, no], form.Fits S n) (form : Form) :
    ∃ e, ifExpr.build lowering form test yes no c = .ok e c ∧
      V.Gives S c e fun self frames ρ => Reading.choose (Reading.value self frames ρ test)
        (Reading.value self frames ρ yes) (Reading.value self frames ρ no) := by
  simp only [Form.arePlain_iff, List.forall_mem_cons] at hplain hfits
  obtain ⟨e₁, he₁, htest⟩ := h test hplain.1 hfits.1 c
  obtain ⟨e₂, he₂, hyes⟩ := h yes hplain.2.1 hfits.2.1 c
  obtain ⟨e₃, he₃, hno⟩ := h no hplain.2.2.1 hfits.2.2.1 c
  refine ⟨.conditional e₁ e₂ e₃ form.place?, ?_, fun self frames ρ σ hself hρ =>
    .conditional _ (htest hself hρ) (hyes hself hρ) (hno hself hρ)⟩
  unfold ifExpr.build
  rw [Compile.bind_eq he₁, Compile.bind_eq he₂, Compile.bind_eq he₃]
  rfl

/-- The clauses of a `cond`, from the last one on. -/
theorem clauses_gives (h : lowering.MeansPlain V S n) (hn : 0 < n)
    (place : Option Span) {args : List Form} {pairs : List (Form × Form)}
    (hpairs : Form.pairUp args = some pairs) (hplain : Form.arePlainClauses args = true)
    (hfits : ∀ form ∈ args, form.Fits S n) :
    ∃ e, (do
        let last ← lowering.expr (untilElse pairs).2
        (untilElse pairs).1.foldrM (fun (test, result) no => do
          let test ← lowering.expr test
          let yes ← lowering.expr result
          return Expr.conditional test yes no place) last : Compile Expr) c = .ok e c ∧
      V.Gives S c e fun self frames ρ =>
        Reading.firstHolding args (Reading.values self frames ρ args) := by
  fun_induction Form.pairUp args generalizing pairs with
  | case1 =>
    cases hpairs
    obtain ⟨last, hlast, hmeant⟩ := h .nil rfl ⟨rfl, hn⟩ c
    refine ⟨last, ?_, hmeant⟩
    simp only [untilElse, List.foldrM_nil, bind_pure]
    exact hlast
  | case2 => cases hpairs
  | case3 test result rest ih =>
    obtain ⟨others, hothers, rfl⟩ := Option.map_eq_some_iff.mp hpairs
    simp only [List.forall_mem_cons] at hfits
    simp only [Form.arePlainClauses] at hplain
    split at hplain
    · rename_i helse
      obtain ⟨last, hlast, hmeant⟩ := h result hplain hfits.2.1 c
      refine ⟨last, ?_, fun self frames ρ σ hself hρ => ?_⟩
      · simp only [untilElse, helse, if_true, List.foldrM_nil, bind_pure]
        exact hlast
      · simpa [Reading.values, Reading.firstHolding, helse] using hmeant hself hρ
    · rename_i helse
      simp only [Bool.and_eq_true] at hplain
      obtain ⟨e₁, he₁, htest⟩ := h test hplain.1.1 hfits.1 c
      obtain ⟨e₂, he₂, hresult⟩ := h result hplain.1.2 hfits.2.1 c
      obtain ⟨e, he, hrest⟩ := ih hothers hplain.2 hfits.2.2
      refine ⟨.conditional e₁ e₂ e place, ?_, fun self frames ρ σ hself hρ => ?_⟩
      · have huntil : untilElse ((test, result) :: others) =
            ((test, result) :: (untilElse others).1, (untilElse others).2) := by
          simp [untilElse, helse]
        rw [huntil, Compile.foldrM_cons_bind, Compile.bind_eq he]
        dsimp only
        rw [Compile.bind_eq he₁, Compile.bind_eq he₂]
        rfl
      · simp only [Reading.values, Reading.firstHolding, helse]
        exact .conditional _ (htest hself hρ) (hresult hself hρ) (hrest hself hρ)

theorem logicalExpr_gives (h : lowering.MeansPlain V S n)
    (op : LogicalOp) {args : List Form} (hplain : Form.arePlain args = true)
    (hfits : ∀ form ∈ args, form.Fits S n) (form : Form) :
    ∃ e, logicalExpr lowering op form args c = .ok e c ∧
      V.Gives S c e fun self frames ρ =>
        Reading.logical op (Reading.values self frames ρ args) := by
  match args with
  | [] =>
    refine ⟨_, rfl, fun self frames ρ σ hself hρ => ?_⟩
    cases op with
    | and => exact .const _ _
    | or => exact .const _ _
  | [operand] =>
    simp only [Form.arePlain_iff, List.forall_mem_cons] at hplain hfits
    exact h operand hplain.1 hfits.1 c
  | first :: second :: others =>
    obtain ⟨es, hes, hmeant⟩ := mapM_meant h hplain hfits
    refine ⟨.logical op es form.place?, ?_, fun self frames ρ σ hself hρ => ?_⟩
    · simp only [logicalExpr]
      rw [Compile.bind_eq hes]
      rfl
    · exact .logical _ (by simp [Reading.values]) (forall₂_reads hmeant hself hρ)

/-! ### Operators and calls -/

/-- Operands that are combined with what stands to their left. -/
theorem foldlM_gives (h : lowering.MeansPlain V S n) (op : BinaryOp)
    (place : Option Span) {operands : List Form} (hplain : Form.arePlain operands = true)
    (hfits : ∀ form ∈ operands, form.Fits S n) {e : Expr}
    {m : Interp → List Nat → Env → Exec Value} (he : V.Gives S c e m) :
    ∃ e', (operands.foldlM (fun left operand => do
        return .binary op left (← lowering.expr operand) place) e : Compile Expr) c = .ok e' c ∧
      V.Gives S c e' (fun self frames ρ => m self frames ρ >>=
        (Reading.values self frames ρ operands).foldlM
          fun left m => do Interp.binary op left (← m)) := by
  induction operands generalizing e m with
  | nil =>
    exact ⟨e, rfl, fun self frames ρ σ hself hρ => by simpa [Reading.values] using he hself hρ⟩
  | cons operand operands ih =>
    simp only [Form.arePlain_iff, List.forall_mem_cons] at hplain hfits
    obtain ⟨e₁, he₁, hoperand⟩ := h operand hplain.1 hfits.1 c
    have hbinary : V.Gives S c (.binary op e e₁ place) (fun self frames ρ => do
        Interp.binary op (← m self frames ρ) (← Reading.value self frames ρ operand)) :=
      fun self frames ρ σ hself hρ => (he hself hρ).binary place (hoperand hself hρ) op
    obtain ⟨e', he', hrest⟩ := ih (Form.arePlain_iff.mpr hplain.2) hfits.2 hbinary
    refine ⟨e', ?_, fun self frames ρ σ hself hρ => ?_⟩
    · rw [List.foldlM_cons, bind_assoc, Compile.bind_eq he₁]
      exact he'
    · simpa [Reading.values, List.foldlM_cons] using hrest hself hρ

theorem binaryExpr_gives (h : lowering.MeansPlain V S n) (op : BinaryOp)
    {args : List Form} (hcount : 1 ≤ args.length) (hplain : Form.arePlain args = true)
    (hfits : ∀ form ∈ args, form.Fits S n) (head : String) (form : Form) :
    ∃ e, binaryExpr lowering op head form args c = .ok e c ∧
      V.Gives S c e fun self frames ρ =>
        Reading.combine op (Reading.values self frames ρ args) := by
  match args with
  | [] => simp at hcount
  | [operand] =>
    simp only [Form.arePlain_iff, List.forall_mem_cons] at hplain hfits
    obtain ⟨e, he, hmeant⟩ := h operand hplain.1 hfits.1 c
    by_cases hop : op = .sub
    · refine ⟨.unary .neg e form.place?, ?_, fun self frames ρ σ hself hρ => ?_⟩
      · simp only [binaryExpr, if_pos hop]
        rw [Compile.bind_eq he]
        rfl
      · simpa [Reading.values, Reading.combine, hop] using (hmeant hself hρ).unary form.place? .neg
    · refine ⟨e, ?_, fun self frames ρ σ hself hρ => ?_⟩
      · simp only [binaryExpr, if_neg hop]
        exact he
      · simpa [Reading.values, Reading.combine, hop] using hmeant hself hρ
  | first :: second :: others =>
    have hrest : ∀ form ∈ second :: others, form.isPlain = true ∧ form.Fits S n := fun form hform =>
      ⟨Form.arePlain_iff.mp hplain form (List.mem_cons_of_mem _ hform),
        hfits form (List.mem_cons_of_mem _ hform)⟩
    obtain ⟨e, he, hfirst⟩ := h first (Form.arePlain_iff.mp hplain first List.mem_cons_self)
      (hfits first List.mem_cons_self) c
    obtain ⟨e', he', hmeant⟩ := foldlM_gives h op form.place?
      (Form.arePlain_iff.mpr fun form hform => (hrest form hform).1)
      (fun form hform => (hrest form hform).2) hfirst
    refine ⟨e', ?_, hmeant⟩
    simp only [binaryExpr]
    rw [Compile.bind_eq he]
    exact he'

theorem compareExpr_gives (h : lowering.MeansPlain V S n)
    (op : CompareOp) {first second : Form} {others : List Form}
    (hplain : Form.arePlain (first :: second :: others) = true)
    (hfits : ∀ form ∈ first :: second :: others, form.Fits S n) (head : String) (form : Form) :
    ∃ e, compareExpr lowering op head form (first :: second :: others) c = .ok e c ∧
      V.Gives S c e (fun self frames ρ => do
        Reading.chain self op (← Reading.value self frames ρ first)
          (Reading.values self frames ρ (second :: others))) := by
  rw [Form.arePlain_iff, List.forall_mem_cons] at hplain
  rw [List.forall_mem_cons] at hfits
  obtain ⟨e, he, hfirst⟩ := h first hplain.1 hfits.1 c
  obtain ⟨es, hes, hmeant⟩ := mapM_meant h (Form.arePlain_iff.mpr hplain.2) hfits.2
  refine ⟨.compare op e es form.place?, ?_, fun self frames ρ σ hself hρ => ?_⟩
  · simp only [compareExpr]
    rw [Compile.bind_eq he, Compile.bind_eq hes]
    rfl
  · exact Sim.alike (hfirst hself hρ) fun left _ =>
      evalCompare_reads hself op (forall₂_reads hmeant hself hρ) left

theorem callExpr_gives (h : lowering.MeansPlain V S n) {head : Form}
    {args : List Form} (hhead : head.isPlain = true) (hheadFits : head.Fits S n)
    (hplain : Form.arePlain args = true) (hfits : ∀ form ∈ args, form.Fits S n) (form : Form) :
    ∃ e, callExpr lowering form head args c = .ok e c ∧
      V.Gives S c e fun self frames ρ => Reading.call self (Reading.value self frames ρ head)
        (Reading.values self frames ρ args) := by
  obtain ⟨e, he, hcallee⟩ := h head hhead hheadFits c
  obtain ⟨es, hes, hmeant⟩ := mapM_meant h hplain hfits
  refine ⟨.call e es form.place?, ?_, fun self frames ρ σ hself hρ =>
    (hcallee hself hρ).call _ hself (forall₂_reads hmeant hself hρ)⟩
  simp only [callExpr]
  rw [Compile.bind_eq he, Compile.bind_eq hes]
  rfl

/-! ### Any plain form -/

theorem condExpr_gives (h : lowering.MeansPlain V S n) (hn : 0 < n)
    {args : List Form} (hcount : args.length % 2 = 0)
    (hplain : Form.arePlainClauses args = true) (hfits : ∀ form ∈ args, form.Fits S n)
    (form : Form) :
    ∃ e, condExpr lowering form args c = .ok e c ∧
      V.Gives S c e fun self frames ρ =>
        Reading.firstHolding args (Reading.values self frames ρ args) := by
  obtain ⟨pairs, hpairs⟩ := Form.pairUp_of_even hcount
  obtain ⟨e, he, hgives⟩ := clauses_gives h hn form.place? hpairs hplain hfits
  refine ⟨e, ?_, hgives⟩
  unfold condExpr condClauses
  rw [hpairs]
  exact he

/-- Every special form that is plain has the value that the reading gives it. -/
theorem specialExpr_gives (h : lowering.MeansPlain V S n) (hn : 0 < n)
    (hsymbol : V.names "Symbol" = false) {head : Symbol} {sp : Special} {args : List Form}
    (hsp : Special.ofName? head.name = some sp)
    (hplain : Form.isPlainHeaded head args.length (Form.arePlain args)
      (Form.arePlainClauses args) = true)
    (hfits : ∀ form ∈ args, form.Fits S n) (form : Form) :
    ∃ e, specialExpr lowering sp head.name form args c = .ok e c ∧
      V.Gives S c e fun self frames ρ =>
        Reading.special self frames sp args (Reading.values self frames ρ args) := by
  unfold Form.isPlainHeaded at hplain
  rw [hsp] at hplain
  cases sp with
  | ifForm =>
    simp only [Bool.and_eq_true, Bool.or_eq_true, beq_iff_eq] at hplain
    match args with
    | [test, yes] =>
      have hplain' : Form.arePlain [test, yes, .nil] = true := by
        simpa [Form.arePlain, Form.nil, Form.isPlain] using hplain.2
      refine ifExpr_build_gives h hplain' ?_ form
      simp only [List.forall_mem_cons] at hfits ⊢
      exact ⟨hfits.1, hfits.2.1, hfits.1.nil, by simp⟩
    | [test, yes, no] => exact ifExpr_build_gives h hplain.2 hfits form
    | [] => simp at hplain
    | [_] => simp at hplain
    | _ :: _ :: _ :: _ :: _ => simp at hplain
  | condForm =>
    simp only [Bool.and_eq_true, beq_iff_eq] at hplain
    exact condExpr_gives h hn hplain.1 hplain.2 hfits form
  | doForm =>
    simp only [Bool.and_eq_true, decide_eq_true_eq] at hplain
    match args with
    | [] => exact ⟨_, rfl, fun self frames ρ σ _ _ => .const none .nil⟩
    | [only] =>
      simp only [Form.arePlain_iff, List.forall_mem_cons] at hplain hfits
      exact h only hplain.2.1 hfits.1 c
    | _ :: _ :: _ => simp at hplain
  | andForm => exact logicalExpr_gives h .and hplain hfits form
  | orForm => exact logicalExpr_gives h .or hplain hfits form
  | notForm =>
    simp only [Bool.and_eq_true, beq_iff_eq] at hplain
    match args with
    | [operand] =>
      simp only [Form.arePlain_iff, List.forall_mem_cons] at hplain hfits
      obtain ⟨e, he, hmeant⟩ := h operand hplain.2.1 hfits.1 c
      refine ⟨.unary .not e form.place?, ?_, fun self frames ρ σ hself hρ =>
        (hmeant hself hρ).unary _ .not⟩
      simp only [specialExpr]
      rw [Compile.bind_eq he]
      rfl
    | [] => simp at hplain
    | _ :: _ :: _ => simp at hplain
  | quoteForm =>
    simp only [beq_iff_eq] at hplain
    match args with
    | [data] =>
      exact ⟨_, rfl, fun self frames ρ σ hself _ => (quoted_reads hself hsymbol data).placed _⟩
    | [] => simp at hplain
    | _ :: _ :: _ => simp at hplain
  | caseForm | letForm | loopForm | fnForm | recurForm | defForm | defnForm =>
    exact absurd hplain (by simp)

/-- A list with a symbol as its head is a special form, an operator, a comparison or a call. -/
theorem headedExpr_gives (h : lowering.MeansPlain V S n) (hn : 0 < n)
    (hsymbol : V.names "Symbol" = false) {head : Symbol} {args : List Form}
    (hplain : Form.isPlainHeaded head args.length (Form.arePlain args)
      (Form.arePlainClauses args) = true)
    (hhead : (Form.symbol head).Fits S n) (hfits : ∀ form ∈ args, form.Fits S n) (form : Form) :
    ∃ e, headedExpr lowering form head args c = .ok e c ∧
      V.Gives S c e fun self frames ρ =>
        Reading.headed self frames ρ head args (Reading.values self frames ρ args) := by
  unfold headedExpr Reading.headed
  cases hsp : Special.ofName? head.name with
  | some sp => exact specialExpr_gives h hn hsymbol hsp hplain hfits form
  | none =>
    cases hop : BinaryOp.ofName? head.name with
    | some op =>
      simp only [Form.isPlainHeaded, hsp, hop, Bool.and_eq_true, decide_eq_true_eq] at hplain
      exact binaryExpr_gives h op hplain.1 hplain.2 hfits head.name form
    | none =>
      cases hcompare : CompareOp.ofName? head.name with
      | some op =>
        simp only [Form.isPlainHeaded, hsp, hop, hcompare, Bool.and_eq_true,
          decide_eq_true_eq] at hplain
        match args with
        | first :: second :: others =>
          exact compareExpr_gives h op hplain.2 hfits head.name form
        | [] => simp at hplain
        | [_] => simp at hplain
      | none =>
        simp only [Form.isPlainHeaded, hsp, hop, hcompare, Bool.and_eq_true] at hplain
        have hcallee : (Form.symbol head).isPlain = true := hplain.1
        exact callExpr_gives h hcallee hhead hplain.2 hfits form

theorem entries_meant (h : lowering.MeansPlain V S n)
    {entries : List (Form × Form)} (hplain : Form.arePlainEntries entries = true)
    (hfits : ∀ entry ∈ entries, entry.1.Fits S n ∧ entry.2.Fits S n) :
    ∃ ks vs, (entries.mapM fun entry => lowering.expr entry.1) c = .ok ks c ∧
      (entries.mapM fun entry => lowering.expr entry.2) c = .ok vs c ∧
      List.Forall₂ (fun entry e => V.Meant S c entry.1 e.1 ∧ V.Meant S c entry.2 e.2) entries
        (ks.zip vs) := by
  induction entries with
  | nil => exact ⟨[], [], rfl, rfl, .nil⟩
  | cons entry entries ih =>
    rw [Form.arePlainEntries_iff, List.forall_mem_cons] at hplain
    rw [List.forall_mem_cons] at hfits
    obtain ⟨k, hk, hkey⟩ := h entry.1 hplain.1.1 hfits.1.1 c
    obtain ⟨v, hv, hvalue⟩ := h entry.2 hplain.1.2 hfits.1.2 c
    obtain ⟨ks, vs, hks, hvs, hrest⟩ := ih (Form.arePlainEntries_iff.mpr hplain.2) hfits.2
    refine ⟨k :: ks, v :: vs, ?_, ?_, .cons ⟨hkey, hvalue⟩ hrest⟩
    · rw [List.mapM_cons, Compile.bind_eq hk, Compile.bind_eq hks]
      rfl
    · rw [List.mapM_cons, Compile.bind_eq hv, Compile.bind_eq hvs]
      rfl

/-- One level: plain forms are lowered to what they mean if their parts are. -/
theorem exprStep_meansPlain (h : lowering.MeansPlain V S n) (hsymbol : V.names "Symbol" = false) :
    MeansPlain V S (n + 1) lowering.step := by
  intro form hplain hfits c
  show ∃ e, exprStep lowering form c = .ok e c ∧ V.Meant S c form e
  match form with
  | .const k => exact ⟨_, rfl, fun self frames ρ σ _ _ => .const none k⟩
  | .symbol s => exact symbolExpr_meant hplain hfits.names
  | .keyword k => exact ⟨_, rfl, fun self frames ρ σ hself _ => (Reads.key hself _).placed _⟩
  | .vector items span =>
    obtain ⟨es, hes, hmeant⟩ := mapM_meant h hplain hfits.vector
    refine ⟨.list es (Form.vector items span).place?, ?_, fun self frames ρ σ hself hρ =>
      .list _ (forall₂_reads hmeant hself hρ)⟩
    simp only [exprStep]
    rw [Compile.bind_eq hes]
    rfl
  | .map entries span =>
    obtain ⟨ks, vs, hks, hvs, hmeant⟩ := entries_meant h hplain hfits.map
    refine ⟨.dict (ks.zip vs) (Form.map entries span).place?, ?_,
      fun self frames ρ σ hself hρ => ?_⟩
    · simp only [exprStep]
      rw [Compile.bind_eq hks, Compile.bind_eq hvs]
      rfl
    · have hreads := forall₂_reads_entries hmeant hself hρ frames
      have hdict := Reads.dict (Form.map entries span).place? hreads
      rwa [← hmeant.length_eq] at hdict
  | .list [] span => exact ⟨_, rfl, fun self frames ρ σ _ _ => .const none .nil⟩
  | .list (.symbol head :: args) span =>
    have hitems := hfits.list
    rw [List.forall_mem_cons] at hitems
    exact headedExpr_gives h (Nat.lt_of_le_of_lt (Nat.zero_le _) hitems.1.depth) hsymbol hplain
      hitems.1 hitems.2 _
  | .list (.const _ :: args) span | .list (.keyword _ :: args) span
  | .list (.vector _ _ :: args) span | .list (.map _ _ :: args) span
  | .list (.list _ _ :: args) span =>
    have hitems := hfits.list
    rw [List.forall_mem_cons] at hitems
    obtain ⟨hhead, hargs⟩ := Bool.and_eq_true_iff.mp hplain
    exact callExpr_gives h hhead hitems.1 hargs hitems.2 _

/-- **Plain forms mean what they say.** A form that needs no helper function is lowered without a
change to the context, and the expression has the value of the form. -/
theorem upTo_expr (V : Veil) (S : String → Bool) (hsymbol : V.names "Symbol" = false) (n : Nat) :
    MeansPlain V S n (upTo n) := by
  induction n with
  | zero => exact fun form _ hfits => absurd hfits.depth (Nat.not_lt_zero _)
  | succ n ih => exact exprStep_meansPlain ih hsymbol

end Lowering

end TailLisp
