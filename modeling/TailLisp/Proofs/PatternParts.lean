import TailLisp.Proofs.ExprMeaning
import TailLisp.Proofs.PatternLevel

/-!
# TailLisp.Proofs.PatternParts

What one level of a pattern takes from a value. The expansion of a pattern keeps a list of work:
binders together with the expressions of what they take. `Reading.bindAll` binds such a list by
recursion, the parts of a compound pattern are its next items, and the expressions of these parts
have the values that the reading takes (`Lowering.tableParts_take`).
-/

namespace TailLisp

open Veil Interp

/-! ### Calls from the library -/

/-- Neither interpreter sees the veiled variables, and the outer one calls a default that `lookup`
is given as the inner one runs code. -/
structure Interp.Nests (V : Veil) (interp inner : Interp) : Prop where
  insulated : interp.Insulated V
  innerInsulated : inner.Insulated V
  lookup (table key : Value) (fn : Function) :
    interp.call (.native (.library .lookup)) [table, key, .function fn] = do
      match ← find? table key with
      | some v => return v
      | none => callFunction inner fn []

/-- Calls may nest at most `n` deep, and every loop may go round at most `limit` times. -/
def Interp.bounded (n limit : Nat) : Interp := { upTo n with loopLimit := limit }

/-- Interpreters with a bound on the depth of calls nest. -/
theorem Interp.bounded_nests (V : Veil) (n limit : Nat) :
    Nests V (bounded (n + 2) limit) (upTo n) where
  insulated := ⟨(upTo_insulated V (n + 2)).call, (upTo_insulated V (n + 2)).next⟩
  innerInsulated := upTo_insulated V n
  lookup _ _ _ := rfl

namespace Veil

variable {V : Veil} {frames : List Nat} {W : World} {σ : Store}

/-! ### Code in a call of its own -/

theorem found?_of_noVars {ref : Nat} (h : W.varsOf ref = []) (x : String) :
    found? W (ref :: frames) x = found? W frames x := by
  simp only [found?, frameValue?, h, List.lookup_nil]

/-- A call has a frame without variables first. -/
theorem Ready.push (h : V.Ready frames W) (title : String) :
    V.Ready (W.frames.size :: frames) { W with frames := W.frames.push ⟨title, []⟩ } := by
  have hready := h.of_leads (h.good.push (by simp)) (.push W ⟨title, []⟩)
  have hvars : World.varsOf { W with frames := W.frames.push ⟨title, []⟩ } W.frames.size = [] := by
    simp [World.varsOf, Array.getD_eq_getD_getElem?]
  obtain ⟨calls, own, hframes, hown, hcalls⟩ := hready.scope
  refine ⟨hready.good, List.forall_mem_cons.mpr ⟨by simp, hready.bound⟩,
    ⟨W.frames.size :: calls, own, by rw [hframes]; rfl, hown,
      List.forall_mem_cons.mpr ⟨hvars, hcalls⟩⟩, fun p hp => ?_, hready.debug⟩
  rw [found?_of_noVars hvars]
  exact hready.library p hp

theorem Ready.pop {ref : Nat} (h : V.Ready (ref :: frames) W) (href : V.scope ≠ some ref) :
    V.Ready frames W := by
  obtain ⟨calls, own, hframes, hown, hcalls⟩ := h.scope
  cases calls with
  | nil =>
    rw [List.nil_append] at hframes
    rw [← hown, ← hframes] at href
    exact absurd rfl href
  | cons call calls =>
    obtain ⟨rfl, rfl⟩ := List.cons.inj hframes
    rw [List.forall_mem_cons] at hcalls
    refine ⟨h.good, (List.forall_mem_cons.mp h.bound).2, ⟨calls, own, rfl, hown, hcalls.2⟩,
      fun p hp => ?_, h.debug⟩
    have hlibrary := h.library p hp
    rwa [found?_of_noVars hcalls.1] at hlibrary

/-- Code in a call of its own is simulated as it is in its place. -/
theorem Sim.inCall {α β : Type} {title : String} {m : Nat → Exec α} {m' : Nat → Exec β}
    {Q : Store → α → β → Prop} (h : ∀ ref, V.Sim (ref :: frames) σ (m ref) (m' ref) Q) :
    V.Sim frames σ (Reading.inCall title m) (Reading.inCall title m') Q := by
  intro W hready hσ
  have hscope : V.scope ≠ some W.frames.size := fun hscope =>
    Nat.lt_irrefl _ (hready.good.scope W.frames.size hscope)
  have hhidden : V.hidden { W with frames := W.frames.push ⟨title, []⟩ } = σ := by
    rw [hidden_of_leads hready.good (.push W ⟨title, []⟩), hσ]
  have hrun : Reading.inCall title m' (V.hide W) =
      m' W.frames.size (V.hide { W with frames := W.frames.push ⟨title, []⟩ }) := by
    rw [hide_push hready.good, ← hide_size (V := V) W]
    rfl
  have hm := h W.frames.size (hready.push title) hhidden
  rw [show Reading.inCall title m W =
    m W.frames.size { W with frames := W.frames.push ⟨title, []⟩ } from rfl, hrun]
  cases hres : m W.frames.size { W with frames := W.frames.push ⟨title, []⟩ } with
  | error e W' => rwa [hres] at hm
  | ok a W' =>
    rw [hres] at hm
    obtain ⟨b, hhide, hready', hQ⟩ := hm
    exact ⟨b, hhide, hready'.pop hscope, hQ⟩

end Veil

/-- The call of a thunk evaluates its expression in a call of its own. -/
theorem Interp.callFunction_thunk (inner : Interp) (title : String) (frames : List Nat) (id : Nat)
    (body : Expr) :
    callFunction inner { name := "<lambda>", title, params := [], rest := none, locals := []
                         body := [.ret body none], frames, id } [] =
      Reading.inCall title fun ref => inner.eval (ref :: frames) body := by
  have hreturn (ref : Nat) : inner.execAll (ref :: frames) [.ret body none] =
      (do return .returned (← inner.eval (ref :: frames) body)) := by
    simp [execAll, exec]
  simp [callFunction, argumentFault?, frameOf, Reading.inCall, hreturn]

namespace Veil

variable {V : Veil} {S : String → Bool} {self inner : Interp} {frames : List Nat} {c c' : Context}
  {ρ : Env} {σ τ : Store}

/-! ### What the library takes from a value -/

/-- A call of a library function. -/
theorem Reads.callOf {x : String} {fn : Native} {es : List Expr} {ms : List (Exec Value)}
    (hself : self.Insulated V) (hx : (x, fn) ∈ Native.compiled)
    (h : List.Forall₂ (V.Reads self frames σ) es ms) :
    V.Reads self frames σ (.callOf x es) (do self.call (.native fn) (← Reading.inOrder ms)) := by
  have hname : V.Reads self frames σ (.load x) (pure (.native fn)) := .library hx
  have hcall := hname.call none hself h
  simp only [Reading.call, pure_bind] at hcall
  exact hcall

/-- A call of `lookup` with a thunk. The thunk is a function that sees the veiled variables, but it
is called at once or never, and the reading evaluates the default in its place. -/
theorem lookup_reads (h : self.Nests V inner) {holder : String} {table : Value} {key : Key}
    {form : Form} {body : Expr} (hρ : V.Related S c ρ σ) (htable : σ holder = some table)
    (hbody : V.Meant S c form body) :
    V.Reads self frames σ (.callOf "lookup" [.load holder, key.expr, .thunk body none]) (do
      let k ← Reading.keyValue self key
      Reading.lookup self inner frames ρ table k (some form)) := by
  have heval : self.eval frames (.callOf "lookup" [.load holder, key.expr, .thunk body none]) = (do
      let fn ← valueOf frames "lookup"
      let t ← valueOf frames holder
      let k ← self.eval frames key.expr
      let title ← titleIn frames "<lambda>"
      let id ← Exec.newId
      self.call fn [t, k, .function
        { name := "<lambda>", title, params := [], rest := none, locals := []
          body := [.ret body none], frames, id }]) := by
    simp only [Expr.callOf, Expr.load, eval, evalAll, bind_assoc, pure_bind]
  have hreading : (do
        let k ← Reading.keyValue self key
        Reading.lookup self inner frames ρ table k (some form) : Exec Value) = (do
      let _ ← (pure (Value.native (.library .lookup)) : Exec Value)
      let t ← (pure table : Exec Value)
      let k ← Reading.keyValue self key
      Reading.lookup self inner frames ρ t k (some form)) := by
    simp only [pure_bind]
  unfold Reads
  rw [heval, hreading]
  have hname : ("lookup", Native.library .lookup) ∈ Native.compiled := by simp [Native.compiled]
  refine (Sim.library hname).alike fun fn hfn => ?_
  refine (Sim.read htable).alike fun t ht => ?_
  refine Sim.alike (Reads.key h.insulated key) fun k hk => ?_
  refine (Sim.ofInsulated (titleIn_insulated frames _)).alike fun title _ => ?_
  refine (Sim.ofInsulated newId_insulated).alike fun id _ => ?_
  rw [hfn, h.lookup]
  refine (Sim.ofInsulated (find?_insulated ht k)).alike fun item hitem => ?_
  cases item with
  | some v => exact .pure ⟨rfl, rfl, hitem v rfl⟩
  | none =>
    dsimp only
    rw [callFunction_thunk]
    exact .inCall fun ref => hbody h.innerInsulated hρ

/-! ### Assignments -/

variable (V) in
/-- Code runs in the frames: the innermost one is the scope of the veil. -/
structure Runs (interp inner : Interp) (frames : List Nat) : Prop where
  nests : interp.Nests V inner
  scope : frames.head? = V.scope

theorem execAll_assign (x : String) (e : Expr) (place : Option Span) (stmts : List Stmt) :
    self.execAll frames (.assign x e place :: stmts) = (do
      let v ← self.eval frames e
      assignName frames x v
      self.execAll frames stmts) := by
  simp only [execAll, exec, bind_assoc, pure_bind]

/-- An assignment to a veiled variable before another computation. -/
theorem Sim.assign_bind {α β : Type} (hscope : frames.head? = V.scope) {x : String} {v : Value}
    {m : Exec α} {m' : Exec β} {Q : Store → α → β → Prop} (hx : V.names x = true) (hv : V.Clean v)
    (h : V.Sim frames (σ.set x v) m m' Q) :
    V.Sim frames σ (do assignName frames x v; m) m' Q := by
  have hassign : V.Sim frames σ (assignName frames x v >>= fun _ => m)
      ((pure () : Exec Unit) >>= fun _ => m') Q := by
    refine (Sim.assign hscope hx hv).bind ?_
    rintro τ _ _ ⟨rfl, -⟩
    exact h
  rwa [pure_bind] at hassign

/-- An assignment to a veiled variable before other statements. -/
theorem Sim.assign_cons {α : Type} (hscope : frames.head? = V.scope) {x : String} {e : Expr}
    {place : Option Span} {stmts : List Stmt} {m : Exec Value} {f : Value → Exec α}
    {Q : Store → Signal → α → Prop} (hx : V.names x = true) (he : V.Reads self frames σ e m)
    (h : ∀ v, V.Clean v → V.Sim frames (σ.set x v) (self.execAll frames stmts) (f v) Q) :
    V.Sim frames σ (self.execAll frames (.assign x e place :: stmts)) (m >>= f) Q := by
  rw [execAll_assign]
  exact Sim.alike he fun v hv => .assign_bind hscope hx hv (h v hv)

/-- The veil covers the temporaries that are made from one context to the other. -/
def Covers (V : Veil) (c c' : Context) : Prop := ∀ x, c.Makes c' x → V.names x = true

theorem Covers.mono {c₁ c₂ : Context} (h : V.Covers c c') (hbefore : c.Later c₁)
    (hafter : c₂.Later c') : V.Covers c₁ c₂ :=
  fun x hx => h x (hx.mono hbefore hafter)

end Veil

/-! ### The names of binders -/

namespace Context

variable {c c' c'' : Context} {σ : Store}

/-- A later context whose innermost scope may have more names. -/
structure Declares (c c' : Context) : Prop where
  later : c.Later c'
  isOpen : c'.scopes ≠ []
  outer : c'.scopes.tail = c.scopes.tail

theorem Declares.trans (h : c.Declares c') (h' : c'.Declares c'') : c.Declares c'' :=
  ⟨h.later.trans h'.later, h'.isOpen, h'.outer.trans h.outer⟩

theorem declares_declare (h : c.scopes ≠ []) (x t : String) : c.Declares (c.declare x t) := by
  refine ⟨c.later_declare x t, declare_scopes_ne_nil h, ?_⟩
  unfold declare
  split
  · rfl
  · rename_i hscopes
    simp [hscopes]

theorem keeps_fresh (c : Context) (stem : String) (σ : Store) (v : Value) :
    c.Keeps σ (σ.set (c.fresh (stem ++ "_")).1 v) :=
  (Fills.set (c.makes_fresh stem) v).keeps

end Context

namespace Veil.Related

variable {V : Veil} {S : String → Bool} {c : Context} {ρ : Env} {σ : Store}

/-- A new temporary changes no meaning. -/
theorem fresh (h : V.Related S c ρ σ) (stem : String) (v : Value) :
    V.Related S (c.fresh (stem ++ "_")).2 ρ (σ.set (c.fresh (stem ++ "_")).1 v) :=
  h.mono (c.later_fresh _) rfl (c.keeps_fresh stem σ v)

/-- A name that is bound to a temporary of its own stands for its value. -/
theorem bind (h : V.Related S c ρ σ) (hopen : c.scopes ≠ []) (x : String) (v : Value) :
    V.Related S ((c.fresh (x ++ "_")).2.declare x (c.fresh (x ++ "_")).1) (ρ.bind x v)
      (σ.set (c.fresh (x ++ "_")).1 v) :=
  (h.fresh x v).declare hopen (by simp [Store.set]) (c.not_future_fresh x)

end Veil.Related

/-! ### The list of work -/

namespace Reading

/-- A binder, how deeply it may nest, and what it takes. -/
structure Take where
  depth : Nat
  binder : Form
  value : Exec Value

/-- Bind binders to what they take, one after the other. -/
def bindAll (self inner : Interp) (frames : List Nat) (takes : List Take) (ρ : Env) : Exec Env :=
  takes.foldlM
    (fun ρ take => do bindTo self inner frames take.depth take.binder (← take.value) ρ) ρ

variable {self inner : Interp} {frames : List Nat} {d : Nat} {form : Form} {m : Exec Value}
  {takes : List Take} {ρ : Env}

theorem bindAll_name {s : Symbol} (h : Pattern.ofForm form = .ok (.name s)) :
    bindAll self inner frames (⟨d + 1, form, m⟩ :: takes) ρ = (do
      let v ← m
      bindAll self inner frames takes (ρ.bind (Name.spell s.name) v)) := by
  simp [bindAll, bindTo, h]

/-- A sequence pattern is made a sequence first; its parts are taken before the work that waits. -/
theorem bindAll_sequence {p : SequencePattern} (h : Pattern.ofForm form = .ok (.sequence p)) :
    bindAll self inner frames (⟨d + 1, form, m⟩ :: takes) ρ =
      ((m >>= fun v => self.call (.native (.library .seq)) [v]) >>= fun s =>
        bindAll self inner frames
          ((sequenceTakes self p s).map (fun part => ⟨d, part.1, part.2⟩) ++ takes)
          (ρ.bindAlias p.whole s)) := by
  simp [bindAll, bindTo, h, List.foldlM_map]

/-- A table pattern takes its entries before the work that waits. -/
theorem bindAll_table {p : TablePattern} (h : Pattern.ofForm form = .ok (.table p)) :
    bindAll self inner frames (⟨d + 1, form, m⟩ :: takes) ρ = (do
      let v ← m
      bindAll self inner frames
        ((tableTakes self inner frames (ρ.bindAlias p.whole v) p v).map
          (fun part => ⟨d, part.1, part.2⟩) ++ takes)
        (ρ.bindAlias p.whole v)) := by
  simp [bindAll, bindTo, h, List.foldlM_map]

end Reading

/-! ### One level of a pattern -/

/-- Is the form a default that needs no helper function and names only what `S` holds of? -/
def Form.isDefault (S : String → Bool) (form : Form) : Bool := form.isPlain && form.onlyNames S

namespace Pattern

variable {form : Form}

theorem depth_of_ofForm_sequence {p : SequencePattern} (h : ofForm form = .ok (.sequence p)) :
    ∀ item ∈ p.items ++ (p.rest.map Form.symbol).toList, item.depth < form.depth := by
  obtain ⟨items, span, rfl, hitems⟩ := items_of_ofForm_sequence h
  intro item hitem
  rcases List.mem_append.mp hitem with hitem | hitem
  · exact Nat.lt_succ_of_le (Form.depth_le_of_mem (hitems item hitem))
  · cases hrest : p.rest with
    | none => simp [hrest] at hitem
    | some r =>
      rw [hrest] at hitem
      rw [List.mem_singleton.mp hitem]
      exact Nat.succ_pos _

/-- Binders and defaults are less deep than the form of the pattern. -/
theorem depth_of_ofForm_table {p : TablePattern} (h : ofForm form = .ok (.table p)) :
    ∀ entry ∈ p.entries, entry.1.depth < form.depth ∧
      ∀ default, p.default? entry.2 = some default → default.depth < form.depth := by
  obtain ⟨first, items, span, rfl, htable⟩ := items_of_ofForm_table h
  have hitem {item : Form} (hitem : item ∈ items) :
      item.depth < (Form.vector (first :: items) span).depth :=
    Nat.lt_succ_of_le (Form.depth_le_of_mem (List.mem_cons_of_mem _ hitem))
  refine fun entry hentry => ⟨hitem (htable.binder entry hentry), fun default hdefault => ?_⟩
  obtain ⟨d, hfind, rfl⟩ := Option.map_eq_some_iff.mp hdefault
  obtain ⟨entries, span', key, hmap, hkey⟩ := htable.default d (List.mem_of_find?_eq_some hfind)
  have hlt := hitem hmap
  have hle : d.2.depth ≤ Form.depthOfEntries entries := (Form.depth_le_of_mem_entries hkey).2
  simp only [Form.depth] at hlt ⊢
  omega

end Pattern

namespace Lowering

variable {V : Veil} {S : String → Bool} {n : Nat} {lowering : Lowering} {c : Context}

/-- The expression has the value that an entry of a table pattern takes from the table in the
holder. -/
def TakesEntry (V : Veil) (S : String → Bool) (c : Context) (p : TablePattern) (holder : String)
    (entry : Form × Key) (e : Expr) : Prop :=
  ∀ ⦃self inner : Interp⦄ ⦃frames : List Nat⦄ ⦃ρ : Env⦄ ⦃σ : Store⦄ ⦃table : Value⦄,
    self.Nests V inner → V.Related S c ρ σ → σ holder = some table →
    V.Reads self frames σ e (do
      let k ← Reading.keyValue self entry.2
      Reading.lookup self inner frames ρ table k (p.default? entry.2))

theorem tablePart_takes (h : lowering.MeansPlain V S n) (c : Context) (p : TablePattern)
    (holder : String) (entry : Form × Key)
    (hdefault : ∀ form, p.default? entry.2 = some form →
      form.isDefault S = true ∧ form.depth < n) :
    ∃ e, tablePart lowering.expr p holder entry c = .ok (entry.1, e) c ∧
      TakesEntry V S c p holder entry e := by
  unfold tablePart TakesEntry
  cases hform : p.default? entry.2 with
  | none =>
    refine ⟨_, rfl, fun self inner frames ρ σ table hnests hρ htable => ?_⟩
    have hholder : V.Reads self frames σ (.load holder) (pure table) := .veiled none htable
    have hname : ("lookup", Native.library .lookup) ∈ Native.compiled := by simp [Native.compiled]
    have hreads := Reads.callOf hnests.insulated hname
      (.cons hholder (.cons (.key hnests.insulated entry.2) .nil))
    simp only [Reading.inOrder, pure_bind, bind_assoc] at hreads
    exact hreads
  | some form =>
    obtain ⟨hplain, hdepth⟩ := hdefault form hform
    obtain ⟨hplain, hnames⟩ := Bool.and_eq_true_iff.mp hplain
    obtain ⟨body, hbody, hmeant⟩ := h form hplain ⟨hnames, hdepth⟩ c
    refine ⟨.callOf "lookup" [.load holder, entry.2.expr, .thunk body none], ?_,
      fun self inner frames ρ σ table hnests hρ htable => lookup_reads hnests hρ htable hmeant⟩
    dsimp only
    rw [Compile.bind_eq hbody]
    rfl

/-- The entries of a table are lowered in order, and their expressions take what the reading
takes. -/
theorem tableParts_take (h : lowering.MeansPlain V S n) (c : Context) (p : TablePattern)
    (holder : String) (entries : List (Form × Key))
    (hdefaults : ∀ entry ∈ entries, ∀ form, p.default? entry.2 = some form →
      form.isDefault S = true ∧ form.depth < n) :
    ∃ parts, entries.mapM (tablePart lowering.expr p holder) c = .ok parts c ∧
      parts.map (·.1) = entries.map (·.1) ∧
      List.Forall₂ (fun (entry : Form × Key) (part : Work) =>
        part.1 = entry.1 ∧ TakesEntry V S c p holder entry part.2) entries parts := by
  induction entries with
  | nil => exact ⟨[], rfl, rfl, .nil⟩
  | cons entry entries ih =>
    rw [List.forall_mem_cons] at hdefaults
    obtain ⟨e, he, htakes⟩ := tablePart_takes h c p holder entry hdefaults.1
    obtain ⟨parts, hparts, hforms, hrest⟩ := ih hdefaults.2
    refine ⟨(entry.1, e) :: parts, ?_, by simp [hforms], .cons ⟨rfl, htakes⟩ hrest⟩
    rw [List.mapM_cons, Compile.bind_eq he, Compile.bind_eq hparts]
    rfl

theorem map_fst_sequenceParts (p : SequencePattern) (holder : String) :
    (sequenceParts p holder).map (·.1) = p.items ++ (p.rest.map Form.symbol).toList := by
  simp [sequenceParts, Function.comp_def, Option.map_map, ← Option.toList_map]

theorem sizeOfAll_sequenceParts (p : SequencePattern) (holder : String) :
    Form.sizeOfAll ((sequenceParts p holder).map (·.1)) = Pattern.sequenceSize p := by
  rw [map_fst_sequenceParts, Form.sizeOfAll_append, Pattern.sequenceSize]
  cases p.rest <;> simp [Form.sizeOfAll, Form.size]

end Lowering

end TailLisp
