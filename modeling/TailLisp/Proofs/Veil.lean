import TailLisp.Proofs.Reach

/-!
# TailLisp.Proofs.Veil

**Names that the rest of a run does not see.** Code that keeps values in variables of its own and
code that does without them run alike as long as nobody else looks at these variables. A `Veil`
says which variables are meant: some names of one frame, or some global names. `Veil.hide` takes
them out of a world, and a computation is `Veil.Insulated` if it runs in the world with the veiled
variables as it does in the world without them, and changes no variables.

A function that is called may see a veiled variable only if its own code reads that name and the
scope of the veil is among its frames. `Veil.Clean` says of a value that there is no such function
in it, and `Veil.Good` says so of all values of a world. The second half of the module goes through
the operations on the world.
-/

namespace TailLisp

/-- Some variables of one scope: of the frame `scope`, or global ones. -/
structure Veil where
  scope : Option Nat
  names : String → Bool

namespace Veil

variable (V : Veil)

/-- Do the frames lead to the scope of the veil? All of them lead to the global names. -/
def Sees (frames : List Nat) : Prop := ∀ ref, V.scope = some ref → ref ∈ frames

/-- Code that is run in the frames and reads the names does not read a veiled variable. -/
def Spares (frames : List Nat) (reads : List String) : Prop :=
  V.Sees frames → ∀ x ∈ reads, V.names x = false

mutual

/-- No function in the value reads a veiled variable. -/
def Clean : Value → Prop
  | .const _ => True
  | .complex _ => True
  | .list _ => True
  | .tuple items => CleanAll items
  | .dict entries => CleanEntries entries
  | .range .. => True
  | .keyword name place _ => Clean name ∧ CleanAll place
  | .symbol name place => Clean name ∧ CleanAll place
  | .function fn => V.Spares fn.frames (Stmt.readsOfAll fn.body)
  | .native _ => True
  | .bound _ => True
  | .iterator _ => True

/-- No function in the values reads a veiled variable. -/
def CleanAll : List Value → Prop
  | [] => True
  | v :: vs => Clean v ∧ CleanAll vs

/-- No function in the keys and values reads a veiled variable. -/
def CleanEntries : List (Value × Value) → Prop
  | [] => True
  | (k, v) :: es => (Clean k ∧ Clean v) ∧ CleanEntries es

end

/-- No function in what an iterator has left reads a veiled variable. -/
def CleanIter : Iter → Prop
  | .list .. => True
  | .row _ items => V.CleanAll items
  | .range .. => True
  | .map fn _ => V.Clean fn
  | .calls fn last => V.Clean fn ∧ V.Clean last

/-- No function of a world reads a veiled variable, and the scope of the veil exists. -/
structure Good (W : World) : Prop where
  globals : ∀ p ∈ W.globals, V.Clean p.2
  vars : ∀ ref, ∀ p ∈ W.varsOf ref, ∀ v ∈ p.2, V.Clean v
  lists : ∀ ref, ∀ v ∈ W.listAt ref, V.Clean v
  iters : ∀ ref, V.CleanIter (W.iters.getD ref (.row "" []))
  scope : ∀ ref, V.scope = some ref → ref < W.frames.size

/-- Variables without the veiled ones. -/
def hideVars {α : Type} (vars : List (String × α)) : List (String × α) :=
  vars.filter fun p => !V.names p.1

/-- A world without the veiled variables. -/
def hide (W : World) : World :=
  match V.scope with
  | none => { W with globals := V.hideVars W.globals }
  | some ref =>
    { W with frames := W.frames.modify ref fun frame =>
      { frame with vars := V.hideVars frame.vars } }

/-- The value of a veiled variable. -/
def hidden (W : World) (x : String) : Option Value :=
  if V.names x then
    match V.scope with
    | none => W.globals.lookup x
    | some ref => ((W.varsOf ref).lookup x).join
  else none

/-! ### Clean values -/

variable {V}

section Clean

variable {v w : Value} {vs ws : List Value} {es : List (Value × Value)}

@[simp] theorem cleanAll_iff : V.CleanAll vs ↔ ∀ v ∈ vs, V.Clean v := by
  induction vs with
  | nil => simp [CleanAll]
  | cons v vs ih => simp [CleanAll, ih]

@[simp] theorem cleanEntries_iff :
    V.CleanEntries es ↔ ∀ e ∈ es, V.Clean e.1 ∧ V.Clean e.2 := by
  induction es with
  | nil => simp [CleanEntries]
  | cons e es ih => simp [CleanEntries, ih]

@[simp] theorem clean_const (c : Constant) : V.Clean (.const c) := trivial

@[simp] theorem clean_complex (z : Complex) : V.Clean (.complex z) := trivial

@[simp] theorem clean_list (ref : Nat) : V.Clean (.list ref) := trivial

@[simp] theorem clean_range (start stop step : Int) : V.Clean (.range start stop step) := trivial

@[simp] theorem clean_native (fn : Native) : V.Clean (.native fn) := trivial

@[simp] theorem clean_bound (method : Bound) : V.Clean (.bound method) := trivial

@[simp] theorem clean_iterator (ref : Nat) : V.Clean (.iterator ref) := trivial

@[simp] theorem clean_nil : V.Clean .nil := trivial

@[simp] theorem clean_ofInt (i : Int) : V.Clean (.ofInt i) := trivial

@[simp] theorem clean_ofBool (b : Bool) : V.Clean (.ofBool b) := trivial

@[simp] theorem clean_ofString (s : String) : V.Clean (.ofString s) := trivial

@[simp] theorem clean_tuple : V.Clean (.tuple vs) ↔ ∀ v ∈ vs, V.Clean v := by
  rw [Clean, cleanAll_iff]

@[simp] theorem clean_dict : V.Clean (.dict es) ↔ ∀ e ∈ es, V.Clean e.1 ∧ V.Clean e.2 := by
  rw [Clean, cleanEntries_iff]

@[simp] theorem clean_keyword {id : Nat} :
    V.Clean (.keyword v vs id) ↔ V.Clean v ∧ ∀ u ∈ vs, V.Clean u := by
  rw [Clean, cleanAll_iff]

@[simp] theorem clean_symbol : V.Clean (.symbol v vs) ↔ V.Clean v ∧ ∀ u ∈ vs, V.Clean u := by
  rw [Clean, cleanAll_iff]

/-- A function is clean if its body reads no veiled variable in the frames that it closes over. -/
@[simp] theorem clean_function {fn : Function} :
    V.Clean (.function fn) ↔ V.Spares fn.frames (Stmt.readsOfAll fn.body) := by
  rw [Clean]

theorem clean_chars (s : String) : ∀ v ∈ Value.chars s, V.Clean v := by
  intro v hv
  obtain ⟨c, -, rfl⟩ := List.mem_map.mp hv
  exact clean_ofString _

end Clean

/-! ### Code that spares the veiled variables -/

section Spares

variable {frames : List Nat} {r s : List String}

theorem Spares.mono (h : V.Spares frames s) (hr : ∀ x ∈ r, x ∈ s) : V.Spares frames r :=
  fun hsees x hx => h hsees x (hr x hx)

@[simp] theorem spares_append :
    V.Spares frames (r ++ s) ↔ V.Spares frames r ∧ V.Spares frames s := by
  refine ⟨fun h => ⟨h.mono fun x hx => by simp [hx], h.mono fun x hx => by simp [hx]⟩, ?_⟩
  rintro ⟨hr, hs⟩ hsees x hx
  rcases List.mem_append.mp hx with hx | hx
  · exact hr hsees x hx
  · exact hs hsees x hx

/-- A frame other than the scope of the veil changes nothing about what code can see. -/
theorem Spares.cons {ref : Nat} (h : V.Spares frames r) (href : V.scope ≠ some ref) :
    V.Spares (ref :: frames) r := by
  intro hsees
  apply h
  intro scope hscope
  rcases List.mem_cons.mp (hsees scope hscope) with rfl | hmem
  · exact absurd hscope href
  · exact hmem

end Spares

/-! ### The world without the veiled variables -/

section Hide

variable (W : World)

@[simp] theorem hide_lists : (V.hide W).lists = W.lists := by
  unfold hide; split <;> rfl

@[simp] theorem hide_iters : (V.hide W).iters = W.iters := by
  unfold hide; split <;> rfl

@[simp] theorem hide_made : (V.hide W).made = W.made := by
  unfold hide; split <;> rfl

@[simp] theorem hide_room : (V.hide W).room = W.room := by
  unfold hide; split <;> rfl

@[simp] theorem hide_output : (V.hide W).output = W.output := by
  unfold hide; split <;> rfl

@[simp] theorem hide_size : (V.hide W).frames.size = W.frames.size := by
  unfold hide; split <;> simp

@[simp] theorem hide_listAt : (V.hide W).listAt = W.listAt := by
  funext ref; simp [World.listAt]

@[simp] theorem hide_items : (V.hide W).items = W.items := by
  funext ref; simp [World.items]

@[simp] theorem hide_iterKind : (V.hide W).iterKind = W.iterKind := by
  funext ref; simp [World.iterKind]

@[simp] theorem hide_listDatum (depth : Nat) (path : List Nat) :
    (V.hide W).listDatum depth path = W.listDatum depth path := by
  induction depth generalizing path with
  | zero => funext ref; rfl
  | succ depth ih => funext ref; simp [World.listDatum, ih]

@[simp] theorem hide_read : (V.hide W).read = W.read := by
  funext v; simp [World.read]

@[simp] theorem hide_typeName : (V.hide W).typeName = W.typeName := by
  funext v; cases v <;> simp [World.typeName]

@[simp] theorem hide_truth : (V.hide W).truth = W.truth := by
  funext v; cases v <;> simp [World.truth]

end Hide

end Veil

namespace Veil

variable {V : Veil} {α β : Type}

/-- The veiled variables keep their values where no variables change. -/
theorem hidden_of_leads {W W' : World} (hgood : V.Good W) (h : W.Leads .nothing W') :
    V.hidden W' = V.hidden W := by
  funext x
  unfold hidden
  cases hscope : V.scope with
  | none => simp [h.globals x fun _ hx => hx]
  | some ref => simp [h.varsOf (hgood.scope ref hscope)]

/-! ### Computations that do not see the veiled variables -/

variable (V) in
/-- The computation runs in a good world as it does without the veiled variables, leaves the world
good, and assigns nothing outside of its reach. What it returns has the property `Q`. -/
def Insulated (reach : Reach) (m : Exec α) (Q : α → Prop) : Prop :=
  ∀ ⦃W : World⦄, V.Good W →
    match m W with
    | .ok a W' => m (V.hide W) = .ok a (V.hide W') ∧ V.Good W' ∧ Q a ∧ W.Leads reach W'
    | .error e W' => m (V.hide W) = .error e (V.hide W') ∧ W.Leads reach W'

namespace Insulated

variable {reach : Reach} {m : Exec α} {Q R : α → Prop}

protected theorem pure {a : α} (h : Q a) : V.Insulated reach (pure a) Q :=
  fun _ hgood => ⟨rfl, hgood, h, .refl _⟩

theorem fail {e : Failure} : V.Insulated reach (Exec.fail e : Exec α) Q :=
  fun W _ => ⟨rfl, .refl W⟩

/-- Steps in a row. The second one may use what the first one has promised of its result. -/
protected theorem bind {R : β → Prop} {f : α → Exec β} (h : V.Insulated reach m Q)
    (hf : ∀ a, Q a → V.Insulated reach (f a) R) : V.Insulated reach (m >>= f) R := by
  intro W hgood
  have hm := h hgood
  cases hrun : m W with
  | error e W' =>
    rw [hrun] at hm
    rw [Exec.bind_error hrun, Exec.bind_error hm.1]
    exact ⟨rfl, hm.2⟩
  | ok a W' =>
    rw [hrun] at hm
    obtain ⟨hhide, hgood', hQ, hleads⟩ := hm
    rw [Exec.bind_ok hrun, Exec.bind_ok hhide]
    have hnext := hf a hQ hgood'
    cases hrun' : f a W' with
    | error e W'' =>
      rw [hrun'] at hnext
      exact ⟨hnext.1, hleads.trans hnext.2⟩
    | ok b W'' =>
      rw [hrun'] at hnext
      obtain ⟨hhide', hgood'', hR, hleads'⟩ := hnext
      exact ⟨hhide', hgood'', hR, hleads.trans hleads'⟩

theorem weaken (h : V.Insulated .nothing m Q) : V.Insulated reach m Q := by
  intro W hgood
  have hm := h hgood
  cases hrun : m W with
  | error e W' =>
    rw [hrun] at hm
    exact ⟨hm.1, hm.2.weaken⟩
  | ok a W' =>
    rw [hrun] at hm
    obtain ⟨hhide, hgood', ha, hleads⟩ := hm
    exact ⟨hhide, hgood', ha, hleads.weaken⟩

/-- Whether it fails or not, an insulated computation changes nothing outside of its reach. -/
theorem leads {W : World} (h : V.Insulated reach m Q) (hgood : V.Good W) :
    W.Leads reach (m.after W) := by
  have hm := h hgood
  unfold Exec.after
  cases hrun : m W with
  | error e W' =>
    rw [hrun] at hm
    exact hm.2
  | ok a W' =>
    rw [hrun] at hm
    exact hm.2.2.2

/-- A look at the world may use what the veil leaves as it is. -/
protected theorem get {k : World → Exec α} (hhide : ∀ W, k (V.hide W) = k W)
    (h : ∀ W, V.Good W → V.Insulated reach (k W) Q) : V.Insulated reach (get >>= k) Q := by
  intro W hgood
  have hrun : (MonadState.get >>= k) (V.hide W) = k W (V.hide W) :=
    congrFun (hhide W) (V.hide W)
  rw [hrun]
  exact h W hgood hgood

/-- A change of the world that leaves the veiled variables alone. -/
theorem change {f : World → α × World}
    (hhide : ∀ W, f (V.hide W) = ((f W).1, V.hide (f W).2))
    (hgood : ∀ W, V.Good W → V.Good (f W).2) (hQ : ∀ W, Q (f W).1)
    (hleads : ∀ W : World, W.Leads reach (f W).2) : V.Insulated reach (modifyGet f) Q := by
  intro W hW
  have hrun : (modifyGet f : Exec α) (V.hide W) = .ok (f W).1 (V.hide (f W).2) := by
    show EStateM.Result.ok (f (V.hide W)).1 (f (V.hide W)).2 = _
    rw [hhide W]
  exact ⟨hrun, hgood W hW, hQ W, hleads W⟩

theorem mapM {γ : Type} {f : γ → Exec α} {xs : List γ}
    (h : ∀ x ∈ xs, V.Insulated reach (f x) Q) :
    V.Insulated reach (xs.mapM f) fun ys => ∀ y ∈ ys, Q y := by
  induction xs with
  | nil => exact .pure (by simp)
  | cons x xs ih =>
    rw [List.mapM_cons]
    refine (h x (by simp)).bind fun y hy => ?_
    refine (ih fun x hx => h x (by simp [hx])).bind fun ys hys => ?_
    exact .pure (by simpa [hy] using hys)

theorem foldlM {γ : Type} {f : α → γ → Exec α} {xs : List γ} {a : α} (ha : Q a)
    (h : ∀ a, Q a → ∀ x ∈ xs, V.Insulated reach (f a x) Q) :
    V.Insulated reach (xs.foldlM f a) Q := by
  induction xs generalizing a with
  | nil => exact .pure ha
  | cons x xs ih =>
    rw [List.foldlM_cons]
    refine (h a ha x (by simp)).bind fun b hb => ?_
    exact ih hb fun a ha x hx => h a ha x (by simp [hx])

end Insulated

/-! ### Operations on the world -/

variable {reach : Reach}

/-- Lists and iterators with clean values, marks and output may change. -/
theorem Good.withHeap {W : World} (h : V.Good W) {lists : Array (Array Value)}
    {iters : Array Iter} {made : Nat} {output : String}
    (hlists : ∀ ref, ∀ v ∈ lists.getD ref #[], V.Clean v)
    (hiters : ∀ ref, V.CleanIter (iters.getD ref (.row "" []))) :
    V.Good { W with lists, iters, made, output } :=
  ⟨h.globals, h.vars, hlists, hiters, h.scope⟩

theorem newId_insulated : V.Insulated reach Exec.newId fun _ => True := by
  refine .change (fun W => ?_) (fun W hW => hW.withHeap hW.lists hW.iters) (fun _ => trivial)
    fun W => .withHeap W (Nat.le_refl _) (Nat.le_refl _) (Nat.le_succ _)
  cases hscope : V.scope <;> simp [hide, hscope]

theorem newList_insulated {items : List Value} (h : ∀ v ∈ items, V.Clean v) :
    V.Insulated reach (Exec.newList items) V.Clean := by
  refine .change (fun W => ?_) (fun W hW => hW.withHeap (fun ref v hv => ?_) hW.iters)
    (fun W => clean_list _) fun W => .withHeap W (by simp) (Nat.le_refl _) (Nat.le_refl _)
  · cases hscope : V.scope <;> simp [hide, hscope]
  · by_cases href : ref = W.lists.size
    · subst href
      simp [Array.getD_eq_getD_getElem?] at hv
      exact h v hv
    · have hold := hW.lists ref v
      simp only [World.listAt, Array.getD_eq_getD_getElem?] at hold hv
      rw [Array.getElem?_push, if_neg href] at hv
      exact hold hv

theorem listAt_insulated (ref : Nat) :
    V.Insulated reach (Exec.listAt ref) fun items => ∀ v ∈ items, V.Clean v :=
  .get (fun W => by simp) fun _ hW => .pure (hW.lists ref)

theorem items_insulated (ref : Nat) :
    V.Insulated reach (Exec.items ref) fun items => ∀ v ∈ items, V.Clean v :=
  .get (fun W => by simp) fun W hW => .pure fun v hv =>
    hW.lists ref v (by simpa [World.items] using hv)

theorem newIter_insulated {iter : Iter} (h : V.CleanIter iter) :
    V.Insulated reach (Exec.newIter iter) fun _ => True := by
  refine .change (fun W => ?_) (fun W hW => hW.withHeap hW.lists fun ref => ?_)
    (fun _ => trivial) fun W => .withHeap W (Nat.le_refl _) (by simp) (Nat.le_refl _)
  · cases hscope : V.scope <;> simp [hide, hscope]
  · by_cases href : ref = W.iters.size
    · subst href
      simpa [Array.getD_eq_getD_getElem?] using h
    · have hold := hW.iters ref
      rw [Array.getD_eq_getD_getElem?] at hold ⊢
      rwa [Array.getElem?_push, if_neg href]

theorem iterAt_insulated (ref : Nat) : V.Insulated reach (Exec.iterAt ref) V.CleanIter :=
  .get (fun W => by simp) fun _ hW => .pure (hW.iters ref)

theorem setIter_insulated (ref : Nat) {iter : Iter} (h : V.CleanIter iter) :
    V.Insulated reach (Exec.setIter ref iter) fun _ => True := by
  refine .change (fun W => ?_) (fun W hW => hW.withHeap hW.lists fun other => ?_)
    (fun _ => trivial) fun W => .withHeap W (Nat.le_refl _) (by simp) (Nat.le_refl _)
  · cases hscope : V.scope <;> simp [hide, hscope]
  · have hold := hW.iters other
    rw [Array.getD_eq_getD_getElem?] at hold ⊢
    rw [Array.getElem?_setIfInBounds]
    split
    · split
      · simpa using h
      · simp [CleanIter]
    · exact hold

theorem print_insulated (text : String) : V.Insulated reach (Exec.print text) fun _ => True := by
  refine .change (fun W => ?_) (fun W hW => hW.withHeap hW.lists hW.iters) (fun _ => trivial)
    fun W => .withHeap W (Nat.le_refl _) (Nat.le_refl _) (Nat.le_refl _)
  cases hscope : V.scope <;> simp [hide, hscope]

theorem lift_insulated (e : Except Failure α) : V.Insulated reach (Exec.lift e) fun _ => True := by
  cases e with
  | ok a => exact .pure trivial
  | error e => exact .fail

theorem read_insulated (v : Value) : V.Insulated reach (Exec.read v) fun _ => True :=
  .get (fun W => by simp) fun _ _ => .pure trivial

theorem typeName_insulated (v : Value) : V.Insulated reach (Exec.typeName v) fun _ => True :=
  .get (fun W => by simp) fun _ _ => .pure trivial

theorem truth_insulated (v : Value) : V.Insulated reach (Exec.truth v) fun _ => True :=
  .get (fun W => by simp) fun _ _ => .pure trivial

theorem equal_insulated (a b : Value) : V.Insulated reach (Exec.equal a b) fun _ => True :=
  (read_insulated a).bind fun _ _ => (read_insulated b).bind fun _ _ => .pure trivial

theorem same_insulated (a b : Value) : V.Insulated reach (Exec.same a b) fun _ => True :=
  (read_insulated a).bind fun _ _ => (read_insulated b).bind fun _ _ => .pure trivial

theorem text_insulated (v : Value) : V.Insulated reach (Exec.text v) fun _ => True := by
  refine (read_insulated v).bind fun datum _ => ?_
  cases datum.unwritable? true with
  | none => exact .pure trivial
  | some fault => exact .fail

theorem shown_insulated (v : Value) : V.Insulated reach (Exec.shown v) fun _ => True := by
  refine (read_insulated v).bind fun datum _ => ?_
  cases datum.unwritable? false with
  | none => exact .pure trivial
  | some fault => exact .fail

theorem ofNumber_insulated (n : Number) : V.Insulated reach (Exec.ofNumber n) V.Clean := by
  unfold Exec.ofNumber
  split
  · refine newId_insulated.bind fun id _ => ?_
    cases n <;> exact .pure (by simp)
  · cases n <;> exact .pure (by simp)

end Veil

end TailLisp
