import TailLisp.Run.World

/-!
# TailLisp.Proofs.Reach

**What a run can change.** A run makes objects and gives out marks, and it assigns variables. It
takes nothing of this back, and it assigns variables of one place only: of the innermost frame, or
of the outermost level where there is none. `Reach` names that place and the variables there, and
`World.Leads` says of two worlds that a run with the given reach can lead from one to the other.
-/

namespace TailLisp

/-- One world has no more objects than the other, and has given out no more marks. -/
structure World.Within (W B : World) : Prop where
  frames : W.frames.size ≤ B.frames.size
  lists : W.lists.size ≤ B.lists.size
  iters : W.iters.size ≤ B.iters.size
  made : W.made ≤ B.made

namespace World.Within

@[refl] theorem refl (W : World) : W.Within W :=
  ⟨Nat.le_refl _, Nat.le_refl _, Nat.le_refl _, Nat.le_refl _⟩

theorem trans {W₁ W₂ W₃ : World} (h : W₁.Within W₂) (h' : W₂.Within W₃) : W₁.Within W₃ :=
  ⟨Nat.le_trans h.frames h'.frames, Nat.le_trans h.lists h'.lists, Nat.le_trans h.iters h'.iters,
    Nat.le_trans h.made h'.made⟩

end World.Within

/-- The variables that a run may assign: those with one of the names in one place, which is a frame,
or the outermost level if there is none. -/
structure Reach where
  site : Option Nat
  names : String → Prop

/-- The run may assign nothing. -/
def Reach.nothing : Reach := ⟨none, fun _ => False⟩

/-- The run may assign all variables of a frame. -/
def Reach.frame (ref : Nat) : Reach := ⟨some ref, fun _ => True⟩

/-- A run leads from one world to the other and assigns nothing outside of its reach. -/
structure World.Leads (reach : Reach) (W W₁ : World) : Prop where
  within : W.Within W₁
  globals : ∀ x, (reach.site = none → ¬reach.names x) → W₁.globals.lookup x = W.globals.lookup x
  frames : ∀ ref < W.frames.size, reach.site ≠ some ref → W₁.frames[ref]? = W.frames[ref]?
  vars : ∀ ref < W.frames.size, ∀ x, ¬reach.names x →
    (W₁.varsOf ref).lookup x = (W.varsOf ref).lookup x

namespace World.Leads

variable {reach : Reach} {W W₁ W₂ : World}

@[refl] theorem refl (W : World) : W.Leads reach W :=
  ⟨.refl W, fun _ _ => rfl, fun _ _ _ => rfl, fun _ _ _ _ => rfl⟩

theorem trans (h : W.Leads reach W₁) (h' : W₁.Leads reach W₂) : W.Leads reach W₂ := by
  refine ⟨h.within.trans h'.within, fun x hx => ?_, fun ref href hsite => ?_,
    fun ref href x hx => ?_⟩
  · rw [h'.globals x hx, h.globals x hx]
  · rw [h'.frames ref (Nat.lt_of_lt_of_le href h.within.frames) hsite, h.frames ref href hsite]
  · rw [h'.vars ref (Nat.lt_of_lt_of_le href h.within.frames) x hx, h.vars ref href x hx]

theorem mono {site : Option Nat} {names names' : String → Prop} (h : W.Leads ⟨site, names⟩ W₁)
    (hnames : ∀ x, names x → names' x) : W.Leads ⟨site, names'⟩ W₁ :=
  ⟨h.within, fun x hx => h.globals x fun hsite hname => hx hsite (hnames x hname), h.frames,
    fun ref href x hx => h.vars ref href x fun hname => hx (hnames x hname)⟩

/-- Frames that are as they were have the variables that they had. -/
theorem varsOf_eq {ref : Nat} (h : W₁.frames[ref]? = W.frames[ref]?) :
    W₁.varsOf ref = W.varsOf ref := by
  simp only [World.varsOf, Array.getD_eq_getD_getElem?, h]

theorem weaken (h : W.Leads .nothing W₁) : W.Leads reach W₁ := by
  refine ⟨h.within, fun x _ => h.globals x fun _ hx => hx,
    fun ref href _ => h.frames ref href nofun, fun ref href x _ => ?_⟩
  rw [varsOf_eq (h.frames ref href nofun)]

/-- What happens in a frame that was not there before leaves the variables that were. -/
theorem ofNew {ref : Nat} (h : W.Leads (.frame ref) W₁) (href : W.frames.size ≤ ref) :
    W.Leads .nothing W₁ := by
  have hframes (other : Nat) (hother : other < W.frames.size) :
      W₁.frames[other]? = W.frames[other]? := by
    refine h.frames other hother fun heq => ?_
    cases heq
    omega
  refine ⟨h.within, fun x _ => h.globals x nofun, fun other hother _ => hframes other hother,
    fun other hother x _ => ?_⟩
  rw [varsOf_eq (hframes other hother)]

/-- A world with other lists, iterators and marks, and at least as many of them. -/
theorem withHeap (W : World) {lists : Array (Array Value)} {iters : Array Iter} {made : Nat}
    {output : String} (hlists : W.lists.size ≤ lists.size) (hiters : W.iters.size ≤ iters.size)
    (hmade : W.made ≤ made) : W.Leads reach { W with lists, iters, made, output } :=
  ⟨⟨Nat.le_refl _, hlists, hiters, hmade⟩, fun _ _ => rfl, fun _ _ _ => rfl, fun _ _ _ _ => rfl⟩

theorem push (W : World) (frame : Frame) :
    W.Leads .nothing { W with frames := W.frames.push frame } := by
  have hframes (ref : Nat) (href : ref < W.frames.size) :
      (W.frames.push frame)[ref]? = W.frames[ref]? := by
    have hne : ref ≠ W.frames.size := by omega
    simp [Array.getElem?_push, hne]
  refine ⟨⟨by simp, Nat.le_refl _, Nat.le_refl _, Nat.le_refl _⟩, fun _ _ => rfl,
    fun ref href _ => hframes ref href, fun ref href x _ => ?_⟩
  rw [varsOf_eq (hframes ref href)]

/-- The variables of a frame that the run does not reach. -/
theorem varsOf (h : W.Leads .nothing W₁) {ref : Nat} (href : ref < W.frames.size) :
    W₁.varsOf ref = W.varsOf ref :=
  varsOf_eq (h.frames ref href nofun)

end World.Leads

namespace Exec

variable {α β : Type} {m : Exec α} {f : α → Exec β} {W W' : World}

theorem bind_ok {a : α} (h : m W = .ok a W') : (m >>= f) W = f a W' := by
  show EStateM.bind m f W = _
  simp [EStateM.bind, h]

theorem bind_error {e : Failure} (h : m W = .error e W') : (m >>= f) W = .error e W' := by
  show EStateM.bind m f W = _
  simp [EStateM.bind, h]

/-- The world that a run leaves, however it ends. -/
def after (m : Exec α) (W : World) : World :=
  match m W with
  | .ok _ W₁ => W₁
  | .error _ W₁ => W₁

end Exec

end TailLisp
