import TailLisp.Proofs.Jumps
import TailLisp.Proofs.StmtMeaning

/-!
# TailLisp.Proofs.Footprint

**What lowering leaves behind.** The `Footprint` of code are the functions it defines, the names it
binds and the names it reads where no function of that name is in scope. Lowering emits code piece
by piece, while helper functions pile up that are to stand before it, so the invariant
`Context.Placed` is about the footprint of the code after its helpers:

* the helpers are made on the way, each has a name of its own, and no variable has the name of one;
* a temporary that is read is a helper in scope, a variable, or was there before.

`Compile.Leaves` says this of a step on its own and `Compile.Extends` of a step that goes on from
code which was emitted before. The core of the module is the frame rule that connects the two
(`Compile.Leaves.frame`): what two steps emit one after the other can be put together, although the
helpers of both stand before the code of both.
-/

namespace TailLisp

/-- Could the name be that of a temporary: does it begin with `p` and end in a number? -/
def isTemp (p x : String) : Bool := (tempNumber? p x).isSome

/-! ### Functions and reads of statements -/

namespace Stmt

/-- The name of the function that the statement is the definition of. -/
def ownName? : Stmt → Option String
  | .define name _ _ _ _ => some name
  | _ => none

/-- The names of the functions that stand in a block themselves. -/
def ownNames (ss : List Stmt) : List String := ss.filterMap ownName?

mutual

/-- The names of the functions that a statement defines, at any depth. -/
def defines : Stmt → List String
  | .assign _ _ _ => []
  | .eval _ _ => []
  | .ret _ _ => []
  | .branch _ yes no _ => definesOfAll yes ++ definesOfAll no
  | .loop _ body _ => definesOfAll body
  | .define name _ _ body _ => name :: definesOfAll body
  | .skip _ => []
  | .next _ => []

/-- The names of the functions that statements define. -/
def definesOfAll : List Stmt → List String
  | [] => []
  | s :: ss => defines s ++ definesOfAll ss

end

mutual

/-- The names that a statement reads, at any depth, where no function of that name stands before
the read in one of the blocks around it. -/
def outerReads : Stmt → List String
  | .assign _ value _ => value.reads
  | .eval value _ => value.reads
  | .ret value _ => value.reads
  | .branch test yes no _ => test.reads ++ outerReadsOfAll yes ++ outerReadsOfAll no
  | .loop test body _ => test.reads ++ outerReadsOfAll body
  | .define _ _ _ body _ => outerReadsOfAll body
  | .skip _ => []
  | .next _ => []

/-- The names that the statements of a block read without a function of that name before it. -/
def outerReadsOfAll : List Stmt → List String
  | [] => []
  | s :: ss => outerReads s ++ (outerReadsOfAll ss).filter fun x => s.ownName? ≠ some x

end

theorem eq_define_of_ownName? {s : Stmt} {x : String} (h : s.ownName? = some x) :
    ∃ params rest body place, s = .define x params rest body place := by
  cases s with
  | define name params rest body place =>
    cases h
    exact ⟨params, rest, body, place, rfl⟩
  | _ => cases h

theorem mem_defines_of_ownName? {s : Stmt} {x : String} (h : s.ownName? = some x) :
    x ∈ s.defines := by
  obtain ⟨params, rest, body, place, rfl⟩ := eq_define_of_ownName? h
  exact List.mem_cons_self

theorem ownNames_append (ss ts : List Stmt) : ownNames (ss ++ ts) = ownNames ss ++ ownNames ts :=
  List.filterMap_append

theorem definesOfAll_append (ss ts : List Stmt) :
    definesOfAll (ss ++ ts) = definesOfAll ss ++ definesOfAll ts := by
  induction ss with
  | nil => rfl
  | cons s ss ih => simp [definesOfAll, ih]

theorem bindsOfAll_append (ss ts : List Stmt) :
    bindsOfAll (ss ++ ts) = bindsOfAll ss ++ bindsOfAll ts := by
  induction ss with
  | nil => rfl
  | cons s ss ih => simp [bindsOfAll, ih]

theorem mem_bindsOfAll {ss : List Stmt} {s : Stmt} {x : String} (hs : s ∈ ss) (hx : x ∈ s.binds) :
    x ∈ bindsOfAll ss := by
  induction ss with
  | nil => cases hs
  | cons t ss ih =>
    rcases List.mem_cons.mp hs with rfl | hs
    · exact List.mem_append.mpr (.inl hx)
    · exact List.mem_append.mpr (.inr (ih hs))

theorem bindsOfAll_flatMap {α : Type} {f : α → List Stmt} {as : List α} {a : α} {x : String}
    (ha : a ∈ as) (hx : x ∈ bindsOfAll (f a)) : x ∈ bindsOfAll (as.flatMap f) := by
  induction as with
  | nil => cases ha
  | cons b as ih =>
    rw [List.flatMap_cons, bindsOfAll_append]
    rcases List.mem_cons.mp ha with rfl | ha
    · exact List.mem_append.mpr (.inl hx)
    · exact List.mem_append.mpr (.inr (ih ha))

/-- What a row reads from outside. A name that the first part defines is not read from outside by
the second. -/
theorem mem_outerReadsOfAll_append {ss ts : List Stmt} {x : String} :
    x ∈ outerReadsOfAll (ss ++ ts) ↔
      x ∈ outerReadsOfAll ss ∨ x ∈ outerReadsOfAll ts ∧ x ∉ ownNames ss := by
  induction ss with
  | nil => simp [outerReadsOfAll, ownNames]
  | cons s ss ih =>
    have hown : x ∈ ownNames (s :: ss) ↔ s.ownName? = some x ∨ x ∈ ownNames ss := by
      simp [ownNames]
    simp only [List.cons_append, outerReadsOfAll, List.mem_append, List.mem_filter, ih, hown,
      decide_eq_true_eq]
    tauto

end Stmt

/-! ### Names that are read before they are bound -/

namespace Binding

variable {x : String} {targets bound : List String}

/-- Is the name read by one of the steps, while no step before it has the name as its target? -/
def ReadEarly (x : String) : List Step → Prop
  | [] => False
  | (target, names) :: rest => x ∈ names ∨ x ≠ target ∧ ReadEarly x rest

/-- Each name of a step is added once, if it is a target and not bound yet. -/
theorem mem_foldl_new {names found : List String} :
    x ∈ names.foldl (fun found name =>
      if targets.contains name && !bound.contains name && !found.contains name
      then found ++ [name] else found) found ↔
      x ∈ found ∨ x ∈ names ∧ x ∈ targets ∧ x ∉ bound := by
  induction names generalizing found with
  | nil => simp
  | cons name names ih =>
    rw [List.foldl_cons, ih, List.mem_cons]
    by_cases hfound : x ∈ found
    · split <;> simp [hfound]
    · by_cases hname : x = name
      · subst hname
        split <;> simp_all
      · split <;> simp [hfound, hname]

theorem mem_readBeforeBoundFrom {steps : List Step} {found : List String} :
    x ∈ readBeforeBoundFrom targets bound found steps ↔
      x ∈ found ∨ x ∈ targets ∧ x ∉ bound ∧ ReadEarly x steps := by
  induction steps generalizing bound found with
  | nil => simp [readBeforeBoundFrom, ReadEarly]
  | cons step rest ih =>
    obtain ⟨target, names⟩ := step
    rw [readBeforeBoundFrom, ih, mem_foldl_new, List.mem_mergeSort, ReadEarly]
    simp only [List.mem_cons]
    tauto

/-- A name is read before it is bound if it is a target of some step and an earlier or the same step
reads it. -/
theorem mem_readBeforeBound {steps : List Step} :
    x ∈ readBeforeBound steps ↔ x ∈ steps.map (·.1) ∧ ReadEarly x steps := by
  rw [readBeforeBound, mem_readBeforeBoundFrom]
  simp

end Binding

/-! ### Footprints -/

/-- What code defines, binds and reads. -/
structure Footprint where
  defines : List String
  binds : List String
  reads : List String

namespace Footprint

open Stmt

/-- The footprint of no code. -/
protected def none : Footprint := ⟨[], [], []⟩

instance : Append Footprint :=
  ⟨fun a b => ⟨a.defines ++ b.defines, a.binds ++ b.binds, a.reads ++ b.reads⟩⟩

/-- Names that are to be defined. -/
def ofDefines (xs : List String) : Footprint := ⟨xs, [], []⟩

/-- Names that are to be bound. -/
def ofBinds (xs : List String) : Footprint := ⟨[], xs, []⟩

/-- Names that are read. -/
def ofReads (xs : List String) : Footprint := ⟨[], [], xs⟩

/-- The footprint of an expression. -/
def ofExpr (e : Expr) : Footprint := ofReads e.reads

/-- The footprint of statements. -/
def ofStmts (ss : List Stmt) : Footprint := ⟨definesOfAll ss, bindsOfAll ss, outerReadsOfAll ss⟩

/-- The footprint of bindings. -/
def ofBindings (bs : List Binding) : Footprint :=
  ⟨[], bs.map (·.target), bs.flatMap (·.value.reads)⟩

/-- The footprint of a function, its own name left out. -/
def ofFunction (params : List String) (rest : Option String) (body : List Stmt) : Footprint :=
  ofBinds (params ++ rest.toList) ++ ofStmts body

/-- The footprint of code after helpers. -/
def after (helpers : List Stmt) (code : Footprint) : Footprint :=
  ⟨definesOfAll helpers ++ code.defines, bindsOfAll helpers ++ code.binds,
    outerReadsOfAll helpers ++ code.reads.filter fun x => x ∉ ownNames helpers⟩

/-- The footprints of pieces of code together. -/
def join {α : Type} (f : α → Footprint) : List α → Footprint
  | [] => .none
  | a :: as => f a ++ join f as

variable {a b : Footprint} {x : String}

@[simp] theorem append_defines : (a ++ b).defines = a.defines ++ b.defines := rfl

@[simp] theorem append_binds : (a ++ b).binds = a.binds ++ b.binds := rfl

@[simp] theorem append_reads : (a ++ b).reads = a.reads ++ b.reads := rfl

protected theorem append_assoc (a b d : Footprint) : a ++ b ++ d = a ++ (b ++ d) := by
  show Footprint.mk _ _ _ = Footprint.mk _ _ _
  simp

theorem mem_after_binds {helpers : List Stmt} :
    x ∈ (a.after helpers).binds ↔ x ∈ bindsOfAll helpers ∨ x ∈ a.binds := List.mem_append

theorem mem_after_reads {helpers : List Stmt} :
    x ∈ (a.after helpers).reads ↔
      x ∈ outerReadsOfAll helpers ∨ x ∈ a.reads ∧ x ∉ ownNames helpers := by
  simp [after]

theorem after_nil (a : Footprint) : a.after [] = a := by
  simp [after, definesOfAll, bindsOfAll, outerReadsOfAll, ownNames]

/-- Names that are defined, bound and read by one piece of code are so by another one, as far as
temporaries are concerned; it may also bind the names `K` and read the names `L`. -/
structure Covers (p : String) (K L : List String) (whole part : Footprint) : Prop where
  defines : (part.defines.filter (isTemp p)).Perm (whole.defines.filter (isTemp p))
  bound : ∀ x ∈ whole.binds, isTemp p x = true → x ∈ part.binds
  binds : ∀ x ∈ part.binds, isTemp p x = true → x ∈ whole.binds ∨ x ∈ K
  reads : ∀ x ∈ part.reads, isTemp p x = true → x ∈ whole.reads ∨ x ∈ part.binds ∨ x ∈ L

namespace Covers

variable {p : String} {K L : List String}

theorem refl (a : Footprint) : Covers p K L a a :=
  ⟨.refl _, fun _ h _ => h, fun _ h _ => .inl h, fun _ h _ => .inl h⟩

theorem after {whole part : Footprint} (h : Covers p K L whole part) (helpers : List Stmt) :
    Covers p K L (whole.after helpers) (part.after helpers) where
  defines := by
    simp only [Footprint.after, List.filter_append]
    exact h.defines.append_left _
  bound x hx htemp := by
    rw [mem_after_binds] at hx ⊢
    exact hx.imp_right fun hx => h.bound x hx htemp
  binds x hx htemp := by
    rw [mem_after_binds] at hx ⊢
    rcases hx with hx | hx
    · exact .inl (.inl hx)
    · exact (h.binds x hx htemp).imp_left .inr
  reads x hx htemp := by
    rw [mem_after_reads] at hx ⊢
    rw [mem_after_binds]
    rcases hx with hx | ⟨hx, hown⟩
    · exact .inl (.inl hx)
    · rcases h.reads x hx htemp with hx | hx
      · exact .inl (.inr ⟨hx, hown⟩)
      · exact .inr (hx.imp_left .inr)

theorem trans {a b d : Footprint} (h : Covers p K L a b) (h' : Covers p K L b d) :
    Covers p K L a d where
  defines := h'.defines.trans h.defines
  bound x hx htemp := h'.bound x (h.bound x hx htemp) htemp
  binds x hx htemp := by
    rcases h'.binds x hx htemp with hx | hx
    · exact h.binds x hx htemp
    · exact .inr hx
  reads x hx htemp := by
    rcases h'.reads x hx htemp with hx | hx
    · rcases h.reads x hx htemp with hx | hx | hx
      · exact .inl hx
      · exact .inr (.inl (h'.bound x hx htemp))
      · exact .inr (.inr hx)
    · exact .inr hx

theorem append {a b a' b' : Footprint} (h : Covers p K L a a') (h' : Covers p K L b b') :
    Covers p K L (a ++ b) (a' ++ b') where
  defines := by
    simp only [append_defines, List.filter_append]
    exact h.defines.append h'.defines
  bound x hx htemp := by
    rw [append_binds, List.mem_append] at hx ⊢
    exact hx.imp (fun hx => h.bound x hx htemp) fun hx => h'.bound x hx htemp
  binds x hx htemp := by
    rw [append_binds, List.mem_append] at hx ⊢
    rcases hx with hx | hx
    · exact (h.binds x hx htemp).imp_left .inl
    · exact (h'.binds x hx htemp).imp_left .inr
  reads x hx htemp := by
    simp only [append_binds, append_reads, List.mem_append] at hx ⊢
    rcases hx with hx | hx
    · have := h.reads x hx htemp
      tauto
    · have := h'.reads x hx htemp
      tauto

theorem of_eq {a b : Footprint} (h : a = b) : Covers p K L a b := h ▸ refl a

/-- The order of two pieces of code does not matter to their footprint. -/
theorem swap (a b : Footprint) : Covers p K L (a ++ b) (b ++ a) where
  defines := List.Perm.filter _ List.perm_append_comm
  bound _ hx _ := List.mem_append.mpr (List.mem_append.mp hx).symm
  binds _ hx _ := .inl (List.mem_append.mpr (List.mem_append.mp hx).symm)
  reads _ hx _ := .inl (List.mem_append.mpr (List.mem_append.mp hx).symm)

/-- Code that binds and reads only what may be bound and read. -/
theorem grow {a b : Footprint} (hdefines : b.defines = [])
    (hbinds : ∀ x ∈ b.binds, isTemp p x = true → x ∈ K)
    (hreads : ∀ x ∈ b.reads, isTemp p x = true → x ∈ a.reads ∨ x ∈ a.binds ∨ x ∈ L) :
    Covers p K L a (a ++ b) where
  defines := by rw [append_defines, hdefines, List.append_nil]
  bound _ hx _ := List.mem_append.mpr (.inl hx)
  binds x hx htemp := (List.mem_append.mp hx).imp_right fun hx => hbinds x hx htemp
  reads x hx htemp := by
    rcases List.mem_append.mp hx with hx | hx
    · exact .inl hx
    · exact (hreads x hx htemp).imp_right fun hx =>
        hx.imp_left fun hx => List.mem_append.mpr (.inl hx)

/-- Code whose variables are bound by other code. -/
theorem drop {a b : Footprint} (hdefines : a.defines = []) (hbinds : ∀ x ∈ a.binds, x ∈ b.binds) :
    Covers p K L (a ++ b) b where
  defines := by rw [append_defines, hdefines, List.nil_append]
  bound x hx _ := (List.mem_append.mp hx).elim (hbinds x) id
  binds _ hx _ := .inl (List.mem_append.mpr (.inr hx))
  reads _ hx _ := .inl (List.mem_append.mpr (.inr hx))

/-- Reads of names that may be read. -/
theorem ofReads {xs : List String} (h : ∀ x ∈ xs, isTemp p x = true → x ∈ L) :
    Covers p K L .none (.ofReads xs) :=
  grow (a := .none) (b := .ofReads xs) rfl (fun _ hx => nomatch hx) fun x hx htemp =>
    .inr (.inr (h x hx htemp))

/-- More reads of names that are there. -/
theorem addReads {a : Footprint} {xs : List String}
    (h : ∀ x ∈ xs, isTemp p x = true → x ∈ a.reads ∨ x ∈ a.binds ∨ x ∈ L) :
    Covers p K L a (.ofReads xs ++ a) :=
  (grow (b := .ofReads xs) rfl (fun _ hx => nomatch hx) h).trans (.swap a (.ofReads xs))

/-- Reads in the middle of code of names that are there before it. -/
theorem insertReads {a b : Footprint} {xs : List String}
    (h : ∀ x ∈ xs, isTemp p x = true → x ∈ a.reads ∨ x ∈ a.binds ∨ x ∈ L) :
    Covers p K L (a ++ b) (a ++ (.ofReads xs ++ b)) := by
  rw [← Footprint.append_assoc]
  exact (grow (b := .ofReads xs) rfl (fun _ hx => nomatch hx) h).append (.refl b)

/-- Definitions of names that are no temporaries. -/
theorem ofDefines {x : String} (hx : isTemp p x = false) : Covers p K L .none (.ofDefines [x]) where
  defines := by simp [Footprint.ofDefines, Footprint.none, hx]
  bound _ hx := nomatch hx
  binds _ hx := nomatch hx
  reads _ hx := nomatch hx

/-- Reads that are no longer needed. -/
theorem dropReads (xs : List String) (a : Footprint) : Covers p K L (.ofReads xs ++ a) a :=
  drop rfl fun _ hx => nomatch hx

/-- Statements one after the other. -/
theorem stmts (ss ts : List Stmt) :
    Covers p K L (ofStmts ss ++ ofStmts ts) (ofStmts (ss ++ ts)) where
  defines := by simp [ofStmts, definesOfAll_append]
  bound x hx _ := by simpa [ofStmts, bindsOfAll_append] using hx
  binds x hx _ := .inl (by simpa [ofStmts, bindsOfAll_append] using hx)
  reads x hx _ := by
    refine .inl (List.mem_append.mpr ?_)
    exact (mem_outerReadsOfAll_append.mp hx).imp_right And.left

/-- Statements after their helpers. -/
theorem helpers (hs ss : List Stmt) :
    Covers p K L ((ofStmts ss).after hs) (ofStmts (hs ++ ss)) where
  defines := by simp [ofStmts, Footprint.after, definesOfAll_append]
  bound x hx _ := by simpa [ofStmts, Footprint.after, bindsOfAll_append] using hx
  binds x hx _ := .inl (by simpa [ofStmts, Footprint.after, bindsOfAll_append] using hx)
  reads x hx _ := .inl (mem_after_reads.mpr (mem_outerReadsOfAll_append.mp hx))

/-- Helpers are put in front of the statements that they were made for. -/
theorem withHelpers {code : Footprint} {ss : List Stmt} (h : Covers p K L code (ofStmts ss))
    (hs : List Stmt) : Covers p K L (code.after hs) (ofStmts (hs ++ ss)) :=
  (h.after hs).trans (.helpers hs ss)

/-- Statements that come from pieces of code one after the other. -/
theorem flatMap {α : Type} (f : α → List Stmt) (as : List α) :
    Covers p K L (join (fun a => ofStmts (f a)) as) (ofStmts (as.flatMap f)) := by
  induction as with
  | nil => exact .refl _
  | cons a as ih => exact (Covers.append (.refl _) ih).trans (.stmts (f a) _)

theorem flatten (blocks : List (List Stmt)) :
    Covers p K L (join ofStmts blocks) (ofStmts blocks.flatten) := by
  rw [← List.flatMap_id]
  exact .flatMap id blocks

/-- To bind a name that is no temporary. -/
theorem ofBinds {x : String} (hx : isTemp p x = false) : Covers p K L .none (.ofBinds [x]) where
  defines := .refl _
  bound _ h := nomatch h
  binds y hy htemp := by
    rw [List.mem_singleton.mp hy, hx] at htemp
    cases htemp
  reads _ h := nomatch h

/-- To bind the same names in another order. -/
theorem ofBinds_of_mem {xs ys : List String} (h : ∀ x, x ∈ ys ↔ x ∈ xs) :
    Covers p K L (.ofBinds xs) (.ofBinds ys) :=
  ⟨.refl _, fun x hx _ => (h x).mpr hx, fun x hx _ => .inl ((h x).mp hx), fun _ hx => nomatch hx⟩

/-- To read some of the names only. -/
theorem ofReads_of_mem {xs ys : List String} (h : ∀ x ∈ ys, x ∈ xs) :
    Covers p K L (.ofReads xs) (.ofReads ys) where
  defines := .refl _
  bound _ hx := nomatch hx
  binds _ hx := nomatch hx
  reads x hx _ := .inl (h x hx)

/-- To bind names that the code binds anyway. -/
theorem addBinds {a : Footprint} {xs : List String} (h : ∀ x ∈ xs, x ∈ a.binds) :
    Covers p K L a (.ofBinds xs ++ a) where
  defines := .refl _
  bound _ hx _ := List.mem_append.mpr (.inr hx)
  binds x hx _ := .inl ((List.mem_append.mp hx).elim (h x) id)
  reads _ hx _ := .inl hx

/-- A definition among the code can move to the helpers, and its name can then be read. -/
theorem hoist {s : Stmt} {name : String} (hname : s.ownName? = some name) (stay : Footprint)
    (helpers : List Stmt) :
    Covers p K L ((stay ++ ofStmts [s]).after helpers)
      ((stay ++ .ofReads [name]).after (helpers ++ [s])) where
  defines := by
    refine List.Perm.filter _ ?_
    simp only [Footprint.after, append_defines, definesOfAll_append, List.append_assoc, ofStmts,
      Footprint.ofReads, List.append_nil]
    exact .append_left _ List.perm_append_comm
  bound x hx _ := by
    simp only [mem_after_binds, append_binds, bindsOfAll_append, List.mem_append, ofStmts] at hx ⊢
    tauto
  binds x hx _ := by
    simp only [mem_after_binds, append_binds, bindsOfAll_append, List.mem_append, ofStmts,
      Footprint.ofReads, List.not_mem_nil] at hx ⊢
    tauto
  reads x hx _ := by
    have hown : ownNames (helpers ++ [s]) = ownNames helpers ++ [name] := by
      rw [ownNames_append]
      simp [ownNames, hname]
    rw [mem_after_reads, mem_outerReadsOfAll_append, hown] at hx
    simp only [append_reads, List.mem_append, Footprint.ofReads, List.mem_singleton, not_or] at hx
    simp only [mem_after_reads, append_reads, List.mem_append, ofStmts]
    tauto

end Covers

theorem none_append (a : Footprint) : Footprint.none ++ a = a := rfl

theorem append_none (a : Footprint) : a ++ Footprint.none = a := by
  show Footprint.mk _ _ _ = a
  simp [Footprint.none]

theorem ofReads_append (xs ys : List String) : ofReads (xs ++ ys) = ofReads xs ++ ofReads ys := rfl

theorem ofBindings_append (bs bs' : List Binding) :
    ofBindings (bs ++ bs') = ofBindings bs ++ ofBindings bs' := by
  show Footprint.mk _ _ _ = Footprint.mk _ _ _
  simp [ofBindings]

theorem join_ofReads {α : Type} (f : α → List String) (as : List α) :
    join (fun a => ofReads (f a)) as = ofReads (as.flatMap f) := by
  induction as with
  | nil => rfl
  | cons a as ih => rw [join, ih, List.flatMap_cons, ofReads_append]

theorem join_ofExpr (es : List Expr) : join ofExpr es = ofReads (Expr.readsOfAll es) := by
  induction es with
  | nil => rfl
  | cons e es ih => rw [join, ih, Expr.readsOfAll, ofReads_append, ofExpr]

theorem ofStmts_eval (value : Expr) (place : Option Span) :
    ofStmts [.eval value place] = ofExpr value := by
  simp [ofStmts, ofExpr, ofReads, definesOfAll, Stmt.defines, bindsOfAll, Stmt.binds,
    outerReadsOfAll, outerReads]

theorem ofStmts_ret (value : Expr) (place : Option Span) :
    ofStmts [.ret value place] = ofExpr value := by
  simp [ofStmts, ofExpr, ofReads, definesOfAll, Stmt.defines, bindsOfAll, Stmt.binds,
    outerReadsOfAll, outerReads]

theorem ofStmts_assign (target : String) (value : Expr) (place : Option Span) :
    ofStmts [.assign target value place] = ofBinds [target] ++ ofExpr value := by
  show Footprint.mk _ _ _ = Footprint.mk _ _ _
  simp [ofExpr, ofReads, ofBinds, definesOfAll, Stmt.defines, bindsOfAll, Stmt.binds,
    outerReadsOfAll, outerReads]

theorem ofStmts_branch (test : Expr) (yes no : List Stmt) (place : Option Span) :
    ofStmts [.branch test yes no place] = ofExpr test ++ ofStmts yes ++ ofStmts no := by
  show Footprint.mk _ _ _ = Footprint.mk _ _ _
  simp [ofExpr, ofReads, ofStmts, definesOfAll, Stmt.defines, bindsOfAll, Stmt.binds,
    outerReadsOfAll, outerReads]

theorem ofStmts_loop (test : Expr) (body : List Stmt) (place : Option Span) :
    ofStmts [.loop test body place] = ofExpr test ++ ofStmts body := by
  show Footprint.mk _ _ _ = Footprint.mk _ _ _
  simp [ofExpr, ofReads, ofStmts, definesOfAll, Stmt.defines, bindsOfAll, Stmt.binds,
    outerReadsOfAll, outerReads]

theorem ofStmts_assigns (outer : Option Span) (bs : List Binding) :
    ofStmts (Binding.assigns outer bs) = ofBindings bs := by
  induction bs with
  | nil => rfl
  | cons b bs ih =>
    simp only [ofStmts, ofBindings, Footprint.mk.injEq] at ih
    simpa [ofStmts, ofBindings, Binding.assigns, Binding.assign, definesOfAll, Stmt.defines,
      bindsOfAll, Stmt.binds, outerReadsOfAll, outerReads, ownName?] using ih

end Footprint

/-! ### The invariant -/

namespace Context

/-- The context `c'` comes after `c`, as far as temporaries are concerned. -/
structure Before (c c' : Context) : Prop where
  tempPrefix : c'.tempPrefix = c.tempPrefix
  counter : c.counter ≤ c'.counter

/-- Does a name of the source mean `x`? -/
def Names (p : String) (c : Context) (x : String) : Prop :=
  ∃ y, isTemp p y = false ∧ c.resolve y = x

variable {p x : String} {K L K' L' : List String} {c₀ c c' : Context}

theorem Before.refl (c : Context) : c.Before c := ⟨rfl, Nat.le_refl _⟩

theorem Before.trans (h : c₀.Before c) (h' : c.Before c') : c₀.Before c' :=
  ⟨h'.tempPrefix.trans h.tempPrefix, Nat.le_trans h.counter h'.counter⟩

theorem Before.future (h : c.Before c') (hx : c'.Future x) : c.Future x := by
  obtain ⟨k, hk, hlt⟩ := hx
  exact ⟨k, h.tempPrefix ▸ hk, Nat.lt_of_le_of_lt h.counter hlt⟩

theorem Makes.before (h : c₀.Before c) (hx : c.Makes c' x) : c₀.Makes c' x :=
  ⟨h.future hx.1, hx.2⟩

theorem Makes.after (hx : c₀.Makes c x) (h : c.Before c') : c₀.Makes c' x :=
  ⟨hx.1, fun hfuture => hx.2 (h.future hfuture)⟩

theorem not_future_of_not_isTemp (hp : c.tempPrefix = p) (hx : isTemp p x = false) :
    ¬c.Future x := by
  rintro ⟨k, hk, -⟩
  rw [hp] at hk
  simp [isTemp, hk] at hx

/-- Code with the given footprint is emitted between the contexts, where it may bind the names `K`
and read the names `L`. -/
structure Placed (p : String) (K L : List String) (c c' : Context) (code : Footprint) : Prop where
  before : c.Before c'
  named : c.tempPrefix = p
  defines : ∀ x ∈ code.defines, isTemp p x = true → c.Makes c' x
  nodup : (code.defines.filter (isTemp p)).Nodup
  apart : ∀ x ∈ code.defines, isTemp p x = true → x ∉ code.binds
  binds : ∀ x ∈ code.binds, isTemp p x = true → c.Makes c' x ∨ x ∈ K
  reads : ∀ x ∈ code.reads, isTemp p x = true → x ∈ code.binds ∨ x ∈ L ∨ c.Names p x
  scopes : ∀ x, isTemp p x = true → c'.Names p x → x ∈ code.binds ∨ c.Names p x

namespace Placed

open Footprint Stmt

theorem refl (hp : c.tempPrefix = p) : Placed p K L c c .none :=
  ⟨.refl c, hp, by simp [Footprint.none], by simp [Footprint.none], by simp [Footprint.none],
    by simp [Footprint.none], by simp [Footprint.none], fun _ _ h => .inr h⟩

/-- A name that may be bound is no temporary still to be made. -/
theorem not_future {pre : Footprint} {helpers : List Stmt}
    (h : Placed p K L c₀ c (pre.after helpers)) (hK : ∀ x ∈ K, ¬c₀.Future x)
    (hx : x ∈ K ∨ x ∈ pre.binds) : ¬c.Future x := by
  by_cases htemp : isTemp p x = true
  · rcases hx with hx | hx
    · exact fun hfuture => hK x hx (h.before.future hfuture)
    · rcases h.binds x (mem_after_binds.mpr (.inr hx)) htemp with hmade | hx
      · exact hmade.2
      · exact fun hfuture => hK x hx (h.before.future hfuture)
  · exact not_future_of_not_isTemp (h.before.tempPrefix.trans h.named) (by simpa using htemp)

/-- The contexts matter for their temporaries and scopes only. -/
theorem context {code : Footprint} {c'' : Context} (h : Placed p K L c c' code)
    (hsame : c''.tempPrefix = c'.tempPrefix) (hcounter : c''.counter = c'.counter)
    (hscopes : c''.scopes = c'.scopes) : Placed p K L c c'' code := by
  have hbefore : c'.Before c'' := ⟨hsame, hcounter.ge⟩
  have hnames {x : String} (hx : c''.Names p x) : c'.Names p x := by
    obtain ⟨y, hy, hresolve⟩ := hx
    exact ⟨y, hy, by rw [← hresolve, resolve, resolve, hscopes]⟩
  exact ⟨h.before.trans hbefore, h.named, fun x hx htemp => (h.defines x hx htemp).after hbefore,
    h.nodup, h.apart, fun x hx htemp => (h.binds x hx htemp).imp_left fun hx => hx.after hbefore,
    h.reads, fun x htemp hx => h.scopes x htemp (hnames hx)⟩

/-- What is emitted on the way can be seen as code of another shape. -/
theorem covers {whole part : Footprint} (hK : ∀ x ∈ K, ¬c.Future x) (h : Placed p K L c c' whole)
    (hcovers : Covers p K L whole part) : Placed p K L c c' part := by
  have hmem {x : String} (hx : x ∈ part.defines) (htemp : isTemp p x = true) :
      x ∈ whole.defines :=
    (List.mem_filter.mp (hcovers.defines.mem_iff.mp (List.mem_filter.mpr ⟨hx, htemp⟩))).1
  refine ⟨h.before, h.named, fun x hx htemp => h.defines x (hmem hx htemp) htemp,
    hcovers.defines.nodup_iff.mpr h.nodup, fun x hx htemp hbind => ?_, fun x hx htemp => ?_,
    fun x hx htemp => ?_, fun x htemp hx => ?_⟩
  · rcases hcovers.binds x hbind htemp with hbind | hbind
    · exact h.apart x (hmem hx htemp) htemp hbind
    · exact hK x hbind (h.defines x (hmem hx htemp) htemp).1
  · rcases hcovers.binds x hx htemp with hx | hx
    · exact h.binds x hx htemp
    · exact .inr hx
  · rcases hcovers.reads x hx htemp with hx | hx | hx
    · exact (h.reads x hx htemp).imp_left fun hx => hcovers.bound x hx htemp
    · exact .inl hx
    · exact .inr (.inl hx)
  · exact (h.scopes x htemp hx).imp_left fun hx => hcovers.bound x hx htemp

/-- Code that is emitted after other code. It may bind what the code before it binds, and read what
the code before it binds or reads. All helpers stand before all of the code. -/
theorem frame {pre code : Footprint} {helpers new : List Stmt} (hK : ∀ x ∈ K, ¬c₀.Future x)
    (h : Placed p K L c₀ c (pre.after helpers)) (h' : Placed p K' L' c c' (code.after new))
    (hbinds : ∀ x ∈ K', x ∈ K ∨ x ∈ pre.binds)
    (hreads : ∀ x ∈ L', isTemp p x = true → x ∈ L ∨ x ∈ pre.binds ∨ x ∈ pre.reads) :
    Placed p K L c₀ c' ((pre ++ code).after (helpers ++ new)) := by
  have hdefinesPerm : ((pre ++ code).after (helpers ++ new)).defines.Perm
      ((pre.after helpers).defines ++ (code.after new).defines) := by
    simp only [Footprint.after, append_defines, definesOfAll_append, List.append_assoc]
    exact .append_left _ (by
      rw [← List.append_assoc, ← List.append_assoc]
      exact .append_right _ List.perm_append_comm)
  have hdefinesMem {x : String} (hx : x ∈ ((pre ++ code).after (helpers ++ new)).defines) :
      x ∈ (pre.after helpers).defines ∨ x ∈ (code.after new).defines :=
    List.mem_append.mp (hdefinesPerm.mem_iff.mp hx)
  have hbindsMem {x : String} : x ∈ ((pre ++ code).after (helpers ++ new)).binds ↔
      x ∈ (pre.after helpers).binds ∨ x ∈ (code.after new).binds := by
    simp only [mem_after_binds, bindsOfAll_append, append_binds, List.mem_append]
    tauto
  -- the names that the later code may bind besides its own temporaries are none of its temporaries
  have hknown {x : String} (hx : x ∈ K') : ¬c.Future x := h.not_future hK (hbinds x hx)
  have hearlier {x : String} (hx : x ∈ (pre.after helpers).binds) (htemp : isTemp p x = true) :
      ¬c.Future x := by
    rcases h.binds x hx htemp with hmade | hx
    · exact hmade.2
    · exact h.not_future hK (.inl hx)
  refine ⟨h.before.trans h'.before, h.named, ?_, ?_, ?_, ?_, ?_, ?_⟩
  · intro x hx htemp
    rcases hdefinesMem hx with hx | hx
    · exact (h.defines x hx htemp).after h'.before
    · exact (h'.defines x hx htemp).before h.before
  · rw [(hdefinesPerm.filter _).nodup_iff, List.filter_append, List.nodup_append]
    refine ⟨h.nodup, h'.nodup, ?_⟩
    rintro x hx y hy rfl
    obtain ⟨hx, htemp⟩ := List.mem_filter.mp hx
    exact (h.defines x hx htemp).2 (h'.defines x (List.mem_filter.mp hy).1 htemp).1
  · intro x hx htemp hbind
    rcases hdefinesMem hx with hx | hx <;> rcases hbindsMem.mp hbind with hbind | hbind
    · exact h.apart x hx htemp hbind
    · rcases h'.binds x hbind htemp with hmade | hknown'
      · exact (h.defines x hx htemp).2 hmade.1
      · rcases hbinds x hknown' with hmem | hmem
        · exact hK x hmem (h.defines x hx htemp).1
        · exact h.apart x hx htemp (mem_after_binds.mpr (.inr hmem))
    · exact hearlier hbind htemp (h'.defines x hx htemp).1
    · exact h'.apart x hx htemp hbind
  · intro x hx htemp
    rcases hbindsMem.mp hx with hx | hx
    · exact (h.binds x hx htemp).imp_left fun hmade => hmade.after h'.before
    · rcases h'.binds x hx htemp with hmade | hx
      · exact .inl (hmade.before h.before)
      · rcases hbinds x hx with hx | hx
        · exact .inr hx
        · exact (h.binds x (mem_after_binds.mpr (.inr hx)) htemp).imp_left
            fun hmade => hmade.after h'.before
  · have hpre {x : String} (hx : x ∈ (pre.after helpers).reads) (htemp : isTemp p x = true) :
        x ∈ ((pre ++ code).after (helpers ++ new)).binds ∨ x ∈ L ∨ c₀.Names p x :=
      (h.reads x hx htemp).imp_left fun hx => hbindsMem.mpr (.inl hx)
    have hcode {x : String} (hx : x ∈ (code.after new).reads) (hown : x ∉ ownNames helpers)
        (htemp : isTemp p x = true) :
        x ∈ ((pre ++ code).after (helpers ++ new)).binds ∨ x ∈ L ∨ c₀.Names p x := by
      rcases h'.reads x hx htemp with hx | hx | hx
      · exact .inl (hbindsMem.mpr (.inr hx))
      · rcases hreads x hx htemp with hx | hx | hx
        · exact .inr (.inl hx)
        · exact .inl (hbindsMem.mpr (.inl (mem_after_binds.mpr (.inr hx))))
        · exact hpre (mem_after_reads.mpr (.inr ⟨hx, hown⟩)) htemp
      · rcases h.scopes x htemp hx with hx | hx
        · exact .inl (hbindsMem.mpr (.inl hx))
        · exact .inr (.inr hx)
    intro x hx htemp
    rw [mem_after_reads, mem_outerReadsOfAll_append, ownNames_append, append_reads,
      List.mem_append, List.mem_append, not_or] at hx
    rcases hx with (hx | ⟨hx, hown⟩) | ⟨hx | hx, hown, hnew⟩
    · exact hpre (mem_after_reads.mpr (.inl hx)) htemp
    · exact hcode (mem_after_reads.mpr (.inl hx)) hown htemp
    · exact hpre (mem_after_reads.mpr (.inr ⟨hx, hown⟩)) htemp
    · exact hcode (mem_after_reads.mpr (.inr ⟨hx, hnew⟩)) hown htemp
  · intro x htemp hx
    rcases h'.scopes x htemp hx with hx | hx
    · exact .inl (hbindsMem.mpr (.inr hx))
    · exact (h.scopes x htemp hx).imp_left fun hx => hbindsMem.mpr (.inl hx)

end Placed

end Context

/-! ### Steps that leave code behind -/

namespace Compile

open Context Footprint Stmt

variable {α β : Type} {p : String} {K L K' L' : List String}

/-- On its own, the step leaves code with the footprint `code` of its result, which may bind the
names `K` and read the names `L`. -/
def Leaves (p : String) (K L : List String) (m : Compile α) (code : α → Footprint) : Prop :=
  ∀ ⦃c a c'⦄, m c = .ok a c' → c.tempPrefix = p → (∀ x ∈ K, ¬c.Future x) →
    ∃ new, c'.helpers = c.helpers ++ new ∧ Placed p K L c c' ((code a).after new)

/-- After code with the footprint `pre` was emitted, the step makes it code with the footprint
`post` of its result. -/
def Extends (p : String) (K L : List String) (pre : Footprint) (m : Compile α)
    (post : α → Footprint) : Prop :=
  ∀ ⦃c₀ c a c' base helpers⦄, m c = .ok a c' → (∀ x ∈ K, ¬c₀.Future x) →
    c.helpers = base ++ helpers → Placed p K L c₀ c (pre.after helpers) →
    ∃ helpers', c'.helpers = base ++ helpers' ∧ Placed p K L c₀ c' ((post a).after helpers')

protected theorem Yields.foldlM {f : β → α → Compile β} {P : β → Prop} :
    ∀ {xs : List α} {b : β}, P b → (∀ b, P b → ∀ x ∈ xs, Yields P (f b x)) →
      Yields P (xs.foldlM f b)
  | [], _, hb, _ => .pure hb
  | x :: xs, b, hb, h => by
    rw [List.foldlM_cons]
    exact .bind (h b hb x List.mem_cons_self) fun b' hb' =>
      .foldlM hb' fun b'' hb'' x' hx' => h b'' hb'' x' (List.mem_cons_of_mem _ hx')

/-- The step changes nothing but what was reported. -/
def Still (m : Compile α) : Prop := ∀ ⦃c a c'⦄, m c = .ok a c' → ∃ events, c' = { c with events }

namespace Still

protected theorem pure (a : α) : Still (pure a : Compile α) := by
  intro c b c' h
  obtain ⟨-, rfl⟩ := pure_ok h
  exact ⟨c.events, rfl⟩

protected theorem fail (fault : Fault) : Still (fail fault : Compile α) :=
  fun _ _ _ h => (not_fail_ok h).elim

protected theorem bind {m : Compile α} {f : α → Compile β} (hm : Still m)
    (hf : ∀ a, Still (f a)) : Still (m >>= f) := by
  intro c b c' h
  obtain ⟨a, c₁, h₁, h₂⟩ := bind_ok h
  obtain ⟨events, rfl⟩ := hm h₁
  obtain ⟨events', rfl⟩ := hf a h₂
  exact ⟨events', rfl⟩

protected theorem lift (e : Except Fault α) : Still (lift e) := by
  cases e with
  | ok a => exact .pure a
  | error fault => exact .fail fault

theorem report (event : Event) : Still (report event) := by
  intro c _ c' h
  cases h
  exact ⟨event :: c.events, rfl⟩

protected theorem mapM {f : α → Compile β} :
    ∀ {xs : List α}, (∀ x ∈ xs, Still (f x)) → Still (xs.mapM f)
  | [], _ => .pure []
  | x :: xs, h => by
    rw [List.mapM_cons]
    exact .bind (h x List.mem_cons_self) fun y =>
      .bind (.mapM fun x' hx' => h x' (List.mem_cons_of_mem _ hx')) fun ys => .pure _

end Still

namespace Leaves

/-- Code that is added to nothing is all that is left. -/
theorem of_extends {m : Compile α} {code : α → Footprint} (h : Extends p K L .none m code) :
    Leaves p K L m code := by
  intro c a c' hrun hp hK
  have hhelpers : c.helpers = c.helpers ++ [] := (List.append_nil _).symm
  have hnone : Placed p K L c c (Footprint.none.after []) := by
    rw [after_nil]
    exact .refl hp
  obtain ⟨new, hnew, hplaced⟩ := h hrun hK hhelpers hnone
  exact ⟨new, hnew, hplaced⟩

/-- The frame rule: what a step emits on its own, it adds to what was emitted before. -/
theorem frame {pre : Footprint} {m : Compile α} {code : α → Footprint}
    (h : Leaves p K' L' m code) (hbinds : ∀ x ∈ K', x ∈ K ∨ x ∈ pre.binds)
    (hreads : ∀ x ∈ L', isTemp p x = true → x ∈ L ∨ x ∈ pre.binds ∨ x ∈ pre.reads) :
    Extends p K L pre m fun a => pre ++ code a := by
  intro c₀ c a c' base helpers hrun hK hhelpers hpre
  obtain ⟨new, hnew, hcode⟩ := h hrun (hpre.before.tempPrefix.trans hpre.named)
    fun x hx => hpre.not_future hK (hbinds x hx)
  exact ⟨helpers ++ new, by rw [hnew, hhelpers, List.append_assoc],
    hpre.frame hK hcode hbinds hreads⟩

/-- A step that uses nothing of the code before it leaves that code as it is. -/
theorem framed {pre : Footprint} {m : Compile α} {code : α → Footprint}
    (h : Leaves p [] [] m code) :
    Extends p K L pre m fun a => pre ++ code a := h.frame (by simp) (by simp)

/-- The same names may be bound and read as before. -/
theorem again {pre : Footprint} {m : Compile α} {code : α → Footprint} (h : Leaves p K L m code) :
    Extends p K L pre m fun a => pre ++ code a :=
  h.frame (fun _ hx => .inl hx) fun _ hx _ => .inl hx

end Leaves

namespace Extends

variable {pre : Footprint}

protected theorem pure {a : α} {post : α → Footprint} (h : Covers p K L pre (post a)) :
    Extends p K L pre (pure a : Compile α) post := by
  intro c₀ c b c' base helpers hrun hK hhelpers hpre
  obtain ⟨rfl, rfl⟩ := pure_ok hrun
  exact ⟨helpers, hhelpers, hpre.covers hK (h.after helpers)⟩

protected theorem fail (fault : Fault) {post : α → Footprint} :
    Extends p K L pre (fail fault : Compile α) post :=
  fun _ _ _ _ _ _ h => (not_fail_ok h).elim

/-- Two steps, one after the other: the second one extends what the first one has left. -/
protected theorem bind {m : Compile α} {f : α → Compile β} {mid : α → Footprint}
    {post : β → Footprint} (hm : Extends p K L pre m mid)
    (hf : ∀ a, Extends p K L (mid a) (f a) post) : Extends p K L pre (m >>= f) post := by
  intro c₀ c b c' base helpers hrun hK hhelpers hpre
  obtain ⟨a, c₁, h₁, h₂⟩ := bind_ok hrun
  obtain ⟨helpers₁, hhelpers₁, hmid⟩ := hm h₁ hK hhelpers hpre
  exact hf a h₂ hK hhelpers₁ hmid

/-- Where something is known about the result of the first step. -/
theorem bind_yields {m : Compile α} {f : α → Compile β} {P : α → Prop} {mid : α → Footprint}
    {post : β → Footprint} (hm : Extends p K L pre m mid) (hP : Yields P m)
    (hf : ∀ a, P a → Extends p K L (mid a) (f a) post) : Extends p K L pre (m >>= f) post := by
  intro c₀ c b c' base helpers hrun hK hhelpers hpre
  obtain ⟨a, c₁, h₁, h₂⟩ := bind_ok hrun
  obtain ⟨helpers₁, hhelpers₁, hmid⟩ := hm h₁ hK hhelpers hpre
  exact hf a (hP h₁) h₂ hK hhelpers₁ hmid

theorem of_covers {pre' : Footprint} {m : Compile α} {post : α → Footprint}
    (h : Extends p K L pre' m post) (hcovers : Covers p K L pre pre') : Extends p K L pre m post :=
  fun _ _ _ _ _ helpers hrun hK hhelpers hpre =>
    h hrun hK hhelpers (hpre.covers hK (hcovers.after helpers))

theorem covers {m : Compile α} {post post' : α → Footprint} (h : Extends p K L pre m post)
    (hcovers : ∀ a, Covers p K L (post a) (post' a)) : Extends p K L pre m post' := by
  intro c₀ c a c' base helpers hrun hK hhelpers hpre
  obtain ⟨helpers', hhelpers', hpost⟩ := h hrun hK hhelpers hpre
  exact ⟨helpers', hhelpers', hpost.covers hK ((hcovers a).after helpers')⟩

theorem still {m : Compile α} (h : Still m) : Extends p K L pre m fun _ => pre := by
  intro c₀ c a c' base helpers hrun hK hhelpers hpre
  obtain ⟨events, rfl⟩ := h hrun
  exact ⟨helpers, hhelpers, hpre.context rfl rfl rfl⟩

protected theorem foldlM {f : β → α → Compile β} {P : β → Prop} {R : β → Footprint} :
    ∀ {xs : List α} {b : β}, P b → (∀ b, P b → ∀ x ∈ xs, Yields P (f b x)) →
      (∀ b, P b → ∀ x ∈ xs, Extends p K L (R b) (f b x) R) →
      Extends p K L (R b) (xs.foldlM f b) R
  | [], _, _, _, _ => .pure (.refl _)
  | x :: xs, b, hb, hP, h => by
    rw [List.foldlM_cons]
    exact .bind_yields (h b hb x List.mem_cons_self) (hP b hb x List.mem_cons_self) fun b' hb' =>
      .foldlM hb' (fun b'' hb'' x' hx' => hP b'' hb'' x' (List.mem_cons_of_mem _ hx'))
        fun b'' hb'' x' hx' => h b'' hb'' x' (List.mem_cons_of_mem _ hx')

protected theorem foldrM {f : α → β → Compile β} {R : β → Footprint} {b : β} :
    ∀ {xs : List α}, (∀ x ∈ xs, ∀ b, Extends p K L (R b) (f x b) R) →
      Extends p K L (R b) (xs.foldrM f b) R
  | [], _ => .pure (.refl _)
  | x :: xs, h => by
    rw [List.foldrM_cons]
    exact .bind (.foldrM fun x' hx' => h x' (List.mem_cons_of_mem _ hx')) fun b' =>
      h x List.mem_cons_self b'

/-- A definition moves to the helpers, and its name can be read from now on. -/
theorem hoist {s : Stmt} {name : String} (hname : s.ownName? = some name) (stay : Footprint) :
    Extends p K L (stay ++ ofStmts [s]) (hoist s) fun _ => stay ++ ofReads [name] := by
  intro c₀ c a c' base helpers hrun hK hhelpers hpre
  cases hrun
  refine ⟨helpers ++ [s], ?_, ?_⟩
  · exact (congrArg (· ++ [s]) hhelpers).trans (List.append_assoc _ _ _)
  · exact (hpre.covers hK (.hoist hname stay helpers)).context rfl rfl rfl

end Extends

namespace Leaves

protected theorem mapM {f : α → Compile β} {code : β → Footprint} :
    ∀ {xs : List α}, (∀ x ∈ xs, Leaves p K L (f x) code) → Leaves p K L (xs.mapM f) (join code)
  | [], _ => .of_extends (.pure (.refl _))
  | x :: xs, h => by
    rw [List.mapM_cons]
    exact .of_extends (.bind (h x List.mem_cons_self).again fun y =>
      .bind (Leaves.mapM fun x' hx' => h x' (List.mem_cons_of_mem _ hx')).again fun ys =>
        .pure (.refl _))

/-- The helpers that a step has made, taken out of the context by `collect`. -/
theorem collected {m : Compile α} {code : α → Footprint} (h : Leaves p K L m code) {c c' : Context}
    {a : α} {hs : List Stmt} (hrun : Compile.collect m c = .ok (a, hs) c') (hp : c.tempPrefix = p)
    (hK : ∀ x ∈ K, ¬c.Future x) :
    (∃ c₁, m c = .ok a c₁) ∧ c'.helpers = c.helpers ∧ Placed p K L c c' ((code a).after hs) := by
  obtain ⟨c₁, hstep, rfl, rfl⟩ := collect_ok hrun
  obtain ⟨new, hnew, hcode⟩ := h hstep hp hK
  refine ⟨⟨c₁, hstep⟩, by simp [hnew], ?_⟩
  rw [hnew, List.drop_left]
  exact hcode.context rfl rfl rfl

/-- The helpers that are taken out stand before the code. -/
theorem collect {m : Compile α} {code : α → Footprint} (h : Leaves p K L m code) :
    Leaves p K L (collect m) fun result => (code result.1).after result.2 := by
  rintro c ⟨a, hs⟩ c' hrun hp hK
  obtain ⟨-, hhelpers, hcode⟩ := h.collected hrun hp hK
  exact ⟨[], by simp [hhelpers], by rwa [after_nil]⟩

/-- Helpers that are taken out in two steps stand together before the code of both. -/
theorem collect_both {γ : Type} {m : Compile α} {f : α → Compile β} {P : α → Prop}
    {Q : α → β → Prop}
    {code : α → Footprint} {code' : β → Footprint} {g : α × List Stmt → β × List Stmt → γ}
    {post : γ → Footprint} (hm : Leaves p K L m code) (hP : Yields P m)
    (hf : ∀ a, P a → Leaves p (code a).binds ((code a).binds ++ (code a).reads) (f a) code')
    (hQ : ∀ a, P a → Yields (Q a) (f a))
    (hpost : ∀ a hs b hs', P a → Q a b →
      Covers p K L ((code a ++ code' b).after (hs ++ hs')) (post (g (a, hs) (b, hs')))) :
    Leaves p K L (do
      let r ← Compile.collect m
      let r' ← Compile.collect (f r.1)
      pure (g r r')) post := by
  intro c d c' hrun hp hK
  obtain ⟨⟨a, hs⟩, c₁, hfirst, hrest⟩ := bind_ok hrun
  obtain ⟨⟨b, hs'⟩, c₂, hsecond, hlast⟩ := bind_ok hrest
  obtain ⟨rfl, rfl⟩ := pure_ok hlast
  obtain ⟨⟨_, hstep⟩, hhelpers, hcode⟩ := hm.collected hfirst hp hK
  have hp₁ : c₁.tempPrefix = p := hcode.before.tempPrefix.trans hcode.named
  obtain ⟨⟨_, hstep'⟩, hhelpers', hcode'⟩ := (hf a (hP hstep)).collected hsecond hp₁ fun x hx =>
    hcode.not_future hK (.inr hx)
  have hboth := hcode.frame hK hcode' (fun x hx => .inr hx) fun x hx _ =>
    .inr (List.mem_append.mp hx)
  refine ⟨[], by simp [hhelpers, hhelpers'], ?_⟩
  rw [after_nil]
  exact hboth.covers hK (hpost a hs b hs' (hP hstep) (hQ a (hP hstep) hstep'))

/-- A scope of its own takes up what a step declares. -/
theorem inScope {m : Compile α} {code : α → Footprint} (h : Leaves p K L m code)
    (hkeeps : Keeps List.tail m) : Leaves p K L (inScope m) code := by
  intro c a c' hscope hp hK
  obtain ⟨c₁, hrun, rfl⟩ := inScope_ok hscope
  obtain ⟨new, hnew, hcode⟩ := h hrun hp hK
  have henter {x : String} (hx : c.enter.Names p x) : c.Names p x := by
    obtain ⟨y, hy, hresolve⟩ := hx
    exact ⟨y, hy, (c.resolve_enter y).symm.trans hresolve⟩
  have hscopes : c₁.leave.scopes = c.scopes := (hkeeps.grows hrun).scopes
  have hleave {x : String} (hx : c₁.leave.Names p x) : c.Names p x := by
    obtain ⟨y, hy, hresolve⟩ := hx
    exact ⟨y, hy, by rw [← hresolve, Context.resolve, Context.resolve, hscopes]⟩
  refine ⟨new, hnew, ⟨hcode.before.tempPrefix, hcode.before.counter⟩, hcode.named, hcode.defines,
    hcode.nodup, hcode.apart, hcode.binds, fun x hx htemp => ?_, fun x _ hx => .inr (hleave hx)⟩
  exact (hcode.reads x hx htemp).imp_right fun hx => hx.imp_right henter

/-- A step that adds no helpers. -/
theorem of_placed {m : Compile α} {code : α → Footprint}
    (h : ∀ ⦃c a c'⦄, m c = .ok a c' → c.tempPrefix = p →
      c'.helpers = c.helpers ∧ Placed p K L c c' (code a)) : Leaves p K L m code := by
  intro c a c' hrun hp _
  obtain ⟨hhelpers, hplaced⟩ := h hrun hp
  exact ⟨[], by simp [hhelpers], by rwa [after_nil]⟩

/-- A temporary for a variable. -/
theorem fresh {stem : String} (s : String) (h : stem = s ++ "_") :
    Leaves p [] [] (fresh stem) fun x => ofBinds [x] := by
  subst h
  refine .of_placed fun c x c' hrun hp => ?_
  cases hrun
  refine ⟨rfl, ⟨rfl, Nat.le_succ _⟩, hp, by simp [ofBinds], by simp [ofBinds], by simp [ofBinds],
    fun x hx _ => .inl ?_, by simp [ofBinds], fun _ _ hx => .inr hx⟩
  rw [List.mem_singleton.mp hx]
  exact c.makes_fresh s

/-- A temporary for a helper. -/
theorem freshHelper {stem : String} (s : String) (h : stem = s ++ "_") :
    Leaves p [] [] (Compile.fresh stem) fun x => ofDefines [x] := by
  subst h
  refine .of_placed fun c x c' hrun hp => ?_
  cases hrun
  refine ⟨rfl, ⟨rfl, Nat.le_succ _⟩, hp, fun x hx _ => ?_, ?_, by simp [ofDefines],
    by simp [ofDefines], by simp [ofDefines], fun _ _ hx => .inr hx⟩
  · rw [List.mem_singleton.mp hx]
    exact c.makes_fresh s
  · exact (List.nodup_singleton _).filter _

/-- What a name of the source means can be read. -/
theorem resolve {y : String} (hy : isTemp p y = false) :
    Leaves p [] [] (resolve y) fun x => ofReads [x] := by
  refine .of_placed fun c x c' hrun hp => ?_
  cases hrun
  refine ⟨rfl, .refl c, hp, by simp [ofReads], by simp [ofReads], by simp [ofReads],
    by simp [ofReads], fun x hx _ => .inr (.inr ⟨y, hy, ?_⟩), fun _ _ hx => .inr hx⟩
  exact (List.mem_singleton.mp hx).symm

end Leaves

/-- A name can be declared to mean a variable of the code. -/
theorem Extends.declare {pre : Footprint} {y t : String}
    (h : isTemp p y = false → isTemp p t = true → t ∈ pre.binds) :
    Extends p K L pre (modify (·.declare y t) : Compile Unit) fun _ => pre := by
  intro c₀ c a c' base helpers hrun hK hhelpers hpre
  cases hrun
  have hlater := c.later_declare y t
  refine ⟨helpers, hlater.helpers.trans hhelpers,
    hpre.before.trans ⟨hlater.tempPrefix, hlater.counter⟩, hpre.named, fun x hx htemp => ?_,
    hpre.nodup, hpre.apart, fun x hx htemp => ?_, hpre.reads, fun x htemp hx => ?_⟩
  · exact (hpre.defines x hx htemp).after ⟨hlater.tempPrefix, hlater.counter⟩
  · exact (hpre.binds x hx htemp).imp_left fun hmade =>
      hmade.after ⟨hlater.tempPrefix, hlater.counter⟩
  · obtain ⟨z, hz, hresolve⟩ := hx
    by_cases hscopes : c.scopes = []
    · refine hpre.scopes x htemp ⟨z, hz, ?_⟩
      rw [← hresolve]
      simp [Context.declare, hscopes]
    · change (c.declare y t).resolve z = x at hresolve
      rw [resolve_declare hscopes] at hresolve
      split at hresolve
      · subst hresolve
        exact .inl (mem_after_binds.mpr (.inr (h (‹z = y› ▸ hz) htemp)))
      · exact hpre.scopes x htemp ⟨z, hz, hresolve⟩

/-- A function's own name is no variable of it. -/
theorem Extends.ownName {pre : Footprint} (name : String) :
    Extends p K L pre (Compile.bind .scoped name) fun _ => pre :=
  .bind (.declare fun hname htemp => by simp [hname] at htemp) fun _ => .pure (.refl _)

/-- A binder binds its target. -/
theorem Leaves.binder {name : String} (hname : isTemp p name = false) :
    ∀ mode : BindMode, Leaves p [] [] (Compile.bind mode name) fun target => ofBinds [target]
  | .asIs => .of_extends (.pure (.ofBinds hname))
  | .scoped => .of_extends (.bind (.declare fun _ htemp => by simp [hname] at htemp) fun _ =>
    .pure (.ofBinds hname))
  | .fresh => .of_extends (.bind (Leaves.fresh name rfl).framed fun target =>
    .bind (.declare fun _ _ => by simp [ofBinds]) fun _ => .pure (.refl _))

end Compile

end TailLisp
