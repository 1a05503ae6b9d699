import TailLisp.Proofs.Placement

/-!
# TailLisp.Proofs.HelperOrder

**Helpers are defined once and before their uses.** In a compiled program, every function with the
name of a temporary has one definition, and everything that reads the name stands after that
definition, in the very block that holds it or nested below. The source must not spell such a name
itself, and it does so with a rest marker that is written together with a name as well.

`Context.Placed` says where names may be read in terms of scopes (`Stmt.outerReads`). What is left
is to follow these scopes down to the block of the definition.
-/

namespace TailLisp

namespace Stmt

mutual

/-- The blocks inside a statement, at any depth. -/
def blocksIn : Stmt → List (List Stmt)
  | .assign _ _ _ => []
  | .eval _ _ => []
  | .ret _ _ => []
  | .branch _ yes no _ => yes :: blocksInAll yes ++ no :: blocksInAll no
  | .loop _ body _ => body :: blocksInAll body
  | .define _ _ _ body _ => body :: blocksInAll body
  | .skip _ => []
  | .next _ => []

/-- The blocks inside the statements. -/
def blocksInAll : List Stmt → List (List Stmt)
  | [] => []
  | s :: ss => blocksIn s ++ blocksInAll ss

end

/-- A block and the blocks inside of it. -/
def blocks (ss : List Stmt) : List (List Stmt) := ss :: blocksInAll ss

/-- One of the blocks holds a definition of `f`, and whatever of the given reads is one of `f`
stands behind that definition in the block. -/
def ReadBehindDefinition (f : String) (reads : List String) (blocks : List (List Stmt)) : Prop :=
  ∃ block ∈ blocks, ∃ before params rest body place behind,
    block = before ++ .define f params rest body place :: behind
      ∧ reads.count f = (readsOfAll behind).count f

variable {f : String}

/-- More blocks change nothing, and neither do reads of other names. -/
theorem ReadBehindDefinition.mono {reads reads' : List String} {bs bs' : List (List Stmt)}
    (h : ReadBehindDefinition f reads bs) (hreads : reads'.count f = reads.count f)
    (hblocks : ∀ block ∈ bs, block ∈ bs') : ReadBehindDefinition f reads' bs' := by
  obtain ⟨block, hblock, before, params, rest, body, place, behind, heq, hcount⟩ := h
  exact ⟨block, hblocks block hblock, before, params, rest, body, place, behind, heq,
    hreads.trans hcount⟩

/-- A statement in front of a block. -/
theorem ReadBehindDefinition.cons {reads : List String} {s : Stmt} {ss : List Stmt}
    (h : ReadBehindDefinition f (readsOfAll ss) (blocks ss))
    (hreads : reads.count f = (readsOfAll ss).count f) :
    ReadBehindDefinition f reads (blocks (s :: ss)) := by
  obtain ⟨block, hblock, before, params, rest, body, place, behind, heq, hcount⟩ := h
  rcases List.mem_cons.mp hblock with rfl | hblock
  · exact ⟨_, List.mem_cons_self, s :: before, params, rest, body, place, behind,
      congrArg (s :: ·) heq, hreads.trans hcount⟩
  · exact ⟨block, List.mem_cons_of_mem _ (List.mem_append.mpr (.inr hblock)), before, params, rest,
      body, place, behind, heq, hreads.trans hcount⟩

mutual

/-- A read of a function that is not defined in the code is not in its scope. -/
theorem mem_outerReads_of_reads :
    ∀ s : Stmt, f ∉ s.defines → f ∈ s.reads → f ∈ s.outerReads
  | .assign _ _ _, _, h => h
  | .eval _ _, _, h => h
  | .ret _ _, _, h => h
  | .branch test yes no _, hdefines, h => by
    simp only [defines, List.mem_append, not_or] at hdefines
    simp only [reads, outerReads, List.mem_append] at h ⊢
    exact h.imp (Or.imp_right (mem_outerReadsOfAll_of_reads yes hdefines.1))
      (mem_outerReadsOfAll_of_reads no hdefines.2)
  | .loop test body _, hdefines, h => by
    simp only [reads, outerReads, List.mem_append] at h ⊢
    exact h.imp_right (mem_outerReadsOfAll_of_reads body hdefines)
  | .define name _ _ body _, hdefines, h =>
    mem_outerReadsOfAll_of_reads body (fun hmem => hdefines (List.mem_cons_of_mem _ hmem)) h
  | .skip _, _, h => h
  | .next _, _, h => h

/-- A name that is read and not defined in the statements is read from outside. -/
theorem mem_outerReadsOfAll_of_reads :
    ∀ ss : List Stmt, f ∉ definesOfAll ss → f ∈ readsOfAll ss → f ∈ outerReadsOfAll ss
  | [], _, h => h
  | s :: ss, hdefines, h => by
    simp only [definesOfAll, List.mem_append, not_or] at hdefines
    have hown : s.ownName? ≠ some f := fun hown => hdefines.1 (mem_defines_of_ownName? hown)
    simp only [readsOfAll, outerReadsOfAll, List.mem_append, List.mem_filter] at h ⊢
    refine h.imp (mem_outerReads_of_reads s hdefines.1) fun h => ?_
    exact ⟨mem_outerReadsOfAll_of_reads ss hdefines.2 h, by simpa using hown⟩

end

mutual

/-- The definition stands inside of a statement. -/
theorem readBehindDefinition_inside : ∀ s : Stmt, s.ownName? ≠ some f → f ∉ s.outerReads →
    s.defines.count f = 1 → ReadBehindDefinition f s.reads (blocksIn s)
  | .assign _ _ _, _, _, hcount => by simp [defines] at hcount
  | .eval _ _, _, _, hcount => by simp [defines] at hcount
  | .ret _ _, _, _, hcount => by simp [defines] at hcount
  | .branch test yes no place, _, houter, hcount => by
    simp only [outerReads, List.mem_append, not_or] at houter
    obtain ⟨⟨htest, hyes⟩, hno⟩ := houter
    rw [defines, List.count_append] at hcount
    have hreads : (reads (.branch test yes no place)).count f
        = (readsOfAll yes).count f + (readsOfAll no).count f := by
      simp [reads, List.count_eq_zero.mpr htest]
    by_cases hdefined : f ∈ definesOfAll yes
    · have hnone : f ∉ definesOfAll no := by
        rw [← List.count_pos_iff] at hdefined ⊢
        omega
      have hcountNo := List.count_eq_zero.mpr fun h => hno (mem_outerReadsOfAll_of_reads no hnone h)
      refine (readBehindDefinition_block yes hyes ?_).mono (by rw [hreads, hcountNo]; rfl) ?_
      · rw [List.count_eq_zero.mpr hnone] at hcount
        exact hcount
      · exact fun block hblock => List.mem_append.mpr (.inl hblock)
    · have hcountYes :=
        List.count_eq_zero.mpr fun h => hyes (mem_outerReadsOfAll_of_reads yes hdefined h)
      refine (readBehindDefinition_block no hno ?_).mono
        (by rw [hreads, hcountYes, Nat.zero_add]) ?_
      · rw [List.count_eq_zero.mpr hdefined, Nat.zero_add] at hcount
        exact hcount
      · exact fun block hblock => List.mem_append.mpr (.inr hblock)
  | .loop test body _, _, houter, hcount => by
    simp only [outerReads, List.mem_append, not_or] at houter
    refine (readBehindDefinition_block body houter.2 hcount).mono ?_ fun _ hblock => hblock
    simp [reads, List.count_eq_zero.mpr houter.1]
  | .define name _ _ body _, hown, houter, hcount => by
    have hname : name ≠ f := fun heq => hown (congrArg some heq)
    rw [defines, List.count_cons_of_ne hname] at hcount
    exact readBehindDefinition_block body houter hcount
  | .skip _, _, _, hcount => by simp [defines] at hcount
  | .next _, _, _, hcount => by simp [defines] at hcount

/-- A function that is defined once and not read outside of its scope. -/
theorem readBehindDefinition_block : ∀ ss : List Stmt, f ∉ outerReadsOfAll ss →
    (definesOfAll ss).count f = 1 → ReadBehindDefinition f (readsOfAll ss) (blocks ss)
  | [], _, hcount => by simp [definesOfAll] at hcount
  | s :: ss, houter, hcount => by
    simp only [outerReadsOfAll, List.mem_append, List.mem_filter, not_or] at houter
    obtain ⟨hs, hss⟩ := houter
    rw [definesOfAll, List.count_append] at hcount
    have hreads : (readsOfAll (s :: ss)).count f = s.reads.count f + (readsOfAll ss).count f := by
      rw [readsOfAll, List.count_append]
    by_cases hown : s.ownName? = some f
    · -- the definition itself: what its body reads would be read outside of the scope
      obtain ⟨params, rest, body, place, rfl⟩ := eq_define_of_ownName? hown
      rw [defines, List.count_cons_self] at hcount
      have hbody : f ∉ definesOfAll body := List.count_eq_zero.mp (by omega)
      have hnone := List.count_eq_zero.mpr fun h => hs (mem_outerReadsOfAll_of_reads body hbody h)
      refine ⟨_, List.mem_cons_self, [], params, rest, body, place, ss, rfl, ?_⟩
      rw [hreads, reads, hnone, Nat.zero_add]
    · have houter : f ∉ outerReadsOfAll ss := fun h => hss ⟨h, by simpa using hown⟩
      by_cases hdefined : f ∈ s.defines
      · have hrest : f ∉ definesOfAll ss := by
          rw [← List.count_pos_iff] at hdefined ⊢
          omega
        have hnone :=
          List.count_eq_zero.mpr fun h => houter (mem_outerReadsOfAll_of_reads ss hrest h)
        rw [List.count_eq_zero.mpr hrest] at hcount
        refine (readBehindDefinition_inside s hown hs hcount).mono (by rw [hreads, hnone]; rfl) ?_
        exact fun block hblock => List.mem_cons_of_mem _ (List.mem_append.mpr (.inl hblock))
      · have hnone := List.count_eq_zero.mpr fun h => hs (mem_outerReads_of_reads s hdefined h)
        rw [List.count_eq_zero.mpr hdefined, Nat.zero_add] at hcount
        exact (readBehindDefinition_block ss houter hcount).cons
          (by rw [hreads, hnone, Nat.zero_add])

end

end Stmt

/-! ### Nothing is left over -/

namespace Compile

variable {α β : Type}

/-- The step leaves no helpers behind. -/
def Settles (m : Compile α) : Prop := ∀ ⦃c a c'⦄, m c = .ok a c' → c'.helpers = c.helpers

namespace Settles

protected theorem pure (a : α) : Settles (pure a : Compile α) := by
  intro c b c' h
  obtain ⟨-, rfl⟩ := pure_ok h
  rfl

protected theorem bind {m : Compile α} {f : α → Compile β} (hm : Settles m)
    (hf : ∀ a, Settles (f a)) : Settles (m >>= f) := by
  intro c b c' h
  obtain ⟨a, c₁, h₁, h₂⟩ := bind_ok h
  rw [hf a h₂, hm h₁]

theorem still {m : Compile α} (h : Still m) : Settles m := by
  intro c a c' hrun
  obtain ⟨events, rfl⟩ := h hrun
  rfl

/-- What is collected does not wait any more. -/
theorem collect {view : List Scope → List Scope} {m : Compile α} (h : Keeps view m) :
    Settles (collect m) := by
  rintro c ⟨a, helpers⟩ c' hrun
  obtain ⟨c₁, hstep, -, rfl⟩ := collect_ok hrun
  obtain ⟨new, hnew, -⟩ := (h.grows hstep).helpers
  simp [hnew]

protected theorem mapM {f : α → Compile β} :
    ∀ {xs : List α}, (∀ x ∈ xs, Settles (f x)) → Settles (xs.mapM f)
  | [], _ => .pure []
  | x :: xs, h => by
    rw [List.mapM_cons]
    exact .bind (h x List.mem_cons_self) fun y =>
      .bind (.mapM fun x' hx' => h x' (List.mem_cons_of_mem _ hx')) fun ys => .pure _

end Settles

end Compile

namespace Lowering

open Compile

/-- A statement leaves no helper waiting. -/
theorem stmt_settles (n : Nat) (form : Form) : Settles ((upTo n).stmt form) := by
  cases n with
  | zero => exact .still (.fail _)
  | succ n =>
    exact .bind (.collect (bareStmt_keeps (upTo_balanced n) form)) fun ⟨_, _⟩ => .pure _

theorem stmts_settles (n : Nat) (forms : List Form) : Settles (stmts (upTo n) forms) :=
  .bind (.mapM fun form _ => stmt_settles n form) fun _ => .pure _

end Lowering

/-! ### Whole programs -/

namespace Program

open Compile Footprint Stmt

variable {p : String}

theorem isClear_of_clears {form : Form} (h : form.spells (clears p) = true) : form.IsClear p := by
  refine Form.allSymbols_mono (fun name hname => ?_) form h
  rw [List.all_eq_true] at hname ⊢
  intro x hx
  rw [isTemp, tempNumber?_of_clears (hname x hx)]
  rfl

/-- Macros bring in no symbol that turns into a temporary. -/
theorem isClear_of_expandAll {limit : Int} {forms made : List Form}
    (hforms : ∀ form ∈ forms, form.IsClear p)
    (h : Macro.expandAll Macro.standard limit forms = .ok made) :
    ∀ form ∈ made, form.IsClear p := by
  have hword {word : String}
      (h : ∀ x ∈ Name.targets word, x.toList.all (fun ch => !ch.isDigit) = true) :
      (Name.targets word).all (fun x => !isTemp p x) = true := by
    rw [List.all_eq_true]
    intro x hx
    rw [Lowering.isTemp_of_noDigit (h x hx)]
    rfl
  exact Macro.expandAll_allSymbols (hword (by decide)) (hword (by decide)) hforms h

theorem forms_still (options : Options) (source : String) : Still (forms options source) :=
  .bind (.lift _) fun _ => .bind (.lift _) fun _ => .bind (.report _) fun _ => .pure _

/-- The forms that lowering is given are those of the source with their macros expanded. -/
theorem forms_yields (options : Options) (source : String) :
    Yields (fun made => ∃ read, Form.readAll source = .ok read
      ∧ Macro.expandAll Macro.standard options.maxDepth read = .ok made) (forms options source) :=
  .bind (Lowering.lift_yields _) fun read hread => .bind (Lowering.lift_yields _) fun _ hmade =>
    .after fun _ => .pure ⟨read, hread, hmade⟩

/-- A compilation that succeeds has run its step to the end. -/
theorem compile_run {options : Options} {file source : String} {program : List Stmt}
    (h : (compile options file source).result = .ok program) :
    ∃ c, (do lower file (← forms options source)) options.context = .ok program c := by
  unfold compile Compile.outcome at h
  split at h
  · cases h
    exact ⟨_, ‹_›⟩
  · cases h

/-- Where a program defines, binds and reads temporaries. -/
theorem compile_placed {options : Options} {file source : String} {read : List Form}
    {program : List Stmt} (hread : Form.readAll source = .ok read)
    (hclear : ∀ form ∈ read, form.spells (clears options.tempPrefix) = true)
    (hcompile : (compile options file source).result = .ok program) :
    ∃ c c' : Context, c.scopes = []
      ∧ Context.Placed options.tempPrefix [] [] c c' (ofStmts program) := by
  obtain ⟨c₃, hrun⟩ := compile_run hcompile
  obtain ⟨made, c₁, hforms, hlower⟩ := bind_ok hrun
  obtain ⟨read', hread', hmade⟩ := forms_yields options source hforms
  cases hread.symm.trans hread'
  obtain ⟨events, rfl⟩ := forms_still options source hforms
  obtain ⟨stmts, c₂, hstmts, hreport⟩ := bind_ok hlower
  obtain ⟨_, _, _, hdone⟩ := bind_ok hreport
  obtain ⟨rfl, -⟩ := pure_ok hdone
  have hmadeClear := isClear_of_expandAll
    (fun form hform => isClear_of_clears (hclear form hform)) hmade
  obtain ⟨new, hnew, hplaced⟩ := Lowering.stmts_leaves (Lowering.upTo_placing _) hmadeClear hstmts
    rfl (by simp)
  -- statements take their helpers along, so none is left over at the end
  have hnone : new = [] := List.append_cancel_left
    (hnew.symm.trans ((Lowering.stmts_settles _ _ hstmts).trans (List.append_nil _).symm))
  rw [hnone, after_nil] at hplaced
  exact ⟨_, c₂, rfl, hplaced⟩

/-- A function that has the name of a temporary is defined once, never used for a variable, and read
only behind its definition in the block that holds it; and a temporary that is read is such a
function or a variable. -/
theorem helpers_precede_uses (options : Options) (file source : String) (read : List Form)
    (program : List Stmt) (hread : Form.readAll source = .ok read)
    (hclear : ∀ form ∈ read, form.spells (clears options.tempPrefix) = true)
    (hcompile : (compile options file source).result = .ok program) :
    (∀ f ∈ definesOfAll program, isTemp options.tempPrefix f = true →
      (definesOfAll program).count f = 1 ∧ f ∉ bindsOfAll program
        ∧ ReadBehindDefinition f (readsOfAll program) (blocks program))
    ∧ ∀ x ∈ readsOfAll program, isTemp options.tempPrefix x = true →
      x ∈ definesOfAll program ∨ x ∈ bindsOfAll program := by
  obtain ⟨c, c', hscopes, hplaced⟩ := compile_placed hread hclear hcompile
  -- without a scope every name means itself, so no name of the source means a temporary
  have hnames {x : String} (htemp : isTemp options.tempPrefix x = true) :
      ¬c.Names options.tempPrefix x := by
    rintro ⟨y, hy, rfl⟩
    simp [Context.resolve, hscopes, hy] at htemp
  have hbound {x : String} (hx : x ∈ outerReadsOfAll program)
      (htemp : isTemp options.tempPrefix x = true) : x ∈ bindsOfAll program := by
    rcases hplaced.reads x hx htemp with hx | hx | hx
    · exact hx
    · cases hx
    · exact (hnames htemp hx).elim
  refine ⟨fun f hf htemp => ?_, fun x hx htemp => ?_⟩
  · have hapart := hplaced.apart f hf htemp
    have hcount : (definesOfAll program).count f = 1 := by
      rw [← List.count_filter htemp]
      exact List.count_eq_one_of_mem hplaced.nodup (List.mem_filter.mpr ⟨hf, htemp⟩)
    exact ⟨hcount, hapart, readBehindDefinition_block program
      (fun h => hapart (hbound h htemp)) hcount⟩
  · by_cases hx' : x ∈ definesOfAll program
    · exact .inl hx'
    · exact .inr (hbound (mem_outerReadsOfAll_of_reads program hx' hx) htemp)

/-- Helpers inside of helpers, a loop with helpers in its initializer and in a jump, and a rest
parameter that is written together with its marker. -/
def helpersSource : String :=
  "(defn g [x &r] (loop [i (do x (fn [] x))] (if i (recur (let [y i] (case y 1 (fn [] y)))) r)))"

/-- The helper of the inner `case` is read behind its definition. -/
theorem helpers_precede_uses_nested : ∃ read program, Form.readAll helpersSource = .ok read
    ∧ (∀ form ∈ read, form.spells (clears ({} : Options).tempPrefix) = true)
    ∧ (compile {} "helpers" helpersSource).result = .ok program
    ∧ "__ll_case_fn_8" ∈ definesOfAll program
    ∧ ReadBehindDefinition "__ll_case_fn_8" (readsOfAll program) (blocks program) := by
  have hread : ((Form.readAll helpersSource).map fun read =>
      read.all fun form => form.spells (clears "__ll_")).toOption = some true := by decide +kernel
  have hcompile : ((compile {} "helpers" helpersSource).result.map fun program =>
      (definesOfAll program).contains "__ll_case_fn_8").toOption = some true := by decide +kernel
  cases hforms : Form.readAll helpersSource with
  | error fault =>
    rw [hforms] at hread
    cases hread
  | ok read =>
    cases hresult : (compile {} "helpers" helpersSource).result with
    | error fault =>
      rw [hresult] at hcompile
      cases hcompile
    | ok program =>
      rw [hforms] at hread
      rw [hresult] at hcompile
      have hclear := List.all_eq_true.mp (Option.some.inj hread)
      have hhelper := List.contains_iff_mem.mp (Option.some.inj hcompile)
      have hplaced :=
        helpers_precede_uses {} "helpers" helpersSource read program hforms hclear hresult
      exact ⟨read, program, rfl, hclear, rfl, hhelper,
        (hplaced.1 "__ll_case_fn_8" hhelper (by decide +kernel)).2.2⟩

end Program

end TailLisp
