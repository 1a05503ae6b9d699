import TailLisp.Proofs.Expansion
import TailLisp.Proofs.SourceSpans

/-!
# TailLisp.Proofs.ExpansionSteps

**How many steps expansion takes.** `Macro.expandAll` computes with a bound on how often it starts
again on a replaced call. `Macro.Expands` is the recursion without any such bound: expand the head
of a form, expand its parts, go on with the next form. A run of it counts the macro calls that it
replaces.

Replacing a call moves its arguments around and may make the form larger, but it takes one name of a
macro out of the form and brings none in (`Macro.nameCount_expandOnce`). So the names of macros that
are left count a run down: there is one for every row of forms (`Macro.exists_expands`), it replaces
at most as many calls as there are such names, and the bound in `expandAll` is never reached
(`Macro.Expands.eq_expandAll`).
-/

namespace TailLisp

namespace Form

/-- The forms taken two by two; an odd one at the end is left out. -/
def inPairs : List Form → List (Form × Form)
  | key :: value :: forms => (key, value) :: inPairs forms
  | _ => []

/-- The collection with other parts in the place of its own. -/
def withParts : Form → List Form → Form
  | .list _ span, parts => .list parts span
  | .vector _ span, parts => .vector parts span
  | .map _ span, parts => .map (inPairs parts) span
  | form, _ => form

end Form

namespace Macro

/-! ### Names of macros -/

variable {table : MacroTable} {limit : Int}

theorem nameCountOfAll_append (forms forms' : List Form) :
    nameCountOfAll table (forms ++ forms') =
      nameCountOfAll table forms + nameCountOfAll table forms' := by
  induction forms with
  | nil => simp [nameCountOfAll]
  | cons form forms ih => simp [nameCountOfAll, ih, Nat.add_assoc]

theorem nameCount_le_of_mem {form : Form} {forms : List Form} (h : form ∈ forms) :
    nameCount table form ≤ nameCountOfAll table forms := by
  induction h with
  | head forms => simp [nameCountOfAll]
  | tail _ _ ih => simp only [nameCountOfAll]; omega

theorem nameCountOfEntries_eq (entries : List (Form × Form)) :
    nameCountOfEntries table entries =
      nameCountOfAll table (entries.flatMap fun (key, value) => [key, value]) := by
  induction entries with
  | nil => rfl
  | cons entry entries ih =>
    simp only [List.flatMap_cons, List.cons_append, List.nil_append, nameCountOfEntries,
      nameCountOfAll, ih, Nat.add_assoc]

/-- A macro call is a list that begins with the name of the macro. -/
theorem ofCall?_eq_some {form : Form} {m : Macro} :
    ofCall? table form = some m ↔
      ∃ s args span, form = .list (.symbol s :: args) span ∧ table.lookup s.name = some m := by
  constructor
  · intro h
    unfold ofCall? at h
    split at h
    · next s hhead =>
      unfold Form.head? at hhead
      split at hhead
      · cases hhead
        exact ⟨_, _, _, rfl, h⟩
      · cases hhead
    · cases h
  · rintro ⟨s, args, span, rfl, h⟩
    exact h

/-- A macro call has the name of the macro and those in its arguments. -/
theorem nameCount_call {s : Symbol} {m : Macro} (h : table.lookup s.name = some m)
    (args : List Form) (span : Option Span) :
    nameCount table (.list (.symbol s :: args) span) = nameCountOfAll table args + 1 := by
  simp only [nameCount, nameCountOfAll, h, Option.isSome_some, if_true]
  omega

theorem nameCount_made (items : List Form) :
    nameCount table (.made items) = nameCountOfAll table items := rfl

/-- Threading keeps all forms that are threaded. -/
theorem nameCount_thread (last : Bool) (x : Form) (steps : List Form) :
    nameCount table (thread last x steps) = nameCount table x + nameCountOfAll table steps := by
  fun_induction thread last x steps with
  | case1 x => simp [nameCountOfAll]
  | case2 x head args span steps ih =>
    rw [ih]
    cases last <;> simp [Form.made, nameCount, nameCountOfAll, nameCountOfAll_append] <;> omega
  | case3 x step steps _ ih =>
    rw [ih]
    simp only [Form.made, nameCount, nameCountOfAll]
    omega

/-- What a macro makes of its arguments has the names of macros that these have. -/
theorem nameCount_replace {m : Macro} {name : String} {args : List Form} {form : Form}
    (hm : m ≠ .again) (h : m.replace name args = .ok form) :
    nameCount standard form = nameCountOfAll standard args := by
  have hif : nameCount standard (.named "if") = 0 := by decide
  have hdo : nameCount standard (.named "do") = 0 := by decide
  have hnil : nameCount standard .nil = 0 := rfl
  unfold replace at h
  split at h
  case h_5 | h_9 => cases h
  case h_6 | h_7 =>
    cases h
    exact nameCount_thread ..
  case h_8 => exact absurd rfl hm
  case h_1 | h_2 | h_3 | h_4 =>
    cases h
    simp only [nameCount_made, nameCountOfAll, hif, hdo, hnil]
    omega

theorem nameCount_placed (span : Option Span) (form : Form) :
    nameCount table (placed span form) = nameCount table form := by
  unfold placed
  split <;> rfl

theorem lookup_standard_ne_again (name : String) : standard.lookup name ≠ some .again := by
  intro h
  obtain ⟨before, behind, heq, -⟩ := List.lookup_eq_some_iff.mp h
  have hnone : ∀ entry ∈ before ++ (name, Macro.again) :: behind, entry.2 ≠ .again := by
    rw [← heq]
    decide
  exact hnone (name, .again) (by simp) rfl

/-- **A step takes one name of a macro out of the form.** -/
theorem nameCount_expandOnce {form form' : Form} (hcall : (ofCall? standard form).isSome = true)
    (h : expandOnce standard form = .ok form') :
    nameCount standard form = nameCount standard form' + 1 := by
  obtain ⟨m, hm⟩ := Option.isSome_iff_exists.mp hcall
  obtain ⟨s, args, span, rfl, hlookup⟩ := ofCall?_eq_some.mp hm
  simp only [expandOnce, hlookup] at h
  split at h
  · next made hmade =>
    cases h
    have hne : m ≠ .again := fun heq => lookup_standard_ne_again s.name (heq ▸ hlookup)
    rw [nameCount_call hlookup, nameCount_placed, nameCount_replace hne hmade]
  · cases h

/-! ### Runs -/

/-- Expansion of the head, as a loop. After `done` steps it has come to a form, and from there it
ends with the outcome when `steps` macro calls have been taken up in all. -/
inductive HeadRuns (table : MacroTable) (limit : Int) (whole : Form) :
    Nat → Form → Nat → Except Fault Form → Prop
  | settled {done : Nat} {form : Form} (hcall : ofCall? table form = none) :
      HeadRuns table limit whole done form done (.ok form)
  | tooDeep {done : Nat} {form : Form} (hcall : (ofCall? table form).isSome = true)
      (hlimit : limit ≤ done) :
      HeadRuns table limit whole done form done (.error (.ofForm (.expansionDepth limit) whole))
  | refused {done : Nat} {form : Form} {fault : Fault}
      (hcall : (ofCall? table form).isSome = true) (hlimit : done < limit)
      (hstep : expandOnce table form = .error fault) :
      HeadRuns table limit whole done form (done + 1) (.error fault)
  | step {done steps : Nat} {form next : Form} {outcome : Except Fault Form}
      (hcall : (ofCall? table form).isSome = true) (hlimit : done < limit)
      (hstep : expandOnce table form = .ok next)
      (hrest : HeadRuns table limit whole (done + 1) next steps outcome) :
      HeadRuns table limit whole done form steps outcome

/-- The parts of a form that expansion goes into: a quoted form has none. -/
def openParts (form : Form) : List Form := if form.isCallOf "quote" then [] else form.parts

/-- The form with its open parts replaced. -/
def withOpenParts (form : Form) (parts : List Form) : Form :=
  if form.isCallOf "quote" then form else form.withParts parts

/-- Expansion of a row of forms, as a recursion: the head of the first form, then its parts, then
the other forms, up to the first fault. It ends with the outcome after `steps` macro calls. -/
inductive Expands (table : MacroTable) (limit : Int) :
    List Form → Nat → Except Fault (List Form) → Prop
  | nil : Expands table limit [] 0 (.ok [])
  | headFault {form : Form} {forms : List Form} {steps : Nat} {fault : Fault}
      (hhead : HeadRuns table limit form 0 form steps (.error fault)) :
      Expands table limit (form :: forms) steps (.error fault)
  | partFault {form made : Form} {forms : List Form} {steps inner : Nat} {fault : Fault}
      (hhead : HeadRuns table limit form 0 form steps (.ok made))
      (hparts : Expands table limit (openParts made) inner (.error fault)) :
      Expands table limit (form :: forms) (steps + inner) (.error fault)
  | cons {form made : Form} {forms parts : List Form} {steps inner rest : Nat}
      {outcome : Except Fault (List Form)}
      (hhead : HeadRuns table limit form 0 form steps (.ok made))
      (hparts : Expands table limit (openParts made) inner (.ok parts))
      (hrest : Expands table limit forms rest outcome) :
      Expands table limit (form :: forms) (steps + inner + rest)
        (outcome.map (withOpenParts made parts :: ·))

/-! ### Every run counts down -/

/-- The parts that are expanded have no more names than the form. -/
theorem nameCountOfAll_openParts_le (form : Form) :
    nameCountOfAll table (openParts form) ≤ nameCount table form := by
  unfold openParts
  split
  · exact Nat.zero_le _
  · cases form with
    | map entries span => exact (nameCountOfEntries_eq entries).ge
    | list | vector => exact Nat.le_refl _
    | _ => exact Nat.zero_le _

theorem nameCount_pos {form : Form} (h : (ofCall? table form).isSome = true) :
    0 < nameCount table form := by
  obtain ⟨m, hm⟩ := Option.isSome_iff_exists.mp h
  obtain ⟨s, args, span, rfl, hlookup⟩ := ofCall?_eq_some.mp hm
  rw [nameCount_call hlookup]
  exact Nat.succ_pos _

namespace HeadRuns

variable {whole form made : Form} {done steps : Nat} {fault : Fault}

/-- The loop takes one name out for each step. -/
theorem nameCount_eq (h : HeadRuns standard limit whole done form steps (.ok made)) :
    nameCount standard form + done = nameCount standard made + steps := by
  generalize hok : Except.ok made = outcome at h
  induction h with
  | settled => cases hok; rfl
  | tooDeep | refused => cases hok
  | step hcall _ hstep _ ih =>
    have htaken := nameCount_expandOnce hcall hstep
    have hrest := ih hok
    omega

/-- A loop that ends in a fault had a name for each call that it took up. -/
theorem steps_le (h : HeadRuns standard limit whole done form steps (.error fault)) :
    steps ≤ nameCount standard form + done := by
  generalize herror : Except.error fault = outcome at h
  induction h with
  | settled => cases herror
  | tooDeep => exact Nat.le_add_left ..
  | refused hcall =>
    have hpos := nameCount_pos hcall
    omega
  | step hcall _ hstep _ ih =>
    have htaken := nameCount_expandOnce hcall hstep
    have hrest := ih herror
    omega

end HeadRuns

/-- The macros themselves never complain about the depth. -/
theorem expandOnce_cause {form : Form} {fault : Fault} (h : expandOnce table form = .error fault)
    (depth : Int) : fault.cause ≠ .expansionDepth depth := by
  have hreplace {m : Macro} {name : String} {args : List Form} {cause : Cause}
      (h : m.replace name args = .error cause) : cause ≠ .expansionDepth depth := by
    unfold replace at h
    split at h <;> cases h <;> exact nofun
  unfold expandOnce at h
  split at h
  · split at h
    · split at h
      · cases h
      · next hcause =>
        cases h
        exact hreplace hcause
    · cases h
  · cases h

/-- The loop reaches the limit only from a form with more names of macros than that. -/
theorem HeadRuns.limit_lt {whole form : Form} {done steps : Nat} {fault : Fault} {depth : Int}
    (h : HeadRuns standard limit whole done form steps (.error fault))
    (hdepth : fault.cause = .expansionDepth depth) : limit < nameCount standard form + done := by
  generalize herror : Except.error fault = outcome at h
  induction h with
  | settled => cases herror
  | tooDeep hcall hlimit =>
    have hpos := nameCount_pos hcall
    omega
  | refused hcall _ hstep =>
    cases herror
    exact absurd hdepth (expandOnce_cause hstep depth)
  | step hcall _ hstep _ ih =>
    have htaken := nameCount_expandOnce hcall hstep
    have hrest := ih herror
    omega

/-- A run takes no more steps than there are names of macros. -/
theorem Expands.steps_le {forms : List Form} {steps : Nat} {outcome : Except Fault (List Form)}
    (h : Expands standard limit forms steps outcome) : steps ≤ nameCountOfAll standard forms := by
  induction h with
  | nil => exact Nat.le_refl _
  | headFault hhead =>
    have hle := hhead.steps_le
    simp only [nameCountOfAll]
    omega
  | @partFault _ made _ _ _ _ hhead _ ih =>
    have heq := hhead.nameCount_eq
    have hparts : nameCountOfAll standard (openParts made) ≤ nameCount standard made :=
      nameCountOfAll_openParts_le made
    simp only [nameCountOfAll]
    omega
  | @cons _ made _ _ _ _ _ _ hhead _ _ ihparts ihrest =>
    have heq := hhead.nameCount_eq
    have hparts : nameCountOfAll standard (openParts made) ≤ nameCount standard made :=
      nameCountOfAll_openParts_le made
    simp only [nameCountOfAll]
    omega

/-- A run reaches the limit only on a row with a form that has more names of macros than that. -/
theorem Expands.limit_lt {forms : List Form} {steps : Nat} {fault : Fault} {depth : Int}
    (h : Expands standard limit forms steps (.error fault))
    (hdepth : fault.cause = .expansionDepth depth) :
    ∃ form ∈ forms, limit < nameCount standard form := by
  generalize herror : Except.error fault = outcome at h
  induction h with
  | nil => cases herror
  | @headFault form _ _ _ hhead =>
    cases herror
    exact ⟨form, List.mem_cons_self, by simpa using hhead.limit_lt hdepth⟩
  | @partFault form made _ _ _ _ hhead _ ih =>
    -- The names of a part are names of what the head was expanded to, and these are no more than
    -- the names of the form.
    obtain ⟨part, hpart, hlimit⟩ := ih herror
    have heq := hhead.nameCount_eq
    have hparts : nameCountOfAll standard (openParts made) ≤ nameCount standard made :=
      nameCountOfAll_openParts_le made
    have hle : nameCount standard part ≤ nameCountOfAll standard (openParts made) :=
      nameCount_le_of_mem hpart
    exact ⟨form, List.mem_cons_self, by omega⟩
  | @cons _ _ _ _ _ _ _ outcome _ _ _ _ ihrest =>
    cases outcome with
    | ok forms' => cases herror
    | error fault' =>
      cases herror
      obtain ⟨form, hform, hlimit⟩ := ihrest rfl
      exact ⟨form, List.mem_cons_of_mem _ hform, hlimit⟩

/-! ### There is a run -/

/-- The loop runs for every table of macros: it stops at the limit at the latest. -/
theorem exists_headRuns (table : MacroTable) (limit : Int) (whole form : Form) (done : Nat) :
    ∃ steps outcome, HeadRuns table limit whole done form steps outcome := by
  by_cases hcall : ofCall? table form = none
  · exact ⟨_, _, .settled hcall⟩
  have hcall' := Option.isSome_iff_ne_none.mpr hcall
  by_cases hlimit : limit ≤ done
  · exact ⟨_, _, .tooDeep hcall' hlimit⟩
  rw [Int.not_le] at hlimit
  cases hstep : expandOnce table form with
  | error fault => exact ⟨_, _, .refused hcall' hlimit hstep⟩
  | ok next =>
    obtain ⟨steps, outcome, hrest⟩ := exists_headRuns table limit whole next (done + 1)
    exact ⟨steps, outcome, .step hcall' hlimit hstep hrest⟩
termination_by (limit - done).toNat

/-- The parts that are expanded are smaller than the form. -/
theorem sizeOfAll_openParts_lt (form : Form) : Form.sizeOfAll (openParts form) < form.size := by
  have hentries (entries : List (Form × Form)) :
      Form.sizeOfAll (entries.flatMap fun (key, value) => [key, value]) =
        Form.sizeOfEntries entries := by
    induction entries with
    | nil => rfl
    | cons entry entries ih =>
      simp only [List.flatMap_cons, List.cons_append, List.nil_append, Form.sizeOfAll,
        Form.sizeOfEntries, ih, Nat.add_assoc]
  unfold openParts
  split
  · exact Form.size_pos form
  · cases form with
    | map entries span => simp only [Form.parts, hentries, Form.size, Nat.lt_add_one]
    | _ => simp [Form.parts, Form.size, Form.sizeOfAll]

theorem HeadRuns.done_le {whole form : Form} {done steps : Nat} {outcome : Except Fault Form}
    (h : HeadRuns table limit whole done form steps outcome) : done ≤ steps := by
  induction h <;> omega

/-- The loop ends where it began, or with fewer names of macros. -/
theorem HeadRuns.eq_or_lt {form made : Form} {steps : Nat}
    (h : HeadRuns standard limit form 0 form steps (.ok made)) :
    made = form ∨ nameCount standard made < nameCount standard form := by
  cases h with
  | settled => exact .inl rfl
  | step hcall _ hstep hrest =>
    have htaken := nameCount_expandOnce hcall hstep
    have heq := hrest.nameCount_eq
    have hle := hrest.done_le
    exact .inr (by omega)

/-- Expansion ends, whatever the forms and the limit are. -/
theorem exists_expands (limit : Int) (forms : List Form) :
    ∃ steps outcome, Expands standard limit forms steps outcome := by
  cases forms with
  | nil => exact ⟨_, _, .nil⟩
  | cons form forms =>
    obtain ⟨steps, head, hhead⟩ := exists_headRuns standard limit form form 0
    cases head with
    | error fault => exact ⟨_, _, .headFault hhead⟩
    | ok made =>
      obtain ⟨inner, parts, hinner⟩ := exists_expands limit (openParts made)
      cases parts with
      | error fault => exact ⟨_, _, .partFault hhead hinner⟩
      | ok parts =>
        obtain ⟨rest, outcome, hrest⟩ := exists_expands limit forms
        exact ⟨_, _, .cons hhead hinner hrest⟩
termination_by (nameCountOfAll standard forms, Form.sizeOfAll forms)
decreasing_by
  -- a replaced call leaves fewer names of macros, and otherwise the parts are smaller than the form
  · have hparts : nameCountOfAll standard (openParts made) ≤ nameCount standard made :=
      nameCountOfAll_openParts_le made
    have hsize := sizeOfAll_openParts_lt made
    rcases hhead.eq_or_lt with rfl | hlt
    · exact Prod.Lex.right' _ (by simp only [nameCountOfAll]; omega)
        (by simp only [Form.sizeOfAll]; omega)
    · exact Prod.Lex.left _ _ (by simp only [nameCountOfAll]; omega)
  · have hsize := Form.size_pos form
    exact Prod.Lex.right' _ (by simp only [nameCountOfAll]; omega)
      (by simp only [Form.sizeOfAll]; omega)

/-! ### The run is what expansion computes -/

/-- The loop at the head is what `expandSteps` computes. -/
theorem HeadRuns.eq_expandSteps {whole form : Form} {done steps : Nat}
    {outcome : Except Fault Form} (h : HeadRuns table limit whole done form steps outcome) :
    expandSteps table limit whole (limit - done).toNat form = outcome := by
  induction h with
  | settled hcall =>
    unfold expandSteps
    simp [hcall]
  | tooDeep hcall hlimit =>
    rw [Int.toNat_of_nonpos (by omega)]
    unfold expandSteps
    simp [hcall]
  | @refused done _ _ hcall hlimit hstep =>
    have hleft : (limit - done).toNat = (limit - (done + 1 : Nat)).toNat + 1 := by omega
    rw [hleft]
    unfold expandSteps
    simp only [hcall, if_true, hstep]
    rfl
  | @step done _ _ _ _ hcall hlimit hstep _ ih =>
    have hleft : (limit - done).toNat = (limit - (done + 1 : Nat)).toNat + 1 := by omega
    rw [hleft]
    unfold expandSteps
    simp only [hcall, if_true, hstep]
    exact ih

theorem HeadRuns.eq_expandHead {form : Form} {steps : Nat} {outcome : Except Fault Form}
    (h : HeadRuns table limit form 0 form steps outcome) :
    expandHead table limit form = outcome := by
  simpa [expandHead] using h.eq_expandSteps

section Walk

variable {resume : Form → Except Fault Form}

theorem walkAll_eq_mapM (forms : List Form) :
    walkAll table limit resume forms = forms.mapM (walk table limit resume) := by
  induction forms with
  | nil => rfl
  | cons form forms ih => rw [walkAll, List.mapM_cons, ih]

/-- The keys and values of a map are walked as one row. -/
theorem walkEntries_eq_mapM (entries : List (Form × Form)) :
    walkEntries table limit resume entries =
      Form.inPairs <$>
        (entries.flatMap fun (key, value) => [key, value]).mapM (walk table limit resume) := by
  induction entries with
  | nil => rfl
  | cons entry entries ih =>
    simp only [walkEntries, List.flatMap_cons, List.cons_append, List.nil_append, List.mapM_cons,
      ih, map_bind, bind_map_left, map_pure, bind_assoc, pure_bind]
    rfl

/-- A form that is no macro call is walked part by part. -/
theorem walk_eq_mapM {form : Form} (h : ofCall? table form = none) :
    walk table limit resume form =
      withOpenParts form <$> (openParts form).mapM (walk table limit resume) := by
  have hnone : ¬(ofCall? table form).isSome = true := Option.not_isSome_iff_eq_none.2 h
  unfold openParts withOpenParts
  cases form with
  | list items span =>
    rw [walk, if_neg hnone]
    split
    · rfl
    · rw [walkAll_eq_mapM]
      exact bind_pure_comp ..
  | vector items span =>
    rw [walk, walkAll_eq_mapM]
    exact bind_pure_comp ..
  | map entries span =>
    rw [walk, walkEntries_eq_mapM, bind_map_left]
    exact bind_pure_comp ..
  | _ => rfl

end Walk

theorem walk_of_call {resume : Form → Except Fault Form} {form : Form}
    (h : (ofCall? table form).isSome = true) :
    walk table limit resume form = expandHead table limit form >>= resume := by
  obtain ⟨m, hm⟩ := Option.isSome_iff_exists.mp h
  obtain ⟨s, args, span, rfl, -⟩ := ofCall?_eq_some.mp hm
  rw [walk, if_pos h]

theorem expandRounds_of_settled {form : Form} (h : ofCall? table form = none) (rounds : Nat) :
    expandRounds table limit rounds form =
      withOpenParts form <$> (openParts form).mapM (expandRounds table limit rounds) := by
  cases rounds <;> exact walk_eq_mapM h

/-- Where the head settles, the rounds that are left for its parts are enough for the names in
them. -/
theorem expandRounds_of_headRuns {form made : Form} {steps rounds : Nat}
    (hhead : HeadRuns standard limit form 0 form steps (.ok made))
    (hrounds : nameCount standard form ≤ rounds) :
    ∃ left, (∀ part ∈ openParts made, nameCount standard part ≤ left) ∧
      expandRounds standard limit rounds form =
        withOpenParts made <$> (openParts made).mapM (expandRounds standard limit left) := by
  suffices ∃ left, nameCount standard made ≤ left ∧ expandRounds standard limit rounds form =
      withOpenParts made <$> (openParts made).mapM (expandRounds standard limit left) by
    obtain ⟨left, hleft, heq⟩ := this
    refine ⟨left, fun part hpart => ?_, heq⟩
    exact ((nameCount_le_of_mem hpart).trans (nameCountOfAll_openParts_le made)).trans hleft
  have hmade : expandHead standard limit form = .ok made := hhead.eq_expandHead
  have hcount := hhead.nameCount_eq
  cases hhead with
  | settled hcall => exact ⟨rounds, hrounds, expandRounds_of_settled hcall rounds⟩
  | step hcall _ _ hrest =>
    -- One step at least was made, so a round can be given up.
    have hle := hrest.done_le
    obtain ⟨left, rfl⟩ : ∃ left, rounds = left + 1 := ⟨rounds - 1, by omega⟩
    refine ⟨left, by omega, ?_⟩
    calc expandRounds standard limit (left + 1) form
        = expandHead standard limit form >>= expandRounds standard limit left := walk_of_call hcall
      _ = expandRounds standard limit left made := by rw [hmade]; rfl
      _ = _ := expandRounds_of_settled (ofCall?_of_expandSteps hmade) left

/-- **With a round for every name of a macro, the bound on the rounds plays no part.** -/
theorem Expands.mapM_expandRounds {forms : List Form} {steps : Nat}
    {outcome : Except Fault (List Form)} (h : Expands standard limit forms steps outcome) :
    ∀ rounds : Form → Nat, (∀ form ∈ forms, nameCount standard form ≤ rounds form) →
      forms.mapM (fun form => expandRounds standard limit (rounds form) form) = outcome := by
  induction h with
  | nil => exact fun _ _ => rfl
  | @headFault form _ _ fault hhead =>
    intro rounds _
    have hfault : expandHead standard limit form = .error fault := hhead.eq_expandHead
    -- Only a macro call has a fault at its head.
    have hcall : (ofCall? standard form).isSome = true := by
      cases hhead <;> assumption
    have hform : expandRounds standard limit (rounds form) form = .error fault := by
      cases rounds form <;> exact (walk_of_call hcall).trans (by rw [hfault]; rfl)
    rw [List.mapM_cons, hform]
    rfl
  | partFault hhead _ ih =>
    intro rounds hrounds
    obtain ⟨left, hleft, hmade⟩ := expandRounds_of_headRuns hhead
      (hrounds _ (List.mem_cons_self ..))
    rw [List.mapM_cons, hmade, ih (fun _ => left) hleft]
    rfl
  | @cons _ _ _ _ _ _ _ outcome hhead _ _ ihparts ihrest =>
    intro rounds hrounds
    obtain ⟨left, hleft, hmade⟩ := expandRounds_of_headRuns hhead
      (hrounds _ (List.mem_cons_self ..))
    have hrest := ihrest rounds fun form hform => hrounds form (List.mem_cons_of_mem _ hform)
    rw [List.mapM_cons, hmade, ihparts (fun _ => left) hleft, hrest]
    cases outcome <;> rfl

/-- The recursion without a bound is what `expandAll` computes: its bound is never reached. -/
theorem Expands.eq_expandAll {forms : List Form} {steps : Nat} {outcome : Except Fault (List Form)}
    (h : Expands standard limit forms steps outcome) : expandAll standard limit forms = outcome :=
  h.mapM_expandRounds _ fun _ _ => Nat.le_refl _

/-- **Expansion with the standard macros ends, and only deep forms exceed the limit.** A step takes
one name of a macro out of the form, names in quoted parts included. So every row of forms has a run
of the unbounded recursion; each run ends with what `expandAll` gives, after no more macro steps
than there are names of macros. The limit is only exceeded if one of the forms has more names than
it allows. -/
theorem expandAll_counts_down (limit : Int) (forms : List Form) :
    (∀ form form', (ofCall? standard form).isSome = true → expandOnce standard form = .ok form' →
      nameCount standard form = nameCount standard form' + 1) ∧
    (∃ steps outcome, Expands standard limit forms steps outcome) ∧
    (∀ steps outcome, Expands standard limit forms steps outcome →
      expandAll standard limit forms = outcome ∧ steps ≤ nameCountOfAll standard forms) ∧
    (∀ fault depth, expandAll standard limit forms = .error fault →
      fault.cause = .expansionDepth depth → ∃ form ∈ forms, limit < nameCount standard form) := by
  refine ⟨fun _ _ => nameCount_expandOnce, exists_expands limit forms,
    fun _ _ h => ⟨h.eq_expandAll, h.steps_le⟩, fun fault depth hfault hdepth => ?_⟩
  obtain ⟨steps, outcome, hrun⟩ := exists_expands limit forms
  obtain rfl : outcome = .error fault := hrun.eq_expandAll.symm.trans hfault
  exact hrun.limit_lt hdepth

/-- Two macro calls at the head, one after the other, and one in an argument:
`(->> (-> x) (when y))`. -/
def threadedWhen : Form :=
  .made [.named "->>", .made [.named "->", .named "x"], .made [.named "when", .named "y"]]

theorem expandAll_counts_down_threadedWhen :
    (∃ form, expandOnce standard threadedWhen = .ok form ∧
      nameCount standard threadedWhen = nameCount standard form + 1) ∧
    (∃ steps outcome, Expands standard 2 [threadedWhen] steps outcome ∧
      expandAll standard 2 [threadedWhen] = outcome ∧
      steps ≤ nameCountOfAll standard [threadedWhen]) ∧
    ∃ fault, expandAll standard 1 [threadedWhen] = .error fault ∧
      fault.cause = .expansionDepth 1 ∧
      ∃ form ∈ [threadedWhen], 1 < nameCount standard form := by
  obtain ⟨hstep, ⟨steps, outcome, hrun⟩, hends, -⟩ := expandAll_counts_down 2 [threadedWhen]
  obtain ⟨-, -, -, hdeep⟩ := expandAll_counts_down 1 [threadedWhen]
  exact ⟨⟨_, rfl, hstep _ _ rfl rfl⟩, ⟨steps, outcome, hrun, hends steps outcome hrun⟩,
    ⟨_, rfl, rfl, by exact_mod_cast hdeep _ 1 rfl rfl⟩⟩

end Macro

end TailLisp
