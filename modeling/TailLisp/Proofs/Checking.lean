import TailLisp.Command
import TailLisp.Proofs.Crafting
import TailLisp.Proofs.PrintedForms
import TailLisp.Proofs.Temporaries

/-!
# TailLisp.Proofs.Checking

**How a check ends.** Checking a file compiles its source and asks the target language whether it
accepts the program. Faults of the compiler are faults of the text, and so are repeated parameters,
an assigned `__debug__` and loops that lie too deep in each other; a variable that has the name of a
constant is none, and its rejection escapes from the check. Binders are looked at before they become
variables, temporaries end in a digit, and so such a name is the first part of a symbol that is
written outside of quoted forms (`Command.checkFile_ending`). What else escapes is about integers
with too many digits: one that the reader meets, or one in a form that a fault should show.
-/

namespace TailLisp

/-! ### Symbols outside of quoted forms -/

namespace Form

mutual

/-- The symbols in the form, without those in quoted forms. -/
def unquotedSymbols : Form → List Symbol
  | .const _ => []
  | .symbol s => [s]
  | .keyword _ => []
  | .list items span =>
    if (Form.list items span).isCallOf "quote" then [] else unquotedSymbolsOfAll items
  | .vector items _ => unquotedSymbolsOfAll items
  | .map entries _ => unquotedSymbolsOfEntries entries

/-- The symbols in the forms. -/
def unquotedSymbolsOfAll : List Form → List Symbol
  | [] => []
  | form :: forms => unquotedSymbols form ++ unquotedSymbolsOfAll forms

/-- The symbols in the keys and values. -/
def unquotedSymbolsOfEntries : List (Form × Form) → List Symbol
  | [] => []
  | (key, value) :: entries =>
    unquotedSymbols key ++ unquotedSymbols value ++ unquotedSymbolsOfEntries entries

end

variable {P : String → Bool}

mutual

/-- A form whose unquoted symbols have the property has it throughout. -/
theorem throughout_named : ∀ form : Form, (∀ s ∈ form.unquotedSymbols, P s.name = true) →
    form.Throughout false (Named P)
  | .const _, _ => nofun
  | .symbol s, h => fun s' heq => by
    cases heq
    exact h s (by simp [unquotedSymbols])
  | .keyword _, _ => nofun
  | .list items span, h => by
    refine ⟨nofun, ?_⟩
    by_cases hquote : (Form.list items span).isCallOf "quote" = true
    · exact .inl ⟨rfl, hquote⟩
    · rw [unquotedSymbols, if_neg hquote] at h
      exact .inr (throughoutAll_named items h)
  | .vector items _, h => ⟨nofun, throughoutAll_named items h⟩
  | .map entries _, h => ⟨nofun, throughoutEntries_named entries h⟩

theorem throughoutAll_named : ∀ forms : List Form,
    (∀ s ∈ unquotedSymbolsOfAll forms, P s.name = true) → ThroughoutAll false (Named P) forms
  | [], _ => trivial
  | form :: forms, h => by
    rw [unquotedSymbolsOfAll, List.forall_mem_append] at h
    exact ⟨throughout_named form h.1, throughoutAll_named forms h.2⟩

theorem throughoutEntries_named : ∀ entries : List (Form × Form),
    (∀ s ∈ unquotedSymbolsOfEntries entries, P s.name = true) →
      ThroughoutEntries false (Named P) entries
  | [], _ => trivial
  | (key, value) :: entries, h => by
    rw [unquotedSymbolsOfEntries, List.forall_mem_append, List.forall_mem_append] at h
    exact ⟨⟨throughout_named key h.1.1, throughout_named value h.1.2⟩,
      throughoutEntries_named entries h.2⟩

end

end Form

/-! ### Spellings -/

namespace Name

theorem spellChar_eq {c : Char} (h : '_' ∉ spellChar c) : spellChar c = [c] := by
  unfold spellChar at h ⊢
  split at h <;> first | rfl | exact absurd h (by decide)

/-- A spelling without an underscore leaves the last characters as they are. -/
theorem spellLast_eq {cs : List Char} (h : '_' ∉ spellLast cs) : spellLast cs = cs := by
  unfold spellLast at h ⊢
  split at h
  · exact absurd h (by simp)
  · exact absurd h (by simp)
  · rfl

theorem underscore_mem_of_operator {name spelled : String} (h : operator? name = some spelled) :
    '_' ∈ spelled.toList := by
  obtain ⟨before, behind, heq, -⟩ := List.lookup_eq_some_iff.mp h
  have hall : ∀ entry ∈ before ++ (name, spelled) :: behind, '_' ∈ entry.2.toList := by
    rw [← heq]
    decide
  exact hall (name, spelled) (by simp)

/-- Whatever a spelling changes, it writes an underscore for. -/
theorem eq_spell {name : String} (h : '_' ∉ (spell name).toList) : name = spell name := by
  unfold spell at h ⊢
  split at h
  · next hoperator => exact absurd (underscore_mem_of_operator hoperator) h
  · rw [String.toList_ofList, List.mem_flatMap, not_exists] at h
    have hchars : ∀ c ∈ spellLast name.toList, '_' ∉ spellChar c := fun c hc h' => h c ⟨hc, h'⟩
    -- an underscore is spelled as itself, so none is in the name before its characters are spelled
    have hlast : spellLast name.toList = name.toList :=
      spellLast_eq fun hmem => hchars '_' hmem (by decide)
    have hflat : (spellLast name.toList).flatMap spellChar = spellLast name.toList := by
      rw [List.flatMap_congr fun c hc => spellChar_eq (hchars c hc)]
      simp
    rw [hflat, hlast, String.ofList_toList]

end Name

theorem exists_digit_natText (n : Nat) : ∃ c ∈ (natText n).toList, c.isDigit = true := by
  obtain ⟨c, cs, hdigits⟩ := List.exists_cons_of_ne_nil (Nat.toDigits_ne_nil (n := n) (b := 10))
  have hc : c ∈ Nat.toDigits 10 n := by simp [hdigits]
  refine ⟨c, ?_, Nat.isDigit_of_mem_toDigits (by decide) (by decide) hc⟩
  rwa [natText, String.toList_ofList]

/-! ### Names of constants -/

/-- Does a name, up to its first point, differ from the given one? -/
def Name.avoids (name n : String) : Bool := (parts n).head? != some name

/-- A symbol in the form, outside of quoted forms, has the name up to its first point. -/
def Form.Mentions (form : Form) (name : String) : Prop :=
  ∃ s ∈ form.unquotedSymbols, (Name.parts s.name).head? = some name

/-- Lowering uses the name for a variable only if a symbol mentions it: no spelling leads to it, it
is no temporary, patterns do not bind it, and neither lowering nor macros bring it in. -/
structure Name.IsApart (name : String) : Prop where
  plain : '_' ∉ name.toList
  whole : (parts name).head? = some name
  digitless : name.toList.all (fun c => !c.isDigit) = true
  reserved : Text.isReserved name = true
  library : name ∉ libraryNames
  core : ∀ word ∈ ["if", "do"], avoids name word = true

theorem Stmt.isApart_of_reserved {name : String} (hname : name ∈ reservedNames) :
    Name.IsApart name := by
  simp only [reservedNames, List.mem_cons, List.not_mem_nil, or_false] at hname
  rcases hname with rfl | rfl | rfl <;> constructor <;> decide

/-- Any place, and any name but the given one. -/
def Material.without (name : String) : Material where
  place _ := True
  name x := x ≠ name
  target x := x ≠ name
  temp _ _ := True

/-- Nothing but the name itself is spelled like a name that is apart. -/
theorem Name.IsApart.eq_of_spell {name n : String} (h : IsApart name) (heq : spell n = name) :
    n = name :=
  (eq_spell (heq ▸ h.plain)).trans heq

theorem Material.without_tempers {name : String} (h : Name.IsApart name) (stem : String) :
    (without name).Tempers stem := by
  intro before n _ heq
  obtain ⟨c, hc, hdigit⟩ := exists_digit_natText n
  have hc : c ∈ name.toList := by
    rw [← heq, String.toList_append]
    exact List.mem_append_right _ hc
  simpa [hdigit] using List.all_eq_true.mp h.digitless c hc

/-- All names but one are a material for forms that do not mention it. -/
theorem Material.without_covers {name : String} (h : Name.IsApart name) :
    (without name).Covers (Form.Named (Name.avoids name)) where
  nil := nofun
  place _ _ _ := trivial
  fused _ _ _ _ _ := trivial
  read {s first fields} hs hparts heq := by
    have hfirst : Name.avoids name s.name = true := hs s rfl
    rw [Name.avoids, hparts, h.eq_of_spell heq] at hfirst
    simp at hfirst
  bound hx := hx
  unchecked {_ s} _ hs _ := by
    refine ⟨fun heq => ?_, without_tempers h _⟩
    have hname : Name.avoids name s.name = true := hs s rfl
    rw [Name.avoids, h.eq_of_spell heq, h.whole] at hname
    simp at hname
  bindable {s} _ hs := by
    refine ⟨fun heq => ?_, without_tempers h _⟩
    rw [Pattern.isBindable, heq, h.reserved] at hs
    simp at hs
  tempers stem _ := without_tempers h stem
  library x hx heq := h.library (heq ▸ hx)

/-! ### Variables of code that is made of a material -/

section Vars

variable {M : Material}

namespace Expr

mutual

theorem name_of_mem_vars : ∀ e : Expr, e.MadeOf M → ∀ x ∈ e.vars, M.name x
  | .const _ _, _ => nofun
  | .name _ _, h => by simpa [vars] using h.1
  | .field value _ _, h => name_of_mem_vars value h.1
  | .call callee args _, h =>
    List.forall_mem_append.mpr ⟨name_of_mem_vars callee h.1, name_of_mem_varsOfAll args h.2.1⟩
  | .list items _, h => name_of_mem_varsOfAll items h.1
  | .dict entries _, h => List.forall_mem_append.mpr (name_of_mem_varsOfEntries entries h.1)
  | .binary _ left right _, h =>
    List.forall_mem_append.mpr ⟨name_of_mem_vars left h.1, name_of_mem_vars right h.2.1⟩
  | .unary _ operand _, h => name_of_mem_vars operand h.1
  | .logical _ operands _, h => name_of_mem_varsOfAll operands h.1
  | .compare _ first others _, h =>
    List.forall_mem_append.mpr ⟨name_of_mem_varsOfAll others h.2.1, name_of_mem_vars first h.1⟩
  | .conditional test yes no _, h =>
    List.forall_mem_append.mpr ⟨List.forall_mem_append.mpr
      ⟨name_of_mem_vars test h.1, name_of_mem_vars yes h.2.1⟩, name_of_mem_vars no h.2.2.1⟩
  | .thunk body _, h => name_of_mem_vars body h.1

theorem name_of_mem_varsOfAll : ∀ es : List Expr, MadeOfAll M es → ∀ x ∈ varsOfAll es, M.name x
  | [], _ => nofun
  | e :: es, h =>
    List.forall_mem_append.mpr ⟨name_of_mem_vars e h.1, name_of_mem_varsOfAll es h.2⟩

theorem name_of_mem_varsOfEntries : ∀ entries : List (Expr × Expr), MadeOfEntries M entries →
    (∀ x ∈ varsOfKeys entries, M.name x) ∧ ∀ x ∈ varsOfValues entries, M.name x
  | [], _ => ⟨nofun, nofun⟩
  | (key, value) :: entries, h =>
    have ih := name_of_mem_varsOfEntries entries h.2.2
    ⟨List.forall_mem_append.mpr ⟨name_of_mem_vars key h.1, ih.1⟩,
      List.forall_mem_append.mpr ⟨name_of_mem_vars value h.2.1, ih.2⟩⟩

end

end Expr

namespace Stmt

mutual

theorem name_of_mem_vars (hbound : ∀ x, M.target x → M.name x) :
    ∀ (s : Stmt) {spot : Tree.Spot}, s.MadeOf M spot → ∀ x ∈ s.vars, M.name x
  | .assign _ value _, _, h => List.forall_mem_cons.mpr ⟨hbound _ h.1, value.name_of_mem_vars h.2.1⟩
  | .eval value _, _, h | .ret value _, _, h => value.name_of_mem_vars h.1
  | .branch test yes no _, _, h =>
    List.forall_mem_append.mpr ⟨List.forall_mem_append.mpr
      ⟨test.name_of_mem_vars h.1, name_of_mem_varsOfAll hbound yes h.2.1⟩,
      name_of_mem_varsOfAll hbound no h.2.2.1⟩
  | .loop test body _, _, h =>
    List.forall_mem_append.mpr
      ⟨test.name_of_mem_vars h.1, name_of_mem_varsOfAll hbound body h.2.1⟩
  | .define _ _ _ body _, _, h => name_of_mem_varsOfAll hbound body h.2.2.1
  | .skip _, _, _ | .next _, _, _ => nofun

theorem name_of_mem_varsOfAll (hbound : ∀ x, M.target x → M.name x) :
    ∀ (ss : List Stmt) {spot : Tree.Spot}, MadeOfAll M spot ss → ∀ x ∈ varsOfAll ss, M.name x
  | [], _, _ => nofun
  | s :: ss, _, h =>
    List.forall_mem_append.mpr ⟨name_of_mem_vars hbound s h.1, name_of_mem_varsOfAll hbound ss h.2⟩

end

end Stmt

end Vars

/-! ### Rejections -/

namespace Stmt

theorem place?_debugAt {place : Span} {names : List String} :
    ∀ rejection ∈ debugAt place names, rejection.place?.isSome = true := by
  unfold debugAt
  split
  · exact List.forall_mem_singleton.mpr rfl
  · nofun

mutual

/-- What is wrong about an assignment or a loop has a place. -/
theorem place?_misplaced (above : Span) (loops : Nat) :
    ∀ s : Stmt, ∀ rejection ∈ misplaced above loops s, rejection.place?.isSome = true
  | .assign .. => place?_debugAt
  | .branch _ yes no _ =>
    List.forall_mem_append.mpr
      ⟨place?_misplacedOfAll _ loops yes, place?_misplacedOfAll _ loops no⟩
  | .loop _ body _ => by
    refine List.forall_mem_append.mpr ⟨?_, place?_misplacedOfAll _ (loops + 1) body⟩
    split
    · nofun
    · exact List.forall_mem_singleton.mpr rfl
  | .define _ _ _ body _ =>
    List.forall_mem_append.mpr
      ⟨List.forall_mem_append.mpr ⟨place?_debugAt, place?_misplacedOfAll _ 0 body⟩, place?_debugAt⟩
  | .eval .. | .ret .. | .skip _ | .next _ => nofun

/-- Whatever is misplaced has a place, and so it is an error in the syntax. -/
theorem place?_misplacedOfAll (above : Span) (loops : Nat) :
    ∀ ss : List Stmt, ∀ rejection ∈ misplacedOfAll above loops ss, rejection.place?.isSome = true
  | [] => nofun
  | s :: ss =>
    List.forall_mem_append.mpr
      ⟨place?_misplaced above loops s, place?_misplacedOfAll above loops ss⟩

end

end Stmt

/-- A rejection has a place, or it is for a variable with the name of a constant. -/
theorem Stmt.rejection?_cases {program : List Stmt} {rejection : Rejection}
    (h : rejection? program = some rejection) : rejection.place?.isSome = true ∨
      ∃ name ∈ reservedNames, name ∈ varsOfAll program ∧ rejection = .reservedName name := by
  rcases (Option.orElse_eq_some _ _ _).mp h with h | ⟨-, h⟩
  · obtain ⟨name, hfind, rfl⟩ := Option.map_eq_some_iff.mp h
    have hreserved : name ∈ reservedNames := List.contains_iff_mem.mp (List.find?_some hfind)
    exact .inr ⟨name, hreserved, List.mem_of_find?_eq_some hfind, rfl⟩
  · refine .inl ?_
    rcases (Option.orElse_eq_some _ _ _).mp h with h | ⟨-, h⟩
    · obtain ⟨_, -, rfl⟩ := Option.map_eq_some_iff.mp h
      rfl
    · exact place?_misplacedOfAll _ 0 program rejection (List.mem_of_head? h)

namespace Program

variable {options : Options} {file source name : String} {program : List Stmt}

/-- A variable whose name only symbols bring in is mentioned in the source. -/
theorem mentions_of_mem_vars (hname : Name.IsApart name)
    (h : (compile options file source).result = .ok program)
    (hvar : name ∈ Stmt.varsOfAll program) :
    ∃ forms, Form.readAll source = .ok forms ∧ ∃ form ∈ forms, form.Mentions name := by
  -- if no symbol mentioned the name, the program would be made without it
  by_contra hnone
  have hforms : ∀ forms, Form.readAll source = .ok forms → ∀ form ∈ forms,
      form.Throughout false (Form.Named (Name.avoids name)) := by
    intro forms hread form hform
    refine Form.throughout_named form fun s hs => ?_
    by_contra hs'
    exact hnone ⟨forms, hread, form, hform, s, hs, by simpa [Name.avoids] using hs'⟩
  have hmade := compile_madeOf (Material.without_covers hname)
    (Macro.named_kept (hname.core "if" (by simp)) (hname.core "do" (by simp)))
    Macro.named_shallow (fun _ => trivial) hforms h
  exact Stmt.name_of_mem_varsOfAll (fun _ hx => hx) program hmade name hvar rfl

/-- The fault is about a numeral of the source that is too long to be read, or its form has an
integer that is too long to be written. -/
def HasLongInteger (source : String) (fault : Fault) : Prop :=
  (∃ tokens, Token.scan source = .ok tokens ∧ ∃ token ∈ tokens, ∃ digits,
    token.tooLong? = some digits ∧ fault = { cause := .longNumeral digits }) ∨
  ∃ form ∈ fault.form?, ¬form.Throughout true Form.HasFewDigits

/-- Only the reader reports numerals that are too long. -/
theorem readAll_of_compile_error {fault : Fault}
    (h : (compile options file source).result = .error fault) (hkind : fault.kind = .digits) :
    Form.readAll source = .error fault := by
  rcases forms_cases options source options.context with ⟨first, hforms, hwhy⟩ |
    ⟨made, event, hforms⟩
  · have hfirst : (compile options file source).result = .error first := by
      simp only [compile, Compile.outcome, EStateM.run, Bind.bind, EStateM.bind, hforms]
    obtain rfl := Except.error.inj (hfirst.symm.trans h)
    rcases hwhy with hread | ⟨read, hexpand⟩
    · exact hread
    · -- macros have faults of their own kind only
      cases hkind.symm.trans (Macro.expandAll_faults read hexpand)
  · have hlower : (compile options file source).result =
        (Compile.outcome (lower file made) (options.context.report event)).result := by
      simp only [compile, Compile.outcome, EStateM.run, Bind.bind, EStateM.bind, hforms]
    rw [hlower, Compile.outcome] at h
    split at h
    · cases h
    · next hrun =>
      obtain rfl := Except.error.inj h
      exact absurd hkind ((lower_keeps file made).kind hrun)

/-- A fault that is not one of the syntax has an integer that is too long. -/
theorem hasLongInteger_of_compile_error {fault : Fault}
    (h : (compile options file source).result = .error fault) (hfault : fault.isSyntactic = false) :
    HasLongInteger source fault := by
  by_cases hkind : fault.kind = .digits
  · rcases Form.readAll_faults (readAll_of_compile_error h hkind) with hreader | hlong
    · cases hkind.symm.trans hreader
    · exact .inl hlong
  · -- the text of the fault shows its form, and there is none for that
    have hform : fault.isWritable = false := by simpa [Fault.isSyntactic, hkind] using hfault
    unfold Fault.isWritable at hform
    cases hshown : fault.form? with
    | none => simp [hshown] at hform
    | some form =>
      refine .inr ⟨form, hshown, fun hdigits => ?_⟩
      simp [hshown, (Form.isWritable_iff form).mpr hdigits] at hform

/-- A source has a program that is accepted, or a fault of its text; or it mentions the name of a
constant and is rejected for that, or an integer in it is too long. -/
theorem runnable_cases (options : Options) (file source : String) :
    (∃ program, (compile options file source).result = .ok program ∧
      Stmt.rejection? program = none ∧ (runnable options file source).result = .ok program) ∨
    (∃ trouble, (runnable options file source).result = .error trouble ∧
      trouble.isSyntactic = true) ∨
    (∃ name ∈ Stmt.reservedNames,
      (runnable options file source).result = .error (.rejected (.reservedName name)) ∧
      ∃ forms, Form.readAll source = .ok forms ∧ ∃ form ∈ forms, form.Mentions name) ∨
    ∃ fault, (runnable options file source).result = .error (.fault fault) ∧
      fault.isSyntactic = false ∧ HasLongInteger source fault := by
  cases hcompile : (compile options file source).result with
  | error fault =>
    have hresult : (runnable options file source).result = .error (.fault fault) := by
      simp [runnable, hcompile]
    cases hfault : fault.isSyntactic with
    | true => exact .inr (.inl ⟨.fault fault, hresult, hfault⟩)
    | false =>
      exact .inr (.inr (.inr ⟨fault, hresult, hfault,
        hasLongInteger_of_compile_error hcompile hfault⟩))
  | ok program =>
    cases hrejection : Stmt.rejection? program with
    | none =>
      refine .inl ⟨program, rfl, hrejection, ?_⟩
      simp [runnable, hcompile, accept, hrejection]
    | some rejection =>
      have hresult : (runnable options file source).result = .error (.rejected rejection) := by
        simp [runnable, hcompile, accept, hrejection]
      rcases Stmt.rejection?_cases hrejection with hplace | ⟨name, hname, hvar, rfl⟩
      · exact .inr (.inl ⟨_, hresult, hplace⟩)
      · exact .inr (.inr (.inl ⟨name, hname, hresult,
          mentions_of_mem_vars (Stmt.isApart_of_reserved hname) hcompile hvar⟩))

end Program

namespace Command

/-- **Checking a readable file ends in one of four ways.** It is accepted, with exit code 0, if the
compiler makes a program of it that the target language accepts. With exit code 1 it is reported to
have a fault in its text. The check crashes over a variable that has the name of a constant, and
then the file mentions that name outside of its quoted forms; and it crashes over an integer that
has too many digits, be it a numeral of the file or an integer in the form of a fault. -/
theorem checkFile_ending (tree : FileTree) (setup : Setup) (file source : String)
    (hread : tree.read file = .ok source) :
    (∃ program, (Program.compile setup.settings.toOptions file source).result = .ok program ∧
      Stmt.rejection? program = none ∧
      (checkFile tree setup file).ending = .exit 0 ∧
      (checkFile tree setup file).output = file ++ ": ok\n") ∨
    (∃ trouble, (Program.runnable setup.settings.toOptions file source).result = .error trouble ∧
      trouble.isSyntactic = true ∧
      (checkFile tree setup file).ending = .exit 1 ∧
      (checkFile tree setup file).output = "") ∨
    (∃ name ∈ Stmt.reservedNames,
      (Program.runnable setup.settings.toOptions file source).result
        = .error (.rejected (.reservedName name)) ∧
      (checkFile tree setup file).ending = .escaped (.rejected (.reservedName name)) ∧
      ∃ forms, Form.readAll source = .ok forms ∧ ∃ form ∈ forms, form.Mentions name) ∨
    ∃ fault, (Program.runnable setup.settings.toOptions file source).result
        = .error (.fault fault) ∧
      (checkFile tree setup file).ending = .escaped (.fault fault) ∧
      Program.HasLongInteger source fault := by
  rcases Program.runnable_cases setup.settings.toOptions file source with
    ⟨program, hcompile, haccepted, hresult⟩ | ⟨trouble, hresult, hsyntactic⟩ |
      ⟨name, hname, hresult, hmentions⟩ | ⟨fault, hresult, hfault, hlong⟩
  · refine .inl ⟨program, hcompile, haccepted, ?_⟩
    simp [checkFile, hread, hresult, Report.after, Report.warned]
  · refine .inr (.inl ⟨trouble, hresult, hsyntactic, ?_⟩)
    simp [checkFile, hread, hresult, hsyntactic, Report.after]
  · refine .inr (.inr (.inl ⟨name, hname, hresult, ?_, hmentions⟩))
    simp [checkFile, hread, hresult, Report.after, Trouble.isSyntactic, Rejection.place?]
  · refine .inr (.inr (.inr ⟨fault, hresult, ?_, hlong⟩))
    simp [checkFile, hread, hresult, Report.after, Trouble.isSyntactic, hfault]

/-- A tree with one file. -/
def oneFile (source : String) : FileTree where
  files := [(["q"], source)]

theorem oneFile_read {source : String}
    (hlines : FileTree.unixLines source.toList = source.toList) :
    (oneFile source).read "q" = .ok source := by
  have hparts : "q".splitOn "/" = ["q"] := by
    rw [String.splitOn, if_neg (by decide), String.splitOnAux, if_neg (by decide),
      if_neg (by decide), String.splitOnAux, if_pos (by decide)]
    decide
  have hstart : "q".startsWith "/" = false := by decide +kernel
  have hfind : (oneFile source).find "q" = .ok (.file source) := by
    rw [FileTree.find, hparts, hstart]
    rfl
  rw [FileTree.read, hfind]
  exact congrArg Except.ok ((congrArg String.ofList hlines).trans String.ofList_toList)

/-- The settings that hold when nothing is said. -/
def plainSetup : Setup := ⟨default, false, false⟩

/-- The name of a constant may be quoted, but not read. -/
theorem checkFile_ending_none :
    (checkFile (oneFile "(println 'None)") plainSetup "q").ending = .exit 0 ∧
      ∃ trouble, (checkFile (oneFile "(println None)") plainSetup "q").ending
        = .escaped trouble := by
  constructor
  · have hread : (oneFile "(println 'None)").read "q" = .ok "(println 'None)" :=
      oneFile_read (by decide)
    have hok : (Program.runnable plainSetup.settings.toOptions "q"
        "(println 'None)").result.isOk = true := by decide +kernel
    rcases checkFile_ending _ plainSetup _ _ hread with
      ⟨_, -, -, hending, -⟩ | ⟨_, hresult, -⟩ | ⟨_, -, hresult, -⟩ | ⟨_, hresult, -⟩
    · exact hending
    all_goals cases hresult ▸ hok
  · have hread : (oneFile "(println None)").read "q" = .ok "(println None)" :=
      oneFile_read (by decide)
    have hescapes : ((Program.runnable plainSetup.settings.toOptions "q"
        "(println None)").result.map fun _ => ()).mapError Trouble.isSyntactic
          = .error false := by decide +kernel
    rcases checkFile_ending _ plainSetup _ _ hread with
      ⟨_, hcompile, haccepted, -⟩ | ⟨_, hresult, hsyntactic, -⟩ | ⟨name, -, -, hending, -⟩ |
        ⟨_, -, hending, -⟩
    · simp only [Program.runnable, hcompile, Program.accept, haccepted] at hescapes
      cases hescapes
    · rw [hresult] at hescapes
      cases hsyntactic.symm.trans (Except.error.inj hescapes)
    · exact ⟨_, hending⟩
    · exact ⟨_, hending⟩

end Command

end TailLisp
