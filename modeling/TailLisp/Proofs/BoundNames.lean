import TailLisp.Proofs.Crafting
import TailLisp.Settings

/-!
# TailLisp.Proofs.BoundNames

**Names that a program binds** are identifiers and no reserved words, if the binders of its source
are. Patterns and parameters are checked when they are parsed. Temporaries begin with the prefix of
the settings, which is an identifier with an underscore in front, and go on with characters of
identifiers if the binder they are made for does.

The names of functions and the variables of loops are not checked (`Form.unchecked`), so a program
can bind a name that is not legal; it is then one of these names, or a temporary for it
(`Program.compile_binds_legal_names`).
-/

namespace TailLisp

/-! ### Identifiers -/

namespace Text

theorem isIdentifierPart_of_start {c : Char} (h : isIdentifierStart c = true) :
    isIdentifierPart c = true := by
  unfold isIdentifierStart at h
  unfold isIdentifierPart
  split at h
  · rw [if_pos ‹_›, Char.isAlphanum]
    simp only [Bool.or_eq_true] at h ⊢
    tauto
  · rw [if_neg ‹_›, h, Bool.true_or]

theorem isIdentifierPart_of_isDigit {c : Char} (h : c.isDigit = true) :
    isIdentifierPart c = true := by
  have hsmall : c.toNat < 0x80 := by
    simp only [Char.isDigit, ge_iff_le, Bool.and_eq_true, decide_eq_true_eq] at h
    have hle : c.toNat ≤ '9'.toNat := h.2
    exact Nat.lt_of_le_of_lt hle (by decide)
  rw [isIdentifierPart, if_pos hsmall, Char.isAlphanum, h]
  simp

/-- The text may stand behind the first character of an identifier. -/
def Continues (text : String) : Prop := ∀ c ∈ text.toList, isIdentifierPart c = true

theorem continues_of_all {text : String} (h : text.toList.all isIdentifierPart = true) :
    Continues text :=
  List.all_eq_true.mp h

theorem Continues.append {a b : String} (ha : Continues a) (hb : Continues b) :
    Continues (a ++ b) := by
  intro c hc
  rw [String.toList_append] at hc
  exact (List.mem_append.mp hc).elim (ha c) (hb c)

theorem continues_natText (n : Nat) : Continues (natText n) := by
  intro c hc
  rw [natText, String.toList_ofList] at hc
  exact isIdentifierPart_of_isDigit (Nat.isDigit_of_mem_toDigits (by decide) (by decide) hc)

theorem continues_of_isIdentifier {text : String} (h : isIdentifier text = true) :
    Continues text := fun _ hc =>
  (part_of_isIdentifier h hc).elim isIdentifierPart_of_start id

/-- An identifier may be continued with parts of identifiers. -/
theorem isIdentifier_append {a b : String} (ha : isIdentifier a = true) (hb : Continues b) :
    isIdentifier (a ++ b) = true := by
  unfold isIdentifier at ha ⊢
  rw [String.toList_append]
  split at ha
  · cases ha
  · rename_i first rest heq
    rw [Bool.and_eq_true, List.all_eq_true] at ha
    rw [heq, List.cons_append, Bool.and_eq_true, List.all_eq_true]
    exact ⟨ha.1, fun c hc => (List.mem_append.mp hc).elim (ha.2 c) (hb c)⟩

/-- No reserved word begins with an underscore. -/
theorem isReserved_underscore {text : String} (h : '_' ∈ text.toList.head?) :
    isReserved text = false := by
  have hnone : ∀ word ∈ reservedWords, '_' ∉ word.toList.head? := by decide
  rw [isReserved, Bool.eq_false_iff]
  intro hmem
  exact hnone text (List.contains_iff_mem.mp hmem) h

end Text

/-! ### Prefixes of temporaries -/

/-- The prefix is an identifier that begins with an underscore. -/
structure Name.IsPrefix (before : String) : Prop where
  identifier : Text.isIdentifier before = true
  underscore : '_' ∈ before.toList.head?

/-- A temporary is legal if its stem has only characters of identifiers. -/
theorem Name.IsPrefix.isLegal {before stem : String} (h : IsPrefix before)
    (hstem : Text.Continues stem) (n : Nat) : IsLegal (before ++ stem ++ natText n) := by
  refine ⟨?_, Text.isReserved_underscore ?_⟩
  · exact Text.isIdentifier_append (Text.isIdentifier_append h.identifier hstem)
      (Text.continues_natText n)
  · obtain ⟨rest, hrest⟩ := List.head?_eq_some_iff.mp h.underscore
    rw [String.toList_append, String.toList_append, hrest]
    rfl

namespace Settings

/-- The prefix of accepted settings is one. -/
theorem isPrefix_of_checkTempPrefix {got : Datum} {before : String}
    (h : checkTempPrefix got = .ok before) : Name.IsPrefix before := by
  unfold checkTempPrefix at h
  split at h
  · split at h
    · cases h
    · split at h
      · cases h
      · rename_i hidentifier hstart
        cases h
        simp only [Bool.not_eq_true', Bool.not_eq_false] at hidentifier hstart
        obtain ⟨rest, hrest⟩ := String.startsWith_string_iff.mp hstart
        exact ⟨hidentifier, by rw [← hrest]; rfl⟩
  · cases h

/-- The prefix of accepted settings. -/
theorem isPrefix_of_ofEntries {entries : List (Datum × Datum)} {place : Option String}
    {settings : Settings} (h : ofEntries entries place = .ok settings) :
    Name.IsPrefix settings.tempPrefix := by
  unfold ofEntries at h
  dsimp only at h
  split at h
  · obtain ⟨before, hbefore, h⟩ := Parsing.bind_ok h
    obtain ⟨_, -, h⟩ := Parsing.bind_ok h
    obtain ⟨_, -, h⟩ := Parsing.bind_ok h
    cases h
    exact isPrefix_of_checkTempPrefix hbefore
  · cases h

end Settings

/-! ### Names that are bound -/

namespace Stmt

mutual

/-- The names that the statement binds at any depth: its assignment targets, its functions and their
parameters. -/
def boundNames : Stmt → List String
  | .assign target _ _ => [target]
  | .eval _ _ => []
  | .ret _ _ => []
  | .branch _ yes no _ => boundNamesOfAll yes ++ boundNamesOfAll no
  | .loop _ body _ => boundNamesOfAll body
  | .define name params rest body _ => name :: (params ++ rest.toList) ++ boundNamesOfAll body
  | .skip _ => []
  | .next _ => []

/-- The names that the statements bind. -/
def boundNamesOfAll : List Stmt → List String
  | [] => []
  | s :: ss => boundNames s ++ boundNamesOfAll ss

end

variable {M : Material}

mutual

/-- What code of a material binds is a target of the material, by recursion on the statement. -/
theorem target_of_mem_boundNames : ∀ (s : Stmt) {spot : Tree.Spot}, s.MadeOf M spot →
    ∀ x ∈ s.boundNames, M.target x
  | .assign _ _ _, _, h => List.forall_mem_singleton.mpr h.1
  | .eval _ _, _, _ | .ret _ _, _, _ | .skip _, _, _ | .next _, _, _ => nofun
  | .branch _ yes no _, _, h => List.forall_mem_append.mpr
      ⟨target_of_mem_boundNamesOfAll yes h.2.1, target_of_mem_boundNamesOfAll no h.2.2.1⟩
  | .loop _ body _, _, h => target_of_mem_boundNamesOfAll body h.2.1
  | .define _ _ _ body _, _, h => List.forall_mem_append.mpr
      ⟨List.forall_mem_cons.mpr ⟨h.1, h.2.1⟩, target_of_mem_boundNamesOfAll body h.2.2.1⟩

theorem target_of_mem_boundNamesOfAll : ∀ (ss : List Stmt) {spot : Tree.Spot},
    MadeOfAll M spot ss → ∀ x ∈ boundNamesOfAll ss, M.target x
  | [], _, _ => nofun
  | s :: ss, _, h => List.forall_mem_append.mpr
      ⟨target_of_mem_boundNames s h.1, target_of_mem_boundNamesOfAll ss h.2⟩

end

end Stmt

/-! ### Symbols that are bound unchecked -/

namespace Form

mutual

/-- The symbols that the form and the forms in it bind unchecked, without those in quoted forms. -/
def uncheckedSymbols : Form → List Symbol
  | .const _ => []
  | .symbol _ => []
  | .keyword _ => []
  | .list items span =>
    if (Form.list items span).isCallOf "quote" then []
    else (Form.list items span).unchecked ++ uncheckedSymbolsOfAll items
  | .vector items _ => uncheckedSymbolsOfAll items
  | .map entries _ => uncheckedSymbolsOfEntries entries

/-- The symbols that the forms bind unchecked. -/
def uncheckedSymbolsOfAll : List Form → List Symbol
  | [] => []
  | form :: forms => uncheckedSymbols form ++ uncheckedSymbolsOfAll forms

/-- The symbols that the keys and values bind unchecked. -/
def uncheckedSymbolsOfEntries : List (Form × Form) → List Symbol
  | [] => []
  | (key, value) :: entries =>
    uncheckedSymbols key ++ uncheckedSymbols value ++ uncheckedSymbolsOfEntries entries

end

/-- The form itself binds only symbols with the property unchecked. -/
def Leaves (Q : Symbol → Prop) (form : Form) : Prop := ∀ s ∈ form.unchecked, Q s

variable {Q : Symbol → Prop}

/-- A quoted form binds nothing. -/
theorem leaves_of_quote {form : Form} (h : form.isCallOf "quote" = true) : form.Leaves Q := by
  intro s hs
  unfold unchecked at hs
  split at hs
  · rename_i head args span
    have hhead : head.name = "quote" := by simpa [isCallOf, head?] using h
    rw [hhead] at hs
    cases hs
  · cases hs

mutual

/-- If the symbols that are bound unchecked have the property, so do they in every part of the
form. -/
theorem throughout_leaves : ∀ form : Form, (∀ s ∈ form.uncheckedSymbols, Q s) →
    form.Throughout false (Leaves Q)
  | .const _, _ => nofun
  | .symbol _, _ => nofun
  | .keyword _, _ => nofun
  | .list items span, h => by
    by_cases hquote : (Form.list items span).isCallOf "quote" = true
    · exact ⟨leaves_of_quote hquote, .inl ⟨rfl, hquote⟩⟩
    · rw [uncheckedSymbols, if_neg hquote, List.forall_mem_append] at h
      exact ⟨h.1, .inr (throughoutAll_leaves items h.2)⟩
  | .vector items _, h => ⟨nofun, throughoutAll_leaves items h⟩
  | .map entries _, h => ⟨nofun, throughoutEntries_leaves entries h⟩

theorem throughoutAll_leaves : ∀ forms : List Form, (∀ s ∈ uncheckedSymbolsOfAll forms, Q s) →
    ThroughoutAll false (Leaves Q) forms
  | [], _ => trivial
  | form :: forms, h => by
    rw [uncheckedSymbolsOfAll, List.forall_mem_append] at h
    exact ⟨throughout_leaves form h.1, throughoutAll_leaves forms h.2⟩

theorem throughoutEntries_leaves : ∀ entries : List (Form × Form),
    (∀ s ∈ uncheckedSymbolsOfEntries entries, Q s) → ThroughoutEntries false (Leaves Q) entries
  | [], _ => trivial
  | (key, value) :: entries, h => by
    rw [uncheckedSymbolsOfEntries, List.forall_mem_append, List.forall_mem_append] at h
    exact ⟨⟨throughout_leaves key h.1.1, throughout_leaves value h.1.2⟩,
      throughoutEntries_leaves entries h.2⟩

end

end Form

/-! ### Legal names -/

/-- The name comes from a binder that was not checked and is not legal: it is the spelling of the
symbol, or a temporary for it. -/
def Name.Stray (before : String) (s : Symbol) (x : String) : Prop :=
  ¬IsLegal (spell s.name) ∧
    (x = spell s.name ∨ ∃ n, x = before ++ (spell s.name ++ "_") ++ natText n)

/-- Any place and any name, of which those that are bound are legal, or stray from one of the
symbols. -/
def Material.legal (before : String) (Q : Symbol → Prop) : Material where
  place _ := True
  name _ := True
  target x := Name.IsLegal x ∨ ∃ s, Q s ∧ Name.Stray before s x
  temp p _ := p = before

namespace Material

variable {before : String} {Q : Symbol → Prop}

/-- A prefix with a stem and a number is a legal name. -/
theorem legal_tempers (h : Name.IsPrefix before) {stem : String} (hstem : Text.Continues stem) :
    (legal before Q).Tempers stem := by
  rintro _ n rfl
  exact .inl (h.isLegal hstem n)

theorem legal_binds (h : Name.IsPrefix before) {name : String} (hname : Name.IsLegal name) :
    (legal before Q).Binds name :=
  ⟨.inl hname, legal_tempers h
    ((Text.continues_of_isIdentifier hname.1).append (Text.continues_of_all (by decide)))⟩

/-- Legal names, together with the ones that are bound unchecked, are a material for all forms. -/
theorem legal_covers (h : Name.IsPrefix before) : (legal before Q).Covers (Form.Leaves Q) where
  nil := nofun
  place _ _ _ := trivial
  fused _ _ _ _ _ := trivial
  read _ _ := trivial
  bound _ := trivial
  unchecked {form s} hform _ hs := by
    by_cases hlegal : Name.IsLegal (Name.spell s.name)
    · exact legal_binds h hlegal
    · refine ⟨.inr ⟨s, hform s hs, hlegal, .inl rfl⟩, ?_⟩
      rintro _ n rfl
      exact .inr ⟨s, hform s hs, hlegal, .inr ⟨n, rfl⟩⟩
  bindable _ hname := legal_binds h (Pattern.isBindable_iff.mp hname)
  tempers stem hstem := by
    have hall : stems.all (fun stem => stem.toList.all Text.isIdentifierPart) = true := by decide
    exact legal_tempers h (Text.continues_of_all (List.all_eq_true.mp hall stem hstem))
  library _ _ := trivial

end Material

namespace Program

/-- **Every name that a program binds is an identifier and no reserved word**, for all accepted
settings, or it comes from a name that is not one: that of a function or that of a variable of a
loop in the expanded source. -/
theorem compile_binds_legal_names (entries : List (Datum × Datum)) (place : Option String)
    (settings : Settings) (hsettings : Settings.ofEntries entries place = .ok settings)
    (file source : String) (program : List Stmt)
    (h : (compile settings.toOptions file source).result = .ok program) :
    ∀ x ∈ Stmt.boundNamesOfAll program, Name.IsLegal x ∨
      ∃ forms, Expanded settings.toOptions source forms ∧ ∃ form ∈ forms,
        ∃ s ∈ form.uncheckedSymbols, Name.Stray settings.tempPrefix s x := by
  have hbefore := Settings.isPrefix_of_ofEntries hsettings
  have hmade := compile_madeOf_expanded
    (Material.legal_covers (Q := fun s => ∃ forms, Expanded settings.toOptions source forms ∧
      ∃ form ∈ forms, s ∈ form.uncheckedSymbols) hbefore) (fun _ => rfl)
    (fun forms hforms form hform => Form.throughout_leaves form fun s hs =>
      ⟨forms, hforms, form, hform, hs⟩) h
  intro x hx
  rcases Stmt.target_of_mem_boundNamesOfAll program hmade x hx with hlegal | ⟨s, hs, hstray⟩
  · exact .inl hlegal
  · obtain ⟨forms, hforms, form, hform, hmem⟩ := hs
    exact .inr ⟨forms, hforms, form, hform, s, hmem, hstray⟩

/-- A loop with a reserved word for a variable. -/
def reservedLoopSource : String := "(def r (loop [class 1] class))"

/-- The word is bound, and it is the variable of the loop. -/
theorem compile_binds_legal_names_loop : ∃ settings program,
    Settings.ofEntries [] none = .ok settings ∧
      (compile settings.toOptions "loop" reservedLoopSource).result = .ok program ∧
      "class" ∈ Stmt.boundNamesOfAll program ∧
      ∃ forms, Expanded settings.toOptions reservedLoopSource forms ∧ ∃ form ∈ forms,
        ∃ s ∈ form.uncheckedSymbols, Name.Stray settings.tempPrefix s "class" := by
  have husual : (Settings.ofEntries [] none).toOption.map (·.toOptions) = some {} := by
    decide +kernel
  have hbound : (compile {} "loop" reservedLoopSource).result.toOption.map
      (fun program => (Stmt.boundNamesOfAll program).contains "class") = some true := by
    decide +kernel
  cases hsettings : Settings.ofEntries [] none with
  | error fault =>
    rw [hsettings] at husual
    cases husual
  | ok settings =>
    rw [hsettings] at husual
    rw [← Option.some.inj husual] at hbound
    cases hresult : (compile settings.toOptions "loop" reservedLoopSource).result with
    | error fault =>
      rw [hresult] at hbound
      cases hbound
    | ok program =>
      rw [hresult] at hbound
      have hclass : "class" ∈ Stmt.boundNamesOfAll program :=
        List.contains_iff_mem.mp (Option.some.inj hbound)
      have hnames := compile_binds_legal_names [] none settings hsettings "loop"
        reservedLoopSource program hresult
      exact ⟨settings, program, rfl, hresult, hclass,
        (hnames "class" hclass).resolve_left (by decide)⟩

end Program

end TailLisp
