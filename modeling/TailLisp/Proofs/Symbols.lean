import TailLisp.Proofs.Acceptance
import TailLisp.Proofs.Expansion
import TailLisp.Proofs.PatternGrammar

/-!
# TailLisp.Proofs.Symbols

**The symbols of a form** and what becomes of them. Macros move symbols around and bring in the
names of special forms, and parsing a pattern takes symbols out of it; a name that is written
together with a rest marker is the only one that comes about on the way (`Pattern.fusedRest`). So a
property of all symbols of a source is one of all names that lowering meets.
-/

namespace TailLisp

namespace Form

mutual

/-- Does `P` hold of the name of every symbol in the form? -/
def allSymbols (P : String → Bool) : Form → Bool
  | .const _ => true
  | .symbol s => P s.name
  | .keyword _ => true
  | .list items _ => allSymbolsOfAll P items
  | .vector items _ => allSymbolsOfAll P items
  | .map entries _ => allSymbolsOfEntries P entries

/-- Does `P` hold of the name of every symbol in the forms? -/
def allSymbolsOfAll (P : String → Bool) : List Form → Bool
  | [] => true
  | form :: forms => allSymbols P form && allSymbolsOfAll P forms

/-- Does `P` hold of the name of every symbol in the keys and values? -/
def allSymbolsOfEntries (P : String → Bool) : List (Form × Form) → Bool
  | [] => true
  | (key, value) :: entries =>
    allSymbols P key && allSymbols P value && allSymbolsOfEntries P entries

end

variable {P Q : String → Bool}

theorem allSymbolsOfAll_iff {forms : List Form} :
    allSymbolsOfAll P forms = true ↔ ∀ form ∈ forms, form.allSymbols P = true := by
  induction forms with
  | nil => simp [allSymbolsOfAll]
  | cons form forms ih => simp [allSymbolsOfAll, ih]

theorem allSymbolsOfEntries_iff {entries : List (Form × Form)} :
    allSymbolsOfEntries P entries = true ↔
      ∀ entry ∈ entries, entry.1.allSymbols P = true ∧ entry.2.allSymbols P = true := by
  induction entries with
  | nil => simp [allSymbolsOfEntries]
  | cons entry entries ih => simp [allSymbolsOfEntries, ih, and_assoc]

theorem allSymbols_list {items : List Form} {span : Option Span} :
    (Form.list items span).allSymbols P = true ↔ ∀ item ∈ items, item.allSymbols P = true := by
  rw [allSymbols, allSymbolsOfAll_iff]

theorem allSymbols_vector {items : List Form} {span : Span} :
    (Form.vector items span).allSymbols P = true ↔ ∀ item ∈ items, item.allSymbols P = true := by
  rw [allSymbols, allSymbolsOfAll_iff]

theorem allSymbols_map {entries : List (Form × Form)} {span : Span} :
    (Form.map entries span).allSymbols P = true ↔
      ∀ entry ∈ entries, entry.1.allSymbols P = true ∧ entry.2.allSymbols P = true := by
  rw [allSymbols, allSymbolsOfEntries_iff]

mutual

/-- What holds of all symbols holds if the property is weakened, by recursion on the form. -/
theorem allSymbols_mono (h : ∀ x, P x = true → Q x = true) :
    ∀ form : Form, form.allSymbols P = true → form.allSymbols Q = true
  | .const _, _ => rfl
  | .symbol s, hs => h s.name hs
  | .keyword _, _ => rfl
  | .list items _, hs => allSymbolsOfAll_mono h items hs
  | .vector items _, hs => allSymbolsOfAll_mono h items hs
  | .map entries _, hs => allSymbolsOfEntries_mono h entries hs

theorem allSymbolsOfAll_mono (h : ∀ x, P x = true → Q x = true) :
    ∀ forms : List Form, allSymbolsOfAll P forms = true → allSymbolsOfAll Q forms = true
  | [], _ => rfl
  | form :: forms, hs => by
    simp only [allSymbolsOfAll, Bool.and_eq_true] at hs ⊢
    exact ⟨allSymbols_mono h form hs.1, allSymbolsOfAll_mono h forms hs.2⟩

theorem allSymbolsOfEntries_mono (h : ∀ x, P x = true → Q x = true) :
    ∀ entries : List (Form × Form), allSymbolsOfEntries P entries = true →
      allSymbolsOfEntries Q entries = true
  | [], _ => rfl
  | (key, value) :: entries, hs => by
    simp only [allSymbolsOfEntries, Bool.and_eq_true] at hs ⊢
    exact ⟨⟨allSymbols_mono h key hs.1.1, allSymbols_mono h value hs.1.2⟩,
      allSymbolsOfEntries_mono h entries hs.2⟩

end

/-- If the form is a symbol, `P` holds of its name. -/
def Named (P : String → Bool) (form : Form) : Prop :=
  ∀ s, form = .symbol s → P s.name = true

mutual

/-- Asking for every symbol is asking for every form that is one. -/
theorem allSymbols_iff_throughout :
    ∀ form : Form, form.allSymbols P = true ↔ form.Throughout true (Named P)
  | .const _ => by simp [allSymbols, Throughout, Named]
  | .symbol _ => by simp [allSymbols, Throughout, Named]
  | .keyword _ => by simp [allSymbols, Throughout, Named]
  | .list items _ => by
    simp [allSymbols, Throughout, Named, SkipsQuoted, allSymbolsOfAll_iff_throughout items]
  | .vector items _ => by
    simp [allSymbols, Throughout, Named, allSymbolsOfAll_iff_throughout items]
  | .map entries _ => by
    simp [allSymbols, Throughout, Named, allSymbolsOfEntries_iff_throughout entries]

theorem allSymbolsOfAll_iff_throughout :
    ∀ forms : List Form, allSymbolsOfAll P forms = true ↔ ThroughoutAll true (Named P) forms
  | [] => by simp [allSymbolsOfAll, ThroughoutAll]
  | form :: forms => by
    simp [allSymbolsOfAll, ThroughoutAll, allSymbols_iff_throughout form,
      allSymbolsOfAll_iff_throughout forms]

theorem allSymbolsOfEntries_iff_throughout :
    ∀ entries : List (Form × Form),
      allSymbolsOfEntries P entries = true ↔ ThroughoutEntries true (Named P) entries
  | [] => by simp [allSymbolsOfEntries, ThroughoutEntries]
  | (key, value) :: entries => by
    simp [allSymbolsOfEntries, ThroughoutEntries, allSymbols_iff_throughout key,
      allSymbols_iff_throughout value, allSymbolsOfEntries_iff_throughout entries]

end

end Form

/-! ### Macros -/

namespace Macro

variable {P : String → Bool}

/-- Macros bring in no symbols but those of special forms. -/
theorem named_kept (hif : P "if" = true) (hdo : P "do" = true) : Kept (Form.Named P) where
  nil := nofun
  named name hname s hs := by
    cases hs
    rcases List.mem_pair.1 hname with rfl | rfl
    · exact hif
    · exact hdo
  renamed {s} hs _ h := by
    cases h
    exact hs s rfl
  called _ _ := nofun
  threaded _ _ := nofun
  applied _ _ := nofun
  placed _ _ := nofun

/-- The property looks at one symbol at a time, so it does not depend on the parts of a form. -/
theorem named_shallow : Shallow (Form.Named P) where
  list _ _ := nofun
  vector _ _ := nofun
  map _ _ := nofun

/-- Expansion brings in no symbols but those of special forms. -/
theorem expandAll_allSymbols (hif : P "if" = true) (hdo : P "do" = true)
    {limit : Int} {forms forms' : List Form}
    (hforms : ∀ form ∈ forms, form.allSymbols P = true)
    (h : expandAll standard limit forms = .ok forms') :
    ∀ form ∈ forms', form.allSymbols P = true := by
  simp only [Form.allSymbols_iff_throughout] at hforms ⊢
  exact expandAll_throughout (named_kept hif hdo) named_shallow rfl hforms h

end Macro

/-! ### Patterns -/

namespace Pattern

/-- The symbol stands among the items, by itself or together with a rest marker. -/
def StandsIn (items : List Form) (s : Symbol) : Prop :=
  .symbol s ∈ items ∨ ∃ s', .symbol s' ∈ items ∧ isRestName s'.name = true ∧ s = fusedRest s'

/-- The names that a sequence pattern gives to the rest and to the whole stand in the vector. -/
structure NamesFrom (items : List Form) (p : SequencePattern) : Prop where
  rest : ∀ s ∈ p.rest, StandsIn items s
  whole : ∀ s ∈ p.whole, .symbol s ∈ items

theorem eq_of_checkName {s s' : Symbol} {container : Form}
    (h : checkName s container = .ok s') : s' = s := by
  unfold checkName at h
  split at h
  · cases h; rfl
  · cases h

theorem eq_of_binder? {item : Form} {s : Symbol} (h : binder? item = some s) :
    item = .symbol s := by
  unfold binder? at h
  split at h
  · split at h
    · cases h
    · cases h; rfl
  · cases h

theorem takeRest_names {items : List Form} {container : Form} {p : SequencePattern} {s : Symbol}
    {state : SequenceState × SequencePattern} (hp : NamesFrom items p) (hs : StandsIn items s)
    (h : takeRest container p s = .ok state) : NamesFrom items state.2 := by
  obtain ⟨s', hs', h⟩ := Parsing.bind_ok h
  cases h
  rw [eq_of_checkName hs']
  exact ⟨by simpa using hs, hp.whole⟩

theorem takeItem_names {items : List Form} {container item : Form} {p : SequencePattern}
    {state : SequenceState × SequencePattern} (hp : NamesFrom items p)
    (h : takeItem container p item = .ok state) : NamesFrom items state.2 := by
  unfold takeItem at h
  split at h
  · cases h
  · cases h
    exact ⟨hp.rest, hp.whole⟩

theorem sequenceItem_names {items : List Form} {container item : Form} {p : SequencePattern}
    {state : SequenceState × SequencePattern} (hitem : item ∈ items) (hp : NamesFrom items p)
    (h : sequenceItem container p item = .ok state) : NamesFrom items state.2 := by
  unfold sequenceItem at h
  split at h
  · split at h
    · cases h; exact hp
    · cases h
  · split at h
    · split at h
      · cases h
      · split at h
        · cases h; exact hp
        · exact takeRest_names hp (.inr ⟨_, hitem, ‹_›, rfl⟩) h
    · split at h
      · cases h
      · obtain ⟨_, -, h⟩ := Parsing.bind_ok h
        exact takeItem_names hp h
  · exact takeItem_names hp h
  · exact takeItem_names hp h
  · cases h

/-- One step of the parser takes names from the items that it has seen. -/
theorem sequenceStep_names {items : List Form} {container item : Form}
    {state state' : SequenceState × SequencePattern} (hitem : item ∈ items)
    (hp : NamesFrom items state.2) (h : sequenceStep container state item = .ok state') :
    NamesFrom items state'.2 := by
  unfold sequenceStep at h
  dsimp only at h
  split at h
  · split at h
    · exact takeRest_names hp (.inl (eq_of_binder? ‹_› ▸ hitem)) h
    · cases h
  · split at h
    · split at h
      · cases h
      · obtain ⟨s, hs, h⟩ := Parsing.bind_ok h
        cases h
        rw [eq_of_checkName hs]
        exact ⟨hp.rest, by simpa using eq_of_binder? ‹_› ▸ hitem⟩
    · cases h
  · exact sequenceItem_names hitem hp h

/-- The names of the rest and of the whole stand among the items. -/
theorem parseSequence_names {container : Form} {items : List Form} {p : SequencePattern}
    (h : parseSequence container items = .ok p) : NamesFrom items p := by
  obtain ⟨state, hfold, h⟩ := Parsing.bind_ok h
  have hstate : NamesFrom items state.2 :=
    Parsing.foldlM_inv (P := fun state => NamesFrom items state.2)
      (fun _ _ _ hitem hp hstep => sequenceStep_names hitem hp hstep) ⟨by simp, by simp⟩ hfold
  unfold sequenceFinish at h
  split at h
  · cases h
  · cases h
  · cases h; exact hstate

theorem tableItem_pattern {container item : Form} {d d' : TableDraft}
    (h : tableItem container d item = .ok d') : d'.pattern = d.pattern := by
  unfold tableItem at h
  split at h
  · cases h; rfl
  · split at h
    · split at h
      · cases h
      · cases h; rfl
    · split at h
      · split at h
        · cases h
        · obtain ⟨_, -, h⟩ := Parsing.bind_ok h
          cases h; rfl
      · cases h; rfl
      · cases h; rfl
      · cases h

/-- One step of the parser takes the name of the whole from the items. -/
theorem tableStep_whole {items : List Form} {container item : Form} {d d' : TableDraft}
    (hitem : item ∈ items) (hd : ∀ s ∈ d.pattern.whole, .symbol s ∈ items)
    (h : tableStep container d item = .ok d') : ∀ s ∈ d'.pattern.whole, .symbol s ∈ items := by
  unfold tableStep at h
  split at h
  · split at h
    · split at h
      · cases h
      · obtain ⟨s, hs, h⟩ := Parsing.bind_ok h
        cases h
        rw [eq_of_checkName hs]
        simpa using eq_of_binder? ‹_› ▸ hitem
    · cases h
  · split at h
    · cases h; exact hd
    · cases h
  · unfold tableKey at h
    split at h
    · cases h
    · split at h
      · cases h; exact hd
      · cases h
  · rw [tableItem_pattern h]
    exact hd

theorem parseTable_whole {container : Form} {items : List Form} {p : TablePattern}
    (h : parseTable container items = .ok p) : ∀ s ∈ p.whole, .symbol s ∈ items := by
  obtain ⟨d, hfold, h⟩ := Parsing.bind_ok h
  have hd : ∀ s ∈ d.pattern.whole, .symbol s ∈ items :=
    Parsing.foldlM_inv (P := fun d => ∀ s ∈ d.pattern.whole, .symbol s ∈ items)
      (fun _ _ _ hitem hd hstep => tableStep_whole hitem hd hstep) (by simp) hfold
  unfold tableFinish at h
  split at h
  · cases h
  · cases h
  · cases h
  · split at h
    · cases h; exact hd
    · obtain ⟨_, -, h⟩ := Parsing.bind_ok h
      cases h; exact hd

/-- The name that a sequence pattern gives to the whole is free to bind. -/
theorem parseSequence_bindable {container : Form} {items : List Form} {p : SequencePattern}
    (h : parseSequence container items = .ok p) : ∀ s ∈ p.whole, isBindable s.name = true := by
  have hstep (state : SequenceState × SequencePattern) (item : Form)
      (state' : SequenceState × SequencePattern) (_ : item ∈ items)
      (hstate : ∀ s ∈ state.2.whole, isBindable s.name = true)
      (h : sequenceStep container state item = .ok state') :
      ∀ s ∈ state'.2.whole, isBindable s.name = true := by
    cases sequenceStep_eq_ok.mp h with
    | wholeName hname _ => simpa using mayName_iff.mp hname
    | _ => exact hstate
  obtain ⟨state, hfold, h⟩ := Parsing.bind_ok h
  have hstate := Parsing.foldlM_inv hstep (by simp) hfold
  unfold sequenceFinish at h
  split at h
  · cases h
  · cases h
  · cases h; exact hstate

/-- The name of the whole has been checked when it is taken. -/
theorem tableStep_bindable {container item : Form} {d d' : TableDraft}
    (hd : ∀ s ∈ d.pattern.whole, isBindable s.name = true)
    (h : tableStep container d item = .ok d') :
    ∀ s ∈ d'.pattern.whole, isBindable s.name = true := by
  unfold tableStep at h
  split at h
  · split at h
    · split at h
      · cases h
      · obtain ⟨s, hs, h⟩ := Parsing.bind_ok h
        obtain ⟨hname, rfl⟩ := checkName_eq_ok.mp hs
        cases h
        simpa using mayName_iff.mp hname
    · cases h
  · split at h
    · cases h; exact hd
    · cases h
  · unfold tableKey at h
    split at h
    · cases h
    · split at h
      · cases h; exact hd
      · cases h
  · rw [tableItem_pattern h]
    exact hd

/-- The name that a table pattern gives to the whole is free to bind. -/
theorem parseTable_bindable {container : Form} {items : List Form} {p : TablePattern}
    (h : parseTable container items = .ok p) : ∀ s ∈ p.whole, isBindable s.name = true := by
  obtain ⟨d, hfold, h⟩ := Parsing.bind_ok h
  have hd : ∀ s ∈ d.pattern.whole, isBindable s.name = true :=
    Parsing.foldlM_inv (P := fun d => ∀ s ∈ d.pattern.whole, isBindable s.name = true)
      (fun _ _ _ _ hd hstep => tableStep_bindable hd hstep) (by simp) hfold
  unfold tableFinish at h
  split at h
  · cases h
  · cases h
  · cases h
  · split at h
    · cases h; exact hd
    · obtain ⟨_, -, h⟩ := Parsing.bind_ok h
      cases h; exact hd

end Pattern

/-! ### Names of generated code -/

/-- The names of generated code that a symbol can turn into: its own spelling, that of its parts,
and that of the name which it writes together with a rest marker. -/
def Name.targets (name : String) : List String :=
  spell name :: (parts name).map spell
    ++ if Pattern.isRestName name then [spell (String.ofList (name.toList.drop 1))] else []

/-- Does `S` hold of all names of generated code that the symbols in the form can turn into? -/
def Form.spells (S : String → Bool) (form : Form) : Bool :=
  form.allSymbols fun name => (Name.targets name).all S

namespace Pattern

variable {S : String → Bool} {form : Form}

theorem spells_symbol {s : Symbol} (h : (Form.symbol s).spells S = true) :
    S (Name.spell s.name) = true :=
  List.all_eq_true.mp h _ (by simp [Name.targets])

theorem spells_fusedRest {s : Symbol} (h : (Form.symbol s).spells S = true)
    (hs : isRestName s.name = true) : S (Name.spell (fusedRest s).name) = true :=
  List.all_eq_true.mp h _ (by simp [Name.targets, hs, fusedRest])

theorem spells_of_standsIn {items : List Form} {s : Symbol}
    (hitems : ∀ item ∈ items, item.spells S = true) (hs : StandsIn items s) :
    S (Name.spell s.name) = true := by
  rcases hs with hs | ⟨s', hs', hrest, rfl⟩
  · exact spells_symbol (hitems _ hs)
  · exact spells_fusedRest (hitems _ hs') hrest

/-- What is spelled in a sequence pattern is spelled in its form. -/
theorem spells_of_ofForm_sequence {p : SequencePattern} (hform : form.spells S = true)
    (h : ofForm form = .ok (.sequence p)) :
    (∀ item ∈ p.items, item.spells S = true) ∧ (∀ s ∈ p.rest, S (Name.spell s.name) = true)
      ∧ ∀ s ∈ p.whole, S (Name.spell s.name) = true := by
  obtain ⟨items, span, rfl, hparse⟩ := parse_of_ofForm_sequence h
  have hitems := Form.allSymbols_vector.mp hform
  have hnames := parseSequence_names hparse
  exact ⟨fun item hitem => hitems item (parseSequence_items hparse item hitem),
    fun s hs => spells_of_standsIn hitems (hnames.rest s hs),
    fun s hs => spells_symbol (hitems _ (hnames.whole s hs))⟩

/-- What is spelled in a table pattern, its defaults included, is spelled in its form. -/
theorem spells_of_ofForm_table {p : TablePattern} (hform : form.spells S = true)
    (h : ofForm form = .ok (.table p)) :
    (∀ entry ∈ p.entries, entry.1.spells S = true) ∧ (∀ d ∈ p.defaults, d.2.spells S = true)
      ∧ ∀ s ∈ p.whole, S (Name.spell s.name) = true := by
  obtain ⟨first, items, span, rfl, hparse⟩ := parse_of_ofForm_table h
  have hitems := (List.forall_mem_cons.mp (Form.allSymbols_vector.mp hform)).2
  have hfrom := parseTable_from hparse
  refine ⟨fun entry hentry => hitems _ (hfrom.binder entry hentry), fun d hd => ?_,
    fun s hs => spells_symbol (hitems _ (parseTable_whole hparse s hs))⟩
  obtain ⟨entries, span', key, hmap, hmem⟩ := hfrom.default d hd
  exact (Form.allSymbols_map.mp (hitems _ hmap) _ hmem).2

end Pattern

/-! ### Parts of forms -/

namespace Lowering

open Compile

variable {P : Form → Prop}

theorem bindingPairs_of_all {head : BindingHead} {bindings : Form}
    (h : ∀ items span, bindings = .vector items span → ∀ item ∈ items, P item) :
    Yields (fun pairs => ∀ pair ∈ pairs, P pair.1 ∧ P pair.2) (bindingPairs head bindings) := by
  unfold bindingPairs
  split
  · split
    · refine .pure fun pair hpair => ?_
      have hmem := Form.mem_of_pairUp ‹_› hpair
      exact ⟨h _ _ rfl _ hmem.1, h _ _ rfl _ hmem.2⟩
    · exact .fail _
  · exact .fail _

theorem condClauses_of_all (hnil : P .nil) {args : List Form} (h : ∀ arg ∈ args, P arg)
    (form : Form) :
    Yields (fun result => (∀ clause ∈ result.1, P clause.1 ∧ P clause.2) ∧ P result.2)
      (condClauses form args) := by
  unfold condClauses
  split
  · refine .pure (untilElse_forall hnil fun pair hpair => ?_)
    have hmem := Form.mem_of_pairUp ‹_› hpair
    exact ⟨h _ hmem.1, h _ hmem.2⟩
  · exact .fail _

theorem caseParts_of_all (hnil : P .nil) {args : List Form} (h : ∀ arg ∈ args, P arg)
    (form : Form) :
    Yields (fun parts => P parts.selector ∧ P parts.default ∧ ∀ clause ∈ parts.clauses, P clause.2)
      (caseParts form args) := by
  cases args with
  | nil => exact .fail _
  | cons selector rest =>
    rw [List.forall_mem_cons] at h
    have hrest := splitCase_forall hnil rest fun i arg hi _ => h.2 arg (List.mem_of_getElem? hi)
    intro c parts c' hrun
    obtain ⟨hselector, hparts⟩ := caseParts_forall form selector hrest hrun
    exact ⟨hselector ▸ h.1, hparts⟩

end Lowering

end TailLisp
