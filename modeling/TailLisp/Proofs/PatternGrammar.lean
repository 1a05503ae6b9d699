import TailLisp.Proofs.PatternLevel

/-!
# TailLisp.Proofs.PatternGrammar

**A sequence pattern is a row of segments.** The items of its vector fall into stretches that are
read as one:

    b          a binder by position: a name, a vector or a map
    & name     the name of the rest, also written `&name`
    :as name   the name of the whole

There is at most one rest and one whole, and no position after the rest. `Segment.IsRow` says this
of the segments, and the parser accepts exactly the vectors whose items are such a row
(`Pattern.parseSequence_accepts_rows`).

The parser goes from item to item and remembers a marker that waits for its name. `Pattern.Moves` is
what one item does. Between segments the parser has read a row and holds the pattern of that row;
`Pattern.Reads` says so for all of its states.
-/

namespace TailLisp

/-! ### Names that may be bound -/

namespace Name

/-- The name is an identifier and no reserved word, so generated code may bind it. -/
def IsLegal (name : String) : Prop :=
  Text.isIdentifier name = true ∧ Text.isReserved name = false

instance (name : String) : Decidable (IsLegal name) :=
  inferInstanceAs (Decidable (Text.isIdentifier name = true ∧ Text.isReserved name = false))

theorem mem_spellLast {c : Char} {cs : List Char} (hc : c ∈ cs) (hquestion : c ≠ '?')
    (hbang : c ≠ '!') : c ∈ spellLast cs := by
  rw [← List.mem_reverse] at hc
  unfold spellLast
  split
  · rename_i rest heq
    rw [heq] at hc
    exact List.mem_append_left _ (by simpa [hquestion] using hc)
  · rename_i rest heq
    rw [heq] at hc
    exact List.mem_append_left _ (by simpa [hbang] using hc)
  · exact List.mem_reverse.mp hc

/-- Spelling keeps a rest marker. -/
theorem marker_mem_spell {name : String} (h : '&' ∈ name.toList) : '&' ∈ (spell name).toList := by
  unfold spell
  split
  · next spelled hoperator =>
    obtain ⟨before, behind, heq, -⟩ := List.lookup_eq_some_iff.mp hoperator
    have hnone : ∀ entry ∈ before ++ (name, spelled) :: behind, '&' ∉ entry.1.toList := by
      rw [← heq]
      decide
    exact absurd h (hnone (name, spelled) (by simp))
  · rw [String.toList_ofList, List.mem_flatMap]
    exact ⟨'&', mem_spellLast h (by decide) (by decide), by decide⟩

end Name

theorem Text.part_of_isIdentifier {text : String} (h : isIdentifier text = true) {c : Char}
    (hc : c ∈ text.toList) : isIdentifierStart c = true ∨ isIdentifierPart c = true := by
  unfold isIdentifier at h
  split at h
  · cases h
  · rename_i first rest heq
    rw [Bool.and_eq_true, List.all_eq_true] at h
    rw [heq] at hc
    rcases List.mem_cons.mp hc with rfl | hc
    · exact .inl h.1
    · exact .inr (h.2 c hc)

namespace Pattern

/-- A name that is free to bind has no rest marker in it. -/
theorem isRestName_of_isBindable {name : String} (h : isBindable name = true) :
    isRestName name = false := by
  have hspelled : '&' ∉ (Name.spell name).toList := by
    intro hmem
    rw [isBindable, Bool.and_eq_true] at h
    rcases Text.part_of_isIdentifier h.1 hmem with hc | hc <;> exact absurd hc (by decide)
  unfold isRestName
  split
  · rename_i rest heq
    exact absurd (Name.marker_mem_spell (by simp [heq])) hspelled
  · rfl

end Pattern

/-! ### Segments -/

/-- A stretch of the items of a sequence pattern that is read as one. -/
inductive Segment where
  /-- A binder by position. -/
  | item (form : Form)
  /-- `& name` -/
  | rest (marker name : Symbol)
  /-- `&name` -/
  | fused (symbol : Symbol)
  /-- `:as name` -/
  | whole (marker : Keyword) (name : Symbol)

namespace Segment

/-- The items of a segment. -/
def forms : Segment → List Form
  | item form => [form]
  | rest marker name => [.symbol marker, .symbol name]
  | fused symbol => [.symbol symbol]
  | whole marker name => [.keyword marker, .symbol name]

/-- The binder by position. -/
def item? : Segment → Option Form
  | item form => some form
  | _ => none

/-- The name of the rest. -/
def rest? : Segment → Option Symbol
  | rest _ name => some name
  | fused symbol => some (Pattern.fusedRest symbol)
  | _ => none

/-- The name of the whole. -/
def whole? : Segment → Option Symbol
  | whole _ name => some name
  | _ => none

/-- The symbol is spelled in a way that may be bound. -/
def MayName (s : Symbol) : Prop := Name.IsLegal (Name.spell s.name)

/-- The markers are what they have to be, and all names may be bound. -/
def IsProper : Segment → Prop
  | item (.symbol s) => Pattern.isRestName s.name = false ∧ MayName s
  | item (.vector ..) => True
  | item (.map ..) => True
  | item _ => False
  | rest marker name => marker.name = "&" ∧ MayName name
  | fused symbol => Pattern.isRestName symbol.name = true ∧ MayName (Pattern.fusedRest symbol)
  | whole marker name => marker.name = "as" ∧ MayName name

/-- The segments make up a sequence pattern. -/
structure IsRow (segments : List Segment) : Prop where
  proper : ∀ segment ∈ segments, segment.IsProper
  one_rest : segments.countP (·.rest?.isSome) ≤ 1
  one_whole : segments.countP (·.whole?.isSome) ≤ 1
  rest_last : segments.Pairwise fun before behind => before.rest?.isSome → behind.item? = none

/-- The pattern that segments make up. -/
def pattern (segments : List Segment) : SequencePattern where
  items := segments.filterMap item?
  rest := segments.findSome? rest?
  whole := segments.findSome? whole?

variable {segments : List Segment} {segment : Segment}

/-- The segment can be put behind the others: it has no rest and no whole that they have, and no
position if they have a rest. -/
structure Extends (segments : List Segment) (segment : Segment) : Prop where
  proper : segment.IsProper
  rest : segment.rest?.isSome → (pattern segments).rest = none
  whole : segment.whole?.isSome → (pattern segments).whole = none
  item : segment.item?.isSome → (pattern segments).rest = none

theorem pattern_append : pattern (segments ++ [segment]) =
    { items := (pattern segments).items ++ segment.item?.toList
      rest := (pattern segments).rest.or segment.rest?
      whole := (pattern segments).whole.or segment.whole? } := by
  cases segment <;> simp [pattern, List.findSome?_append, item?, rest?, whole?]

theorem rest_eq_none : (pattern segments).rest = none ↔
    segments.countP (·.rest?.isSome) = 0 := by
  simp [pattern, List.countP_eq_zero]

theorem whole_eq_none : (pattern segments).whole = none ↔
    segments.countP (·.whole?.isSome) = 0 := by
  simp [pattern, List.countP_eq_zero]

/-- A row grows by one segment at its end. -/
theorem isRow_append :
    IsRow (segments ++ [segment]) ↔ IsRow segments ∧ Extends segments segment := by
  constructor
  · intro h
    obtain ⟨hproper, hrest, hwhole, horder⟩ := h
    rw [List.forall_mem_append] at hproper
    rw [List.countP_append] at hrest hwhole
    rw [List.pairwise_append] at horder
    refine ⟨⟨hproper.1, by omega, by omega, horder.1⟩, hproper.2 segment (by simp), ?_, ?_, ?_⟩
    · intro hsome
      rw [rest_eq_none]
      simp only [List.countP_singleton, hsome, if_true] at hrest
      omega
    · intro hsome
      rw [whole_eq_none]
      simp only [List.countP_singleton, hsome, if_true] at hwhole
      omega
    · intro hsome
      rw [rest_eq_none, List.countP_eq_zero]
      intro before hbefore hbefore'
      rw [horder.2.2 before hbefore segment (by simp) hbefore'] at hsome
      cases hsome
  · rintro ⟨⟨hproper, hrest, hwhole, horder⟩, h⟩
    refine ⟨?_, ?_, ?_, ?_⟩
    · exact List.forall_mem_append.mpr ⟨hproper, List.forall_mem_singleton.mpr h.proper⟩
    · rw [List.countP_append, List.countP_singleton]
      split
      · have hnone := rest_eq_none.mp (h.rest ‹_›)
        omega
      · omega
    · rw [List.countP_append, List.countP_singleton]
      split
      · have hnone := whole_eq_none.mp (h.whole ‹_›)
        omega
      · omega
    · refine List.pairwise_append.mpr ⟨horder, List.pairwise_singleton _ _, ?_⟩
      intro before hbefore behind hbehind hbefore'
      rw [List.mem_singleton.mp hbehind]
      cases hitem : segment.item? with
      | none => rfl
      | some form =>
        have hnone := rest_eq_none.mp (h.item (by simp [hitem]))
        exact absurd hbefore' (List.countP_eq_zero.mp hnone before hbefore)

/-- What extends a row stays in place when the row goes on. -/
theorem isRow_of_append {behind : List Segment} (h : IsRow (segments ++ [segment] ++ behind)) :
    IsRow segments ∧ Extends segments segment := by
  refine isRow_append.mp ⟨?_, ?_, ?_, ?_⟩
  · exact (List.forall_mem_append.mp h.proper).1
  · exact Nat.le_trans ((List.sublist_append_left _ _).countP_le) h.one_rest
  · exact Nat.le_trans ((List.sublist_append_left _ _).countP_le) h.one_whole
  · exact (List.pairwise_append.mp h.rest_last).1

end Segment

/-! ### Reading a row -/

namespace Pattern

open Segment

variable {container : Form} {segments : List Segment}

/-- A name may be bound if it is spelled as an identifier that is not reserved. -/
theorem isBindable_iff {name : String} :
    isBindable name = true ↔ Name.IsLegal (Name.spell name) := by
  simp [Name.IsLegal, isBindable]

theorem mayName_iff {s : Symbol} : MayName s ↔ isBindable s.name = true := isBindable_iff.symm

theorem checkName_eq_ok {s s' : Symbol} :
    checkName s container = .ok s' ↔ MayName s ∧ s = s' := by
  rw [mayName_iff, checkName]
  split <;> simp [*]

theorem binder?_eq_some {form : Form} {s : Symbol} :
    binder? form = some s ↔ form = .symbol s ∧ isRestName s.name = false := by
  cases form with
  | symbol s' =>
    simp only [binder?, Form.symbol.injEq]
    split <;> grind
  | _ => simp [binder?]

/-- What one item does: the steps of the parser that do not end in a fault. -/
inductive Moves :
    SequenceState × SequencePattern → Form → SequenceState × SequencePattern → Prop
  | item {p : SequencePattern} {form : Form} (hform : (Segment.item form).IsProper)
      (hrest : p.rest = none) :
      Moves (.normal, p) form (.normal, { p with items := p.items ++ [form] })
  | rest {p : SequencePattern} {marker : Symbol} (hmarker : marker.name = "&")
      (hrest : p.rest = none) : Moves (.normal, p) (.symbol marker) (.afterRest (.symbol marker), p)
  | restName {p : SequencePattern} {marker : Form} {name : Symbol} (hname : MayName name) :
      Moves (.afterRest marker, p) (.symbol name) (.normal, { p with rest := some name })
  | fused {p : SequencePattern} {s : Symbol} (hs : (Segment.fused s).IsProper)
      (hrest : p.rest = none) :
      Moves (.normal, p) (.symbol s) (.normal, { p with rest := some (fusedRest s) })
  | whole {p : SequencePattern} {marker : Keyword} (hmarker : marker.name = "as") :
      Moves (.normal, p) (.keyword marker) (.afterWhole (.keyword marker), p)
  | wholeName {p : SequencePattern} {marker : Form} {name : Symbol} (hname : MayName name)
      (hwhole : p.whole = none) :
      Moves (.afterWhole marker, p) (.symbol name) (.normal, { p with whole := some name })

theorem takeItem_eq_ok {p : SequencePattern} {form : Form}
    {state : SequenceState × SequencePattern} :
    takeItem container p form = .ok state ↔
      p.rest = none ∧ state = (.normal, { p with items := p.items ++ [form] }) := by
  unfold takeItem
  cases hrest : p.rest with
  | some s => simp
  | none =>
    simp only [Option.isSome_none, Bool.false_eq_true, if_false, Except.ok.injEq, true_and]
    exact eq_comm

/-- A rest is taken exactly if its name may be bound. -/
theorem takeRest_eq_ok {p : SequencePattern} {s : Symbol}
    {state : SequenceState × SequencePattern} :
    takeRest container p s = .ok state ↔
      MayName s ∧ state = (.normal, { p with rest := some s }) := by
  unfold takeRest
  constructor
  · intro h
    obtain ⟨s', hs, h⟩ := Parsing.bind_ok h
    obtain ⟨hname, rfl⟩ := checkName_eq_ok.mp hs
    cases h
    exact ⟨hname, rfl⟩
  · rintro ⟨hname, rfl⟩
    rw [checkName_eq_ok.mpr ⟨hname, rfl⟩]
    rfl

/-- The parser takes only steps of the grammar. -/
theorem moves_of_sequenceStep {state state' : SequenceState × SequencePattern} {item : Form}
    (h : sequenceStep container state item = .ok state') : Moves state item state' := by
  obtain ⟨state, p⟩ := state
  cases state with
  | afterRest marker =>
    simp only [sequenceStep] at h
    split at h
    · next s hs =>
      obtain ⟨rfl, -⟩ := binder?_eq_some.mp hs
      obtain ⟨hname, rfl⟩ := takeRest_eq_ok.mp h
      exact .restName hname
    · cases h
  | afterWhole marker =>
    simp only [sequenceStep] at h
    split at h
    · next s hs =>
      obtain ⟨rfl, -⟩ := binder?_eq_some.mp hs
      split at h
      · cases h
      · next hwhole =>
        obtain ⟨s', hs', h⟩ := Parsing.bind_ok h
        obtain ⟨hname, rfl⟩ := checkName_eq_ok.mp hs'
        cases h
        exact .wholeName hname (by simpa using hwhole)
    · cases h
  | normal =>
    simp only [sequenceStep, sequenceItem] at h
    split at h
    · split at h
      · next hmarker => cases h; exact .whole hmarker
      · cases h
    · next s =>
      split at h
      · next hmarker =>
        split at h
        · cases h
        · next hrest =>
          split at h
          · next hname => cases h; exact .rest hname (by simpa using hrest)
          · obtain ⟨hname, rfl⟩ := takeRest_eq_ok.mp h
            exact .fused ⟨hmarker, hname⟩ (by simpa using hrest)
      · next hmarker =>
        split at h
        · cases h
        · obtain ⟨s', hs', h⟩ := Parsing.bind_ok h
          obtain ⟨hrest, rfl⟩ := takeItem_eq_ok.mp h
          exact .item ⟨by simpa using hmarker, (checkName_eq_ok.mp hs').1⟩ hrest
    · obtain ⟨hrest, rfl⟩ := takeItem_eq_ok.mp h
      exact .item trivial hrest
    · obtain ⟨hrest, rfl⟩ := takeItem_eq_ok.mp h
      exact .item trivial hrest
    · cases h

/-- The parser takes every step of the grammar. -/
theorem Moves.sequenceStep {state state' : SequenceState × SequencePattern} {item : Form}
    (h : Moves state item state') : sequenceStep container state item = .ok state' := by
  have hbinder {name : Symbol} (hname : MayName name) : binder? (.symbol name) = some name :=
    binder?_eq_some.mpr ⟨rfl, isRestName_of_isBindable (mayName_iff.mp hname)⟩
  have hcheck {s : Symbol} (hs : MayName s) : checkName s container = .ok s :=
    checkName_eq_ok.mpr ⟨hs, rfl⟩
  cases h with
  | item hform hrest =>
    rename_i p
    cases item with
    | symbol s =>
      have hitem : Pattern.sequenceStep container (.normal, p) (.symbol s) =
          takeItem container p (.symbol s) := by
        simp only [Pattern.sequenceStep, sequenceItem, hform.1, hrest, hcheck hform.2]
        rfl
      rw [hitem]
      exact takeItem_eq_ok.mpr ⟨hrest, rfl⟩
    | vector items span => exact takeItem_eq_ok.mpr ⟨hrest, rfl⟩
    | map entries span => exact takeItem_eq_ok.mpr ⟨hrest, rfl⟩
    | _ => cases hform
  | rest hmarker hrest =>
    have hstarts : isRestName "&" = true := by decide
    simp [Pattern.sequenceStep, sequenceItem, hmarker, hstarts, hrest]
  | restName hname =>
    simp only [Pattern.sequenceStep, hbinder hname]
    exact takeRest_eq_ok.mpr ⟨hname, rfl⟩
  | fused hs hrest =>
    rename_i p s
    have hlong : s.name ≠ "&" := by
      intro heq
      have hs := hs.2.1
      rw [fusedRest, heq] at hs
      cases hs
    simp only [Pattern.sequenceStep, sequenceItem, hs.1, hrest, hlong]
    exact takeRest_eq_ok.mpr ⟨hs.2, rfl⟩
  | whole hmarker => simp [Pattern.sequenceStep, sequenceItem, hmarker]
  | wholeName hname hwhole =>
    simp only [Pattern.sequenceStep, hbinder hname, hwhole, hcheck hname]
    rfl

theorem sequenceStep_eq_ok {state state' : SequenceState × SequencePattern} {item : Form} :
    sequenceStep container state item = .ok state' ↔ Moves state item state' :=
  ⟨moves_of_sequenceStep, Moves.sequenceStep⟩

/-- What the parser has read in a state: a row of segments, and a marker that waits for its name. -/
inductive Reads : List Form → SequenceState × SequencePattern → Prop
  | row {segments : List Segment} (hrow : IsRow segments) :
      Reads (segments.flatMap forms) (.normal, pattern segments)
  | rest {segments : List Segment} {marker : Symbol} (hrow : IsRow segments)
      (hmarker : marker.name = "&") (hrest : (pattern segments).rest = none) :
      Reads (segments.flatMap forms ++ [.symbol marker])
        (.afterRest (.symbol marker), pattern segments)
  | whole {segments : List Segment} {marker : Keyword} (hrow : IsRow segments)
      (hmarker : marker.name = "as") :
      Reads (segments.flatMap forms ++ [.keyword marker])
        (.afterWhole (.keyword marker), pattern segments)

/-- A segment at the end of a row. -/
theorem Reads.segment {segment : Segment} {read : List Form} {p : SequencePattern}
    (hrow : IsRow segments) (h : Extends segments segment)
    (hread : read = segments.flatMap forms ++ segment.forms)
    (hp : p = pattern (segments ++ [segment])) :
    Reads read (.normal, p) := by
  subst hread hp
  simpa using Reads.row (isRow_append.mpr ⟨hrow, h⟩)

/-- What has been read stays a beginning of a row of segments when the parser takes a step. -/
theorem Reads.step {read : List Form} {state state' : SequenceState × SequencePattern} {item : Form}
    (h : Reads read state) (hstep : Moves state item state') : Reads (read ++ [item]) state' := by
  cases h with
  | row hrow =>
    cases hstep with
    | item hform hrest =>
      exact .segment hrow ⟨hform, nofun, nofun, fun _ => hrest⟩ rfl
        (by simp [pattern_append, item?, rest?, whole?])
    | rest hmarker hrest => exact .rest hrow hmarker hrest
    | fused hs hrest =>
      exact .segment hrow ⟨hs, fun _ => hrest, nofun, nofun⟩ rfl
        (by simp [pattern_append, item?, rest?, whole?, hrest])
    | whole hmarker => exact .whole hrow hmarker
  | rest hrow hmarker hrest =>
    cases hstep with
    | restName hname =>
      rename_i segments marker name
      have h : Extends _ (.rest marker name) := ⟨⟨hmarker, hname⟩, fun _ => hrest, nofun, nofun⟩
      exact .segment hrow h (by simp [forms])
        (by simp [pattern_append, item?, rest?, whole?, hrest])
  | whole hrow hmarker =>
    cases hstep with
    | wholeName hname hwhole =>
      rename_i marker name
      have h : Extends _ (.whole marker name) :=
        ⟨⟨hmarker, hname⟩, nofun, fun _ => hwhole, nofun⟩
      exact .segment hrow h (by simp [forms])
        (by simp [pattern_append, item?, rest?, whole?, hwhole])

theorem Reads.foldlM {read items : List Form} {state state' : SequenceState × SequencePattern}
    (h : Reads read state) (hfold : items.foldlM (sequenceStep container) state = .ok state') :
    Reads (read ++ items) state' := by
  induction items generalizing read state with
  | nil =>
    cases hfold
    simpa using h
  | cons item items ih =>
    rw [List.foldlM_cons] at hfold
    obtain ⟨between, hstep, hfold⟩ := Parsing.bind_ok hfold
    simpa using ih (h.step (sequenceStep_eq_ok.mp hstep)) hfold

/-- Behind a row, the parser reads a segment that extends it. -/
theorem foldlM_segment {segment : Segment} (h : Extends segments segment) :
    segment.forms.foldlM (sequenceStep container) (.normal, pattern segments) =
      .ok (.normal, pattern (segments ++ [segment])) := by
  have one {item : Form} {state state' : SequenceState × SequencePattern}
      (hstep : Moves state item state') :
      [item].foldlM (sequenceStep container) state = .ok state' :=
    Parsing.foldlM_one (sequenceStep_eq_ok.mpr hstep)
  have two {first second : Form} {state between state' : SequenceState × SequencePattern}
      (hfirst : Moves state first between) (hsecond : Moves between second state') :
      [first, second].foldlM (sequenceStep container) state = .ok state' :=
    Parsing.foldlM_two (sequenceStep_eq_ok.mpr hfirst) (sequenceStep_eq_ok.mpr hsecond)
  rw [pattern_append]
  cases segment with
  | item form =>
    have hrest := h.item rfl
    rw [forms, one (.item h.proper hrest)]
    simp [item?, rest?, whole?]
  | rest marker name =>
    have hrest := h.rest rfl
    rw [forms, two (.rest h.proper.1 hrest) (.restName h.proper.2)]
    simp [item?, rest?, whole?, hrest]
  | fused s =>
    have hrest := h.rest rfl
    rw [forms, one (.fused h.proper hrest)]
    simp [item?, rest?, whole?, hrest]
  | whole marker name =>
    have hwhole := h.whole rfl
    rw [forms, two (.whole h.proper.1) (.wholeName h.proper.2 hwhole)]
    simp [item?, rest?, whole?, hwhole]

/-- The parser takes a row of segments in, one after the other. -/
theorem foldlM_row {behind : List Segment} (h : IsRow (segments ++ behind)) :
    (behind.flatMap forms).foldlM (sequenceStep container) (.normal, pattern segments) =
      .ok (.normal, pattern (segments ++ behind)) := by
  induction behind generalizing segments with
  | nil => simp [pure, Except.pure]
  | cons segment behind ih =>
    rw [List.append_cons] at h ⊢
    rw [List.flatMap_cons, List.foldlM_append, foldlM_segment (isRow_of_append h).2]
    exact ih h

end Pattern

end TailLisp
