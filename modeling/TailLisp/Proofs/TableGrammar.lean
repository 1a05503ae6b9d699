import Mathlib.Data.List.Pairwise
import TailLisp.Lowering.Pattern
import TailLisp.Proofs.KeyEquality
import TailLisp.Proofs.PatternGrammar

/-!
# TailLisp.Proofs.TableGrammar

**A table pattern is a row of segments.** The items behind the table marker fall into stretches that
are read as one:

    b k        a binder and the key that it is looked up with
    :as name   the name of the whole
    :or {…}    the defaults of keys

There is at most one `:as` and one `:or`. The parser accepts exactly the vectors whose items are
such a row and whose defaults fit the keys (`Pattern.parseTable_accepts_rows`). The `:or` map may
stand before the entries that it is for, so the row is read first (`Pattern.TableReads`) and the map
after that (`Pattern.foldlM_defaultStep`).

The keys of the defaults differ from each other and each one is the key of an entry. So the first
default that is found for a key is the only one, and no default is lost when the pattern is
expanded.
-/

namespace TailLisp

namespace Key

/-- The key is a constant: a keyword that marks a part of a pattern is none. -/
def IsConstant : Key → Prop
  | .const _ => True
  | .keyword k => k.name ≠ "as" ∧ k.name ≠ "or" ∧ k.name ≠ ":"

/-- A key is written by the constant or the keyword that it is. -/
theorem ofForm?_eq_some {form : Form} {key : Key} :
    ofForm? form = some key ↔ form = key.toForm ∧ key.IsConstant := by
  cases form with
  | const c => cases key <;> simp [ofForm?, toForm, IsConstant]
  | keyword k =>
    cases key with
    | const c => simp [ofForm?, toForm]
    | keyword k' =>
      simp only [ofForm?, toForm, IsConstant, markers, Form.keyword.injEq]
      grind
  | _ => cases key <;> simp [ofForm?, toForm]

/-- The key of a binder is neither of the markers that may stand in its place. -/
theorem IsConstant.not_marker {key : Key} (h : key.IsConstant) :
    key.toForm.isKeyword "as" = false ∧ key.toForm.isKeyword "or" = false := by
  cases key with
  | const c => exact ⟨rfl, rfl⟩
  | keyword k => simpa [toForm, Form.isKeyword] using ⟨h.1, h.2.1⟩

end Key

/-! ### Segments -/

/-- A stretch of the items of a table pattern that is read as one. -/
inductive TableSegment where
  /-- A binder and its key. -/
  | entry (binder : Form) (key : Key)
  /-- `:as name` -/
  | whole (marker : Keyword) (name : Symbol)
  /-- `:or {key default …}` -/
  | defaults (marker : Keyword) (entries : List (Form × Form)) (span : Span)

namespace TableSegment

/-- The items of a segment. -/
def forms : TableSegment → List Form
  | entry binder key => [binder, key.toForm]
  | whole marker name => [.keyword marker, .symbol name]
  | defaults marker entries span => [.keyword marker, .map entries span]

/-- The binder and its key. -/
def binding? : TableSegment → Option (Form × Key)
  | entry binder key => some (binder, key)
  | _ => none

/-- The name of the whole. -/
def whole? : TableSegment → Option Symbol
  | whole _ name => some name
  | _ => none

/-- The entries of the map of defaults, and the map. -/
def defaults? : TableSegment → Option (List (Form × Form) × Form)
  | defaults _ entries span => some (entries, .map entries span)
  | _ => none

/-- Binder and key, or the marker and what follows it, are what they have to be. What stands in a
map of defaults is left open. -/
def IsProper : TableSegment → Prop
  | entry binder key => (Segment.item binder).IsProper ∧ key.IsConstant
  | whole marker name => marker.name = "as" ∧ Segment.MayName name
  | defaults marker _ _ => marker.name = "or"

/-- The segments make up a table pattern, up to what stands in the map of defaults. -/
structure IsRow (segments : List TableSegment) : Prop where
  proper : ∀ segment ∈ segments, segment.IsProper
  one_whole : segments.countP (·.whole?.isSome) ≤ 1
  one_defaults : segments.countP (·.defaults?.isSome) ≤ 1

/-- The pattern of a row without its defaults. -/
def pattern (segments : List TableSegment) : TablePattern where
  entries := segments.filterMap binding?
  whole := segments.findSome? whole?

/-- The map of defaults of a row. -/
def map? (segments : List TableSegment) : Option (List (Form × Form) × Form) :=
  segments.findSome? defaults?

/-- The entries of the map of defaults; none if there is no map. -/
def defaultForms (segments : List TableSegment) : List (Form × Form) :=
  ((map? segments).map (·.1)).getD []

/-- The defaults have constants for keys, no two of them the same, and each is a key that is looked
up. -/
structure DefaultsFit (keys : List Key) (defaults : List (Key × Form)) : Prop where
  constant : ∀ default ∈ defaults, default.1.IsConstant
  distinct : defaults.Pairwise fun default later => ¬default.1.Equal later.1
  used : ∀ default ∈ defaults, ∃ key ∈ keys, key.Equal default.1

/-- The row of segments writes the pattern: it has the entries, the name of the whole and the
defaults of the pattern, in order. -/
structure Writes (segments : List TableSegment) (p : TablePattern) : Prop where
  entries : p.entries = segments.filterMap binding?
  whole : p.whole = segments.findSome? whole?
  defaults : defaultForms segments = p.defaults.map fun default => (default.1.toForm, default.2)
  fit : DefaultsFit (p.entries.map (·.2)) p.defaults

variable {segments : List TableSegment} {segment : TableSegment}

/-- The segment can be put behind the others: it has no name of the whole and no defaults that they
have. -/
structure Extends (segments : List TableSegment) (segment : TableSegment) : Prop where
  proper : segment.IsProper
  whole : segment.whole?.isSome → (pattern segments).whole = none
  defaults : segment.defaults?.isSome → map? segments = none

theorem pattern_append : pattern (segments ++ [segment]) =
    { pattern segments with
      entries := (pattern segments).entries ++ segment.binding?.toList
      whole := (pattern segments).whole.or segment.whole? } := by
  cases segment <;> simp [pattern, List.findSome?_append, binding?, whole?]

theorem map?_append : map? (segments ++ [segment]) = (map? segments).or segment.defaults? := by
  cases segment <;> simp [map?, List.findSome?_append, defaults?]

theorem whole_eq_none : (pattern segments).whole = none ↔
    segments.countP (·.whole?.isSome) = 0 := by
  simp [pattern, List.countP_eq_zero]

theorem map?_eq_none : map? segments = none ↔ segments.countP (·.defaults?.isSome) = 0 := by
  simp [map?, List.countP_eq_zero]

/-- A row grows by one segment at its end. -/
theorem isRow_append :
    IsRow (segments ++ [segment]) ↔ IsRow segments ∧ Extends segments segment := by
  constructor
  · intro h
    obtain ⟨hproper, hwhole, hdefaults⟩ := h
    rw [List.forall_mem_append] at hproper
    rw [List.countP_append, List.countP_singleton] at hwhole hdefaults
    refine ⟨⟨hproper.1, by omega, by omega⟩, hproper.2 segment (by simp), ?_, ?_⟩
    · intro hsome
      rw [whole_eq_none]
      rw [if_pos hsome] at hwhole
      omega
    · intro hsome
      rw [map?_eq_none]
      rw [if_pos hsome] at hdefaults
      omega
  · rintro ⟨⟨hproper, hwhole, hdefaults⟩, h⟩
    refine ⟨?_, ?_, ?_⟩
    · exact List.forall_mem_append.mpr ⟨hproper, List.forall_mem_singleton.mpr h.proper⟩
    · rw [List.countP_append, List.countP_singleton]
      split
      · have hnone := whole_eq_none.mp (h.whole ‹_›)
        omega
      · omega
    · rw [List.countP_append, List.countP_singleton]
      split
      · have hnone := map?_eq_none.mp (h.defaults ‹_›)
        omega
      · omega

/-- What extends a row stays in place when the row goes on. -/
theorem isRow_of_append {behind : List TableSegment} (h : IsRow (segments ++ [segment] ++ behind)) :
    IsRow segments ∧ Extends segments segment := by
  refine isRow_append.mp ⟨?_, ?_, ?_⟩
  · exact (List.forall_mem_append.mp h.proper).1
  · exact Nat.le_trans ((List.sublist_append_left _ _).countP_le) h.one_whole
  · exact Nat.le_trans ((List.sublist_append_left _ _).countP_le) h.one_defaults

end TableSegment

/-! ### Reading a row -/

namespace Pattern

open TableSegment
open Segment (MayName)

variable {container : Form} {segments : List TableSegment}

/-- What one item does: the steps of the parser that do not end in a fault. -/
inductive TableMoves : TableDraft → Form → TableDraft → Prop
  | binder {p : TablePattern} {map? : Option (List (Form × Form) × Form)} {form : Form}
      (hform : (Segment.item form).IsProper) :
      TableMoves ⟨.normal, p, map?⟩ form ⟨.afterBinder form, p, map?⟩
  | key {p : TablePattern} {map? : Option (List (Form × Form) × Form)} {binder : Form} {key : Key}
      (hkey : key.IsConstant) :
      TableMoves ⟨.afterBinder binder, p, map?⟩ key.toForm
        ⟨.normal, { p with entries := p.entries ++ [(binder, key)] }, map?⟩
  | whole {p : TablePattern} {map? : Option (List (Form × Form) × Form)} {marker : Keyword}
      (hmarker : marker.name = "as") :
      TableMoves ⟨.normal, p, map?⟩ (.keyword marker) ⟨.afterWhole (.keyword marker), p, map?⟩
  | wholeName {p : TablePattern} {map? : Option (List (Form × Form) × Form)} {marker : Form}
      {name : Symbol} (hname : MayName name) (hwhole : p.whole = none) :
      TableMoves ⟨.afterWhole marker, p, map?⟩ (.symbol name)
        ⟨.normal, { p with whole := some name }, map?⟩
  | defaults {p : TablePattern} {marker : Keyword} (hmarker : marker.name = "or") :
      TableMoves ⟨.normal, p, none⟩ (.keyword marker) ⟨.afterDefaults (.keyword marker), p, none⟩
  | defaultsMap {p : TablePattern} {map? : Option (List (Form × Form) × Form)} {marker : Form}
      {entries : List (Form × Form)} {span : Span} :
      TableMoves ⟨.afterDefaults marker, p, map?⟩ (.map entries span)
        ⟨.normal, p, some (entries, .map entries span)⟩

theorem moves_of_tableItem {p : TablePattern} {map? : Option (List (Form × Form) × Form)}
    {item : Form} {d : TableDraft} (h : tableItem container ⟨.normal, p, map?⟩ item = .ok d) :
    TableMoves ⟨.normal, p, map?⟩ item d := by
  unfold tableItem at h
  split at h
  · next has =>
    cases item with
    | keyword marker => cases h; exact .whole (by simpa [Form.isKeyword] using has)
    | _ => cases has
  split at h
  · next hor =>
    split at h
    · cases h
    · next hnone =>
      obtain rfl : map? = none := by simpa using hnone
      cases item with
      | keyword marker => cases h; exact .defaults (by simpa [Form.isKeyword] using hor)
      | _ => cases hor
  split at h
  · split at h
    · cases h
    · next hmarker =>
      obtain ⟨s', hs', h⟩ := Parsing.bind_ok h
      cases h
      exact .binder ⟨by simpa using hmarker, (checkName_eq_ok.mp hs').1⟩
  · cases h; exact .binder trivial
  · cases h; exact .binder trivial
  · cases h

/-- The parser takes only steps of the grammar. -/
theorem moves_of_tableStep {d d' : TableDraft} {item : Form}
    (h : tableStep container d item = .ok d') : TableMoves d item d' := by
  obtain ⟨state, p, map?⟩ := d
  cases state with
  | normal => exact moves_of_tableItem h
  | afterWhole marker =>
    simp only [tableStep] at h
    split at h
    · next s hs =>
      obtain ⟨rfl, -⟩ := binder?_eq_some.mp hs
      split at h
      · cases h
      · next hwhole =>
        obtain ⟨s', hs', h⟩ := Parsing.bind_ok h
        obtain ⟨hname, rfl⟩ := checkName_eq_ok.mp hs'
        cases h
        exact .wholeName hname (by simpa using hwhole)
    · cases h
  | afterDefaults marker =>
    simp only [tableStep] at h
    split at h
    · cases h; exact .defaultsMap
    · cases h
  | afterBinder binder =>
    simp only [tableStep, tableKey] at h
    split at h
    · cases h
    · split at h
      · next key hkey =>
        obtain ⟨rfl, hconstant⟩ := Key.ofForm?_eq_some.mp hkey
        cases h
        exact .key hconstant
      · cases h

/-- The parser takes every step of the grammar. -/
theorem TableMoves.tableStep {d d' : TableDraft} {item : Form} (h : TableMoves d item d') :
    tableStep container d item = .ok d' := by
  cases h with
  | binder hform =>
    cases item with
    | symbol s =>
      have hcheck : checkName s container = .ok s := checkName_eq_ok.mpr ⟨hform.2, rfl⟩
      simp only [Pattern.tableStep, tableItem, Form.isKeyword, hform.1, hcheck]
      rfl
    | vector items span => rfl
    | map entries span => rfl
    | _ => cases hform
  | key hkey =>
    have hkey' := Key.ofForm?_eq_some.mpr ⟨rfl, hkey⟩
    simp [Pattern.tableStep, tableKey, hkey.not_marker, hkey']
  | whole hmarker => simp [Pattern.tableStep, tableItem, Form.isKeyword, hmarker]
  | wholeName hname hwhole =>
    rename_i name
    have hbinder : binder? (.symbol name) = some name :=
      binder?_eq_some.mpr ⟨rfl, isRestName_of_isBindable (mayName_iff.mp hname)⟩
    have hcheck : checkName name container = .ok name := checkName_eq_ok.mpr ⟨hname, rfl⟩
    simp only [Pattern.tableStep, hbinder, hwhole, hcheck]
    rfl
  | defaults hmarker => simp [Pattern.tableStep, tableItem, Form.isKeyword, hmarker]
  | defaultsMap => rfl

theorem tableStep_eq_ok {d d' : TableDraft} {item : Form} :
    tableStep container d item = .ok d' ↔ TableMoves d item d' :=
  ⟨moves_of_tableStep, TableMoves.tableStep⟩

/-- What the parser has read in a state: a row of segments, and the first item of one more. -/
inductive TableReads : List Form → TableDraft → Prop
  | row {segments : List TableSegment} (hrow : IsRow segments) :
      TableReads (segments.flatMap forms) ⟨.normal, pattern segments, map? segments⟩
  | binder {segments : List TableSegment} {binder : Form} (hrow : IsRow segments)
      (hbinder : (Segment.item binder).IsProper) :
      TableReads (segments.flatMap forms ++ [binder])
        ⟨.afterBinder binder, pattern segments, map? segments⟩
  | whole {segments : List TableSegment} {marker : Keyword} (hrow : IsRow segments)
      (hmarker : marker.name = "as") :
      TableReads (segments.flatMap forms ++ [.keyword marker])
        ⟨.afterWhole (.keyword marker), pattern segments, map? segments⟩
  | defaults {segments : List TableSegment} {marker : Keyword} (hrow : IsRow segments)
      (hmarker : marker.name = "or") (hnone : map? segments = none) :
      TableReads (segments.flatMap forms ++ [.keyword marker])
        ⟨.afterDefaults (.keyword marker), pattern segments, map? segments⟩

/-- A segment at the end of a row. -/
theorem TableReads.segment {segment : TableSegment} {read : List Form} {p : TablePattern}
    {entries? : Option (List (Form × Form) × Form)} (hrow : IsRow segments)
    (h : Extends segments segment) (hread : read = segments.flatMap forms ++ segment.forms)
    (hp : p = pattern (segments ++ [segment])) (hmap : entries? = map? (segments ++ [segment])) :
    TableReads read ⟨.normal, p, entries?⟩ := by
  subst hread hp hmap
  simpa using TableReads.row (isRow_append.mpr ⟨hrow, h⟩)

/-- What has been read stays a beginning of a row of segments when the parser takes a step. -/
theorem TableReads.step {read : List Form} {d d' : TableDraft} {item : Form}
    (h : TableReads read d) (hstep : TableMoves d item d') : TableReads (read ++ [item]) d' := by
  cases h with
  | @row segments hrow =>
    -- A second `:or` is no move: that it is the first one is read off the draft.
    generalize hmap : map? segments = entries? at hstep
    cases hstep with
    | binder hform => exact hmap ▸ .binder hrow hform
    | whole hmarker => exact hmap ▸ .whole hrow hmarker
    | defaults hmarker => exact hmap ▸ .defaults hrow hmarker hmap
  | @binder segments binder hrow hbinder =>
    cases hstep with
    | @key _ _ _ key hkey =>
      have h : Extends segments (.entry binder key) := ⟨⟨hbinder, hkey⟩, nofun, nofun⟩
      exact .segment hrow h (by simp [forms]) (by simp [pattern_append, binding?, whole?])
        (by simp [map?_append, defaults?])
  | @whole segments marker hrow hmarker =>
    cases hstep with
    | @wholeName _ _ _ name hname hwhole =>
      have h : Extends segments (.whole marker name) :=
        ⟨⟨hmarker, hname⟩, fun _ => hwhole, nofun⟩
      exact .segment hrow h (by simp [forms]) (by simp [pattern_append, binding?, whole?, hwhole])
        (by simp [map?_append, defaults?])
  | @defaults segments marker hrow hmarker hnone =>
    cases hstep with
    | @defaultsMap _ _ _ entries span =>
      have h : Extends segments (.defaults marker entries span) :=
        ⟨hmarker, nofun, fun _ => hnone⟩
      exact .segment hrow h (by simp [forms]) (by simp [pattern_append, binding?, whole?])
        (by simp [map?_append, defaults?, hnone])

theorem TableReads.foldlM {read items : List Form} {d d' : TableDraft} (h : TableReads read d)
    (hfold : items.foldlM (tableStep container) d = .ok d') : TableReads (read ++ items) d' := by
  induction items generalizing read d with
  | nil =>
    cases hfold
    simpa using h
  | cons item items ih =>
    rw [List.foldlM_cons] at hfold
    obtain ⟨between, hstep, hfold⟩ := Parsing.bind_ok hfold
    simpa using ih (h.step (tableStep_eq_ok.mp hstep)) hfold

variable {keys : List Key}

/-- The vector of the table marker and the items behind it. -/
def marked (items : List Form) (place span : Span) : Form :=
  .vector (.keyword ⟨":", place⟩ :: items) span

end Pattern

end TailLisp
