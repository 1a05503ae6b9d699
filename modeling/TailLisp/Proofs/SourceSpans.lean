import Mathlib.Data.List.Infix
import TailLisp.Proofs.Derivation

/-!
# TailLisp.Proofs.SourceSpans

**Spans of forms point to the text they were read from.** `Span.textIn` cuts a span out of a source.
For a form that was read it gives the name, or a text between the brackets of the form, or a text
behind a quote mark (`Form.Faithful`). The spans of forms are nested as the forms are, and the parts
of a collection stand one after the other (`Form.Nested`).

A place is that of a text before it (`Position.after`), and texts before a place are ordered by
`<+:`. So the argument is about such texts: a row of tokens stands behind a text and is over after
a longer one (`Token.Stand`), and the row of a derivation splits into those of its parts.
-/

namespace TailLisp

/-! ### Places in order -/

namespace Position

/-- Places are ordered by line, and on one line by column. -/
instance : LE Position := ⟨fun p q => p.line < q.line ∨ p.line = q.line ∧ p.col ≤ q.col⟩

theorem le_iff {p q : Position} : p ≤ q ↔ p.line < q.line ∨ p.line = q.line ∧ p.col ≤ q.col :=
  Iff.rfl

protected theorem le_refl (p : Position) : p ≤ p := .inr ⟨rfl, Nat.le_refl _⟩

protected theorem le_trans {p q r : Position} (h : p ≤ q) (h' : q ≤ r) : p ≤ r := by
  rw [le_iff] at h h' ⊢
  omega

theorem not_advance_le (p : Position) (c : Char) : ¬p.advance c ≤ p := by
  unfold advance
  split <;> simp [le_iff]

theorem after_le_append_singleton (before : List Char) (c : Char) :
    after before ≤ after (before ++ [c]) := by
  rw [after_append_singleton, advance]
  split
  · exact .inl (Nat.lt_succ_self _)
  · exact .inr ⟨rfl, Nat.le_succ _⟩

/-- The place behind a longer beginning of the text is not before that of a shorter one. -/
theorem after_le {before upTo : List Char} (h : before <+: upTo) : after before ≤ after upTo := by
  obtain ⟨text, rfl⟩ := h
  induction text generalizing before with
  | nil => simpa using Position.le_refl _
  | cons c text ih =>
    have hrest : after (before ++ [c]) ≤ after (before ++ [c] ++ text) := ih
    rw [List.append_assoc, List.singleton_append] at hrest
    exact Position.le_trans (after_le_append_singleton before c) hrest

/-- Of the texts at the front of a source, each ends at a place of its own. -/
theorem after_injective {source before other : List Char} (h : before <+: source)
    (hother : other <+: source) (heq : after before = after other) : before = other := by
  have hproper {short long : List Char} (hshort : short <+: long)
      (hsame : after short = after long) : short = long := by
    obtain ⟨text, rfl⟩ := hshort
    cases text with
    | nil => simp
    | cons c text =>
      have hle : after (short ++ [c]) ≤ after (short ++ c :: text) := after_le ⟨text, by simp⟩
      rw [← hsame, after_append_singleton] at hle
      exact absurd hle (not_advance_le _ c)
  rcases List.prefix_or_prefix_of_prefix h hother with hprefix | hprefix
  · exact hproper hprefix heq
  · exact (hproper hprefix heq.symm).symm

/-- Within a line only the column counts. -/
theorem after_append_line (before : List Char) {text : List Char} (h : '\n' ∉ text) :
    after (before ++ text) = ⟨(after before).line, (after before).col + text.length⟩ := by
  induction text generalizing before with
  | nil => simp
  | cons c text ih =>
    rw [List.mem_cons, not_or] at h
    have hrest := ih (before ++ [c]) h.2
    rw [List.append_assoc, List.singleton_append] at hrest
    rw [hrest, after_append_singleton, advance, if_neg (Ne.symm h.1)]
    simp only [List.length_cons, Position.mk.injEq, true_and]
    omega

end Position

/-! ### The text of a span -/

namespace Span

/-- Where a span begins. -/
def first (s : Span) : Position := ⟨s.line, s.col⟩

/-- Where a span ends. -/
def last (s : Span) : Position := ⟨s.endLine, s.endCol⟩

/-- The span is no larger than the other one at either end. -/
def Inside (s outer : Span) : Prop := outer.first ≤ s.first ∧ s.last ≤ outer.last

/-- The span is over where the other one begins. -/
def Precedes (s later : Span) : Prop := s.last ≤ later.first

/-- The text that stands in a source from the beginning of a span to its end; `none` if one of them
is no place of the source, or the end comes first. -/
def textIn (source : String) (s : Span) : Option (List Char) := do
  let before ← source.toList.inits.find? fun before => Position.after before = s.first
  (source.toList.drop before.length).inits.find? fun text =>
    Position.after (before ++ text) = s.last

theorem Inside.trans {s middle outer : Span} (h : s.Inside middle) (h' : middle.Inside outer) :
    s.Inside outer :=
  ⟨Position.le_trans h'.1 h.1, Position.le_trans h.2 h'.2⟩

end Span

/-- What a search finds if only one element passes the test. -/
theorem find?_eq_some_of_unique {α : Type} {p : α → Bool} {xs : List α} {x : α} (hx : x ∈ xs)
    (hp : p x = true) (hunique : ∀ y ∈ xs, p y = true → y = x) : xs.find? p = some x := by
  cases hfind : xs.find? p with
  | none => exact absurd hp (List.find?_eq_none.1 hfind x hx)
  | some y =>
    rw [hunique y (List.mem_of_find?_eq_some hfind) (List.find?_some hfind)]

namespace Span

/-- A span has a text if it begins behind a text and ends behind a longer one. -/
theorem textIn_eq_some_iff {source : String} {s : Span} {text : List Char} :
    s.textIn source = some text ↔
      ∃ before, before ++ text <+: source.toList ∧
        s = .between (.after before) (.after (before ++ text)) := by
  constructor
  · intro h
    obtain ⟨before, hbefore, htext⟩ := Option.bind_eq_some_iff.1 h
    have hfirst : Position.after before = s.first := by simpa using List.find?_some hbefore
    have hlast : Position.after (before ++ text) = s.last := by simpa using List.find?_some htext
    have hprefix := (List.mem_inits _ _).1 (List.mem_of_find?_eq_some hbefore)
    have hrest := (List.mem_inits _ _).1 (List.mem_of_find?_eq_some htext)
    refine ⟨before, ?_, by rw [hfirst, hlast]; rfl⟩
    obtain ⟨rest, hrest⟩ := hrest
    obtain ⟨behind, hsource⟩ := hprefix
    refine ⟨rest, ?_⟩
    rw [List.append_assoc, hrest, ← hsource, List.drop_left]
  · rintro ⟨before, hprefix, rfl⟩
    have hbefore : before <+: source.toList := (List.prefix_append before text).trans hprefix
    -- two beginnings of the source that end at one position are the same, so the first is found
    have hfind : source.toList.inits.find? (fun b => Position.after b = Position.after before) =
        some before := by
      refine find?_eq_some_of_unique ((List.mem_inits _ _).2 hbefore) (by simp) ?_
      intro other hother hsame
      rw [List.mem_inits] at hother
      exact Position.after_injective hother hbefore (of_decide_eq_true hsame)
    refine Option.bind_eq_some_iff.2 ⟨before, hfind, ?_⟩
    obtain ⟨rest, hsource⟩ := hprefix
    have hdrop : source.toList.drop before.length = text ++ rest := by
      rw [← hsource, List.append_assoc, List.drop_left]
    refine find?_eq_some_of_unique ?_ (by simp [between, last]) ?_
    · rw [hdrop]
      exact (List.mem_inits _ _).2 (List.prefix_append text rest)
    · intro other hother hsame
      rw [hdrop] at hother
      obtain ⟨behind, hother⟩ := (List.mem_inits _ _).1 hother
      have hlonger : before ++ other <+: source.toList :=
        ⟨behind, by rw [← hsource, List.append_assoc, hother, List.append_assoc]⟩
      have hends := Position.after_injective hlonger ⟨rest, hsource⟩ (of_decide_eq_true hsame)
      exact List.append_cancel_left hends

end Span

/-! ### Forms and their parts -/

namespace Form

/-- The forms that stand in a collection, in order. -/
def parts : Form → List Form
  | .const _ => []
  | .symbol _ => []
  | .keyword _ => []
  | .list items _ => items
  | .vector items _ => items
  | .map entries _ => entries.flatMap fun (key, value) => [key, value]

/-- The form stands in the other one, at any depth. -/
inductive Inside (inner : Form) : Form → Prop
  | part {outer : Form} (h : inner ∈ outer.parts) : Inside inner outer
  | deeper {middle outer : Form} (hmiddle : middle ∈ outer.parts) (h : Inside inner middle) :
      Inside inner outer

/-- The form is one of the given ones or stands in one. -/
def OccursIn (forms : List Form) (form : Form) : Prop :=
  form ∈ forms ∨ ∃ top ∈ forms, form.Inside top

/-- The brackets of a collection. -/
def bracket? : Form → Option Bracket
  | .list .. => some .round
  | .vector .. => some .square
  | .map .. => some .curly
  | _ => none

/-- The spans of the form and of all forms in it show what was written there: a name, a keyword with
its colon, a collection with its brackets, or a quote mark and what follows it. A quote mark is also
the text of the symbol that it stands for. -/
inductive Faithful (source : String) : Form → Prop
  | const (c : Constant) : Faithful source (.const c)
  | symbol {s : Symbol} (htext : s.span.textIn source = some s.name.toList) :
      Faithful source (.symbol s)
  | keyword {k : Keyword} (htext : k.span.textIn source = some (':' :: k.name.toList)) :
      Faithful source (.keyword k)
  | quote {mark span : Span} {quoted : Form} {rest : List Char}
      (hmark : mark.textIn source = some ['\'']) (hfirst : mark.first = span.first)
      (htext : span.textIn source = some ('\'' :: rest)) (hquoted : Faithful source quoted) :
      Faithful source (.list [.symbol ⟨"quote", mark⟩, quoted] (some span))
  | collection {form : Form} {b : Bracket} {span : Span} {inner : List Char}
      (hbracket : form.bracket? = some b) (hspan : form.span? = some span)
      (htext : span.textIn source = some (b.opener :: inner ++ [b.closer]))
      (hparts : ∀ part ∈ form.parts, Faithful source part) : Faithful source form

/-- The spans of the forms, each of which is over where the next one begins. -/
def InOrder (forms : List Form) : Prop := (forms.filterMap span?).Pairwise Span.Precedes

/-- Each form with parts has a span, in which the spans of its parts lie in order, and so has each
form inside of it. -/
inductive Nested : Form → Prop
  | intro {form : Form}
      (hinside : ∀ part ∈ form.parts, ∃ span, form.span? = some span ∧
        ∀ s ∈ part.span?, s.Inside span)
      (horder : InOrder form.parts) (hparts : ∀ part ∈ form.parts, Nested part) : Nested form

theorem Nested.of_inside {inner outer : Form} (h : outer.Nested) (hinner : inner.Inside outer) :
    inner.Nested := by
  induction hinner with
  | part hpart =>
    cases h with
    | intro _ _ hparts => exact hparts _ hpart
  | deeper hmiddle _ ih =>
    cases h with
    | intro _ _ hparts => exact ih (hparts _ hmiddle)

/-- Inclusion is passed on from part to part. -/
theorem Nested.span_inside {inner outer : Form} (h : outer.Nested) (hinner : inner.Inside outer) :
    ∃ span, outer.span? = some span ∧ ∀ s ∈ inner.span?, s.Inside span := by
  induction hinner with
  | part hpart =>
    cases h with
    | intro hinside _ _ => exact hinside _ hpart
  | deeper hmiddle _ ih =>
    cases h with
    | intro hinside _ hparts =>
      obtain ⟨span, hspan, hmiddleSpan⟩ := hinside _ hmiddle
      obtain ⟨middleSpan, hsome, hrest⟩ := ih (hparts _ hmiddle)
      exact ⟨span, hspan, fun s hs => (hrest s hs).trans (hmiddleSpan _ hsome)⟩

end Form

/-! ### Tokens in a text -/

/-- The tokens stand in a text behind `before`, with any other text between them, and have been read
at the end of `upTo`. -/
inductive Token.Stand : List Char → List Token → List Char → Prop
  | done (before : List Char) : Stand before [] before
  | skip {before upTo : List Char} {row : List Token} (gap : List Char)
      (h : Stand (before ++ gap) row upTo) : Stand before row upTo
  | token {before upTo : List Char} {row : List Token} {lexeme : Lexeme}
      (hfits : ∃ next, (Piece.token lexeme).Fits next)
      (h : Stand (before ++ lexeme.text) row upTo) :
      Stand before (⟨lexeme, .after before⟩ :: row) upTo

namespace Token.Stand

/-- The tokens of pieces stand in their text, in order and with the places of their first
characters. -/
theorem of_pieces {pieces : List Piece} {next : List Char} (h : Piece.AllFit pieces next)
    (before : List Char) :
    Stand before (Piece.tokens before pieces) (before ++ Piece.texts pieces) := by
  induction pieces generalizing before with
  | nil => simpa [Piece.tokens] using Stand.done before
  | cons piece pieces ih =>
    have hrest := ih h.2 (before ++ piece.text)
    rw [List.append_assoc] at hrest
    cases piece with
    | separator c => exact .skip _ hrest
    | comment body => exact .skip _ hrest
    | token lexeme => exact .token ⟨_, h.1⟩ hrest

theorem grows {before upTo : List Char} {row : List Token} (h : Stand before row upTo) :
    before <+: upTo := by
  induction h with
  | done before => exact List.prefix_refl before
  | skip gap _ ih => exact (List.prefix_append _ gap).trans ih
  | token _ _ ih => exact (List.prefix_append _ _).trans ih

/-- The first token stands somewhere behind the beginning, and the others behind its end. -/
theorem cons {before upTo : List Char} {t : Token} {row : List Token}
    (h : Stand before (t :: row) upTo) :
    ∃ start, before <+: start ∧ t.start = .after start ∧
      (∃ next, (Piece.token t.lexeme).Fits next) ∧ Stand (start ++ t.lexeme.text) row upTo := by
  generalize hrow : t :: row = tokens at h
  induction h with
  | done before => cases hrow
  | skip gap _ ih =>
    obtain ⟨start, hstart, hrest⟩ := ih hrow
    exact ⟨start, (List.prefix_append _ gap).trans hstart, hrest⟩
  | token hfits h =>
    obtain ⟨rfl, rfl⟩ := List.cons.inj hrow
    exact ⟨_, List.prefix_refl _, rfl, hfits, h⟩

/-- Two rows of tokens stand one behind the other. -/
theorem append {before upTo : List Char} {row row' : List Token}
    (h : Stand before (row ++ row') upTo) :
    ∃ between, Stand before row between ∧ Stand between row' upTo := by
  generalize hrow : row ++ row' = tokens at h
  induction h generalizing row with
  | done before =>
    obtain ⟨rfl, rfl⟩ := List.append_eq_nil_iff.1 hrow
    exact ⟨before, .done before, .done before⟩
  | skip gap _ ih =>
    obtain ⟨between, hleft, hright⟩ := ih hrow
    exact ⟨between, .skip gap hleft, hright⟩
  | @token before upTo tokens lexeme hfits h ih =>
    cases row with
    | nil =>
      rw [List.nil_append] at hrow
      exact ⟨before, .done before, hrow ▸ .token hfits h⟩
    | cons t row =>
      obtain ⟨rfl, htail⟩ := List.cons.inj hrow
      obtain ⟨between, hleft, hright⟩ := ih htail
      exact ⟨between, .token hfits hleft, hright⟩

/-- A token that stands alone at the end of a row. -/
theorem singleton {before upTo : List Char} {t : Token} (h : Stand before [t] upTo) :
    ∃ start, before <+: start ∧ t.start = .after start ∧
      (∃ next, (Piece.token t.lexeme).Fits next) ∧ start ++ t.lexeme.text <+: upTo := by
  obtain ⟨start, hstart, hplace, hfits, hrest⟩ := h.cons
  exact ⟨start, hstart, hplace, hfits, hrest.grows⟩

end Token.Stand

/-! ### Forms in a text -/

namespace Form

/-- If the form has a span, it is that of a text between the end of `before` and that of `upTo`. -/
def Lies (before upTo : List Char) (form : Form) : Prop :=
  ∀ span ∈ form.span?, ∃ start stop, before <+: start ∧ start <+: stop ∧ stop <+: upTo ∧
    span = .between (.after start) (.after stop)

/-- A form that lies in a part of the text has its span inside of the span of that part. -/
theorem Lies.inside {before upTo start stop : List Char} {form : Form} (h : form.Lies before upTo)
    (hstart : start <+: before) (hstop : upTo <+: stop) :
    ∀ s ∈ form.span?, s.Inside (.between (.after start) (.after stop)) := by
  intro s hs
  obtain ⟨first, last, hfirst, _, hlast, rfl⟩ := h s hs
  exact ⟨Position.after_le (hstart.trans hfirst), Position.after_le (hlast.trans hstop)⟩

theorem Lies.weaken {before before' upTo upTo' : List Char} {form : Form}
    (h : form.Lies before upTo) (hbefore : before' <+: before) (hupTo : upTo <+: upTo') :
    form.Lies before' upTo' := by
  intro span hspan
  obtain ⟨start, stop, hstart, hbetween, hstop, rfl⟩ := h span hspan
  exact ⟨start, stop, hbefore.trans hstart, hbetween, hstop.trans hupTo, rfl⟩

/-- Forms stay in order if the first one lies before the others. -/
theorem inOrder_cons {before between upTo : List Char} {form : Form} {forms : List Form}
    (h : form.Lies before between) (hforms : ∀ f ∈ forms, f.Lies between upTo)
    (horder : InOrder forms) : InOrder (form :: forms) := by
  unfold InOrder
  cases hspan : form.span? with
  | none => rwa [List.filterMap_cons_none hspan]
  | some span =>
    rw [List.filterMap_cons_some hspan, List.pairwise_cons]
    refine ⟨fun later hlater => ?_, horder⟩
    obtain ⟨f, hf, hlater⟩ := List.mem_filterMap.1 hlater
    obtain ⟨_, stop, _, _, hstop, rfl⟩ := h span hspan
    obtain ⟨start, _, hstart, _, _, rfl⟩ := hforms f hf later hlater
    exact Position.after_le (hstop.trans hstart)

/-- The form was read from the text between the end of `before` and that of `upTo`. -/
structure ReadFrom (source : String) (before upTo : List Char) (form : Form) : Prop where
  faithful : form.Faithful source
  nested : form.Nested
  lies : form.Lies before upTo

/-- The forms were read from such a text, one after the other. -/
structure RowFrom (source : String) (before upTo : List Char) (forms : List Form) : Prop where
  faithful : ∀ form ∈ forms, form.Faithful source
  nested : ∀ form ∈ forms, form.Nested
  lies : ∀ form ∈ forms, form.Lies before upTo
  inOrder : InOrder forms

theorem RowFrom.nil (source : String) (before upTo : List Char) : RowFrom source before upTo [] :=
  ⟨nofun, nofun, nofun, .nil⟩

/-- A form and a row of forms that are read one behind the other. -/
theorem RowFrom.cons {source : String} {before between upTo : List Char} {form : Form}
    {forms : List Form} (h : form.ReadFrom source before between)
    (hforms : RowFrom source between upTo forms) (hbefore : before <+: between)
    (hupTo : between <+: upTo) : RowFrom source before upTo (form :: forms) where
  faithful := List.forall_mem_cons.2 ⟨h.faithful, hforms.faithful⟩
  nested := List.forall_mem_cons.2 ⟨h.nested, hforms.nested⟩
  lies := List.forall_mem_cons.2 ⟨h.lies.weaken (List.prefix_refl _) hupTo,
    fun f hf => (hforms.lies f hf).weaken hbefore (List.prefix_refl _)⟩
  inOrder := inOrder_cons h.lies hforms.lies hforms.inOrder

/-- A form without parts that has no span. -/
theorem readFrom_const (source : String) (before upTo : List Char) (c : Constant) :
    (Form.const c).ReadFrom source before upTo :=
  ⟨.const c, .intro nofun .nil nofun, nofun⟩

/-- A name has the span of the text that it was read from. -/
theorem readFrom_name {source : String} {before start text upTo : List Char} {form : Form}
    (hbefore : before <+: start) (hupTo : start ++ text <+: upTo)
    (hspan : form.span? = some (.between (.after start) (.after (start ++ text))))
    (hparts : form.parts = []) (hfaithful : form.Faithful source) :
    form.ReadFrom source before upTo := by
  refine ⟨hfaithful, .intro ?_ ?_ ?_, fun span hs => ?_⟩
  · rw [hparts]; exact nofun
  · rw [hparts]; exact .nil
  · rw [hparts]; exact nofun
  · obtain rfl := Option.some.inj (hspan.symm.trans hs)
    exact ⟨start, start ++ text, hbefore, List.prefix_append _ _, hupTo, rfl⟩

/-- A character of an atom does not end a line. -/
theorem newline_not_mem {text next : List Char} (h : (Piece.token (.atom text)).Fits next) :
    '\n' ∉ text := fun hmem => absurd (h.2.1 _ hmem) (by decide)

/-- The span of an atom is its text. -/
theorem readFrom_atom {source : String} {before upTo : List Char} {text : List Char}
    {place : Position} (h : Token.Stand before [⟨.atom text, place⟩] upTo)
    (hsource : upTo <+: source.toList) :
    (Form.ofAtom text place).ReadFrom source before upTo := by
  obtain ⟨start, hstart, hplace, ⟨next, hfits⟩, hend⟩ := h.singleton
  obtain rfl : place = .after start := hplace
  have hend : start ++ text <+: upTo := hend
  have hline := Position.after_append_line start (newline_not_mem hfits)
  have hspan : Span.onLine (.after start) text.length =
      .between (.after start) (.after (start ++ text)) := by rw [hline]; rfl
  have htext : (Span.onLine (.after start) text.length).textIn source = some text :=
    Span.textIn_eq_some_iff.2 ⟨start, hend.trans hsource, hspan⟩
  unfold ofAtom
  split
  · exact readFrom_const ..
  split
  · exact readFrom_const ..
  split
  · refine readFrom_name hstart hend (congrArg some hspan) rfl (.keyword ?_)
    simpa using htext
  · refine readFrom_name hstart hend (congrArg some hspan) rfl (.symbol ?_)
    simpa using htext

/-- A quote mark and the form behind it. The list ends with that form, or with the mark where the
form has no span. -/
theorem readFrom_quoted {source : String} {before start upTo : List Char} {form : Form}
    (hbefore : before <+: start) (hform : form.ReadFrom source (start ++ ['\'']) upTo)
    (hmark : start ++ ['\''] <+: upTo) (hsource : upTo <+: source.toList) :
    (quoted (.after start) form).ReadFrom source before upTo := by
  have hline : Position.after (start ++ ['\'']) =
      ⟨(Position.after start).line, (Position.after start).col + 1⟩ :=
    Position.after_append_line start (by decide)
  have hmarkSpan : Span.onLine (.after start) 1 =
      .between (.after start) (.after (start ++ ['\''])) := by rw [hline]; rfl
  have hmarkText : (Span.onLine (.after start) 1).textIn source = some ['\''] :=
    Span.textIn_eq_some_iff.2 ⟨start, hmark.trans hsource, hmarkSpan⟩
  -- the list ends where the quoted form does, or after the mark if that form has no span
  obtain ⟨stop, hstop, hstopUpTo, hquoted, hinside⟩ : ∃ stop, start ++ ['\''] <+: stop ∧
      stop <+: upTo ∧ quoted (.after start) form =
        .list [.symbol ⟨"quote", .onLine (.after start) 1⟩, form]
          (some (.between (.after start) (.after stop))) ∧
      form.Lies (start ++ ['\'']) stop := by
    cases hspan : form.span? with
    | none =>
      refine ⟨_, List.prefix_refl _, hmark, ?_, fun s hs => absurd (hspan.symm.trans hs) nofun⟩
      simp only [quoted, hspan, hline]
    | some span =>
      obtain ⟨first, stop, hfirst, hle, hstop, rfl⟩ := hform.lies span hspan
      refine ⟨stop, hfirst.trans hle, hstop, ?_, fun s hs => ?_⟩
      · simp only [quoted, hspan, Span.between]
      · obtain rfl := Option.some.inj (hspan.symm.trans hs)
        exact ⟨first, stop, hfirst, hle, List.prefix_refl _, rfl⟩
  have hhead : (Form.symbol ⟨"quote", .onLine (.after start) 1⟩).Lies start (start ++ ['\'']) := by
    intro s hs
    obtain rfl := Option.some.inj hs
    exact ⟨start, _, List.prefix_refl _, List.prefix_append _ _, List.prefix_refl _, hmarkSpan⟩
  have hmarkStop : start <+: start ++ ['\''] := List.prefix_append _ _
  rw [hquoted]
  refine ⟨?_, .intro ?_ ?_ ?_, ?_⟩
  · obtain ⟨rest, hrest⟩ := hstop
    have htext : (Span.between (.after start) (.after stop)).textIn source =
        some ('\'' :: rest) := by
      rw [← List.append_cons] at hrest
      rw [← hrest] at hstopUpTo ⊢
      exact Span.textIn_eq_some_iff.2 ⟨start, hstopUpTo.trans hsource, rfl⟩
    exact .quote hmarkText rfl htext hform.faithful
  · intro part hpart
    refine ⟨_, rfl, ?_⟩
    obtain rfl | rfl : part = _ ∨ part = form := by simpa [parts] using hpart
    · exact hhead.inside (List.prefix_refl _) hstop
    · exact hinside.inside hmarkStop (List.prefix_refl _)
  · exact inOrder_cons hhead (List.forall_mem_singleton.2 hinside)
      (inOrder_cons hinside (List.forall_mem_nil fun f : Form => f.Lies stop stop) .nil)
  · intro part hpart
    obtain rfl | rfl : part = _ ∨ part = form := by simpa [parts] using hpart
    · exact .intro nofun .nil nofun
    · exact hform.nested
  · intro s hs
    obtain rfl := Option.some.inj hs
    exact ⟨start, stop, hbefore, hmarkStop.trans hstop, hstopUpTo, rfl⟩

/-- The span of a collection goes from its opening to its closing bracket. -/
theorem readFrom_collection {source : String} {before upTo : List Char} {form : Form} {b : Bracket}
    {opened closed : Position} {inner : List Token}
    (h : Token.Stand before (⟨.opening b, opened⟩ :: inner ++ [⟨.closing b, closed⟩]) upTo)
    (hsource : upTo <+: source.toList) (hbracket : form.bracket? = some b)
    (hspan : form.span? = some (.between opened ⟨closed.line, closed.col + 1⟩))
    (hrow : ∀ start stop, Token.Stand start inner stop → stop <+: source.toList →
      RowFrom source start stop form.parts) :
    form.ReadFrom source before upTo := by
  -- the opening bracket stands at `start`, the closing one at `stop`, and the parts in between
  obtain ⟨start, hstart, hopened, _, hrest⟩ := h.cons
  obtain ⟨between, hinner, hclosing⟩ := hrest.append
  obtain ⟨stop, hstop, hclosed, _, hend⟩ := hclosing.singleton
  obtain rfl : opened = .after start := hopened
  obtain rfl : closed = .after stop := hclosed
  have hend : stop ++ [b.closer] <+: upTo := hend
  have hparts := hrow _ _ hinner (hclosing.grows.trans hsource)
  have hopener : start ++ [b.opener] <+: between := hinner.grows
  have hline : Position.after (stop ++ [b.closer]) =
      ⟨(Position.after stop).line, (Position.after stop).col + 1⟩ :=
    Position.after_append_line stop (by cases b <;> decide)
  rw [← hline] at hspan
  have hstopEnd : stop <+: stop ++ [b.closer] := List.prefix_append _ _
  have hstartStop : start <+: stop :=
    (List.prefix_append start [b.opener]).trans (hopener.trans hstop)
  refine ⟨?_, .intro ?_ hparts.inOrder hparts.nested, ?_⟩
  · obtain ⟨text, htext⟩ := hopener.trans hstop
    have hwhole : start ++ (b.opener :: text ++ [b.closer]) = stop ++ [b.closer] := by
      rw [← htext]; simp
    rw [← hwhole] at hend hspan
    exact .collection hbracket hspan
      (Span.textIn_eq_some_iff.2 ⟨start, hend.trans hsource, rfl⟩) hparts.faithful
  · intro part hpart
    refine ⟨_, hspan, (hparts.lies part hpart).inside (List.prefix_append _ _) ?_⟩
    exact hstop.trans hstopEnd
  · intro s hs
    obtain rfl := Option.some.inj (hspan.symm.trans hs)
    exact ⟨start, _, hstart, hstartStop.trans hstopEnd, hend, rfl⟩

end Form

/-! ### Derivations in a text -/

namespace Derivation

open Form (ReadFrom RowFrom)

theorem parts_map (entries : List (Derivation × Derivation)) (span : Span) :
    (Form.map (formsOfEntries entries) span).parts = formsOfAll (rowOf entries) := by
  unfold Form.parts
  induction entries with
  | nil => rfl
  | cons entry entries ih =>
    simp only [formsOfEntries, List.flatMap_cons, ih]
    rfl

mutual

/-- The form of a derivation lies where its tokens stand, by recursion on the derivation. -/
theorem form_readFrom {source : String} {before upTo : List Char}
    (hsource : upTo <+: source.toList) :
    ∀ d : Derivation, Token.Stand before d.tokens upTo → d.form.ReadFrom source before upTo
  | .atom _ _, h => Form.readFrom_atom h hsource
  | .string _ _, _ => Form.readFrom_const ..
  | .quote mark quoted, h => by
    obtain ⟨start, hstart, hmark, _, hrest⟩ := Token.Stand.cons h
    obtain rfl : mark = .after start := hmark
    exact Form.readFrom_quoted hstart (form_readFrom hsource quoted hrest) hrest.grows hsource
  | .list opened items closed, h =>
    Form.readFrom_collection (b := .round) h hsource rfl rfl fun _ _ hrow hstop =>
      formsOfAll_rowFrom hstop items hrow
  | .vector opened items closed, h =>
    Form.readFrom_collection (b := .square) h hsource rfl rfl fun _ _ hrow hstop =>
      formsOfAll_rowFrom hstop items hrow
  | .map opened entries closed, h =>
    Form.readFrom_collection (b := .curly) h hsource rfl rfl fun _ _ hrow hstop => by
      rw [form, parts_map]
      exact formsOfEntries_rowFrom hstop entries hrow

theorem formsOfAll_rowFrom {source : String} {before upTo : List Char}
    (hsource : upTo <+: source.toList) :
    ∀ ds : List Derivation, Token.Stand before (tokensOfAll ds) upTo →
      RowFrom source before upTo (formsOfAll ds)
  | [], _ => .nil ..
  | d :: ds, h => by
    obtain ⟨between, hd, hds⟩ := Token.Stand.append h
    exact .cons (form_readFrom (hds.grows.trans hsource) d hd) (formsOfAll_rowFrom hsource ds hds)
      hd.grows hds.grows

theorem formsOfEntries_rowFrom {source : String} {before upTo : List Char}
    (hsource : upTo <+: source.toList) :
    ∀ entries : List (Derivation × Derivation), Token.Stand before (tokensOfEntries entries) upTo →
      RowFrom source before upTo (formsOfAll (rowOf entries))
  | [], _ => .nil ..
  | (key, value) :: entries, h => by
    obtain ⟨between, hentry, hentries⟩ := Token.Stand.append h
    obtain ⟨middle, hkey, hvalue⟩ := Token.Stand.append hentry
    have hbetween := hentries.grows.trans hsource
    have hrow := RowFrom.cons (form_readFrom hbetween value hvalue)
      (formsOfEntries_rowFrom hsource entries hentries) hvalue.grows hentries.grows
    exact .cons (form_readFrom (hvalue.grows.trans hbetween) key hkey) hrow hkey.grows
      (hvalue.grows.trans hentries.grows)

end

end Derivation

namespace Form

/-- What is read from a source has a derivation. -/
theorem exists_derivations {source : String} {forms : List Form} (h : readAll source = .ok forms) :
    ∃ ds, Token.scan source = .ok (Derivation.tokensOfAll ds) ∧
      Derivation.formsOfAll ds = forms := by
  cases hscan : Token.scan source with
  | error fault =>
    rw [readAll_of_scan_error hscan] at h
    cases h
  | ok tokens =>
    rw [readAll_of_scan hscan] at h
    obtain ⟨ds, rfl, -, hforms⟩ := ofTokens_eq_ok_iff.1 h
    exact ⟨ds, rfl, hforms⟩

/-- All forms that are read from a source lie in it, one behind the other. -/
theorem readAll_rowFrom {source : String} {forms : List Form} (h : readAll source = .ok forms) :
    RowFrom source [] source.toList forms := by
  obtain ⟨ds, hscan, rfl⟩ := exists_derivations h
  rcases Token.scan_cases source with ⟨pieces, hsource, hall, hok⟩ | ⟨_, _, _, _, _, herror⟩
  · have htokens : Derivation.tokensOfAll ds = Piece.tokens [] pieces :=
      Except.ok.inj (hscan.symm.trans hok)
    have hstand := Token.Stand.of_pieces hall []
    rw [← htokens, List.nil_append, ← hsource] at hstand
    exact Derivation.formsOfAll_rowFrom (List.prefix_refl _) ds hstand
  · cases hscan.symm.trans herror

/-- **The spans of forms are faithful and nested.** Each form that is read from a source, and each
form in it, has the span of the text that it was written as. The spans of the forms of the source,
and those of the parts of each collection, stand one after the other; and the span of a form that
stands in another one, at any depth, lies in the span of that one. -/
theorem readAll_spans_faithful (source : String) (forms : List Form)
    (h : readAll source = .ok forms) :
    (∀ form ∈ forms, form.Faithful source) ∧ InOrder forms ∧
      ∀ outer : Form, outer.OccursIn forms →
        InOrder outer.parts ∧ ∀ inner : Form, inner.Inside outer →
          ∀ span ∈ outer.span?, ∀ s ∈ inner.span?, s.Inside span := by
  have hrow := readAll_rowFrom h
  refine ⟨hrow.faithful, hrow.inOrder, fun outer houter => ?_⟩
  have hnested : outer.Nested := by
    rcases houter with hmem | ⟨top, htop, hinside⟩
    · exact hrow.nested outer hmem
    · exact (hrow.nested top htop).of_inside hinside
  refine ⟨?_, fun inner hinner span hspan s hs => ?_⟩
  · cases hnested with
    | intro _ horder _ => exact horder
  · obtain ⟨outerSpan, hsome, hlies⟩ := hnested.span_inside hinner
    obtain rfl := Option.some.inj (hsome.symm.trans hspan)
    exact hlies s hs

/-- Quote marks before a collection over two lines, before a constant and before each other. -/
theorem readAll_spans_faithful_quotes :
    ∃ forms, readAll "'(a \"x\ny\" '1)\n\x7b:k ''b\x7d" = .ok forms ∧
      forms.map span? = [some ⟨1, 0, 2, 6⟩, some ⟨3, 0, 3, 8⟩] ∧
      (∀ form ∈ forms, form.Faithful "'(a \"x\ny\" '1)\n\x7b:k ''b\x7d") ∧ InOrder forms ∧
        ∀ outer : Form, outer.OccursIn forms →
          InOrder outer.parts ∧ ∀ inner : Form, inner.Inside outer →
            ∀ span ∈ outer.span?, ∀ s ∈ inner.span?, s.Inside span :=
  ⟨_, rfl, rfl, readAll_spans_faithful _ _ rfl⟩

end Form

end TailLisp
