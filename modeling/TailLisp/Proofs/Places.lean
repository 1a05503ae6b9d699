import TailLisp.Proofs.Crafting
import TailLisp.Proofs.SourceSpans

/-!
# TailLisp.Proofs.Places

**Every place in a program is a place of its source.** The nodes of a tree take their places from
forms, or from the node above them, and the whole program begins at the start of the source. Forms
that were read have a span that shows a text (`Form.Faithful`), and what macros make has none or
that of the call it stands for. So each place of a generated program is the start of the source or
the span of something that is written there (`Span.Marks`), and in particular it does not end before
it begins (`Program.compile_places_in_source`).
-/

namespace TailLisp

/-! ### Places of trees -/

namespace Tree

mutual

/-- Every node of the tree has a place with the property `Q`, apart from parameter lists, which have
none. -/
def AllPlaced (Q : Span → Prop) : Tree → Prop
  | .node kind place parts =>
    (∀ p ∈ place, Q p) ∧ (place = none → kind = "arguments") ∧ PartsPlaced Q parts
  | .row items => RowPlaced Q items
  | .word _ => True
  | .const _ => True

/-- Every node in the parts has a place with the property. -/
def PartsPlaced (Q : Span → Prop) : List (String × Tree) → Prop
  | [] => True
  | (_, t) :: parts => AllPlaced Q t ∧ PartsPlaced Q parts

/-- Every node in the row has a place with the property. -/
def RowPlaced (Q : Span → Prop) : List Tree → Prop
  | [] => True
  | t :: ts => AllPlaced Q t ∧ RowPlaced Q ts

end

variable {Q : Span → Prop}

theorem rowPlaced_iff {ts : List Tree} : RowPlaced Q ts ↔ ∀ t ∈ ts, t.AllPlaced Q := by
  induction ts with
  | nil => simp [RowPlaced]
  | cons t ts ih => simp [RowPlaced, ih]

theorem rowPlaced_words (text : String) (n : Nat) :
    RowPlaced Q (List.replicate n (.word text)) := by
  refine rowPlaced_iff.mpr fun t ht => ?_
  rw [List.eq_of_mem_replicate ht]
  trivial

theorem partsPlaced_iff {parts : List (String × Tree)} :
    PartsPlaced Q parts ↔ ∀ part ∈ parts, part.2.AllPlaced Q := by
  induction parts with
  | nil => simp [PartsPlaced]
  | cons part parts ih => simp [PartsPlaced, ih]

/-- A node at a place. -/
theorem allPlaced_node {kind : String} {p : Span} {parts : List (String × Tree)} (hp : Q p)
    (hparts : ∀ part ∈ parts, part.2.AllPlaced Q) : (Tree.node kind (some p) parts).AllPlaced Q :=
  ⟨by simpa using hp, nofun, partsPlaced_iff.mpr hparts⟩

theorem allPlaced_nameAt (id use : String) {p : Span} (hp : Q p) :
    (nameAt id use p).AllPlaced Q := allPlaced_node hp (by simp [AllPlaced])

/-- The parameters of a function stand at the place of the function. -/
theorem allPlaced_params {p : Span} (hp : Q p) (names : List String) (rest : Option String) :
    (params p names rest).AllPlaced Q := by
  have hparam (name : String) : (param p name).AllPlaced Q :=
    allPlaced_node hp (by simp [AllPlaced])
  refine ⟨nofun, fun _ => rfl, partsPlaced_iff.mpr ?_⟩
  have hnames : RowPlaced Q (names.map (param p)) :=
    rowPlaced_iff.mpr (List.forall_mem_map.mpr fun name _ => hparam name)
  cases rest <;> simp [AllPlaced, RowPlaced, hnames, hparam]

end Tree

namespace Material

variable {M : Material}

/-- The place of a node below another one. -/
theorem Admits.getD {p : Option Span} (h : M.Admits p) {above : Span} (habove : M.place above) :
    M.place (p.getD above) := by
  cases p with
  | none => exact habove
  | some p => exact h p rfl

end Material

namespace Expr

open Tree

variable {M : Material}

mutual

/-- Every node of an expression has a place of the material, its own or that of a node above it. -/
theorem allPlaced_tree : ∀ (e : Expr) {above : Span}, e.MadeOf M → M.place above →
    (e.tree above).AllPlaced M.place
  | .const _ _, _, h, habove => allPlaced_node (h.getD habove) (by simp [AllPlaced])
  | .name _ _, _, h, habove => allPlaced_nameAt _ _ (h.2.getD habove)
  | .field value _ _, _, h, habove => by
    have hp := h.2.getD habove
    exact allPlaced_node hp (by simp [AllPlaced, allPlaced_tree value h.1 hp])
  | .call callee args _, _, h, habove => by
    have hp := h.2.2.getD habove
    exact allPlaced_node hp (by
      simp [AllPlaced, RowPlaced, allPlaced_tree callee h.1 hp, rowPlaced_treesOf args h.2.1 hp])
  | .list items _, _, h, habove => by
    have hp := h.2.getD habove
    exact allPlaced_node hp (by simp [AllPlaced, rowPlaced_treesOf items h.1 hp])
  | .dict entries _, _, h, habove => by
    have hp := h.2.getD habove
    exact allPlaced_node hp (by
      simp [AllPlaced, rowPlaced_treesOfKeys entries h.1 hp,
        rowPlaced_treesOfValues entries h.1 hp])
  | .binary _ left right _, _, h, habove => by
    have hp := h.2.2.getD habove
    exact allPlaced_node hp (by
      simp [AllPlaced, allPlaced_tree left h.1 hp, allPlaced_tree right h.2.1 hp])
  | .unary _ operand _, _, h, habove => by
    have hp := h.2.getD habove
    exact allPlaced_node hp (by simp [AllPlaced, allPlaced_tree operand h.1 hp])
  | .logical _ operands _, _, h, habove => by
    have hp := h.2.1.getD habove
    exact allPlaced_node hp (by simp [AllPlaced, rowPlaced_treesOf operands h.1 hp])
  | .compare _ first others _, _, h, habove => by
    have hp := h.2.2.1.getD habove
    exact allPlaced_node hp (by
      simp [AllPlaced, rowPlaced_words, allPlaced_tree first h.1 hp,
        rowPlaced_treesOf others h.2.1 hp])
  | .conditional test yes no _, _, h, habove => by
    have hp := h.2.2.2.getD habove
    exact allPlaced_node hp (by
      simp [allPlaced_tree test h.1 hp, allPlaced_tree yes h.2.1 hp,
        allPlaced_tree no h.2.2.1 hp])
  | .thunk body _, _, h, habove => by
    have hp := h.2.getD habove
    exact allPlaced_node hp (by simp [allPlaced_params hp, allPlaced_tree body h.1 hp])

theorem rowPlaced_treesOf : ∀ (es : List Expr) {above : Span}, MadeOfAll M es → M.place above →
    RowPlaced M.place (treesOf above es)
  | [], _, _, _ => trivial
  | e :: es, _, h, habove => ⟨allPlaced_tree e h.1 habove, rowPlaced_treesOf es h.2 habove⟩

theorem rowPlaced_treesOfKeys : ∀ (entries : List (Expr × Expr)) {above : Span},
    MadeOfEntries M entries → M.place above → RowPlaced M.place (treesOfKeys above entries)
  | [], _, _, _ => trivial
  | (key, _) :: entries, _, h, habove =>
    ⟨allPlaced_tree key h.1 habove, rowPlaced_treesOfKeys entries h.2.2 habove⟩

theorem rowPlaced_treesOfValues : ∀ (entries : List (Expr × Expr)) {above : Span},
    MadeOfEntries M entries → M.place above → RowPlaced M.place (treesOfValues above entries)
  | [], _, _, _ => trivial
  | (_, value) :: entries, _, h, habove =>
    ⟨allPlaced_tree value h.2.1 habove, rowPlaced_treesOfValues entries h.2.2 habove⟩

end

end Expr

namespace Stmt

open Tree

variable {M : Material}

mutual

/-- Every place in the tree of a statement is one of the material. -/
theorem allPlaced_tree : ∀ (s : Stmt) {spot : Spot} {above : Span},
    s.MadeOf M spot → M.place above →
    (s.tree above).AllPlaced M.place
  | .assign target value _, _, _, h, habove => by
    have hp := h.2.2.getD habove
    exact allPlaced_node hp (by
      simp [AllPlaced, RowPlaced, allPlaced_nameAt _ _ hp, value.allPlaced_tree h.2.1 hp])
  | .eval value _, _, _, h, habove => by
    have hp := h.2.getD habove
    exact allPlaced_node hp (by simp [value.allPlaced_tree h.1 hp])
  | .ret value _, _, _, h, habove => by
    have hp := h.2.1.getD habove
    exact allPlaced_node hp (by simp [value.allPlaced_tree h.1 hp])
  | .branch test yes no _, _, _, h, habove => by
    have hp := h.2.2.2.1.getD habove
    exact allPlaced_node hp (by
      simp [AllPlaced, test.allPlaced_tree h.1 hp, rowPlaced_treesOf yes h.2.1 hp,
        rowPlaced_treesOf no h.2.2.1 hp])
  | .loop test body _, _, _, h, habove => by
    have hp := h.2.2.1.getD habove
    exact allPlaced_node hp (by
      simp [AllPlaced, RowPlaced, test.allPlaced_tree h.1 hp, rowPlaced_treesOf body h.2.1 hp])
  | .define _ params rest body _, _, _, h, habove => by
    have hp := h.2.2.2.1.getD habove
    exact allPlaced_node hp (by
      simp [AllPlaced, RowPlaced, allPlaced_params hp, rowPlaced_treesOf body h.2.2.1 hp])
  | .skip _, _, _, h, habove => allPlaced_node (h.getD habove) nofun
  | .next _, _, _, h, habove => allPlaced_node (h.1.getD habove) nofun

theorem rowPlaced_treesOf : ∀ (ss : List Stmt) {spot : Spot} {above : Span}, MadeOfAll M spot ss →
    M.place above → RowPlaced M.place (treesOf above ss)
  | [], _, _, _, _ => trivial
  | s :: ss, _, _, h, habove => ⟨allPlaced_tree s h.1 habove, rowPlaced_treesOf ss h.2 habove⟩

end

end Stmt

/-! ### Places of a source -/

namespace Span

/-- The span is that of a form that occurs among the given ones, or of a name that one of their
symbols writes together with a rest marker. -/
def Marks (forms : List Form) (s : Span) : Prop :=
  (∃ form : Form, form.OccursIn forms ∧ form.span? = some s) ∨
    ∃ symbol : Symbol, (Form.symbol symbol).OccursIn forms ∧
      Pattern.isRestName symbol.name = true ∧ symbol.name ≠ "&" ∧ s = symbol.span.dropFirst

end Span

theorem Position.one_le_line_after (before : List Char) : 1 ≤ (Position.after before).line := by
  rcases Position.after_le (List.nil_prefix (l := before)) with hline | ⟨hline, -⟩
  · exact Nat.le_of_lt hline
  · exact Nat.le_of_eq hline

/-- A span with a text does not end before it begins, and lies on a line of the source. -/
theorem Span.inOrder_of_textIn {source : String} {s : Span} {text : List Char}
    (h : s.textIn source = some text) : s.first ≤ s.last ∧ 1 ≤ s.line := by
  obtain ⟨before, -, rfl⟩ := textIn_eq_some_iff.1 h
  exact ⟨Position.after_le (List.prefix_append _ _), Position.one_le_line_after before⟩

/-- A span that shows more than one character on its first line can do without the first. -/
theorem Span.inOrder_dropFirst {source : String} {s : Span} {c : Char} {text : List Char}
    (h : s.textIn source = some (c :: text)) (hc : c ≠ '\n') :
    s.dropFirst.first ≤ s.dropFirst.last ∧ 1 ≤ s.dropFirst.line := by
  obtain ⟨before, -, rfl⟩ := textIn_eq_some_iff.1 h
  refine ⟨?_, Position.one_le_line_after before⟩
  have hfirst : Position.after (before ++ [c]) =
      ⟨(Position.after before).line, (Position.after before).col + 1⟩ :=
    Position.after_append_line before (by simpa using Ne.symm hc)
  have hle : Position.after (before ++ [c]) ≤ Position.after (before ++ c :: text) :=
    Position.after_le ⟨text, by simp⟩
  rwa [hfirst] at hle

namespace Form

variable {source : String} {forms : List Form}

/-- The form was written in the source, or it is the symbol that a quote mark stands for. -/
def Written (source : String) (form : Form) : Prop :=
  form.Faithful source ∨
    ∃ mark : Span, form = .symbol ⟨"quote", mark⟩ ∧ mark.textIn source = some ['\'']

theorem Faithful.parts_written {form : Form} (h : form.Faithful source) :
    ∀ part ∈ form.parts, part.Written source := by
  cases h with
  | const c => exact nofun
  | symbol htext => exact nofun
  | keyword htext => exact nofun
  | quote hmark hfirst htext hquoted =>
    exact List.forall_mem_cons.mpr
      ⟨.inr ⟨_, rfl, hmark⟩, List.forall_mem_singleton.mpr (.inl hquoted)⟩
  | collection hbracket hspan htext hparts => exact fun part hpart => .inl (hparts part hpart)

theorem Written.of_inside {inner outer : Form} (h : outer.Written source)
    (hinner : inner.Inside outer) : inner.Written source := by
  have hparts {form : Form} (h : form.Written source) :
      ∀ part ∈ form.parts, part.Written source := by
    rcases h with h | ⟨mark, rfl, -⟩
    · exact h.parts_written
    · exact nofun
  induction hinner with
  | part hpart => exact hparts h _ hpart
  | deeper hmiddle _ ih => exact ih (hparts h _ hmiddle)

theorem Written.textIn {form : Form} (h : form.Written source) {span : Span}
    (hspan : form.span? = some span) : ∃ text, span.textIn source = some text := by
  rcases h with h | ⟨mark, rfl, hmark⟩
  · cases h with
    | const c => cases hspan
    | symbol htext => cases hspan; exact ⟨_, htext⟩
    | keyword htext => cases hspan; exact ⟨_, htext⟩
    | quote hmark hfirst htext hquoted => cases hspan; exact ⟨_, htext⟩
    | collection hbracket hspan' htext hparts =>
      cases hspan'.symm.trans hspan
      exact ⟨_, htext⟩
  · cases hspan
    exact ⟨_, hmark⟩

/-- The span of a symbol holds its name, unless it is the `quote` of a quote mark. -/
theorem Written.symbol_text {s : Symbol} (h : (Form.symbol s).Written source)
    (hs : s.name ≠ "quote") : s.span.textIn source = some s.name.toList := by
  rcases h with h | ⟨mark, heq, -⟩
  · cases h with
    | symbol htext => exact htext
    | collection hbracket hspan htext hparts => cases hbracket
  · cases heq
    exact absurd rfl hs

/-- Every form that is read, and every part of it, is written in the source. -/
theorem written_of_occursIn (h : readAll source = .ok forms) {form : Form}
    (hform : form.OccursIn forms) : form.Written source := by
  have hrow := readAll_rowFrom h
  rcases hform with hmem | ⟨top, htop, hinside⟩
  · exact .inl (hrow.faithful form hmem)
  · exact Written.of_inside (.inl (hrow.faithful top htop)) hinside

end Form

/-- What is marked by a source is a stretch of it. -/
theorem Span.Marks.inOrder {source : String} {forms : List Form} {s : Span} (h : s.Marks forms)
    (hread : Form.readAll source = .ok forms) : s.first ≤ s.last ∧ 1 ≤ s.line := by
  rcases h with ⟨form, hform, hspan⟩ | ⟨symbol, hsymbol, hrest, -, rfl⟩
  · obtain ⟨text, htext⟩ := (Form.written_of_occursIn hread hform).textIn hspan
    exact inOrder_of_textIn htext
  · have hname : symbol.name ≠ "quote" := by
      intro hname
      rw [hname] at hrest
      exact absurd hrest (by decide)
    have htext := (Form.written_of_occursIn hread hsymbol).symbol_text hname
    unfold Pattern.isRestName at hrest
    split at hrest
    · rename_i rest hchars
      rw [hchars] at htext
      exact inOrder_dropFirst htext (by decide)
    · cases hrest

/-! ### From forms to programs -/

namespace Form

variable {quoted : Bool} {P : Form → Prop}

mutual

/-- A property of all forms that occur in a form. -/
theorem throughout_of_inside : ∀ form : Form, P form →
    (∀ inner : Form, inner.Inside form → P inner) → form.Throughout quoted P
  | .const _, h, _ => h
  | .symbol _, h, _ => h
  | .keyword _, h, _ => h
  | .list items _, h, hinner => ⟨h, .inr (throughoutAll_of_inside items
      (fun part hpart => hinner part (.part hpart))
      fun _ hpart inner h => hinner inner (.deeper hpart h))⟩
  | .vector items _, h, hinner => ⟨h, throughoutAll_of_inside items
      (fun part hpart => hinner part (.part hpart))
      fun _ hpart inner h => hinner inner (.deeper hpart h)⟩
  | .map entries _, h, hinner => ⟨h, throughoutEntries_of_inside entries
      (fun part hpart => hinner part (.part hpart))
      fun _ hpart inner h => hinner inner (.deeper hpart h)⟩

theorem throughoutAll_of_inside : ∀ forms : List Form, (∀ form ∈ forms, P form) →
    (∀ form ∈ forms, ∀ inner : Form, inner.Inside form → P inner) → ThroughoutAll quoted P forms
  | [], _, _ => trivial
  | form :: forms, h, hinner => by
    rw [List.forall_mem_cons] at h hinner
    exact ⟨throughout_of_inside form h.1 hinner.1, throughoutAll_of_inside forms h.2 hinner.2⟩

theorem throughoutEntries_of_inside : ∀ entries : List (Form × Form),
    (∀ form ∈ entries.flatMap fun (key, value) => [key, value], P form) →
    (∀ form ∈ entries.flatMap fun (key, value) => [key, value],
      ∀ inner : Form, inner.Inside form → P inner) → ThroughoutEntries quoted P entries
  | [], _, _ => trivial
  | (key, value) :: entries, h, hinner => by
    simp only [List.flatMap_cons, List.cons_append, List.nil_append, List.forall_mem_cons]
      at h hinner
    exact ⟨⟨throughout_of_inside key h.1 hinner.1, throughout_of_inside value h.2.1 hinner.2.1⟩,
      throughoutEntries_of_inside entries h.2.2 hinner.2.2⟩

end

theorem throughout_of_occursIn {forms : List Form}
    (h : ∀ form : Form, form.OccursIn forms → P form) :
    ∀ form ∈ forms, form.Throughout quoted P := fun form hform =>
  throughout_of_inside form (h form (.inl hform)) fun inner hinner =>
    h inner (.inr ⟨form, hform, hinner⟩)

/-- The place of the form is marked by the source forms; a symbol with a place is one of theirs. -/
structure PlacedBy (forms : List Form) (form : Form) : Prop where
  marks : ∀ p ∈ form.place?, p.Marks forms
  symbol : ∀ s, form = .symbol s → s.span.isReal = true → form.OccursIn forms

theorem placedBy_of_occursIn {forms : List Form} {form : Form} (h : form.OccursIn forms) :
    form.PlacedBy forms where
  marks _ hp := .inl ⟨form, h, (Option.filter_eq_some_iff.mp hp).1⟩
  symbol _ _ _ := h

/-- What no source text stands behind has no place. -/
theorem placedBy_of_span_none {forms : List Form} {form : Form} (h : ∀ s ∈ form.span?, s = .none) :
    form.PlacedBy forms where
  marks p hp := by
    obtain ⟨hspan, hreal⟩ := Option.filter_eq_some_iff.mp hp
    rw [h p hspan] at hreal
    cases hreal
  symbol s hs hreal := by
    rw [h s.span (by rw [hs]; rfl)] at hreal
    cases hreal

end Form

namespace Macro

variable {forms : List Form}

/-- A macro gives to what it makes the place of its call, or none. -/
theorem placedBy_kept : Kept (Form.PlacedBy forms) where
  nil := Form.placedBy_of_span_none nofun
  named _ _ := Form.placedBy_of_span_none (by simp [Form.named, Form.span?])
  renamed _ := Form.placedBy_of_span_none (by simp [Form.named, Form.span?])
  called _ _ := Form.placedBy_of_span_none nofun
  threaded _ _ := Form.placedBy_of_span_none nofun
  applied _ _ := Form.placedBy_of_span_none nofun
  placed _ hcall := ⟨hcall.marks, nofun⟩

/-- Where a form stands does not depend on its parts. -/
theorem placedBy_shallow : Shallow (Form.PlacedBy forms) where
  list _ _ h := ⟨h.marks, nofun⟩
  vector _ _ h := ⟨h.marks, nofun⟩
  map _ _ h := ⟨h.marks, nofun⟩

end Macro

/-- The start of a source and what its forms mark, and any name. -/
def Material.placesOf (forms : List Form) : Material where
  place p := (p = Tree.origin ∨ p.Marks forms) ∧ p.first ≤ p.last ∧ 1 ≤ p.line
  name _ := True
  target _ := True
  temp _ _ := True

/-- The places of the forms of a source are a material for them. -/
theorem Material.placesOf_covers {source : String} {forms : List Form}
    (hread : Form.readAll source = .ok forms) :
    (placesOf forms).Covers (Form.PlacedBy forms) where
  nil := Form.placedBy_of_span_none nofun
  place h p hp := ⟨.inr (h.marks p hp), (h.marks p hp).inOrder hread⟩
  fused {s} hs hrest hbindable p hp := by
    obtain ⟨hspan, hreal⟩ := Option.filter_eq_some_iff.mp hp
    cases hspan
    -- the marker alone has no name behind it
    have hname : s.name ≠ "&" := by
      intro hname
      have hempty : (Pattern.fusedRest s).name = "" := by rw [Pattern.fusedRest, hname]; rfl
      rw [hempty] at hbindable
      exact absurd hbindable (by decide)
    have hmarks : s.span.dropFirst.Marks forms :=
      .inr ⟨s, hs.symbol s rfl hreal, hrest, hname, rfl⟩
    exact ⟨.inr hmarks, hmarks.inOrder hread⟩
  read _ _ := trivial
  bound _ := trivial
  unchecked _ _ _ := ⟨trivial, fun _ _ _ => trivial⟩
  bindable _ _ := ⟨trivial, fun _ _ _ => trivial⟩
  tempers _ _ _ _ _ := trivial
  library _ _ := trivial

namespace Program

/-- **Every place in a program is a place of its source.** Each node of the program of a source,
where nodes without a place take that of the node above them, has the start of the source for a
place, or the span of a form that is read from it, or that of the name in a symbol such as `&rest`;
and it begins on a line of the source and does not end before that. -/
theorem compile_places_in_source (options : Options) (file source : String) (program : List Stmt)
    (h : (compile options file source).result = .ok program) :
    ∃ forms, Form.readAll source = .ok forms ∧
      ∀ tree ∈ Stmt.programTrees program, tree.AllPlaced fun p =>
        (p = Tree.origin ∨ p.Marks forms) ∧ p.first ≤ p.last ∧ 1 ≤ p.line := by
  obtain ⟨c, hrun⟩ := compile_run h
  obtain ⟨_, _, hforms, -⟩ := Compile.bind_ok hrun
  obtain ⟨forms, hread, -⟩ := forms_yields options source hforms
  refine ⟨forms, hread, Tree.rowPlaced_iff.mp ?_⟩
  have hplaced : ∀ read, Form.readAll source = .ok read →
      ∀ form ∈ read, form.Throughout false (Form.PlacedBy forms) := by
    intro read hread'
    cases hread'.symm.trans hread
    exact Form.throughout_of_occursIn fun form hform => Form.placedBy_of_occursIn hform
  have hmade := compile_madeOf (Material.placesOf_covers hread) Macro.placedBy_kept
    Macro.placedBy_shallow (fun _ => trivial) hplaced h
  exact Stmt.rowPlaced_treesOf program hmade ⟨.inl rfl, Position.le_refl _, Nat.le_refl _⟩

/-- Macros over several lines, a fused rest marker, and patterns in a `let` and a loop. -/
def spreadSource : String :=
  "(defn f [n &more]\n  (when n\n    (let [[a &rest :as all] more]\n" ++
  "      (-> a (g 'b) (h rest))\n" ++
  "      (loop [i 0 [x y] all]\n        (if (< i n) (recur (inc i) [y x]) (if-not x y i))))))"

theorem compile_places_in_source_spread : ∃ program,
    (compile {} "spread" spreadSource).result = .ok program ∧
      ∃ forms, Form.readAll spreadSource = .ok forms ∧
        ∀ tree ∈ Stmt.programTrees program, tree.AllPlaced fun p =>
          (p = Tree.origin ∨ p.Marks forms) ∧ p.first ≤ p.last ∧ 1 ≤ p.line := by
  have hok : (compile {} "spread" spreadSource).result.isOk = true := by decide +kernel
  cases hresult : (compile {} "spread" spreadSource).result with
  | error fault =>
    rw [hresult] at hok
    cases hok
  | ok program => exact ⟨program, rfl, compile_places_in_source _ _ _ _ hresult⟩

end Program

end TailLisp
