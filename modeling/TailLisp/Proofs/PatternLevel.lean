import TailLisp.Pattern.Parser

/-!
# TailLisp.Proofs.PatternLevel

**What one level of a pattern holds.** The binders and defaults that the parsers of
`TailLisp.Pattern.Parser` return are forms that stand in the vector they have read, and the faults
they end in are faults of patterns.
-/

namespace TailLisp

/-! ### Steps that may end in a fault -/

namespace Parsing

variable {α β ε : Type}

theorem bind_ok {m : Except ε α} {f : α → Except ε β} {b : β} (h : (m >>= f) = .ok b) :
    ∃ a, m = .ok a ∧ f a = .ok b := by
  cases m with
  | error e => cases h
  | ok a => exact ⟨a, rfl, h⟩

theorem foldlM_one {f : β → α → Except ε β} {x : α} {b b' : β} (h : f b x = .ok b') :
    [x].foldlM f b = .ok b' := by
  rw [List.foldlM_cons, h]
  rfl

theorem foldlM_two {f : β → α → Except ε β} {x y : α} {b between b' : β}
    (hx : f b x = .ok between) (hy : f between y = .ok b') : [x, y].foldlM f b = .ok b' := by
  rw [List.foldlM_cons, hx]
  exact foldlM_one hy

/-- What every step preserves holds at the end. -/
theorem foldlM_inv {f : β → α → Except ε β} {P : β → Prop} {xs : List α} {b b' : β}
    (hstep : ∀ b x b', x ∈ xs → P b → f b x = .ok b' → P b') (hb : P b)
    (h : xs.foldlM f b = .ok b') : P b' := by
  induction xs generalizing b with
  | nil => cases h; exact hb
  | cons x xs ih =>
    rw [List.foldlM_cons] at h
    obtain ⟨b₁, hx, h⟩ := bind_ok h
    exact ih (fun b y b' hy => hstep b y b' (List.mem_cons_of_mem _ hy))
      (hstep b x b₁ List.mem_cons_self hb hx) h

/-- What grows in every step by at most the size of the form that is read grows by at most the size
of all of them. -/
theorem foldlM_size {f : β → Form → Except ε β} {size : β → Nat} {forms : List Form} {b b' : β}
    (hstep : ∀ b form b', f b form = .ok b' → size b' ≤ size b + form.size)
    (h : forms.foldlM f b = .ok b') : size b' ≤ size b + Form.sizeOfAll forms := by
  induction forms generalizing b with
  | nil => cases h; simp [Form.sizeOfAll]
  | cons form forms ih =>
    rw [List.foldlM_cons] at h
    obtain ⟨b₁, hform, h⟩ := bind_ok h
    have hfirst := hstep b form b₁ hform
    have hrest := ih h
    simp only [Form.sizeOfAll]
    omega

/-- If the step ends in a fault, the fault is of one of the kinds. -/
def Faults (kinds : FaultKind → Prop) (e : Except Fault α) : Prop :=
  ∀ ⦃fault⦄, e = .error fault → kinds fault.kind

namespace Faults

variable {kinds kinds' : FaultKind → Prop}

protected theorem ok (a : α) : Faults kinds (.ok a) := nofun

protected theorem error {fault : Fault} (h : kinds fault.kind) :
    Faults kinds (.error fault : Except Fault α) := by
  rintro _ ⟨⟩
  exact h

theorem imp {e : Except Fault α} (he : Faults kinds e) (h : ∀ kind, kinds kind → kinds' kind) :
    Faults kinds' e :=
  fun fault hfault => h fault.kind (he hfault)

protected theorem bind {m : Except Fault α} {f : α → Except Fault β} (hm : Faults kinds m)
    (hf : ∀ a, Faults kinds (f a)) : Faults kinds (m >>= f) := by
  cases m with
  | error fault => exact .error (hm rfl)
  | ok a => exact hf a

protected theorem foldlM {f : β → α → Except Fault β} (h : ∀ b x, Faults kinds (f b x)) :
    ∀ (xs : List α) (b : β), Faults kinds (xs.foldlM f b)
  | [], b => .ok b
  | x :: xs, b => by
    rw [List.foldlM_cons]
    exact .bind (h b x) fun b' => .foldlM h xs b'

end Faults

end Parsing

theorem Form.size_pos (form : Form) : 0 < form.size := by
  cases form <;> simp [Form.size]

theorem Form.sizeOfAll_append (forms forms' : List Form) :
    Form.sizeOfAll (forms ++ forms') = Form.sizeOfAll forms + Form.sizeOfAll forms' := by
  induction forms with
  | nil => simp [Form.sizeOfAll]
  | cons form forms ih => simp [Form.sizeOfAll, ih, Nat.add_assoc]

namespace Pattern

/-! ### Sequence patterns -/

/-- The positional binders are among the given forms. -/
def BindersFrom (items : List Form) (p : SequencePattern) : Prop := ∀ form ∈ p.items, form ∈ items

theorem takeRest_items {container : Form} {p : SequencePattern} {s : Symbol}
    {state : SequenceState × SequencePattern} (h : takeRest container p s = .ok state) :
    state.2.items = p.items := by
  obtain ⟨s', -, h⟩ := Parsing.bind_ok h
  cases h
  rfl

theorem takeItem_items {container : Form} {p : SequencePattern} {item : Form}
    {state : SequenceState × SequencePattern} (h : takeItem container p item = .ok state) :
    state.2.items = p.items ++ [item] := by
  unfold takeItem at h
  split at h
  · cases h
  · cases h; rfl

theorem sequenceItem_items {container : Form} {p : SequencePattern} {item : Form}
    {state : SequenceState × SequencePattern} (h : sequenceItem container p item = .ok state) :
    state.2.items = p.items ∨ state.2.items = p.items ++ [item] := by
  unfold sequenceItem at h
  split at h
  · split at h
    · cases h; exact Or.inl rfl
    · cases h
  · split at h
    · split at h
      · cases h
      · split at h
        · cases h; exact Or.inl rfl
        · exact Or.inl (takeRest_items h)
    · split at h
      · cases h
      · obtain ⟨_, -, h⟩ := Parsing.bind_ok h
        exact Or.inr (takeItem_items h)
  · exact Or.inr (takeItem_items h)
  · exact Or.inr (takeItem_items h)
  · cases h

/-- One step of the parser takes binders from the items that it has seen. -/
theorem sequenceStep_items {container : Form} {state state' : SequenceState × SequencePattern}
    {item : Form} (h : sequenceStep container state item = .ok state') :
    state'.2.items = state.2.items ∨ state'.2.items = state.2.items ++ [item] := by
  unfold sequenceStep at h
  dsimp only at h
  split at h
  · split at h
    · exact Or.inl (takeRest_items h)
    · cases h
  · split at h
    · split at h
      · cases h
      · obtain ⟨_, -, h⟩ := Parsing.bind_ok h
        cases h
        exact Or.inl rfl
    · cases h
  · exact sequenceItem_items h

/-- All binders of a sequence pattern are items of its vector. -/
theorem parseSequence_items {container : Form} {items : List Form} {p : SequencePattern}
    (h : parseSequence container items = .ok p) : BindersFrom items p := by
  obtain ⟨state, hfold, h⟩ := Parsing.bind_ok h
  have hitems : BindersFrom items state.2 := by
    refine Parsing.foldlM_inv (P := fun state => BindersFrom items state.2) ?_ ?_ hfold
    · intro state item state' hitem hstate hstep form hform
      rcases sequenceStep_items hstep with heq | heq <;> rw [heq] at hform
      · exact hstate form hform
      · rcases List.mem_append.mp hform with hform | hform
        · exact hstate form hform
        · rwa [List.mem_singleton.mp hform]
    · intro form hform
      cases hform
  unfold sequenceFinish at h
  split at h
  · cases h
  · cases h
  · cases h; exact hitems

/-- The size of the binders of a sequence pattern. -/
def sequenceSize (p : SequencePattern) : Nat := Form.sizeOfAll p.items + p.rest.toList.length

theorem takeRest_size {container : Form} {p : SequencePattern} {s : Symbol}
    {state : SequenceState × SequencePattern} (h : takeRest container p s = .ok state) :
    sequenceSize state.2 ≤ sequenceSize p + 1 := by
  obtain ⟨s', -, h⟩ := Parsing.bind_ok h
  cases h
  simp [sequenceSize]

theorem takeItem_size {container : Form} {p : SequencePattern} {item : Form}
    {state : SequenceState × SequencePattern} (h : takeItem container p item = .ok state) :
    sequenceSize state.2 ≤ sequenceSize p + item.size := by
  unfold takeItem at h
  split at h
  · cases h
  · cases h
    simp only [sequenceSize, Form.sizeOfAll_append, Form.sizeOfAll]
    omega

theorem sequenceItem_size {container : Form} {p : SequencePattern} {item : Form}
    {state : SequenceState × SequencePattern} (h : sequenceItem container p item = .ok state) :
    sequenceSize state.2 ≤ sequenceSize p + item.size := by
  have hpos := item.size_pos
  unfold sequenceItem at h
  split at h
  · split at h
    · cases h; exact Nat.le_add_right _ _
    · cases h
  · split at h
    · split at h
      · cases h
      · split at h
        · cases h; exact Nat.le_add_right _ _
        · exact Nat.le_trans (takeRest_size h) (Nat.add_le_add_left hpos _)
    · split at h
      · cases h
      · obtain ⟨_, -, h⟩ := Parsing.bind_ok h
        exact takeItem_size h
  · exact takeItem_size h
  · exact takeItem_size h
  · cases h

theorem sequenceStep_size {container : Form} {state state' : SequenceState × SequencePattern}
    {item : Form} (h : sequenceStep container state item = .ok state') :
    sequenceSize state'.2 ≤ sequenceSize state.2 + item.size := by
  unfold sequenceStep at h
  dsimp only at h
  split at h
  · split at h
    · exact Nat.le_trans (takeRest_size h) (Nat.add_le_add_left item.size_pos _)
    · cases h
  · split at h
    · split at h
      · cases h
      · obtain ⟨_, -, h⟩ := Parsing.bind_ok h
        cases h
        exact Nat.le_add_right _ _
    · cases h
  · exact sequenceItem_size h

/-- The binders of a sequence pattern are smaller than its vector, which is why expansion ends. -/
theorem parseSequence_size {container : Form} {items : List Form} {p : SequencePattern}
    (h : parseSequence container items = .ok p) : sequenceSize p ≤ Form.sizeOfAll items := by
  obtain ⟨state, hfold, h⟩ := Parsing.bind_ok h
  have hsize := Parsing.foldlM_size (fun _ _ _ hstep => sequenceStep_size hstep) hfold
  unfold sequenceFinish at h
  split at h
  · cases h
  · cases h
  · cases h
    simpa [sequenceSize, Form.sizeOfAll] using hsize

/-! ### Table patterns -/

/-- The binders are among the given forms, and so is the map of the defaults. -/
structure DraftFrom (items : List Form) (d : TableDraft) : Prop where
  binder : ∀ form, (d.state = .afterBinder form ∨ ∃ key, (form, key) ∈ d.pattern.entries) →
    form ∈ items
  defaults : ∀ entries form, d.defaults = some (entries, form) → ∃ span, .map entries span ∈ items
  noDefaults : d.pattern.defaults = []

theorem tableItem_from {items : List Form} {container : Form} {d d' : TableDraft} {item : Form}
    (hitem : item ∈ items) (hd : DraftFrom items d) (h : tableItem container d item = .ok d') :
    DraftFrom items d' := by
  have next {state : TableState} (hstate : ∀ form, state = .afterBinder form → form ∈ items) :
      DraftFrom items { d with state } := by
    refine ⟨fun form hform => ?_, hd.defaults, hd.noDefaults⟩
    rcases hform with hform | hform
    · exact hstate form hform
    · exact hd.binder form (Or.inr hform)
  unfold tableItem at h
  split at h
  · cases h; exact next (by rintro form ⟨⟩)
  · split at h
    · split at h
      · cases h
      · cases h; exact next (by rintro form ⟨⟩)
    · split at h
      · split at h
        · cases h
        · obtain ⟨_, -, h⟩ := Parsing.bind_ok h
          cases h; exact next (by rintro form ⟨⟩; exact hitem)
      · cases h; exact next (by rintro form ⟨⟩; exact hitem)
      · cases h; exact next (by rintro form ⟨⟩; exact hitem)
      · cases h

/-- One step of the parser takes entries and the map of defaults from the items. -/
theorem tableStep_from {items : List Form} {container : Form} {d d' : TableDraft} {item : Form}
    (hitem : item ∈ items) (hd : DraftFrom items d) (h : tableStep container d item = .ok d') :
    DraftFrom items d' := by
  unfold tableStep at h
  split at h
  · split at h
    · split at h
      · cases h
      · obtain ⟨_, -, h⟩ := Parsing.bind_ok h
        cases h
        exact ⟨fun form hform => hd.binder form (Or.inr (by simpa using hform)), hd.defaults,
          hd.noDefaults⟩
    · cases h
  · split at h
    · rename_i entries span
      cases h
      refine ⟨fun form hform => hd.binder form (Or.inr (by simpa using hform)), ?_, hd.noDefaults⟩
      rintro _ _ ⟨⟩
      exact ⟨span, hitem⟩
    · cases h
  · rename_i binder hstate
    unfold tableKey at h
    split at h
    · cases h
    · split at h
      · rename_i key _
        cases h
        refine ⟨fun form hform => ?_, hd.defaults, hd.noDefaults⟩
        have hmem : (∃ key, (form, key) ∈ d.pattern.entries) ∨ form = binder := by
          simpa [exists_or] using hform
        rcases hmem with hmem | rfl
        · exact hd.binder form (Or.inr hmem)
        · exact hd.binder form (Or.inl hstate)
      · cases h
  · exact tableItem_from hitem hd h

theorem defaultStep_from {keys : List Key} {container : Form} {entries : List (Form × Form)}
    {defaults defaults' : List (Key × Form)} {entry : Form × Form} (hentry : entry ∈ entries)
    (hdefaults : ∀ d ∈ defaults, ∃ key, (key, d.2) ∈ entries)
    (h : defaultStep keys container defaults entry = .ok defaults') :
    ∀ d ∈ defaults', ∃ key, (key, d.2) ∈ entries := by
  unfold defaultStep at h
  split at h
  · cases h
  · split at h
    · cases h
    · split at h
      · cases h
        intro d hd
        rcases List.mem_append.mp hd with hd | hd
        · exact hdefaults d hd
        · rw [List.mem_singleton.mp hd]
          exact ⟨entry.1, hentry⟩
      · cases h

/-- The binders of a table pattern stand in the vector, the defaults in a map in the vector. -/
structure TableFrom (items : List Form) (p : TablePattern) : Prop where
  binder : ∀ entry ∈ p.entries, entry.1 ∈ items
  default : ∀ d ∈ p.defaults, ∃ entries span key, .map entries span ∈ items ∧ (key, d.2) ∈ entries

/-- Binders and defaults of a table pattern stand in its vector. -/
theorem parseTable_from {container : Form} {items : List Form} {p : TablePattern}
    (h : parseTable container items = .ok p) : TableFrom items p := by
  obtain ⟨d, hfold, h⟩ := Parsing.bind_ok h
  have hd : DraftFrom items d := by
    refine Parsing.foldlM_inv (P := DraftFrom items) ?_ ?_ hfold
    · exact fun d item d' hitem hd hstep => tableStep_from hitem hd hstep
    · exact ⟨by simp, by simp, rfl⟩
  have hbinder : ∀ entry ∈ d.pattern.entries, entry.1 ∈ items :=
    fun entry hentry => hd.binder entry.1 (Or.inr ⟨entry.2, hentry⟩)
  unfold tableFinish at h
  split at h
  · cases h
  · cases h
  · cases h
  · split at h
    · cases h
      exact ⟨hbinder, by simp [hd.noDefaults]⟩
    · rename_i entries form hdefaults
      obtain ⟨defaults, hfold, h⟩ := Parsing.bind_ok h
      cases h
      refine ⟨hbinder, ?_⟩
      obtain ⟨span, hmap⟩ := hd.defaults entries form hdefaults
      have hfrom := Parsing.foldlM_inv
        (P := fun defaults => ∀ d ∈ defaults, ∃ key, (key, d.2) ∈ entries)
        (fun _ _ _ hentry hdefaults hstep => defaultStep_from hentry hdefaults hstep)
        (by simp) hfold
      intro default hdefault
      obtain ⟨key, hkey⟩ := hfrom default hdefault
      exact ⟨entries, span, key, hmap, hkey⟩

/-- The size of the binders of a table pattern under construction. -/
def draftSize (d : TableDraft) : Nat :=
  Form.sizeOfAll (d.pattern.entries.map (·.1)) +
    match d.state with
    | .afterBinder binder => binder.size
    | _ => 0

theorem tableItem_size {container : Form} {d d' : TableDraft} {item : Form}
    (h : tableItem container d item = .ok d') (hstate : d.state = .normal) :
    draftSize d' ≤ draftSize d + item.size := by
  unfold tableItem at h
  split at h
  · cases h; simp [draftSize, hstate]
  · split at h
    · split at h
      · cases h
      · cases h; simp [draftSize, hstate]
    · split at h
      · split at h
        · cases h
        · obtain ⟨_, -, h⟩ := Parsing.bind_ok h
          cases h; simp [draftSize, hstate]
      · cases h; simp [draftSize, hstate]
      · cases h; simp [draftSize, hstate]
      · cases h

theorem tableStep_size {container : Form} {d d' : TableDraft} {item : Form}
    (h : tableStep container d item = .ok d') : draftSize d' ≤ draftSize d + item.size := by
  unfold tableStep at h
  split at h
  · rename_i hstate
    split at h
    · split at h
      · cases h
      · obtain ⟨_, -, h⟩ := Parsing.bind_ok h
        cases h; simp [draftSize, hstate]
    · cases h
  · rename_i hstate
    split at h
    · cases h; simp [draftSize, hstate]
    · cases h
  · rename_i binder hstate
    unfold tableKey at h
    split at h
    · cases h
    · split at h
      · cases h
        simp [draftSize, hstate, Form.sizeOfAll_append, Form.sizeOfAll]
      · cases h
  · rename_i hstate
    exact tableItem_size h hstate

theorem parseTable_size {container : Form} {items : List Form} {p : TablePattern}
    (h : parseTable container items = .ok p) :
    Form.sizeOfAll (p.entries.map (·.1)) ≤ Form.sizeOfAll items := by
  obtain ⟨d, hfold, h⟩ := Parsing.bind_ok h
  have hsize := Parsing.foldlM_size (fun _ _ _ hstep => tableStep_size hstep) hfold
  have hentries : Form.sizeOfAll (d.pattern.entries.map (·.1)) ≤ Form.sizeOfAll items :=
    Nat.le_trans (Nat.le_add_right _ _) (by simpa [draftSize, Form.sizeOfAll] using hsize)
  unfold tableFinish at h
  split at h
  · cases h
  · cases h
  · cases h
  · split at h
    · cases h; exact hentries
    · obtain ⟨_, -, h⟩ := Parsing.bind_ok h
      cases h; exact hentries

/-! ### Any pattern -/

theorem eq_symbol_of_ofForm_name {form : Form} {s : Symbol} (h : ofForm form = .ok (.name s)) :
    form = .symbol s := by
  unfold ofForm at h
  split at h
  · split at h
    · cases h
    · obtain ⟨s', hs, h⟩ := Parsing.bind_ok h
      cases h
      unfold checkName at hs
      split at hs
      · cases hs; rfl
      · cases hs
  · split at h <;> (obtain ⟨_, -, h⟩ := Parsing.bind_ok h; cases h)
  · obtain ⟨_, -, h⟩ := Parsing.bind_ok h
    cases h
  · cases h

/-- A name in a binding position has passed the check of names. -/
theorem isBindable_of_ofForm_name {form : Form} {s : Symbol} (h : ofForm form = .ok (.name s)) :
    isBindable s.name = true := by
  rw [eq_symbol_of_ofForm_name h, ofForm] at h
  split at h
  · cases h
  · obtain ⟨s', hs, h⟩ := Parsing.bind_ok h
    unfold checkName at hs
    split at hs
    · assumption
    · cases hs

theorem parse_of_ofForm_sequence {form : Form} {p : SequencePattern}
    (h : ofForm form = .ok (.sequence p)) :
    ∃ items span, form = .vector items span ∧ parseSequence form items = .ok p := by
  unfold ofForm at h
  split at h
  · split at h
    · cases h
    · obtain ⟨_, -, h⟩ := Parsing.bind_ok h
      cases h
  · split at h
    · obtain ⟨_, -, h⟩ := Parsing.bind_ok h
      cases h
    · obtain ⟨p', hp, h⟩ := Parsing.bind_ok h
      cases h
      exact ⟨_, _, rfl, hp⟩
  · obtain ⟨p', hp, h⟩ := Parsing.bind_ok h
    cases h
    exact ⟨_, _, rfl, hp⟩
  · cases h

theorem items_of_ofForm_sequence {form : Form} {p : SequencePattern}
    (h : ofForm form = .ok (.sequence p)) :
    ∃ items span, form = .vector items span ∧ BindersFrom items p := by
  obtain ⟨items, span, hform, hparse⟩ := parse_of_ofForm_sequence h
  exact ⟨items, span, hform, parseSequence_items hparse⟩

theorem size_of_ofForm_sequence {form : Form} {p : SequencePattern}
    (h : ofForm form = .ok (.sequence p)) : sequenceSize p < form.size := by
  obtain ⟨items, span, rfl, hparse⟩ := parse_of_ofForm_sequence h
  exact Nat.lt_succ_of_le (parseSequence_size hparse)

theorem parse_of_ofForm_table {form : Form} {p : TablePattern}
    (h : ofForm form = .ok (.table p)) :
    ∃ first items span, form = .vector (first :: items) span ∧ parseTable form items = .ok p := by
  unfold ofForm at h
  split at h
  · split at h
    · cases h
    · obtain ⟨_, -, h⟩ := Parsing.bind_ok h
      cases h
  · split at h
    · obtain ⟨p', hp, h⟩ := Parsing.bind_ok h
      cases h
      exact ⟨_, _, _, rfl, hp⟩
    · obtain ⟨_, -, h⟩ := Parsing.bind_ok h
      cases h
  · obtain ⟨_, -, h⟩ := Parsing.bind_ok h
    cases h
  · cases h

theorem items_of_ofForm_table {form : Form} {p : TablePattern}
    (h : ofForm form = .ok (.table p)) :
    ∃ first items span, form = .vector (first :: items) span ∧ TableFrom items p := by
  obtain ⟨first, items, span, hform, hparse⟩ := parse_of_ofForm_table h
  exact ⟨first, items, span, hform, parseTable_from hparse⟩

theorem size_of_ofForm_table {form : Form} {p : TablePattern} (h : ofForm form = .ok (.table p)) :
    Form.sizeOfAll (p.entries.map (·.1)) < form.size := by
  obtain ⟨first, items, span, rfl, hparse⟩ := parse_of_ofForm_table h
  have hle := parseTable_size hparse
  simp only [Form.size, Form.sizeOfAll]
  omega

/-! ### Faults -/

open Parsing

theorem checkName_faults (s : Symbol) (container : Form) :
    Faults (· = .pattern) (checkName s container) := by
  unfold checkName
  split
  · exact .ok _
  · exact .error rfl

theorem takeItem_faults (container : Form) (p : SequencePattern) (item : Form) :
    Faults (· = .pattern) (takeItem container p item) := by
  unfold takeItem
  split
  · exact .error rfl
  · exact .ok _

theorem sequenceItem_faults (container : Form) (p : SequencePattern) (item : Form) :
    Faults (· = .pattern) (sequenceItem container p item) := by
  unfold sequenceItem
  split
  · split
    · exact .ok _
    · exact .error rfl
  · split
    · split
      · exact .error rfl
      · split
        · exact .ok _
        · exact .bind (checkName_faults _ _) fun _ => .ok _
    · split
      · exact .error rfl
      · exact .bind (checkName_faults _ _) fun _ => takeItem_faults _ _ _
  · exact takeItem_faults _ _ _
  · exact takeItem_faults _ _ _
  · exact .error rfl

theorem parseSequence_faults (container : Form) (items : List Form) :
    Faults (· = .pattern) (parseSequence container items) := by
  refine .bind (.foldlM (fun state item => ?_) items _) fun state => ?_
  · unfold sequenceStep
    dsimp only
    split
    · split
      · exact .bind (checkName_faults _ _) fun _ => .ok _
      · exact .error rfl
    · split
      · split
        · exact .error rfl
        · exact .bind (checkName_faults _ _) fun _ => .ok _
      · exact .error rfl
    · exact sequenceItem_faults _ _ _
  · unfold sequenceFinish
    split
    · exact .error rfl
    · exact .error rfl
    · exact .ok _

/-- Table patterns have faults of patterns, and those of their `:or` clauses. -/
def OfTable (kind : FaultKind) : Prop := kind = .pattern ∨ kind = .defaultClause

theorem tableStep_faults (container : Form) (d : TableDraft) (item : Form) :
    Faults OfTable (tableStep container d item) := by
  have hname (s : Symbol) : Faults OfTable (checkName s container) :=
    (checkName_faults s container).imp fun _ => .inl
  unfold tableStep
  split
  · split
    · split
      · exact .error (.inl rfl)
      · exact .bind (hname _) fun _ => .ok _
    · exact .error (.inl rfl)
  · split
    · exact .ok _
    · exact .error (.inr rfl)
  · unfold tableKey
    split
    · exact .error (.inl rfl)
    · split
      · exact .ok _
      · exact .error (.inl rfl)
  · unfold tableItem
    split
    · exact .ok _
    · split
      · split
        · exact .error (.inr rfl)
        · exact .ok _
      · split
        · split
          · exact .error (.inl rfl)
          · exact .bind (hname _) fun _ => .ok _
        · exact .ok _
        · exact .ok _
        · exact .error (.inl rfl)

theorem defaultStep_faults (keys : List Key) (container : Form) (defaults : List (Key × Form))
    (entry : Form × Form) :
    Faults (· = .defaultClause) (defaultStep keys container defaults entry) := by
  unfold defaultStep
  split
  · exact .error rfl
  · split
    · exact .error rfl
    · split
      · exact .ok _
      · exact .error rfl

theorem parseTable_faults (container : Form) (items : List Form) :
    Faults OfTable (parseTable container items) := by
  refine .bind (.foldlM (tableStep_faults container) items _) fun d => ?_
  unfold tableFinish
  split
  · exact .error (.inl rfl)
  · exact .error (.inl rfl)
  · exact .error (.inr rfl)
  · split
    · exact .ok _
    · exact .bind ((Faults.foldlM (defaultStep_faults _ _) _ _).imp fun _ => .inr) fun _ => .ok _

/-- A form in a binding position has a fault of a pattern, or is of no shape that binds. -/
theorem ofForm_faults (form : Form) :
    Faults (fun kind => OfTable kind ∨ kind = .unsupportedShape) (ofForm form) := by
  have hsequence (items : List Form) :
      Faults (fun kind => OfTable kind ∨ kind = .unsupportedShape) (parseSequence form items) :=
    (parseSequence_faults form items).imp fun _ h => .inl (.inl h)
  unfold ofForm
  split
  · split
    · exact .error (.inl (.inl rfl))
    · exact .bind ((checkName_faults _ _).imp fun _ h => .inl (.inl h)) fun _ => .ok _
  · split
    · exact .bind ((parseTable_faults _ _).imp fun _ => .inl) fun _ => .ok _
    · exact .bind (hsequence _) fun _ => .ok _
  · exact .bind (hsequence _) fun _ => .ok _
  · exact .error (.inr rfl)

/-- Patterns have faults of their own. -/
theorem ofForm_avoids {kind : FaultKind} (hkind : ¬(OfTable kind ∨ kind = .unsupportedShape))
    (form : Form) : Faults (· ≠ kind) (ofForm form) :=
  (ofForm_faults form).imp fun _ h heq => hkind (heq ▸ h)

end Pattern

end TailLisp
