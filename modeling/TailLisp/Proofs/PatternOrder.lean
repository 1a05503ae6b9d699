import TailLisp.Proofs.Jumps
import TailLisp.Proofs.PatternMeaning

/-!
# TailLisp.Proofs.PatternOrder

**The expansion of a pattern is a pre-order walk.** `Lowering.expandWork` keeps a list of work: it
takes the first binder, puts its parts in front of the others and goes on, as long as there is fuel.
`Lowering.flatten` is the recursion that this stands for. It needs no list of work and no fuel: a
compound pattern binds its holder, and then expands its parts one after the other.

Both are steps of a compilation, with effects: names are bound, temporaries are drawn, defaults are
lowered, and any of these may end in a fault. They are the same step
(`Lowering.expandWith_eq_flatten`), so all of this happens in the same order, with the same context
at the end and the same first fault.

The order is also what makes the bindings work as a row of assignments: every binding but the first
takes its value from the target of an earlier one (`Lowering.Rooted`).
-/

namespace TailLisp

/-- Two ways to go on after a step are the same if they agree on what the step can yield. -/
theorem Compile.bind_congr {α β : Type} {P : α → Prop} {m : Compile α} {f g : α → Compile β}
    (hm : Yields P m) (h : ∀ a, P a → f a = g a) : m >>= f = m >>= g := by
  funext c
  show EStateM.bind m f c = EStateM.bind m g c
  unfold EStateM.bind
  cases hstep : m c with
  | ok a c' => exact congrFun (h a (hm hstep)) c'
  | error fault c' => rfl

theorem Form.size_le_of_mem {form : Form} {forms : List Form} (h : form ∈ forms) :
    form.size ≤ Form.sizeOfAll forms := by
  induction h with
  | head forms => simp [Form.sizeOfAll]
  | tail _ _ ih => simp only [Form.sizeOfAll]; omega

namespace Lowering

open Compile

/-- The recursion on a sequence pattern goes to smaller forms. -/
theorem size_lt_of_sequencePart {form : Form} {p : SequencePattern} {holder : String} {part : Work}
    (hpattern : Pattern.ofForm form = .ok (.sequence p)) (hpart : part ∈ sequenceParts p holder) :
    part.1.size < form.size := by
  have hle := Form.size_le_of_mem (List.mem_map_of_mem (f := (·.1)) hpart)
  have hlt := Pattern.size_of_ofForm_sequence hpattern
  rw [sizeOfAll_sequenceParts] at hle
  omega

theorem size_lt_of_entry {form : Form} {p : TablePattern} {entry : Form × Key}
    (hpattern : Pattern.ofForm form = .ok (.table p)) (hentry : entry ∈ p.entries) :
    entry.1.size < form.size :=
  Nat.lt_of_le_of_lt (Form.size_le_of_mem (List.mem_map_of_mem (f := (·.1)) hentry))
    (Pattern.size_of_ofForm_table hpattern)

section

variable (expr : Form → Compile Expr) (bind : String → Compile String)

/-- The values that the entries of a table pattern take. All of them are made, and so all defaults
are lowered, before any of the binders is expanded. -/
def entryValues (p : TablePattern) (holder : String) :
    Compile (List ({ entry // entry ∈ p.entries } × Expr)) :=
  p.entries.attach.mapM fun entry => do
    let part ← tablePart expr p holder entry.1
    return (entry, part.2)

/-- The bindings of a pattern against a value, by recursion on the pattern: a name is one binding,
and a compound pattern is the binding of its holder with the bindings of its parts behind it. -/
def flatten (form : Form) (value : Expr) : Compile (List Binding) :=
  match _hpattern : Pattern.ofForm form with
  | .error fault => Compile.fail fault
  | .ok (.name s) => do
    let target ← bind (Name.spell s.name)
    return [⟨target, value, form.span?⟩]
  | .ok (.sequence p) => do
    let target ← holder bind p.whole
    let parts ← (sequenceParts p target).attach.mapM fun part => flatten part.1.1 part.1.2
    return ⟨target, .callOf "seq" [value], form.span?⟩ :: parts.flatten
  | .ok (.table p) => do
    let target ← holder bind p.whole
    let values ← entryValues expr p target
    let parts ← values.mapM fun entry => flatten entry.1.1.1 entry.2
    return ⟨target, value, form.span?⟩ :: parts.flatten
termination_by form.size
decreasing_by
  · exact size_lt_of_sequencePart ‹_› part.2
  · exact size_lt_of_entry ‹_› entry.1.2

/-- The bindings of all the work, one after the other. -/
def flattenAll (work : List Work) : Compile (List Binding) := do
  let parts ← work.mapM fun part => flatten expr bind part.1 part.2
  return parts.flatten

end

variable {expr : Form → Compile Expr} {bind : String → Compile String}

theorem flattenAll_nil : flattenAll expr bind [] = pure [] := by
  simp [flattenAll]

theorem flattenAll_cons (part : Work) (work : List Work) :
    flattenAll expr bind (part :: work) = (do
      let bindings ← flatten expr bind part.1 part.2
      let rest ← flattenAll expr bind work
      return bindings ++ rest) := by
  simp [flattenAll]

/-- Lists of work are flattened one after the other. -/
theorem flattenAll_append (work work' : List Work) :
    flattenAll expr bind (work ++ work') = (do
      let bindings ← flattenAll expr bind work
      let rest ← flattenAll expr bind work'
      return bindings ++ rest) := by
  simp [flattenAll, List.mapM_append]

/-! ### The recursion, without its termination -/

/-- The parts of a table pattern are its binders with the values that they take. -/
theorem mapM_tablePart {β : Type} (p : TablePattern) (target : String)
    (next : List Work → Compile β) :
    (p.entries.mapM (tablePart expr p target) >>= next) = (do
      let values ← entryValues expr p target
      next (values.map fun entry => (entry.1.1.1, entry.2))) := by
  have hpart (entry : Form × Key) : tablePart expr p target entry = (do
      let part ← tablePart expr p target entry
      return (entry.1, part.2)) := by
    unfold tablePart
    split <;> simp
  have hall (entries : List { entry // entry ∈ p.entries }) (next : List Work → Compile β) :
      ((entries.map (·.1)).mapM (tablePart expr p target) >>= next) = (do
        let values ← entries.mapM fun entry => do
          let part ← tablePart expr p target entry.1
          return (entry, part.2)
        next (values.map fun entry => (entry.1.1.1, entry.2))) := by
    induction entries generalizing next with
    | nil => simp
    | cons entry entries ih =>
      simp only [List.map_cons, List.mapM_cons, bind_assoc, pure_bind]
      rw [hpart entry.1]
      simp only [bind_assoc, pure_bind, ih]
  rw [entryValues, ← hall, List.attach_map_subtype_val]

/-- One level of a pattern: the holder is bound, then the parts are flattened in order. -/
theorem flatten_eq (form : Form) (value : Expr) :
    flatten expr bind form value = (do
      match ← Compile.lift (Pattern.ofForm form) with
      | .name s =>
        let target ← bind (Name.spell s.name)
        return [⟨target, value, form.span?⟩]
      | .sequence p =>
        let target ← holder bind p.whole
        let rest ← flattenAll expr bind (sequenceParts p target)
        return ⟨target, .callOf "seq" [value], form.span?⟩ :: rest
      | .table p =>
        let target ← holder bind p.whole
        let parts ← p.entries.mapM (tablePart expr p target)
        let rest ← flattenAll expr bind parts
        return ⟨target, value, form.span?⟩ :: rest) := by
  have hattach (work : List Work) :
      (work.attach.mapM fun part => flatten expr bind part.1.1 part.1.2) =
        work.mapM fun part => flatten expr bind part.1 part.2 := by
    conv => rhs; rw [← List.attach_map_subtype_val work, List.mapM_map]
    rfl
  rw [flatten]
  split
  · next fault hpattern => rw [hpattern]; rfl
  · next s hpattern => rw [hpattern]; rfl
  · next p hpattern =>
    rw [hpattern]
    simp [Compile.lift, flattenAll, hattach]
  · next p hpattern =>
    rw [hpattern]
    simp only [Compile.lift, pure_bind, mapM_tablePart]
    simp [flattenAll, Function.comp_def]

/-! ### The list of work -/

/-- The parts of a table pattern have its binders. -/
theorem mapM_tablePart_yields (p : TablePattern) (target : String) (entries : List (Form × Key)) :
    Yields (fun parts => parts.map (·.1) = entries.map (·.1))
      (entries.mapM (tablePart expr p target)) := by
  induction entries with
  | nil => exact .pure rfl
  | cons entry entries ih =>
    have hpart : Yields (fun part => part.1 = entry.1) (tablePart expr p target entry) := by
      unfold tablePart
      split
      · exact .pure rfl
      · exact .after fun _ => .pure rfl
    rw [List.mapM_cons]
    refine .bind hpart fun part hpart => .bind ih fun parts hparts => .pure ?_
    rw [List.map_cons, List.map_cons, hpart, hparts]

/-- With enough fuel for all the forms in it, a list of work is expanded as the recursion does it.
The induction is on the fuel; the parts of a binder have less forms in them than the binder. -/
theorem expandWork_eq_flattenAll {fuel : Nat} {work : List Work}
    (hsize : Form.sizeOfAll (work.map (·.1)) ≤ fuel) :
    expandWork expr bind fuel work = flattenAll expr bind work := by
  induction fuel generalizing work with
  | zero =>
    cases work with
    | nil => rw [flattenAll_nil]; rfl
    | cons part work =>
      have hpos := part.1.size_pos
      simp only [List.map_cons, Form.sizeOfAll] at hsize
      omega
  | succ fuel ih =>
    cases work with
    | nil => rw [flattenAll_nil]; rfl
    | cons part work =>
      obtain ⟨form, value⟩ := part
      have hpos := form.size_pos
      simp only [List.map_cons, Form.sizeOfAll] at hsize
      rw [flattenAll_cons, flatten_eq, expandWork]
      cases hpattern : Pattern.ofForm form with
      | error fault => rfl
      | ok pattern =>
        simp only [Compile.lift, pure_bind]
        cases pattern with
        | name s =>
          rw [ih (by omega)]
          simp
        | sequence p =>
          have hparts := Pattern.size_of_ofForm_sequence hpattern
          have hrest (target : String) :
              expandWork expr bind fuel (sequenceParts p target ++ work) =
                flattenAll expr bind (sequenceParts p target ++ work) := by
            refine ih ?_
            rw [List.map_append, Form.sizeOfAll_append, sizeOfAll_sequenceParts]
            omega
          simp [hrest, flattenAll_append]
        | table p =>
          have hparts := Pattern.size_of_ofForm_table hpattern
          simp only [bind_assoc, pure_bind]
          refine Compile.bind_congr (.anything _) fun target _ => ?_
          refine Compile.bind_congr (mapM_tablePart_yields p target p.entries)
            fun parts hbinders => ?_
          have hrest : expandWork expr bind fuel (parts ++ work) =
              flattenAll expr bind (parts ++ work) := by
            refine ih ?_
            rw [List.map_append, Form.sizeOfAll_append, hbinders]
            omega
          simp [hrest, flattenAll_append]

/-! ### Where the values come from -/

/-- The value is a part of what `holder` holds: by position, as the rest or by key. It may be passed
on through `seq`. -/
inductive TakesFrom (holder : String) : Expr → Prop
  | position (i : Nat) : TakesFrom holder (.callOf "nth" [.load holder, .constant (.int i)])
  | rest (n : Nat) : TakesFrom holder (.callOf "subseq" [.load holder, .constant (.int n)])
  | key (key : Key) : TakesFrom holder (.callOf "lookup" [.load holder, key.expr])
  | keyOr (key : Key) (default : Expr) :
      TakesFrom holder (.callOf "lookup" [.load holder, key.expr, .thunk default none])
  | seq {value : Expr} (h : TakesFrom holder value) : TakesFrom holder (.callOf "seq" [value])

/-- The first binding takes the value itself, and every other one takes its value from the target of
an earlier binding. -/
def Rooted (value : Expr) (bindings : List Binding) : Prop :=
  ∀ before b behind, bindings = before ++ b :: behind →
    (before = [] ∧ (b.value = value ∨ b.value = .callOf "seq" [value])) ∨
      ∃ earlier ∈ before, TakesFrom earlier.target b.value

/-- Rows of bindings that take what they bind from `holder`, one after the other. -/
theorem takes_flatten {holder : String} {rows : List (List Binding)}
    (hrows : ∀ row ∈ rows, ∃ value, TakesFrom holder value ∧ Rooted value row)
    {before behind : List Binding} {b : Binding} (h : rows.flatten = before ++ b :: behind) :
    TakesFrom holder b.value ∨ ∃ earlier ∈ before, TakesFrom earlier.target b.value := by
  induction rows generalizing before with
  | nil => simp at h
  | cons row rows ih =>
    obtain ⟨⟨value, hvalue, hrow⟩, hrows⟩ := List.forall_mem_cons.mp hrows
    rw [List.flatten_cons] at h
    rcases List.append_eq_append_iff.mp h with ⟨middle, rfl, hmiddle⟩ | ⟨middle, hsplit, hmiddle⟩
    · rcases ih hrows hmiddle with hb | ⟨earlier, hearlier, hb⟩
      · exact .inl hb
      · exact .inr ⟨earlier, List.mem_append_right _ hearlier, hb⟩
    · cases middle with
      | nil =>
        have hfirst : rows.flatten = [] ++ b :: behind := hmiddle.symm
        rcases ih hrows hfirst with hb | ⟨earlier, hearlier, -⟩
        · exact .inl hb
        · cases hearlier
      | cons first middle =>
        cases hmiddle
        rcases hrow before b middle hsplit with ⟨-, hb | hb⟩ | hb
        · exact .inl (hb ▸ hvalue)
        · exact .inl (hb ▸ .seq hvalue)
        · exact .inr hb

theorem rooted_single {value : Expr} {b : Binding} (hb : b.value = value) : Rooted value [b] := by
  intro before b' behind h
  rcases List.cons_eq_append_iff.mp h with ⟨rfl, h⟩ | ⟨before', -, h⟩
  · cases h
    exact .inl ⟨rfl, .inl hb⟩
  · simp at h

theorem rooted_cons {value : Expr} {b : Binding} {rows : List (List Binding)}
    (hb : b.value = value ∨ b.value = .callOf "seq" [value])
    (hrows : ∀ row ∈ rows, ∃ value, TakesFrom b.target value ∧ Rooted value row) :
    Rooted value (b :: rows.flatten) := by
  intro before b' behind h
  rcases List.cons_eq_append_iff.mp h with ⟨rfl, h⟩ | ⟨before', rfl, hrest⟩
  · cases h
    exact .inl ⟨rfl, hb⟩
  · rcases takes_flatten hrows hrest with hb' | ⟨earlier, hearlier, hb'⟩
    · exact .inr ⟨b, List.mem_cons_self, hb'⟩
    · exact .inr ⟨earlier, List.mem_cons_of_mem _ hearlier, hb'⟩

/-- Every part of a sequence pattern is taken from its holder. -/
theorem takesFrom_sequenceParts {p : SequencePattern} {holder : String} {part : Work}
    (h : part ∈ sequenceParts p holder) : TakesFrom holder part.2 := by
  rcases List.mem_append.mp h with hpart | hpart
  · obtain ⟨⟨item, i⟩, -, rfl⟩ := List.mem_map.mp hpart
    exact .position i
  · obtain ⟨s, -, rfl⟩ := Option.map_eq_some_iff.mp (Option.mem_toList.mp hpart)
    exact .rest _

/-- Every entry of a table pattern is taken from its holder. -/
theorem entryValues_takes (p : TablePattern) (holder : String) :
    Yields (fun values => ∀ entry ∈ values, TakesFrom holder entry.2)
      (entryValues expr p holder) := by
  refine .mapM fun entry _ => ?_
  have hpart : Yields (fun part => TakesFrom holder part.2) (tablePart expr p holder entry.1) := by
    unfold tablePart
    split
    · exact .pure (.key _)
    · exact .after fun _ => .pure (.keyOr _ _)
  exact .bind hpart fun part hpart => .pure hpart

/-- Every value in a flattened pattern is the given one or comes from a holder that was bound
before. -/
theorem flatten_rooted (form : Form) (value : Expr) :
    Yields (Rooted value) (flatten expr bind form value) := by
  rw [flatten]
  split
  · exact .fail _
  · exact .after fun target => .pure (rooted_single rfl)
  · next p hpattern =>
    refine .after fun target => .bind (.mapM fun part _ => ?_) fun rows hrows =>
      .pure (rooted_cons (.inr rfl) hrows)
    have hpart := flatten_rooted part.1.1 part.1.2
    exact fun c row c' hrow => ⟨part.1.2, takesFrom_sequenceParts part.2, hpart hrow⟩
  · next p hpattern =>
    refine .after fun target => .bind (entryValues_takes p target) fun values hvalues =>
      .bind (.mapM fun entry hentry => ?_) fun rows hrows =>
        .pure (rooted_cons (.inl rfl) hrows)
    have hentry' := flatten_rooted entry.1.1.1 entry.2
    exact fun c row c' hrow => ⟨entry.2, hvalues entry hentry, hentry' hrow⟩
termination_by form.size
decreasing_by
  · exact size_lt_of_sequencePart ‹_› part.2
  · exact size_lt_of_entry ‹_› entry.1.2

/-- **The expansion of a pattern is the given bindings and, behind them, those of the pre-order
walk**, as a step of a compilation: for every way to lower defaults and to bind names, both have the
same effects in the same order, the same result or first fault, and leave the same context. Every
binding but the first takes its value from the target of an earlier one. -/
theorem expandWith_eq_flatten (expr : Form → Compile Expr) (bind : String → Compile String)
    (pattern : Form) (value : Expr) (given : List Binding) :
    expandWith expr bind pattern value given = (do
      let bindings ← flatten expr bind pattern value
      Compile.report (.expandedPattern pattern.span? bindings.length)
      return given ++ bindings) ∧
    Yields (fun all => ∃ bindings, all = given ++ bindings ∧ Rooted value bindings)
      (expandWith expr bind pattern value given) := by
  have hwork : expandWork expr bind pattern.size [(pattern, value)] =
      flatten expr bind pattern value := by
    rw [expandWork_eq_flattenAll (by simp [Form.sizeOfAll]), flattenAll_cons, flattenAll_nil]
    simp
  have hexpand : expandWith expr bind pattern value given = (do
      let bindings ← flatten expr bind pattern value
      Compile.report (.expandedPattern pattern.span? bindings.length)
      return given ++ bindings) := by
    rw [expandWith, hwork]
  refine ⟨hexpand, ?_⟩
  rw [hexpand]
  exact .bind (flatten_rooted pattern value) fun bindings hrooted =>
    .after fun _ => .pure ⟨bindings, rfl, hrooted⟩

end Lowering

end TailLisp
