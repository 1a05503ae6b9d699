import TailLisp.Tail

/-!
# TailLisp.Proofs.Occurrence

**Where the self-calls of a body stand.** `Occurs` says, form by form, which self-calls a body has
and which of them are in tail position; an `Occurrence` carries the way that leads to it, so that
source order is the lexicographic order of the ways (a call comes before what stands inside it).
`Special.position` is the table of the special forms: which of their arguments belong to the body
and which of those inherit the tail position.

The walk of `TailLisp.Tail` is exact for this relation (`Verdict.ofBody_exact`). Its proof has two
steps. Every walker over the arguments of a form is one and the same walk by a table
(`Verdict.walk`); and a walk by a table meets exactly the occurrences, in order, until one is not
in tail position (`Found`).
-/

namespace TailLisp

theorem Form.eq_cons_of_head? {items : List Form} {span : Option Span} {s : Symbol}
    (h : (Form.list items span).head? = some s) : ∃ args, items = .symbol s :: args := by
  unfold head? at h
  split at h
  · rename_i hlist
    cases hlist
    cases h
    exact ⟨_, rfl⟩
  · cases h

/-- Is the argument at index `i` of `n` arguments of a special form a part of the body that is
looked at (`some`), and is it in tail position then, where the form itself is iff `isTail`? -/
def Special.position (isTail : Bool) (n i : Nat) : Special → Option Bool
  | .doForm | .andForm | .orForm => some (isTail && i + 1 == n)
  | .ifForm => some (isTail && i != 0)
  | .condForm => some (isTail && i % 2 == 1)
  | .caseForm =>
    -- a selector, then keys and results in turn, then perhaps a default
    if i = 0 then some false else if i % 2 = 0 ∨ i + 1 = n then some isTail else none
  | .letForm => some (isTail && i != 0 && i + 1 == n)
  | .loopForm => if i = 0 then some false else none
  | .fnForm | .defnForm | .quoteForm => none
  | .notForm | .recurForm | .defForm => some false

/-- A self-call at a place of a body. -/
structure Occurrence where
  /-- The way to it: at each step the index of an item. -/
  path : List Nat
  call : SelfCall
  isTail : Bool

namespace Occurrence

/-- The occurrence, seen from a form that holds the form it lies in as its item `i`. -/
def under (i : Nat) (o : Occurrence) : Occurrence := { o with path := i :: o.path }

@[simp] theorem under_path (i : Nat) (o : Occurrence) : (o.under i).path = i :: o.path := rfl
@[simp] theorem under_call (i : Nat) (o : Occurrence) : (o.under i).call = o.call := rfl
@[simp] theorem under_isTail (i : Nat) (o : Occurrence) : (o.under i).isTail = o.isTail := rfl

end Occurrence

/-- The self-call `o` occurs in `form`, which is itself in tail position iff `isTail`. A self-call
is a list headed by `self`. -/
inductive Occurs (self : String) : Bool → Form → Occurrence → Prop
  /-- The form is a self-call itself. -/
  | call {isTail s args span} (hself : s.name = self) :
      Occurs self isTail (.list (.symbol s :: args) span)
        ⟨[], ⟨.list (.symbol s :: args) span, args⟩, isTail⟩
  /-- Arguments of a self-call are evaluated before the jump. -/
  | argument {isTail s args span i arg o} (hself : s.name = self) (hi : args[i]? = some arg)
      (ho : Occurs self false arg o) :
      Occurs self isTail (.list (.symbol s :: args) span) (o.under (i + 1))
  /-- Arguments of a special form have the position that the table gives them. -/
  | special {isTail s args span sp i arg t o} (hself : s.name ≠ self)
      (hsp : Special.ofName? s.name = some sp) (hi : args[i]? = some arg)
      (ht : sp.position isTail args.length i = some t) (ho : Occurs self t arg o) :
      Occurs self isTail (.list (.symbol s :: args) span) (o.under (i + 1))
  /-- Arguments of a call are evaluated before the call. -/
  | operand {isTail s args span i arg o} (hself : s.name ≠ self)
      (hsp : Special.ofName? s.name = none) (hi : args[i]? = some arg)
      (ho : Occurs self false arg o) :
      Occurs self isTail (.list (.symbol s :: args) span) (o.under (i + 1))
  /-- So are the callee and the arguments where the callee is no symbol. -/
  | application {isTail items span i sub o} (hhead : (Form.list items span).head? = none)
      (hi : items[i]? = some sub) (ho : Occurs self false sub o) :
      Occurs self isTail (.list items span) (o.under i)
  | item {isTail items span i sub o} (hi : items[i]? = some sub)
      (ho : Occurs self false sub o) :
      Occurs self isTail (.vector items span) (o.under i)
  | key {isTail entries span i k v o} (hi : entries[i]? = some (k, v))
      (ho : Occurs self false k o) :
      Occurs self isTail (.map entries span) (o.under (2 * i))
  | value {isTail entries span i k v o} (hi : entries[i]? = some (k, v))
      (ho : Occurs self false v o) :
      Occurs self isTail (.map entries span) (o.under (2 * i + 1))

/-- The self-call `o` occurs in a body, whose last form is in tail position. -/
def OccursInBody (self : String) (body : List Form) (o : Occurrence) : Prop :=
  ∃ i form o', body[i]? = some form ∧ Occurs self (i + 1 == body.length) form o'
    ∧ o = o'.under i

/-! ### Rows of occurrences -/

/-- The row holds exactly the occurrences with the property `P`, in source order. -/
structure Enumerates (os : List Occurrence) (P : Occurrence → Prop) : Prop where
  sorted : os.Pairwise fun a b => a.path < b.path
  mem_iff : ∀ o, o ∈ os ↔ P o

namespace Enumerates

variable {P Q : Occurrence → Prop} {os os' : List Occurrence}

theorem congr (h : Enumerates os P) (hPQ : ∀ o, P o ↔ Q o) : Enumerates os Q :=
  ⟨h.sorted, fun o => (h.mem_iff o).trans (hPQ o)⟩

theorem nil (h : ∀ o, ¬ P o) : Enumerates [] P :=
  ⟨List.Pairwise.nil, fun o => iff_of_false List.not_mem_nil (h o)⟩

theorem singleton (o : Occurrence) : Enumerates [o] (fun o' => o' = o) :=
  ⟨List.pairwise_singleton _ o, fun _ => List.mem_singleton⟩

/-- Inside of an item, everything lies on the way through that item. -/
theorem under (h : Enumerates os P) (i : Nat) :
    Enumerates (os.map (Occurrence.under i)) fun o => ∃ o', P o' ∧ o = o'.under i where
  sorted := by
    rw [List.pairwise_map]
    exact h.sorted.imp fun hab => List.cons_lt_cons_iff.mpr (Or.inr ⟨rfl, hab⟩)
  mem_iff o := by simp only [List.mem_map, h.mem_iff, eq_comm]

theorem append (h : Enumerates os P) (h' : Enumerates os' Q)
    (hlt : ∀ a b, P a → Q b → a.path < b.path) :
    Enumerates (os ++ os') fun o => P o ∨ Q o where
  sorted := List.pairwise_append.mpr ⟨h.sorted, h'.sorted, fun a ha b hb =>
    hlt a b ((h.mem_iff a).mp ha) ((h'.mem_iff b).mp hb)⟩
  mem_iff o := by rw [List.mem_append, h.mem_iff, h'.mem_iff]

end Enumerates

/-- What lies in the forms that a table says to look at, given what lies in one form; the ways
begin with the indices from `d` on. -/
def InRow (P : Bool → Form → Occurrence → Prop) (visit : Nat → Option Bool) (d k : Nat)
    (forms : List Form) (o : Occurrence) : Prop :=
  ∃ i form t o', forms[i]? = some form ∧ visit (k + i) = some t ∧ P t form o'
    ∧ o = o'.under (d + i)

theorem not_inRow_nil {P : Bool → Form → Occurrence → Prop} {visit : Nat → Option Bool}
    {d k : Nat} (o : Occurrence) : ¬ InRow P visit d k [] o := by
  rintro ⟨i, form, t, o', hi, -⟩
  simp at hi

/-- An occurrence in a row is in its first form or in the others. -/
theorem inRow_cons {P : Bool → Form → Occurrence → Prop} {visit : Nat → Option Bool}
    {d k : Nat} {form : Form} {forms : List Form} {o : Occurrence} :
    InRow P visit d k (form :: forms) o ↔
      (∃ o', (∃ t, visit k = some t ∧ P t form o') ∧ o = o'.under d)
        ∨ InRow P visit (d + 1) (k + 1) forms o := by
  constructor
  · rintro ⟨i, sub, t, o', hi, ht, ho, rfl⟩
    cases i with
    | zero =>
      obtain rfl : form = sub := by simpa using hi
      exact Or.inl ⟨o', ⟨t, ht, ho⟩, rfl⟩
    | succ i =>
      refine Or.inr ⟨i, sub, t, o', by simpa using hi, ?_, ho, ?_⟩
      · rw [← ht]; congr 1; omega
      · congr 1; omega
  · rintro (⟨o', ⟨t, ht, ho⟩, rfl⟩ | ⟨i, sub, t, o', hi, ht, ho, rfl⟩)
    · exact ⟨0, form, t, o', by simp, ht, ho, rfl⟩
    · refine ⟨i + 1, sub, t, o', by simpa using hi, ?_, ho, ?_⟩
      · rw [← ht]; congr 1; omega
      · congr 1; omega

/-- The way to an item is smaller than the ways to the items after it. -/
theorem InRow.lt_of_under {P : Bool → Form → Occurrence → Prop} {visit : Nat → Option Bool}
    {d k : Nat} {forms : List Form} {o : Occurrence} (h : InRow P visit (d + 1) k forms o)
    (o' : Occurrence) : (o'.under d).path < o.path := by
  obtain ⟨i, form, t, o'', -, -, -, rfl⟩ := h
  exact List.cons_lt_cons_iff.mpr (Or.inl (by omega))

/-- What occurs in the keys and values of a map from entry `k` on. -/
def OccursInEntries (self : String) (k : Nat) (entries : List (Form × Form)) (o : Occurrence) :
    Prop :=
  ∃ i key value o', entries[i]? = some (key, value)
    ∧ (Occurs self false key o' ∧ o = o'.under (2 * (k + i))
      ∨ Occurs self false value o' ∧ o = o'.under (2 * (k + i) + 1))

theorem occursInEntries_cons {self : String} {k : Nat} {key value : Form}
    {entries : List (Form × Form)} {o : Occurrence} :
    OccursInEntries self k ((key, value) :: entries) o ↔
      ((∃ o', Occurs self false key o' ∧ o = o'.under (2 * k))
        ∨ ∃ o', Occurs self false value o' ∧ o = o'.under (2 * k + 1))
        ∨ OccursInEntries self (k + 1) entries o := by
  constructor
  · rintro ⟨i, key', value', o', hi, ho⟩
    cases i with
    | zero =>
      obtain ⟨rfl, rfl⟩ : key = key' ∧ value = value' := by simpa using hi
      rcases ho with ho | ho
      · exact Or.inl (Or.inl ⟨o', ho⟩)
      · exact Or.inl (Or.inr ⟨o', ho⟩)
    | succ i =>
      refine Or.inr ⟨i, key', value', o', by simpa using hi, ?_⟩
      rwa [Nat.add_right_comm k 1 i]
  · rintro ((⟨o', ho⟩ | ⟨o', ho⟩) | ⟨i, key', value', o', hi, ho⟩)
    · exact ⟨0, key, value, o', by simp, Or.inl ho⟩
    · exact ⟨0, key, value, o', by simp, Or.inr ho⟩
    · refine ⟨i + 1, key', value', o', by simpa using hi, ?_⟩
      rwa [Nat.add_right_comm k 1 i] at ho

/-! ### What occurs in a form of each kind -/

theorem occurs_vector_iff {self : String} {isTail : Bool} {items : List Form} {span : Span}
    {o : Occurrence} :
    Occurs self isTail (.vector items span) o ↔
      InRow (Occurs self) (fun _ => some false) 0 0 items o := by
  constructor
  · intro ho
    cases ho with
    | item hi ho => exact ⟨_, _, false, _, hi, rfl, ho, by rw [Nat.zero_add]⟩
  · rintro ⟨i, item, t, o', hi, ht, ho, rfl⟩
    cases ht
    rw [Nat.zero_add]
    exact Occurs.item hi ho

theorem occurs_map_iff {self : String} {isTail : Bool} {entries : List (Form × Form)}
    {span : Span} {o : Occurrence} :
    Occurs self isTail (.map entries span) o ↔ OccursInEntries self 0 entries o := by
  constructor
  · intro ho
    cases ho with
    | key hi ho => exact ⟨_, _, _, _, hi, Or.inl ⟨ho, by rw [Nat.zero_add]⟩⟩
    | value hi ho => exact ⟨_, _, _, _, hi, Or.inr ⟨ho, by rw [Nat.zero_add]⟩⟩
  · rintro ⟨i, key, value, o', hi, ⟨ho, rfl⟩ | ⟨ho, rfl⟩⟩
    · rw [Nat.zero_add]; exact Occurs.key hi ho
    · rw [Nat.zero_add]; exact Occurs.value hi ho

theorem occurs_unheaded_iff {self : String} {isTail : Bool} {items : List Form}
    {span : Option Span} {o : Occurrence} (hhead : (Form.list items span).head? = none) :
    Occurs self isTail (.list items span) o ↔
      InRow (Occurs self) (fun _ => some false) 0 0 items o := by
  constructor
  · intro ho
    cases ho with
    | application _ hi ho => exact ⟨_, _, false, _, hi, rfl, ho, by rw [Nat.zero_add]⟩
    | _ => simp [Form.head?] at hhead
  · rintro ⟨i, item, t, o', hi, ht, ho, rfl⟩
    cases ht
    rw [Nat.zero_add]
    exact Occurs.application hhead hi ho

/-- A self-call occurs itself, before the ones in its arguments. -/
theorem occurs_selfCall_iff {self : String} {isTail : Bool} {s : Symbol} {args : List Form}
    {span : Option Span} {o : Occurrence} (hself : s.name = self) :
    Occurs self isTail (.list (.symbol s :: args) span) o ↔
      o = ⟨[], ⟨.list (.symbol s :: args) span, args⟩, isTail⟩
        ∨ InRow (Occurs self) (fun _ => some false) 1 0 args o := by
  constructor
  · intro ho
    cases ho with
    | call _ => exact Or.inl rfl
    | argument _ hi ho => exact Or.inr ⟨_, _, false, _, hi, rfl, ho, by rw [Nat.add_comm 1]⟩
    | special hne => exact absurd hself hne
    | operand hne => exact absurd hself hne
    | application hnone => simp [Form.head?] at hnone
  · rintro (rfl | ⟨i, arg, t, o', hi, ht, ho, rfl⟩)
    · exact Occurs.call hself
    · cases ht
      rw [Nat.add_comm 1 i]
      exact Occurs.argument hself hi ho

theorem occurs_call_iff {self : String} {isTail : Bool} {s : Symbol} {args : List Form}
    {span : Option Span} {o : Occurrence} (hself : s.name ≠ self)
    (hsp : Special.ofName? s.name = none) :
    Occurs self isTail (.list (.symbol s :: args) span) o ↔
      InRow (Occurs self) (fun _ => some false) 1 0 args o := by
  constructor
  · intro ho
    cases ho with
    | call h => exact absurd h hself
    | argument h => exact absurd h hself
    | special _ h => rw [hsp] at h; cases h
    | operand _ _ hi ho => exact ⟨_, _, false, _, hi, rfl, ho, by rw [Nat.add_comm 1]⟩
    | application hnone => simp [Form.head?] at hnone
  · rintro ⟨i, arg, t, o', hi, ht, ho, rfl⟩
    cases ht
    rw [Nat.add_comm 1 i]
    exact Occurs.operand hself hsp hi ho

/-- Self-calls in a special form are those in its arguments, in the positions of its table. -/
theorem occurs_special_iff {self : String} {isTail : Bool} {s : Symbol} {args : List Form}
    {span : Option Span} {sp : Special} {o : Occurrence} (hself : s.name ≠ self)
    (hsp : Special.ofName? s.name = some sp) :
    Occurs self isTail (.list (.symbol s :: args) span) o ↔
      InRow (Occurs self) (fun i => sp.position isTail args.length i) 1 0 args o := by
  constructor
  · intro ho
    cases ho with
    | call h => exact absurd h hself
    | argument h => exact absurd h hself
    | special _ h hi ht ho =>
      rw [hsp] at h
      cases h
      exact ⟨_, _, _, _, hi, by rwa [Nat.zero_add], ho, by rw [Nat.add_comm 1]⟩
    | operand _ h => rw [hsp] at h; cases h
    | application hnone => simp [Form.head?] at hnone
  · rintro ⟨i, arg, t, o', hi, ht, ho, rfl⟩
    rw [Nat.add_comm 1 i]
    rw [Nat.zero_add] at ht
    exact Occurs.special hself hsp hi ht ho

theorem occursInBody_iff {self : String} {body : List Form} {o : Occurrence} :
    OccursInBody self body o ↔
      InRow (Occurs self) (fun i => some (true && i + 1 == body.length)) 0 0 body o := by
  simp only [OccursInBody, InRow, Bool.true_and, Nat.zero_add, Option.some.injEq]
  constructor
  · rintro ⟨i, form, o', hi, ho⟩
    exact ⟨i, form, _, o', hi, rfl, ho⟩
  · rintro ⟨i, form, t, o', hi, rfl, ho⟩
    exact ⟨i, form, o', hi, ho⟩

namespace Verdict

/-! ### The verdict on a row of occurrences -/

/-- What a walk reports that meets the given occurrences in order: the calls up to the first that
is not in tail position, and that one as the violation. -/
def ofOccurrences (os : List Occurrence) : Verdict :=
  { calls := (os.takeWhile (·.isTail)).map (·.call)
    violation := (os.find? (!·.isTail)).map fun o => .ofForm .selfCallNotTail o.call.form }

@[simp] theorem ofOccurrences_nil : ofOccurrences [] = {} := rfl

@[simp] theorem empty_andThen (v : Verdict) : andThen {} v = v := rfl

@[simp] theorem andThen_empty (v : Verdict) : v.andThen {} = v := by
  rcases v with ⟨calls, _ | fault⟩ <;> simp [andThen]

theorem andThen_assoc (u v w : Verdict) :
    (u.andThen v).andThen w = u.andThen (v.andThen w) := by
  rcases u with ⟨calls, _ | fault⟩
  · rcases v with ⟨calls', _ | fault'⟩ <;> simp [andThen]
  · rfl

theorem ofOccurrences_cons_tail {o : Occurrence} (h : o.isTail = true) (os : List Occurrence) :
    ofOccurrences (o :: os) = andThen { calls := [o.call] } (ofOccurrences os) := by
  simp [ofOccurrences, andThen, h]

theorem ofOccurrences_cons_nonTail {o : Occurrence} (h : o.isTail = false)
    (os : List Occurrence) :
    ofOccurrences (o :: os)
      = { violation := some (.ofForm .selfCallNotTail o.call.form) } := by
  simp [ofOccurrences, h]

/-- Meeting one row after another is one walk after another. -/
theorem ofOccurrences_append (os os' : List Occurrence) :
    ofOccurrences (os ++ os') = (ofOccurrences os).andThen (ofOccurrences os') := by
  induction os with
  | nil => rfl
  | cons o os ih =>
    rw [List.cons_append]
    cases h : o.isTail with
    | true =>
      rw [ofOccurrences_cons_tail h, ofOccurrences_cons_tail h, ih, andThen_assoc]
    | false =>
      rw [ofOccurrences_cons_nonTail h, ofOccurrences_cons_nonTail h]
      rfl

theorem ofOccurrences_under (i : Nat) (os : List Occurrence) :
    ofOccurrences (os.map (Occurrence.under i)) = ofOccurrences os := by
  induction os with
  | nil => rfl
  | cons o os ih =>
    rw [List.map_cons]
    cases h : o.isTail with
    | true => rw [ofOccurrences_cons_tail h, ofOccurrences_cons_tail (by simpa using h), ih,
        Occurrence.under_call]
    | false => rw [ofOccurrences_cons_nonTail h, ofOccurrences_cons_nonTail (by simpa using h),
        Occurrence.under_call]

theorem ofOccurrences_ok {os : List Occurrence} :
    (ofOccurrences os).ok = true ↔ ∀ o ∈ os, o.isTail = true := by
  simp [ofOccurrences, ok]

/-- If all occurrences are in tail position, the calls are these in order. -/
theorem ofOccurrences_calls {os : List Occurrence} (h : ∀ o ∈ os, o.isTail = true) :
    (ofOccurrences os).calls = os.map (·.call) := by
  induction os with
  | nil => rfl
  | cons o os ih =>
    obtain ⟨ho, hos⟩ := List.forall_mem_cons.mp h
    rw [ofOccurrences_cons_tail ho, List.map_cons, ← ih hos]
    rfl

/-- Walk over forms from index `k` on; `visit` says of an index whether the form there is looked
at, and whether it is in tail position. -/
def walk (self : String) (visit : Nat → Option Bool) : Nat → List Form → Verdict
  | _, [] => {}
  | k, form :: forms =>
    (match visit k with
      | some t => ofForm self t form
      | none => {}).andThen (walk self visit (k + 1) forms)

theorem walk_none {self : String} {visit : Nat → Option Bool} :
    ∀ (k : Nat) (forms : List Form), (∀ i, k ≤ i → visit i = none) →
      walk self visit k forms = {}
  | _, [], _ => rfl
  | k, form :: forms, h => by
    rw [walk, h k (Nat.le_refl k), walk_none (k + 1) forms (fun i hi => h i (by omega))]
    rfl

theorem ofParts_eq_walk {self : String} {visit : Nat → Option Bool} :
    ∀ (k : Nat) (forms : List Form), (∀ i, k ≤ i → visit i = some false) →
      ofParts self forms = walk self visit k forms
  | _, [], _ => rfl
  | k, form :: forms, h => by
    rw [ofParts, walk, h k (Nat.le_refl k),
      ofParts_eq_walk (k + 1) forms (fun i hi => h i (by omega))]

theorem ofBranches_eq_walk {self : String} (isTail : Bool) {visit : Nat → Option Bool} :
    ∀ (k : Nat) (forms : List Form), (∀ i, k ≤ i → visit i = some isTail) →
      ofBranches self isTail forms = walk self visit k forms
  | _, [], _ => rfl
  | k, form :: forms, h => by
    rw [ofBranches, walk, h k (Nat.le_refl k),
      ofBranches_eq_walk isTail (k + 1) forms (fun i hi => h i (by omega))]

theorem ofBody_eq_walk {self : String} (isTail : Bool) {visit : Nat → Option Bool} {n : Nat} :
    ∀ (k : Nat) (forms : List Form), k + forms.length = n →
      (∀ i, k ≤ i → visit i = some (isTail && i + 1 == n)) →
      ofBody self isTail forms = walk self visit k forms
  | _, [], _, _ => rfl
  | k, [form], hn, h => by
    have hlast : (k + 1 == n) = true := by simpa using hn
    rw [ofBody, walk, h k (Nat.le_refl k), hlast, Bool.and_true]
    simp [walk]
  | k, form :: next :: forms, hn, h => by
    have hinner : (k + 1 == n) = false := by
      simp only [List.length_cons] at hn
      simp only [beq_eq_false_iff_ne]
      omega
    rw [ofBody, walk, h k (Nat.le_refl k), hinner, Bool.and_false,
      ofBody_eq_walk isTail (k + 1) (next :: forms)
        (by simp only [List.length_cons] at hn ⊢; omega) (fun i hi => h i (by omega))]

/-- The keyword `:else` is walked over as any test: there is no self-call in it. -/
theorem ofTest_eq_ofForm (self : String) (test : Form) :
    (if test.isKeyword "else" then {} else ofForm self false test) = ofForm self false test := by
  cases test with
  | keyword k =>
    simp only [ofForm]
    split <;> rfl
  | _ => simp [Form.isKeyword]

theorem ofTests_eq_walk {self : String} {isTail : Bool} {visit : Nat → Option Bool}
    (h : ∀ i, visit i = some (isTail && i % 2 == 1)) :
    ∀ (k : Nat) (forms : List Form), k % 2 = 0 →
      ofTests self isTail forms = walk self visit k forms
  | _, [], _ => rfl
  | k, [test], hk => by
    rw [ofTests, ofTest_eq_ofForm, walk, h k, hk]
    simp [walk]
  | k, test :: result :: forms, hk => by
    have hodd : (k + 1) % 2 = 1 := by omega
    rw [ofTests, ofTest_eq_ofForm, walk, walk, h k, h (k + 1), hk, hodd,
      ofTests_eq_walk h (k + 1 + 1) forms (by omega), andThen_assoc]
    simp

/-- The clauses of a `case` are walked by a table: results are tails, and keys are not visited. -/
theorem ofClauses_eq_walk {self : String} (isTail : Bool) {visit : Nat → Option Bool} {n : Nat}
    (h : ∀ i, i ≠ 0 → visit i = if i % 2 = 0 ∨ i + 1 = n then some isTail else none) :
    ∀ (k : Nat) (forms : List Form), k % 2 = 1 → k + forms.length = n →
      ofClauses self isTail forms = walk self visit k forms
  | _, [], _, _ => rfl
  | k, [default], hk, hn => by
    rw [ofClauses, walk, h k (by omega), if_pos (Or.inr (by simpa using hn))]
    simp [walk]
  | k, key :: result :: forms, hk, hn => by
    simp only [List.length_cons] at hn
    rw [ofClauses, walk, walk, h k (by omega), h (k + 1) (by omega), if_neg (by omega),
      if_pos (Or.inl (by omega)), ofClauses_eq_walk isTail h (k + 1 + 1) forms
        (by omega) (by omega)]
    simp

/-- A special form is walked over as the table says. -/
theorem ofForm_special {self : String} {isTail : Bool} {s : Symbol} {args : List Form}
    {span : Option Span} {sp : Special} (hself : s.name ≠ self)
    (hsp : Special.ofName? s.name = some sp) :
    ofForm self isTail (.list (.symbol s :: args) span)
      = walk self (fun i => sp.position isTail args.length i) 0 args := by
  unfold ofForm
  rw [if_neg hself, hsp]
  cases sp with
  | doForm | andForm | orForm =>
    exact ofBody_eq_walk isTail 0 args (Nat.zero_add _) (fun i _ => rfl)
  | ifForm =>
    cases args with
    | nil => rfl
    | cons test branches =>
      have htest : Special.position isTail (test :: branches).length 0 .ifForm
          = some false := by
        simp [Special.position]
      rw [walk, htest, ← ofBranches_eq_walk isTail 1 branches fun i hi => ?_]
      have hi' : (i != 0) = true := by simp only [bne_iff_ne]; omega
      simp only [Special.position, hi', Bool.and_true]
  | condForm => exact ofTests_eq_walk (fun i => rfl) 0 args rfl
  | caseForm =>
    cases args with
    | nil => rfl
    | cons selector clauses =>
      rw [walk, ← ofClauses_eq_walk isTail (fun i hi => ?_) 1 clauses rfl
        (Nat.add_comm _ _)]
      · rfl
      · exact if_neg hi
  | letForm =>
    cases args with
    | nil => rfl
    | cons bindings body =>
      have hbindings : Special.position isTail (bindings :: body).length 0 .letForm
          = some false := by
        simp [Special.position]
      rw [walk, hbindings,
        ← ofBody_eq_walk isTail 1 body (Nat.add_comm _ _) fun i hi => ?_]
      have hi' : (i != 0) = true := by simp only [bne_iff_ne]; omega
      simp only [Special.position, hi', Bool.and_true, List.length_cons]
  | loopForm =>
    cases args with
    | nil => rfl
    | cons bindings body =>
      rw [walk, walk_none (0 + 1) body fun i hi => ?_]
      · exact (andThen_empty _).symm
      · exact if_neg (by omega)
  | fnForm | defnForm | quoteForm => exact (walk_none 0 args (fun i _ => rfl)).symm
  | notForm | recurForm | defForm => exact ofParts_eq_walk 0 args (fun i _ => rfl)

/-- A list that no symbol heads is walked over from its first item on. -/
theorem ofForm_unheaded {self : String} {isTail : Bool} {items : List Form}
    {span : Option Span} (h : (Form.list items span).head? = none) :
    ofForm self isTail (.list items span) = walk self (fun _ => some false) 0 items := by
  cases items with
  | nil => rfl
  | cons head args =>
    cases head with
    | symbol s => simp [Form.head?] at h
    | _ =>
      rw [walk, ← ofParts_eq_walk (0 + 1) args fun _ _ => rfl]
      rfl

/-! ### What a walk finds -/

/-- The verdict `v` is that on the self-calls with the property `P`, met in source order. -/
def Found (P : Occurrence → Prop) (v : Verdict) : Prop :=
  ∃ os : List Occurrence, Enumerates os P ∧ v = ofOccurrences os

namespace Found

variable {P Q : Occurrence → Prop} {v w : Verdict}

theorem congr (h : Found P v) (hPQ : ∀ o, P o ↔ Q o) : Found Q v := by
  obtain ⟨os, hos, hv⟩ := h
  exact ⟨os, hos.congr hPQ, hv⟩

theorem nothing (h : ∀ o, ¬ P o) : Found P {} := ⟨[], .nil h, rfl⟩

theorem under (h : Found P v) (i : Nat) : Found (fun o => ∃ o', P o' ∧ o = o'.under i) v := by
  obtain ⟨os, hos, rfl⟩ := h
  exact ⟨os.map (Occurrence.under i), hos.under i, (ofOccurrences_under i os).symm⟩

/-- One walk after another finds what each of them finds. -/
theorem andThen (hP : Found P v) (hQ : Found Q w)
    (hlt : ∀ a b, P a → Q b → a.path < b.path) :
    Found (fun o => P o ∨ Q o) (v.andThen w) := by
  obtain ⟨os, hos, rfl⟩ := hP
  obtain ⟨os', hos', rfl⟩ := hQ
  exact ⟨os ++ os', hos.append hos' hlt, (ofOccurrences_append os os').symm⟩

end Found

/-- A walk by a table finds what occurs in the forms that it looks at, if the walk over each of
them does. -/
theorem walk_found {self : String} (visit : Nat → Option Bool) (d : Nat) :
    ∀ (k : Nat) (forms : List Form),
      (∀ form ∈ forms, ∀ t, Found (Occurs self t form) (ofForm self t form)) →
      Found (InRow (Occurs self) visit d k forms) (walk self visit k forms) := by
  intro k forms
  induction forms generalizing d k with
  | nil => exact fun _ => Found.nothing not_inRow_nil
  | cons form forms ih =>
    intro hforms
    have hhead : Found (fun o => ∃ t, visit k = some t ∧ Occurs self t form o)
        (match visit k with
          | some t => ofForm self t form
          | none => {}) := by
      cases visit k with
      | none => exact Found.nothing (by simp)
      | some t =>
        refine (hforms form List.mem_cons_self t).congr fun o => ?_
        simp
    have htail := ih (d + 1) (k + 1) fun sub hsub => hforms sub (List.mem_cons_of_mem _ hsub)
    refine ((hhead.under d).andThen htail ?_).congr fun o => inRow_cons.symm
    rintro a b ⟨o', -, rfl⟩ hb
    exact hb.lt_of_under o'

theorem ofEntries_found {self : String} :
    ∀ (k : Nat) (entries : List (Form × Form)),
      (∀ entry ∈ entries, Found (Occurs self false entry.1) (ofForm self false entry.1)
        ∧ Found (Occurs self false entry.2) (ofForm self false entry.2)) →
      Found (OccursInEntries self k entries) (ofEntries self entries) := by
  intro k entries
  induction entries generalizing k with
  | nil =>
    intro _
    refine Found.nothing ?_
    rintro o ⟨i, key, value, o', hi, -⟩
    simp at hi
  | cons entry entries ih =>
    intro hentries
    obtain ⟨key, value⟩ := entry
    obtain ⟨hkey, hvalue⟩ := hentries (key, value) List.mem_cons_self
    have htail := ih (k + 1) fun sub hsub => hentries sub (List.mem_cons_of_mem _ hsub)
    rw [ofEntries]
    have hentry := (hkey.under (2 * k)).andThen (hvalue.under (2 * k + 1)) (by
      rintro a b ⟨o, -, rfl⟩ ⟨o', -, rfl⟩
      exact List.cons_lt_cons_iff.mpr (Or.inl (by omega)))
    refine (hentry.andThen htail ?_).congr fun o => occursInEntries_cons.symm
    rintro a b (⟨o, -, rfl⟩ | ⟨o, -, rfl⟩) ⟨i, _, _, o', -, ⟨-, rfl⟩ | ⟨-, rfl⟩⟩
    all_goals exact List.cons_lt_cons_iff.mpr (Or.inl (by omega))

/-- A self-call is found first, then those in its arguments. -/
theorem ofCall_found (s : Symbol) (isTail : Bool) (args : List Form) (span : Option Span) :
    Found (fun o => o = ⟨[], ⟨.list (.symbol s :: args) span, args⟩, isTail⟩)
      (ofCall isTail (.list (.symbol s :: args) span) args) := by
  refine ⟨[⟨[], ⟨.list (.symbol s :: args) span, args⟩, isTail⟩], .singleton _, ?_⟩
  cases isTail <;> rfl

/-! ### The walk is exact -/

/-- The walk over a list headed by a symbol finds what occurs in it, if the walks over its
arguments do. -/
theorem ofHeaded_found {self : String} (isTail : Bool) (s : Symbol) (args : List Form)
    (span : Option Span)
    (hargs : ∀ arg ∈ args, ∀ t, Found (Occurs self t arg) (ofForm self t arg)) :
    Found (Occurs self isTail (.list (.symbol s :: args) span))
      (ofForm self isTail (.list (.symbol s :: args) span)) := by
  by_cases hself : s.name = self
  · have hfound := (ofCall_found s isTail args span).andThen
      (walk_found (fun _ => some false) 1 0 args hargs) (by
        rintro a b rfl ⟨i, sub, t, o', -, -, -, rfl⟩
        exact List.nil_lt_cons _ _)
    unfold ofForm
    rw [if_pos hself, ofParts_eq_walk 0 args fun _ _ => rfl]
    exact hfound.congr fun o => (occurs_selfCall_iff hself).symm
  · cases hsp : Special.ofName? s.name with
    | none =>
      have hfound := walk_found (fun _ => some false) 1 0 args hargs
      rw [← ofParts_eq_walk 0 args fun _ _ => rfl] at hfound
      unfold ofForm
      rw [if_neg hself, hsp]
      exact hfound.congr fun o => (occurs_call_iff hself hsp).symm
    | some sp =>
      rw [ofForm_special hself hsp]
      exact (walk_found _ 1 0 args hargs).congr fun o => (occurs_special_iff hself hsp).symm

/-- The walk over a form finds the self-calls that occur in it. -/
theorem ofForm_found (self : String) (isTail : Bool) (form : Form) :
    Found (Occurs self isTail form) (ofForm self isTail form) := by
  match form with
  | .const c => exact Found.nothing (by rintro o ⟨⟩)
  | .symbol s => exact Found.nothing (by rintro o ⟨⟩)
  | .keyword k => exact Found.nothing (by rintro o ⟨⟩)
  | .vector items span =>
    have hitems (item : Form) (_ : item ∈ items) (t : Bool) := ofForm_found self t item
    rw [ofForm, ofParts_eq_walk 0 items fun _ _ => rfl]
    exact (walk_found _ 0 0 items hitems).congr fun o => occurs_vector_iff.symm
  | .map entries span =>
    have hentries (entry : Form × Form) (_ : entry ∈ entries) :=
      And.intro (ofForm_found self false entry.1) (ofForm_found self false entry.2)
    rw [ofForm]
    exact (ofEntries_found 0 entries hentries).congr fun o => occurs_map_iff.symm
  | .list items span =>
    have hitems (item : Form) (_ : item ∈ items) (t : Bool) := ofForm_found self t item
    cases hhead : (Form.list items span).head? with
    | none =>
      rw [ofForm_unheaded hhead]
      exact (walk_found _ 0 0 items hitems).congr fun o => (occurs_unheaded_iff hhead).symm
    | some s =>
      obtain ⟨args, rfl⟩ := Form.eq_cons_of_head? hhead
      exact ofHeaded_found isTail s args span fun arg harg =>
        hitems arg (List.mem_cons_of_mem _ harg)
termination_by sizeOf form
decreasing_by
  all_goals simp_wf
  · have := List.sizeOf_lt_of_mem ‹item ∈ items›; omega
  · have := List.sizeOf_lt_of_mem ‹entry ∈ entries›
    have : sizeOf entry.1 < sizeOf entry := by
      cases entry
      simp only [Prod.mk.sizeOf_spec]
      omega
    omega
  · have := List.sizeOf_lt_of_mem ‹entry ∈ entries›
    have : sizeOf entry.2 < sizeOf entry := by
      cases entry
      simp only [Prod.mk.sizeOf_spec]
      omega
    omega
  · have := List.sizeOf_lt_of_mem ‹item ∈ items›; omega

/-- The walk of a body finds its self-calls, in order. -/
theorem ofBody_found (self : String) (body : List Form) :
    Found (OccursInBody self body) (ofBody self true body) := by
  rw [ofBody_eq_walk true 0 body (Nat.zero_add _) fun i _ => rfl]
  exact (walk_found _ 0 0 body fun form _ t => ofForm_found self t form).congr
    fun o => occursInBody_iff.symm

/-- What the walk over a body reports is a fault about a self-call. -/
theorem kind_of_violation {self : String} {body : List Form} {fault : Fault}
    (h : (ofBody self true body).violation = some fault) : fault.kind = .tailPosition := by
  obtain ⟨os, -, hverdict⟩ := ofBody_found self body
  rw [hverdict] at h
  obtain ⟨_, -, rfl⟩ := Option.map_eq_some_iff.mp h
  rfl

end Verdict

end TailLisp
