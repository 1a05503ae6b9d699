import TailLisp.Proofs.Jumps
import TailLisp.Proofs.PatternLevel

/-!
# TailLisp.Proofs.Acceptance

**A body that the walk accepts is not refused for its self-calls.** Lowering has checks of its own:
it refuses a `recur` that it meets where none can stand. If all self-calls of a body are in tail
position, and no function or loop inside of it has a body of its own to be checked, then none of
these checks fails: everything outside of tail position that gets lowered is free of self-calls
(`Calm`).
-/

namespace TailLisp

/-! ### Forms without self-calls -/

mutual

/-- Does a function or a loop stand in the form, outside of quoted data? -/
def Form.hasInner : Form → Bool
  | .const _ | .symbol _ | .keyword _ => false
  | .vector items _ => hasInnerIn items
  | .map entries _ => hasInnerInEntries entries
  | .list [] _ => false
  | .list (.symbol s :: args) _ =>
    match Special.ofName? s.name with
    | some .fnForm | some .defnForm | some .loopForm => true
    | some .quoteForm => false
    | _ => hasInnerIn args
  | .list (head :: args) _ => hasInner head || hasInnerIn args

/-- Does a function or a loop stand in one of the forms? -/
def Form.hasInnerIn : List Form → Bool
  | [] => false
  | form :: forms => hasInner form || hasInnerIn forms

/-- Does a function or a loop stand in one of the keys or values? -/
def Form.hasInnerInEntries : List (Form × Form) → Bool
  | [] => false
  | (key, value) :: entries => hasInner key || hasInner value || hasInnerInEntries entries

end

theorem Form.hasInnerIn_eq_false {forms : List Form} :
    hasInnerIn forms = false ↔ ∀ form ∈ forms, hasInner form = false := by
  induction forms with
  | nil => simp [hasInnerIn]
  | cons form forms ih => simp [hasInnerIn, ih]

theorem Form.hasInnerInEntries_eq_false {entries : List (Form × Form)} :
    hasInnerInEntries entries = false ↔
      ∀ entry ∈ entries, hasInner entry.1 = false ∧ hasInner entry.2 = false := by
  induction entries with
  | nil => simp [hasInnerInEntries]
  | cons entry entries ih =>
    obtain ⟨key, value⟩ := entry
    simp [hasInnerInEntries, ih, and_assoc]

theorem Form.hasInner_unheaded {items : List Form} {span : Option Span}
    (h : (Form.list items span).head? = none) :
    hasInner (.list items span) = hasInnerIn items := by
  cases items with
  | nil => rfl
  | cons head args =>
    cases head with
    | symbol s => simp [Form.head?] at h
    | _ => rfl

/-- There is no `recur` in the form that a function or loop outside of it would have to answer
for, and no function or loop. -/
structure Calm (form : Form) : Prop where
  noCall : ∀ o, ¬ Occurs "recur" false form o
  noInner : form.hasInner = false

/-- Where no argument inherits the tail position, the position of the form does not matter. -/
theorem Special.position_of_exit {sp : Special} {n i : Nat} (h : sp.passesTail = false) :
    sp.position true n i = sp.position false n i := by
  cases sp with
  | loopForm | fnForm | defnForm | quoteForm | notForm | recurForm | defForm => rfl
  | _ => cases h

theorem Special.eq_recur {name : String} (h : ofName? name = some .recurForm) :
    name = "recur" := by
  unfold ofName? at h
  split at h <;> first | rfl | cases h

namespace Calm

theorem symbol (s : Symbol) : Calm (.symbol s) := ⟨by rintro o ⟨⟩, by simp [Form.hasInner]⟩

theorem const (c : Constant) : Calm (.const c) := ⟨by rintro o ⟨⟩, by simp [Form.hasInner]⟩

theorem vector {items : List Form} {span : Span} (h : Calm (.vector items span)) :
    ∀ item ∈ items, Calm item := by
  intro item hitem
  obtain ⟨i, hi⟩ := List.mem_iff_getElem?.mp hitem
  refine ⟨fun o ho => h.noCall _ (.item hi ho), ?_⟩
  have hinner := h.noInner
  rw [Form.hasInner, Form.hasInnerIn_eq_false] at hinner
  exact hinner item hitem

theorem map {entries : List (Form × Form)} {span : Span} (h : Calm (.map entries span)) :
    ∀ entry ∈ entries, Calm entry.1 ∧ Calm entry.2 := by
  rintro ⟨key, value⟩ hentry
  obtain ⟨i, hi⟩ := List.mem_iff_getElem?.mp hentry
  have hinner := h.noInner
  rw [Form.hasInner, Form.hasInnerInEntries_eq_false] at hinner
  exact ⟨⟨fun o ho => h.noCall _ (.key hi ho), (hinner _ hentry).1⟩,
    ⟨fun o ho => h.noCall _ (.value hi ho), (hinner _ hentry).2⟩⟩

/-- A list that no symbol heads. -/
theorem application {items : List Form} {span : Option Span} (h : Calm (.list items span))
    (hhead : (Form.list items span).head? = none) : ∀ item ∈ items, Calm item := by
  intro item hitem
  obtain ⟨i, hi⟩ := List.mem_iff_getElem?.mp hitem
  refine ⟨fun o ho => h.noCall _ (.application hhead hi ho), ?_⟩
  have hinner := h.noInner
  rw [Form.hasInner_unheaded hhead] at hinner
  exact Form.hasInnerIn_eq_false.mp hinner item hitem

variable {s : Symbol} {args : List Form} {span : Option Span}

/-- A calm form is no self-call. -/
theorem name_ne (h : Calm (.list (.symbol s :: args) span)) : s.name ≠ "recur" :=
  fun hself => h.noCall _ (.call hself)

/-- A call of a name. -/
theorem call (h : Calm (.list (.symbol s :: args) span)) (hsp : Special.ofName? s.name = none) :
    ∀ arg ∈ args, Calm arg := by
  intro arg harg
  obtain ⟨i, hi⟩ := List.mem_iff_getElem?.mp harg
  refine ⟨fun o ho => h.noCall _ (.operand h.name_ne hsp hi ho), ?_⟩
  have hinner := h.noInner
  rw [Form.hasInner, hsp] at hinner
  exact Form.hasInnerIn_eq_false.mp hinner arg harg

/-- The special forms that are left, and their arguments that are looked at. -/
theorem special {sp : Special} (h : Calm (.list (.symbol s :: args) span))
    (hsp : Special.ofName? s.name = some sp) :
    sp ≠ .recurForm ∧ sp ≠ .fnForm ∧ sp ≠ .defnForm ∧ sp ≠ .loopForm
      ∧ (sp ≠ .quoteForm → ∀ i arg, args[i]? = some arg →
          sp.position false args.length i = some false → Calm arg) := by
  have hinner := h.noInner
  rw [Form.hasInner, hsp] at hinner
  refine ⟨?_, ?_, ?_, ?_, fun hquote i arg hi ht => ?_⟩
  · rintro rfl
    exact h.name_ne (Special.eq_recur hsp)
  · rintro rfl
    cases hinner
  · rintro rfl
    cases hinner
  · rintro rfl
    cases hinner
  · refine ⟨fun o ho => h.noCall _ (.special h.name_ne hsp hi ht ho), ?_⟩
    have hargs : Form.hasInnerIn args = false := by
      cases sp with
      | fnForm | defnForm | loopForm => cases hinner
      | quoteForm => exact absurd rfl hquote
      | _ => exact hinner
    exact Form.hasInnerIn_eq_false.mp hargs arg (List.mem_of_getElem? hi)

/-- All arguments of a special form but `case` are looked at. -/
theorem all_args {sp : Special} (h : Calm (.list (.symbol s :: args) span))
    (hsp : Special.ofName? s.name = some sp) (hcase : sp ≠ .caseForm) (hquote : sp ≠ .quoteForm) :
    ∀ arg ∈ args, Calm arg := by
  intro arg harg
  obtain ⟨i, hi⟩ := List.mem_iff_getElem?.mp harg
  obtain ⟨hrecur, hfn, hdefn, hloop, hargs⟩ := h.special hsp
  refine hargs hquote i arg hi ?_
  cases sp with
  | caseForm | quoteForm | fnForm | defnForm | loopForm => contradiction
  | _ => simp [Special.position]

end Calm

/-- All self-calls of a form in tail position are in tail position, and no function or loop
stands in it. -/
structure CalmTail (form : Form) : Prop where
  allTail : AllTail (Occurs "recur" true form)
  noInner : form.hasInner = false

namespace CalmTail

theorem nil : CalmTail .nil := ⟨by rintro o ⟨⟩, by simp [Form.nil, Form.hasInner]⟩

variable {s : Symbol} {args : List Form} {span : Option Span}

/-- The arguments of a self-call are not in tail position. -/
theorem jumpArgs (h : CalmTail (.list (.symbol s :: args) span)) (hself : s.name = "recur") :
    ∀ arg ∈ args, Calm arg := by
  intro arg harg
  obtain ⟨i, hi⟩ := List.mem_iff_getElem?.mp harg
  refine ⟨AllTail.not_occurs fun o ho => h.allTail (o.under (i + 1)) (.argument hself hi ho), ?_⟩
  have hinner := h.noInner
  rw [Form.hasInner, hself] at hinner
  exact Form.hasInnerIn_eq_false.mp hinner arg harg

/-- An argument of a special form that is looked at keeps to the position it has. -/
theorem special {sp : Special} (h : CalmTail (.list (.symbol s :: args) span))
    (hself : s.name ≠ "recur") (hsp : Special.ofName? s.name = some sp)
    (hpasses : sp.passesTail = true) {i : Nat} {arg : Form} (hi : args[i]? = some arg) :
    (sp.position true args.length i = some true → CalmTail arg)
      ∧ (sp.position true args.length i = some false → Calm arg) := by
  have hinner : arg.hasInner = false := by
    have hinner := h.noInner
    rw [Form.hasInner, hsp] at hinner
    refine Form.hasInnerIn_eq_false.mp ?_ arg (List.mem_of_getElem? hi)
    cases sp with
    | fnForm | defnForm | loopForm | quoteForm => cases hpasses
    | _ => exact hinner
  exact ⟨fun ht => ⟨fun o ho => h.allTail (o.under (i + 1)) (.special hself hsp hi ht ho), hinner⟩,
    fun ht => ⟨AllTail.not_occurs fun o ho =>
      h.allTail (o.under (i + 1)) (.special hself hsp hi ht ho), hinner⟩⟩

/-- A form that is evaluated before the loop is left has no self-call at all. -/
theorem calm_of_exit {form : Form} (h : CalmTail form)
    (hform : ∀ s args span, form = .list (.symbol s :: args) span →
      s.name ≠ "recur" ∧ ∀ sp, Special.ofName? s.name = some sp → sp.passesTail = false) :
    Calm form := by
  refine ⟨fun o ho => ?_, h.noInner⟩
  -- the same self-call occurs where the form is in tail position
  have hnone (o' : Occurrence) (ho' : Occurs "recur" true form o') : False := by
    have htail := h.allTail o' ho'
    rw [ho'.nonTail_of_exit hform] at htail
    cases htail
  cases ho with
  | call hself => exact (hform _ _ _ rfl).1 hself
  | argument hself => exact (hform _ _ _ rfl).1 hself
  | special hself hsp hi ht ho =>
    refine hnone _ (.special hself hsp hi ?_ ho)
    have hpasses := (hform _ _ _ rfl).2 _ hsp
    rw [← ht]
    exact Special.position_of_exit hpasses
  | operand hself hsp hi ho => exact hnone _ (.operand hself hsp hi ho)
  | application hhead hi ho => exact hnone _ (.application hhead hi ho)
  | item hi ho => exact hnone _ (.item hi ho)
  | key hi ho => exact hnone _ (.key hi ho)
  | value hi ho => exact hnone _ (.value hi ho)

end CalmTail

/-! ### Lowering without faults about self-calls -/

namespace Compile

variable {α β : Type}

/-- The step does not end in a fault about a self-call. -/
def Avoids (m : Compile α) : Prop :=
  ∀ ⦃c fault c'⦄, m c = .error fault c' → fault.kind ≠ .tailPosition

namespace Avoids

protected theorem pure (a : α) : Avoids (pure a : Compile α) := nofun

protected theorem fail {fault : Fault} (h : fault.kind ≠ .tailPosition) :
    Avoids (fail fault : Compile α) := by
  rintro c _ c' ⟨⟩
  exact h

/-- The second step may rely on what the first one yields. -/
theorem bind_of_yields {P : α → Prop} {m : Compile α} {f : α → Compile β} (hm : Avoids m)
    (hy : Yields P m) (hf : ∀ a, P a → Avoids (f a)) : Avoids (m >>= f) := by
  intro c fault c' h
  rcases bind_error h with h₁ | ⟨a, c₁, h₁, h₂⟩
  · exact hm h₁
  · exact hf a (hy h₁) h₂

protected theorem bind {m : Compile α} {f : α → Compile β} (hm : Avoids m)
    (hf : ∀ a, Avoids (f a)) : Avoids (m >>= f) :=
  bind_of_yields hm (.anything m) fun a _ => hf a

protected theorem lift {e : Except Fault α} (h : Parsing.Faults (· ≠ .tailPosition) e) :
    Avoids (lift e) := by
  cases e with
  | ok a => exact .pure a
  | error fault => exact .fail (h rfl)

protected theorem mapM {f : α → Compile β} :
    ∀ {xs : List α}, (∀ x ∈ xs, Avoids (f x)) → Avoids (xs.mapM f)
  | [], _ => .pure []
  | x :: xs, h => by
    rw [List.mapM_cons]
    exact .bind (h x List.mem_cons_self) fun _ =>
      .bind (.mapM fun x' hx' => h x' (List.mem_cons_of_mem _ hx')) fun _ => .pure _

protected theorem foldlM {f : β → α → Compile β} :
    ∀ {xs : List α} (b : β), (∀ b, ∀ x ∈ xs, Avoids (f b x)) → Avoids (xs.foldlM f b)
  | [], b, _ => .pure b
  | x :: xs, b, h => by
    rw [List.foldlM_cons]
    exact .bind (h b x List.mem_cons_self) fun b' =>
      .foldlM b' fun b'' x' hx' => h b'' x' (List.mem_cons_of_mem _ hx')

protected theorem foldrM {f : α → β → Compile β} (b : β) :
    ∀ {xs : List α}, (∀ x ∈ xs, ∀ b, Avoids (f x b)) → Avoids (xs.foldrM f b)
  | [], _ => .pure b
  | x :: xs, h => by
    rw [List.foldrM_cons]
    exact .bind (.foldrM b fun x' hx' => h x' (List.mem_cons_of_mem _ hx')) fun b' =>
      h x List.mem_cons_self b'

theorem fresh (stem : String) : Avoids (fresh stem) := nofun
theorem resolve (name : String) : Avoids (resolve name) := nofun
theorem report (event : Event) : Avoids (report event) := nofun
theorem hoist (helper : Stmt) : Avoids (hoist helper) := nofun

theorem binder : ∀ (mode : BindMode) (name : String), Avoids (Compile.bind mode name)
  | .asIs, _ => nofun
  | .scoped, _ => nofun
  | .fresh, _ => nofun

theorem collect {m : Compile α} (hm : Avoids m) : Avoids (collect m) :=
  .bind nofun fun _ => .bind hm fun _ => .bind nofun fun _ => .pure _

theorem inScope {m : Compile α} (hm : Avoids m) : Avoids (inScope m) :=
  .bind nofun fun _ => .bind hm fun _ => .bind nofun fun _ => .pure _

end Avoids

end Compile

/-- The pair with the number `i` has the items at the positions `2 * i` and `2 * i + 1`. -/
theorem Form.pairUp_getElem? {items : List Form} {pairs : List (Form × Form)}
    (h : pairUp items = some pairs) {i : Nat} {a b : Form} (hi : pairs[i]? = some (a, b)) :
    items[2 * i]? = some a ∧ items[2 * i + 1]? = some b := by
  fun_induction pairUp items generalizing pairs i with
  | case1 => cases h; simp at hi
  | case2 => cases h
  | case3 key value rest ih =>
    obtain ⟨pairs', hpairs, rfl⟩ := Option.map_eq_some_iff.mp h
    cases i with
    | zero => simpa using hi
    | succ i => simpa [Nat.mul_add] using ih hpairs (by simpa using hi)

theorem Form.mem_of_pairUp {items : List Form} {pairs : List (Form × Form)}
    (h : pairUp items = some pairs) {pair : Form × Form} (hpair : pair ∈ pairs) :
    pair.1 ∈ items ∧ pair.2 ∈ items := by
  obtain ⟨i, hi⟩ := List.mem_iff_getElem?.mp hpair
  obtain ⟨hfst, hsnd⟩ := pairUp_getElem? h hi
  exact ⟨List.mem_of_getElem? hfst, List.mem_of_getElem? hsnd⟩

namespace Lowering

open Compile

/-- What holds of all clauses and of `nil` holds of the clauses that are lowered. -/
theorem untilElse_forall {P Q : Form → Prop} (hnil : Q .nil) :
    ∀ {pairs : List (Form × Form)}, (∀ pair ∈ pairs, P pair.1 ∧ Q pair.2) →
      (∀ pair ∈ (untilElse pairs).1, P pair.1 ∧ Q pair.2) ∧ Q (untilElse pairs).2
  | [], _ => ⟨by simp [untilElse], hnil⟩
  | (test, result) :: rest, h => by
    obtain ⟨hhead, htail⟩ := List.forall_mem_cons.mp h
    have ih := untilElse_forall hnil htail
    rw [untilElse]
    split
    · exact ⟨by simp, hhead.2⟩
    · exact ⟨List.forall_mem_cons.mpr ⟨hhead, ih.1⟩, ih.2⟩

/-- What holds of the results and of the default, by position, and of `nil`. -/
theorem splitCase_forall {P : Form → Prop} (hnil : P .nil) :
    ∀ (args : List Form), (∀ i arg, args[i]? = some arg → i % 2 = 1 ∨ i + 1 = args.length → P arg) →
      (∀ clause ∈ (splitCase args).1, P clause.2) ∧ P (splitCase args).2
  | [], _ => ⟨by simp [splitCase], hnil⟩
  | [default], h => ⟨by simp [splitCase], h 0 default rfl (Or.inr rfl)⟩
  | key :: result :: rest, h => by
    have ih := splitCase_forall hnil rest fun i arg hi hpos =>
      h (i + 2) arg (by simpa using hi) (by simp only [List.length_cons]; omega)
    refine ⟨List.forall_mem_cons.mpr ⟨h 1 result rfl (Or.inl rfl), ih.1⟩, ih.2⟩

/-- The lowering of forms that keep to their positions does not end in a fault about a
self-call. -/
structure Avoiding (lowering : Lowering) : Prop where
  expr : ∀ form, Calm form → Avoids (lowering.expr form)
  stmt : ∀ form, Calm form → Avoids (lowering.stmt form)
  tail : ∀ target form, target.selfCall = "recur" → CalmTail form →
    Avoids (lowering.tail target form)

variable {self : Lowering}

/-! #### Patterns and bindings -/

/-- The parts of a sequence pattern are binders in it. -/
theorem sequenceParts_calm {items : List Form} {p : SequencePattern} (holder : String)
    (hitems : ∀ item ∈ items, Calm item) (hp : Pattern.BindersFrom items p) :
    ∀ part ∈ sequenceParts p holder, Calm part.1 := by
  intro part hpart
  rcases List.mem_append.mp hpart with hpart | hpart
  · obtain ⟨⟨item, i⟩, hitem, rfl⟩ := List.mem_map.mp hpart
    exact hitems item (hp item (List.fst_mem_of_mem_zipIdx hitem))
  · obtain ⟨s, -, rfl⟩ := Option.map_eq_some_iff.mp (Option.mem_toList.mp hpart)
    exact Calm.symbol s

theorem tablePart_calm {expr : Form → Compile Expr} (p : TablePattern) (holder : String)
    (entry : Form × Key) :
    Yields (fun part => part.1 = entry.1) (tablePart expr p holder entry) := by
  unfold tablePart
  split
  · exact .pure rfl
  · exact .after fun _ => .pure rfl

/-- Patterns are taken apart without a look at self-calls; their defaults are calm expressions. -/
theorem expandWork_avoids {expr : Form → Compile Expr}
    (hexpr : ∀ form, Calm form → Avoids (expr form))
    (mode : BindMode) :
    ∀ (fuel : Nat) (work : List Work), (∀ part ∈ work, Calm part.1) →
      Avoids (expandWork expr mode fuel work)
  | 0, [], _ => .pure []
  | _ + 1, [], _ => .pure []
  | 0, _ :: _, _ => .fail (by nofun)
  | fuel + 1, (binder, value) :: work, h => by
    obtain ⟨hbinder, hwork⟩ := List.forall_mem_cons.mp h
    have hparse : Yields (fun pattern => Pattern.ofForm binder = .ok pattern)
        (Compile.lift (Pattern.ofForm binder)) := by
      intro c pattern c' hrun
      cases hform : Pattern.ofForm binder with
      | ok pattern' => rw [hform] at hrun; obtain ⟨rfl, -⟩ := pure_ok hrun; rfl
      | error fault => rw [hform] at hrun; exact (not_fail_ok hrun).elim
    have go (parts : List Work) (hparts : ∀ part ∈ parts, Calm part.1) :
        Avoids (expandWork expr mode fuel (parts ++ work)) :=
      expandWork_avoids hexpr mode fuel _ fun part hpart =>
        (List.mem_append.mp hpart).elim (hparts part) (hwork part)
    have hholder (whole : Option Symbol) : Avoids (holder mode whole) := by
      cases whole with
      | none => exact .fresh _
      | some s => exact .binder mode _
    rw [expandWork]
    refine .bind_of_yields (.lift (Pattern.ofForm_avoids (by simp [Pattern.OfTable]) binder)) hparse
      fun pattern hpattern => ?_
    cases pattern with
    | name s => exact .bind (.binder mode _) fun _ => .bind (go [] (by simp)) fun _ => .pure _
    | sequence p =>
      obtain ⟨items, span, rfl, hp⟩ := Pattern.items_of_ofForm_sequence hpattern
      exact .bind (hholder _) fun target =>
        .bind (go _ (sequenceParts_calm target hbinder.vector hp)) fun _ => .pure _
    | table p =>
      obtain ⟨first, items, span, rfl, hp⟩ := Pattern.items_of_ofForm_table hpattern
      have hitems (item : Form) (hitem : item ∈ items) : Calm item :=
        hbinder.vector item (List.mem_cons_of_mem _ hitem)
      have hdefault (key : Key) (form : Form) (hform : p.default? key = some form) :
          Calm form := by
        obtain ⟨default, hfind, rfl⟩ := Option.map_eq_some_iff.mp hform
        obtain ⟨entries, span, key, hmap, hentry⟩ :=
          hp.default default (List.mem_of_find?_eq_some hfind)
        exact ((hitems _ hmap).map _ hentry).2
      refine .bind (hholder _) fun target => ?_
      have hpart (entry : Form × Key) : Avoids (tablePart expr p target entry) := by
        unfold tablePart
        split
        · exact .pure _
        · rename_i form hform
          exact .bind (hexpr form (hdefault _ form hform)) fun _ => .pure _
      refine .bind_of_yields (.mapM fun entry _ => hpart entry)
        (P := fun parts => ∀ part ∈ parts, Calm part.1) (.mapM fun entry hentry => ?_)
        fun parts hparts => .bind (go parts hparts) fun _ => .pure _
      intro c part c' hrun
      rw [tablePart_calm p target entry hrun]
      exact hitems _ (hp.binder entry hentry)

theorem expand_avoids {expr : Form → Compile Expr} (hexpr : ∀ form, Calm form → Avoids (expr form))
    (mode : BindMode) (pattern : Form) (hpattern : Calm pattern) (value : Expr)
    (given : List Binding) : Avoids (expand expr mode pattern value given) :=
  .bind (expandWork_avoids hexpr mode _ _ (by simpa using hpattern)) fun _ =>
    .bind (.report _) fun _ => .pure _

/-- The binders and initializers of a binding vector. -/
theorem bindingPairs_yields {bindings : Form} (head : BindingHead) (h : Calm bindings) :
    Yields (fun pairs => ∀ pair ∈ pairs, Calm pair.1 ∧ Calm pair.2)
      (bindingPairs head bindings) := by
  unfold bindingPairs
  split
  · split
    · rename_i items span pairs hpairs
      refine .pure fun pair hpair => ?_
      obtain ⟨hfst, hsnd⟩ := Form.mem_of_pairUp hpairs hpair
      exact ⟨h.vector _ hfst, h.vector _ hsnd⟩
    · exact .fail _
  · exact .fail _

theorem bindingPairs_avoids (head : BindingHead) (bindings : Form) :
    Avoids (bindingPairs head bindings) := by
  unfold bindingPairs
  split
  · split
    · exact .pure _
    · exact .fail nofun
  · exact .fail nofun

theorem letBindings_avoids (h : self.Avoiding) {bindings : Form} (hbindings : Calm bindings) :
    Avoids (letBindings self bindings) := by
  refine .bind_of_yields (bindingPairs_avoids _ _) (bindingPairs_yields _ hbindings)
    fun pairs hpairs => .bind (.mapM fun pair hpair => ?_) fun _ => .pure _
  obtain ⟨hbinder, hinit⟩ := hpairs pair hpair
  exact .bind (.collect (.bind (h.expr _ hinit) fun value =>
    expand_avoids h.expr .fresh _ hbinder value [])) fun _ => .pure _

/-! #### Expressions -/

theorem condClauses_avoids (form : Form) (args : List Form) : Avoids (condClauses form args) := by
  unfold condClauses
  split
  · exact .pure _
  · exact .fail nofun

theorem caseParts_avoids (form : Form) (args : List Form) : Avoids (caseParts form args) := by
  cases args with
  | nil => exact .fail nofun
  | cons selector rest =>
    refine .bind (.mapM fun clause _ => ?_) fun _ => .pure _
    unfold caseClause
    split
    · exact .pure _
    · exact .fail nofun

theorem returning_avoids (h : self.Avoiding) :
    ∀ forms : List Form, (∀ form ∈ forms, Calm form) → Avoids (returning self forms)
  | [], _ => .bind (h.expr _ (Calm.const _)).collect fun _ => .pure _
  | [form], hforms => .bind (h.expr _ (hforms form (by simp))).collect fun _ => .pure _
  | form :: next :: forms, hforms =>
    .bind (h.stmt _ (hforms form (by simp))) fun _ =>
      .bind (returning_avoids h (next :: forms) fun form' hform' =>
        hforms form' (List.mem_cons_of_mem _ hform')) fun _ => .pure _

theorem ifExpr_avoids (h : self.Avoiding) (form : Form) {args : List Form}
    (hargs : ∀ arg ∈ args, Calm arg) : Avoids (ifExpr self form args) := by
  have build {test yes no : Form} (htest : Calm test) (hyes : Calm yes) (hno : Calm no) :
      Avoids (ifExpr.build self form test yes no) :=
    .bind (h.expr _ htest) fun _ => .bind (h.expr _ hyes) fun _ =>
      .bind (h.expr _ hno) fun _ => .pure _
  unfold ifExpr
  split
  · exact build (hargs _ (by simp)) (hargs _ (by simp)) (Calm.const _)
  · exact build (hargs _ (by simp)) (hargs _ (by simp)) (hargs _ (by simp))
  · exact .fail nofun

theorem condExpr_avoids (h : self.Avoiding) (form : Form) {args : List Form}
    (hargs : ∀ arg ∈ args, Calm arg) : Avoids (condExpr self form args) := by
  refine .bind_of_yields (condClauses_avoids form args) (condClauses_yields form args)
    fun result hresult => ?_
  obtain ⟨pairs, hpairs, rfl⟩ := hresult
  obtain ⟨hclauses, hdefault⟩ := untilElse_forall (P := Calm) (Q := Calm) (Calm.const _)
    fun pair hpair =>
      ⟨hargs _ (Form.mem_of_pairUp hpairs hpair).1, hargs _ (Form.mem_of_pairUp hpairs hpair).2⟩
  exact .bind (h.expr _ hdefault) fun last => .foldrM last fun clause hclause _ =>
    .bind (h.expr _ (hclauses clause hclause).1) fun _ =>
      .bind (h.expr _ (hclauses clause hclause).2) fun _ => .pure _

/-- The selector, the results and the default of a `case`. -/
theorem caseParts_forall {P : Form → Prop} (form selector : Form) {rest : List Form}
    (hrest : (∀ clause ∈ (splitCase rest).1, P clause.2) ∧ P (splitCase rest).2) :
    Yields (fun parts => parts.selector = selector ∧ P parts.default
      ∧ ∀ clause ∈ parts.clauses, P clause.2) (caseParts form (selector :: rest)) := by
  intro c parts c' hrun
  obtain ⟨hselector, hdefault, hclauses⟩ := caseParts_yields form selector rest hrun
  refine ⟨hselector, hdefault ▸ hrest.2, fun clause hclause => ?_⟩
  have hmem : clause.2 ∈ (splitCase rest).1.map (·.2) := hclauses ▸ List.mem_map_of_mem hclause
  obtain ⟨clause', hclause', heq⟩ := List.mem_map.mp hmem
  exact heq ▸ hrest.1 clause' hclause'

/-- The keys of a `case` are not visited. Its selector, its results and its default are calm. -/
theorem caseExpr_avoids (h : self.Avoiding) (form : Form) {s : Symbol} {args : List Form}
    {span : Option Span} (hform : Calm (.list (.symbol s :: args) span))
    (hsp : Special.ofName? s.name = some .caseForm) : Avoids (caseExpr self form args) := by
  have hargs := (hform.special hsp).2.2.2.2 (by simp)
  cases args with
  | nil =>
    exact .bind_of_yields (P := fun _ => False) (caseParts_avoids form []) (.fail _)
      fun _ hfalse => hfalse.elim
  | cons selector rest =>
    have hrest := splitCase_forall (Calm.const _) rest fun i arg hi hpos =>
      hargs (i + 1) arg (by simpa using hi) (by
        rw [Special.position, if_neg (by omega), if_pos (by simp only [List.length_cons]; omega)])
    refine .bind_of_yields (caseParts_avoids form _) (caseParts_forall form selector hrest)
      fun parts hparts => ?_
    obtain ⟨hselector, hdefault, hclauses⟩ := hparts
    have hselector : Calm parts.selector := hselector ▸ hargs 0 selector rfl rfl
    exact .bind (h.expr _ hselector) fun _ => .bind (.fresh _) fun _ =>
      .bind (.collect (.bind (h.expr _ hdefault) fun _ => .foldrM _ fun clause hclause _ =>
        .bind (h.expr _ (hclauses clause hclause)) fun _ => .pure _)) fun _ =>
        .bind (.fresh _) fun _ => .bind (.hoist _) fun _ => .pure _

theorem symbolExpr_avoids (s : Symbol) : Avoids (symbolExpr s) := by
  unfold symbolExpr
  dsimp only
  split
  · exact .fail nofun
  · split
    · exact .fail nofun
    · exact .bind (.resolve _) fun _ => .pure _

theorem logicalExpr_avoids (h : self.Avoiding) (op : LogicalOp) (form : Form) {args : List Form}
    (hargs : ∀ arg ∈ args, Calm arg) : Avoids (logicalExpr self op form args) := by
  unfold logicalExpr
  split
  · exact .pure _
  · exact h.expr _ (hargs _ (by simp))
  · exact .bind (.mapM fun operand hoperand => h.expr operand (hargs _ hoperand)) fun _ => .pure _

theorem doExpr_avoids (h : self.Avoiding) (form : Form) {args : List Form}
    (hargs : ∀ arg ∈ args, Calm arg) : Avoids (doExpr self form args) := by
  unfold doExpr
  split
  · exact .pure _
  · exact h.expr _ (hargs _ (by simp))
  · exact .bind (.collect (returning_avoids h _ hargs)) fun _ =>
      .bind (.fresh _) fun _ => .bind (.hoist _) fun _ => .pure _

/-- A `let` expression has its bindings and its body in positions that are not tails. -/
theorem letExpr_avoids (h : self.Avoiding) (form : Form) {args : List Form}
    (hargs : ∀ arg ∈ args, Calm arg) : Avoids (letExpr self form args) := by
  cases args with
  | nil => exact .fail nofun
  | cons bindings body =>
    obtain ⟨hbindings, hbody⟩ := List.forall_mem_cons.mp hargs
    have hbinding {binding : Form × Form} (hbinder : Calm binding.1) (hinit : Calm binding.2) :
        Avoids (letBinding self binding) :=
      .bind (.collect (.bind (h.expr _ hinit) fun value =>
        expand_avoids h.expr _ _ hbinder value [])) fun _ => .pure _
    refine .bind (.inScope ?_) fun _ =>
      .bind (.fresh _) fun _ => .bind (.hoist _) fun _ => .pure _
    exact .bind_of_yields (bindingPairs_avoids _ _) (bindingPairs_yields _ hbindings)
      fun pairs hpairs => .bind (.mapM fun pair hpair =>
        hbinding (hpairs pair hpair).1 (hpairs pair hpair).2) fun _ =>
        .bind (.collect (returning_avoids h body hbody)) fun _ => .pure _

/-- A special form as an expression. It is none that has functions, loops or self-calls in it. -/
theorem specialExpr_avoids (h : self.Avoiding) {sp : Special} (head : String) (form : Form)
    {s : Symbol} {args : List Form} {span : Option Span}
    (hform : Calm (.list (.symbol s :: args) span)) (hsp : Special.ofName? s.name = some sp) :
    Avoids (specialExpr self sp head form args) := by
  obtain ⟨hrecur, hfn, hdefn, hloop, -⟩ := hform.special hsp
  have hargs := hform.all_args hsp
  unfold specialExpr
  split
  · exact ifExpr_avoids h form (hargs (by simp) (by simp))
  · exact condExpr_avoids h form (hargs (by simp) (by simp))
  · exact caseExpr_avoids h form hform hsp
  · exact doExpr_avoids h form (hargs (by simp) (by simp))
  · exact letExpr_avoids h form (hargs (by simp) (by simp))
  · contradiction
  · contradiction
  · exact logicalExpr_avoids h _ form (hargs (by simp) (by simp))
  · exact logicalExpr_avoids h _ form (hargs (by simp) (by simp))
  · split
    · exact .bind (h.expr _ (hargs (by simp) (by simp) _ (by simp))) fun _ => .pure _
    · exact .fail nofun
  · split
    · exact .pure _
    · exact .fail nofun
  · contradiction
  · exact .fail nofun
  · contradiction

theorem callExpr_avoids (h : self.Avoiding) (form : Form) {head : Form} {args : List Form}
    (hhead : Calm head) (hargs : ∀ arg ∈ args, Calm arg) :
    Avoids (callExpr self form head args) :=
  .bind (h.expr _ hhead) fun _ => .bind (.mapM fun arg harg => h.expr arg (hargs arg harg))
    fun _ => .pure _

theorem headedExpr_avoids (h : self.Avoiding) (form : Form) {s : Symbol} {args : List Form}
    {span : Option Span} (hform : Calm (.list (.symbol s :: args) span)) :
    Avoids (headedExpr self form s args) := by
  unfold headedExpr
  split
  · exact specialExpr_avoids h _ form hform ‹_›
  · have hargs := hform.call ‹_›
    unfold binaryExpr
    split
    · exact .fail nofun
    · split
      · exact .bind (h.expr _ (hargs _ (by simp))) fun _ => .pure _
      · exact h.expr _ (hargs _ (by simp))
    · exact .bind (h.expr _ (hargs _ (by simp))) fun first => .foldlM first
        fun _ operand hoperand =>
          .bind (h.expr _ (hargs _ (List.mem_cons_of_mem _ hoperand))) fun _ => .pure _
  · have hargs := hform.call ‹_›
    unfold compareExpr
    split
    · exact .bind (h.expr _ (hargs _ (by simp))) fun _ => .bind (.mapM fun operand hoperand =>
        h.expr _ (hargs _ (List.mem_cons_of_mem _ hoperand))) fun _ => .pure _
    · exact .fail nofun
  · exact callExpr_avoids h form (Calm.symbol s) (hform.call ‹_›)

/-- One step of lowering as an expression. A calm form has no self-call to be refused. -/
theorem exprStep_avoids (h : self.Avoiding) {form : Form} (hform : Calm form) :
    Avoids (exprStep self form) := by
  unfold exprStep
  split
  · exact .pure _
  · exact symbolExpr_avoids _
  · exact .pure _
  · exact .bind (.mapM fun item hitem => h.expr item (hform.vector item hitem)) fun _ => .pure _
  · exact .bind (.mapM fun entry hentry => h.expr _ (hform.map entry hentry).1) fun _ =>
      .bind (.mapM fun entry hentry => h.expr _ (hform.map entry hentry).2) fun _ => .pure _
  · exact .pure _
  · exact headedExpr_avoids h _ hform
  · rename_i head args span hnot
    have hitems := hform.application (by cases head <;> simp_all [Form.head?])
    exact callExpr_avoids h _ (hitems _ (by simp)) fun arg harg =>
      hitems _ (List.mem_cons_of_mem _ harg)

/-! #### Statements and tails -/

theorem stmts_avoids (h : self.Avoiding) {forms : List Form} (hforms : ∀ form ∈ forms, Calm form) :
    Avoids (stmts self forms) :=
  .bind (.mapM fun form hform => h.stmt form (hforms form hform)) fun _ => .pure _

/-- One step of lowering as a statement. -/
theorem bareStmt_avoids (h : self.Avoiding) {form : Form} (hform : Calm form) :
    Avoids (bareStmt self form) := by
  have expr : Avoids (exprStmt self form) := .bind (exprStep_avoids h hform) fun _ => .pure _
  unfold bareStmt
  split
  · split
    · rename_i hsp
      have hargs := hform.all_args hsp (by simp) (by simp)
      unfold ifStmt
      split
      · exact .bind (h.expr _ (hargs _ (by simp))) fun _ =>
          .bind (h.stmt _ (hargs _ (by simp))) fun _ => .pure _
      · exact .bind (h.expr _ (hargs _ (by simp))) fun _ =>
          .bind (h.stmt _ (hargs _ (by simp))) fun _ =>
            .bind (h.stmt _ (hargs _ (by simp))) fun _ => .pure _
      · exact .fail nofun
    · rename_i hsp
      split
      · exact .pure _
      · exact stmts_avoids h (hform.all_args hsp (by simp) (by simp))
    · rename_i hsp
      have hargs := hform.all_args hsp (by simp) (by simp)
      unfold defStmt
      split
      · exact .bind (expand_avoids h.expr _ _ (hargs _ (by simp)) _ _) fun _ => .pure _
      · exact .bind (h.expr _ (hargs _ (by simp))) fun _ =>
          .bind (expand_avoids h.expr _ _ (hargs _ (by simp)) _ _) fun _ => .pure _
      · exact .fail nofun
    · rename_i hsp
      exact absurd rfl (hform.special hsp).2.2.1
    · rename_i hsp
      have hargs := hform.all_args hsp (by simp) (by simp)
      unfold letStmt
      split
      · exact .fail fun hkind => by cases hkind
      · exact .inScope (.bind (letBindings_avoids h (hargs _ (by simp))) fun _ =>
          .bind (stmts_avoids h fun form hform => hargs form (List.mem_cons_of_mem _ hform))
            fun _ => .pure _)
    · rename_i hsp
      exact absurd rfl (hform.special hsp).2.2.2.1
    · rename_i hsp
      exact absurd rfl (hform.special hsp).1
    · exact expr
  · exact expr

variable {target : LoopTarget}

theorem exitWith_avoids (target : LoopTarget) (value : Expr) (span : Option Span) :
    Avoids (exitWith target value span) := by
  unfold exitWith
  split
  · exact .pure _
  · exact .fail (by nofun)

/-- The number of arguments may be wrong, which is a fault of another kind; the arguments are
calm. -/
theorem jump_avoids (h : self.Avoiding) (target : LoopTarget) (form : Form) {args : List Form}
    (hargs : ∀ arg ∈ args, Calm arg) : Avoids (jump self target form args) := by
  unfold jump
  split
  · exact .bind (.mapM fun arg harg => .bind (.fresh _) fun _ =>
      .bind (h.expr arg (hargs arg harg)) fun _ => .pure _) fun _ => .pure _
  · exact .fail nofun

/-- All forms of a body but the last keep clear of self-calls, and the last keeps to tail
position. -/
theorem loopBody_avoids (h : self.Avoiding) (hself : target.selfCall = "recur") :
    ∀ forms : List Form,
      (∀ i form, forms[i]? = some form →
        (i + 1 = forms.length → CalmTail form) ∧ (i + 1 ≠ forms.length → Calm form)) →
      Avoids (loopBody self target forms)
  | [], _ => exitWith_avoids target _ _
  | [form], hforms => h.tail target form hself ((hforms 0 form rfl).1 rfl)
  | form :: next :: forms, hforms => by
    refine .bind (h.stmt form ((hforms 0 form rfl).2 (by simp))) fun _ =>
      .bind (loopBody_avoids h hself (next :: forms) fun i form' hi => ?_) fun _ => .pure _
    have hform' := hforms (i + 1) form' hi
    simp only [List.length_cons] at hform' ⊢
    exact ⟨fun hlast => hform'.1 (by omega), fun hinner => hform'.2 (by omega)⟩

/-- Only the last operand is a tail. -/
theorem tailLogical_avoids (h : self.Avoiding) (hself : target.selfCall = "recur")
    (op : LogicalOp) (form : Form) :
    ∀ forms : List Form,
      (∀ i form, forms[i]? = some form →
        (i + 1 = forms.length → CalmTail form) ∧ (i + 1 ≠ forms.length → Calm form)) →
      Avoids (tailLogical self target op form forms)
  | [], _ => exitWith_avoids target _ _
  | [operand], hforms => h.tail target operand hself ((hforms 0 operand rfl).1 rfl)
  | operand :: next :: forms, hforms => by
    refine .bind (.fresh _) fun _ => .bind (h.expr operand ((hforms 0 operand rfl).2 (by simp)))
      fun _ => .bind (exitWith_avoids target _ _) fun _ =>
        .bind (tailLogical_avoids h hself op form (next :: forms) fun i form' hi => ?_)
          fun _ => .pure _
    have hform' := hforms (i + 1) form' hi
    simp only [List.length_cons] at hform' ⊢
    exact ⟨fun hlast => hform'.1 (by omega), fun hinner => hform'.2 (by omega)⟩

section Tails

variable {s : Symbol} {args : List Form} {span : Option Span}

/-- The test is calm, and both branches are tails. -/
theorem tailIf_avoids (h : self.Avoiding) (hself : target.selfCall = "recur") (form : Form)
    (hform : CalmTail (.list (.symbol s :: args) span)) (hname : s.name ≠ "recur")
    (hsp : Special.ofName? s.name = some .ifForm) : Avoids (tailIf self target form args) := by
  have build {test yes no : Form} (htest : Calm test) (hyes : CalmTail yes) (hno : CalmTail no) :
      Avoids (tailIf.build self target form test yes no) :=
    .bind (h.expr _ htest) fun _ => .bind (h.tail target _ hself hyes) fun _ =>
      .bind (h.tail target _ hself hno) fun _ => .pure _
  have hargs {i : Nat} {arg : Form} (hi : args[i]? = some arg) := hform.special hname hsp rfl hi
  unfold tailIf
  split
  · exact build ((hargs (i := 0) rfl).2 rfl) ((hargs (i := 1) rfl).1 rfl) CalmTail.nil
  · exact build ((hargs (i := 0) rfl).2 rfl) ((hargs (i := 1) rfl).1 rfl)
      ((hargs (i := 2) rfl).1 rfl)
  · exact .fail nofun

/-- The tests are calm, and the results are tails. -/
theorem tailCond_avoids (h : self.Avoiding) (hself : target.selfCall = "recur") (form : Form)
    (hform : CalmTail (.list (.symbol s :: args) span)) (hname : s.name ≠ "recur")
    (hsp : Special.ofName? s.name = some .condForm) :
    Avoids (tailCond self target form args) := by
  refine .bind_of_yields (condClauses_avoids form args) (condClauses_yields form args)
    fun result hresult => ?_
  obtain ⟨pairs, hpairs, rfl⟩ := hresult
  obtain ⟨hclauses, hdefault⟩ := untilElse_forall (P := Calm) (Q := CalmTail) CalmTail.nil
    fun pair hpair => by
      obtain ⟨i, hi⟩ := List.mem_iff_getElem?.mp hpair
      obtain ⟨htest, hresult⟩ := Form.pairUp_getElem? hpairs hi
      exact ⟨(hform.special hname hsp rfl htest).2 (by simp [Special.position]),
        (hform.special hname hsp rfl hresult).1 (by simp [Special.position])⟩
  exact .bind (h.tail target _ hself hdefault) fun last => .foldrM last fun clause hclause _ =>
    .bind (h.expr _ (hclauses clause hclause).1) fun _ =>
      .bind (h.tail target _ hself (hclauses clause hclause).2) fun _ => .pure _

/-- The selector is calm, and the results and the default are tails. -/
theorem tailCase_avoids (h : self.Avoiding) (hself : target.selfCall = "recur") (form : Form)
    (hform : CalmTail (.list (.symbol s :: args) span)) (hname : s.name ≠ "recur")
    (hsp : Special.ofName? s.name = some .caseForm) :
    Avoids (tailCase self target form args) := by
  cases args with
  | nil =>
    exact .bind_of_yields (P := fun _ => False) (caseParts_avoids form []) (.fail _)
      fun _ hfalse => hfalse.elim
  | cons selector rest =>
    have hrest := splitCase_forall CalmTail.nil rest fun i arg hi hpos =>
      (hform.special hname hsp rfl (i := i + 1) (by simpa using hi)).1 (by
        rw [Special.position, if_neg (by omega), if_pos (by simp only [List.length_cons]; omega)])
    have hfirst := (hform.special hname hsp rfl (i := 0) rfl).2 rfl
    refine .bind_of_yields (caseParts_avoids form _) (caseParts_forall form selector hrest)
      fun parts hparts => ?_
    obtain ⟨hselector, hdefault, hclauses⟩ := hparts
    exact .bind (.fresh _) fun _ => .bind (h.expr _ (hselector ▸ hfirst)) fun _ =>
      .bind (h.tail target _ hself hdefault) fun last =>
        .bind (.foldrM last fun clause hclause _ =>
          .bind (h.tail target _ hself (hclauses clause hclause)) fun _ => .pure _)
          fun _ => .pure _

/-- The bindings are calm, and so are all forms of the body but the last. -/
theorem tailLet_avoids (h : self.Avoiding) (hself : target.selfCall = "recur") (form : Form)
    (hform : CalmTail (.list (.symbol s :: args) span)) (hname : s.name ≠ "recur")
    (hsp : Special.ofName? s.name = some .letForm) : Avoids (tailLet self target form args) := by
  cases args with
  | nil => exact .fail nofun
  | cons bindings body =>
    have hbindings := (hform.special hname hsp rfl (i := 0) rfl).2 rfl
    refine .inScope (.bind (letBindings_avoids h hbindings) fun _ =>
      .bind (loopBody_avoids h hself body fun i form hi => ?_) fun _ => .pure _)
    have hform := hform.special hname hsp rfl (i := i + 1) (by simpa using hi)
    exact ⟨fun hlast => hform.1 (by rw [Special.position, List.length_cons, ← hlast]; simp),
      fun hinner => hform.2 (by simp [Special.position, hinner])⟩

/-- The last form of `do`, `and` and `or` inherits the position. -/
theorem lastTail_args {sp : Special} (hform : CalmTail (.list (.symbol s :: args) span))
    (hname : s.name ≠ "recur") (hsp : Special.ofName? s.name = some sp)
    (hposition : ∀ i, sp.position true args.length i = some (i + 1 == args.length))
    (hpasses : sp.passesTail = true) (i : Nat) (form : Form) (hi : args[i]? = some form) :
    (i + 1 = args.length → CalmTail form) ∧ (i + 1 ≠ args.length → Calm form) := by
  have hform := hform.special hname hsp hpasses hi
  exact ⟨fun hlast => hform.1 (by simp [hposition, hlast]),
    fun hinner => hform.2 (by simp [hposition, hinner])⟩

end Tails

/-- One step of lowering in the tail of a loop: a self-call is a jump, and other forms pass the
position on as the walk does. -/
theorem tailStep_avoids (h : self.Avoiding) (hself : target.selfCall = "recur") {form : Form}
    (hform : CalmTail form) : Avoids (tailStep self target form) := by
  have exit (hexit : ∀ s args span, form = .list (.symbol s :: args) span →
      s.name ≠ "recur" ∧ ∀ sp, Special.ofName? s.name = some sp → sp.passesTail = false) :
      Avoids (exitStep self target form) :=
    .bind (exprStep_avoids h (hform.calm_of_exit hexit)) fun _ => exitWith_avoids target _ _
  unfold tailStep
  split
  · rename_i head args span
    split
    · rename_i hname
      exact jump_avoids h target _ (hform.jumpArgs (hname.trans hself))
    · rename_i hname
      rw [hself] at hname
      split
      · exact tailIf_avoids h hself _ hform hname ‹_›
      · exact tailCond_avoids h hself _ hform hname ‹_›
      · exact tailCase_avoids h hself _ hform hname ‹_›
      · exact tailLet_avoids h hself _ hform hname ‹_›
      · exact loopBody_avoids h hself _ (lastTail_args hform hname ‹_› (fun _ => rfl) rfl)
      · exact tailLogical_avoids h hself _ _ _
          (lastTail_args hform hname ‹_› (fun _ => rfl) rfl)
      · exact tailLogical_avoids h hself _ _ _
          (lastTail_args hform hname ‹_› (fun _ => rfl) rfl)
      · refine exit ?_
        rintro s args' span' ⟨⟩
        refine ⟨hname, fun sp hsp => ?_⟩
        cases sp <;> first | rfl | contradiction
  · refine exit ?_
    rintro s args span rfl
    rename_i hnot
    exact absurd rfl (hnot s args span)

/-- **Forms without functions and loops are lowered without a fault about self-calls** that the walk
has let pass. -/
theorem upTo_avoiding : ∀ n : Nat, (upTo n).Avoiding
  | 0 => by
    refine ⟨fun form _ => .fail ?_, fun form _ => .fail ?_, fun target form _ _ => .fail ?_⟩
    all_goals nofun
  | n + 1 => by
    have h := upTo_avoiding n
    exact ⟨fun form hform => exprStep_avoids h hform,
      fun form hform => .bind (.collect (bareStmt_avoids h hform)) fun _ => .pure _,
      fun target form hself hform => tailStep_avoids h hself hform⟩

end Lowering

/-! ### The walk and the lowering agree -/

theorem allTail_of_ok {self : String} {body : List Form}
    (hok : (Verdict.ofBody self true body).ok = true) : AllTail (OccursInBody self body) := by
  obtain ⟨os, hos, hv⟩ := Verdict.ofBody_found self body
  rw [hv, Verdict.ofOccurrences_ok] at hok
  exact fun o ho => hok o ((hos.mem_iff o).mpr ho)

/-- Let the walk accept a body. If the body is lowered, then the jumps of the code correspond in
order to the self-calls on record, apart from those after a clause of a `cond` that always holds;
each of them is what the self-call is lowered to and ends in its one `continue`. And if the
self-calls are `recur`, and the body has no function and no loop inside, then lowering does not
end in a fault about a self-call. -/
theorem Lowering.loopBody_agrees_with_walk (n : Nat) (target : LoopTarget) (body : List Form)
    (c : Context) (hok : (Verdict.ofBody target.selfCall true body).ok = true) :
    (∀ ss c', loopBody (upTo n) target body c = .ok ss c' →
      ∃ os, Enumerates os (OccursInBody target.selfCall body)
        ∧ (Verdict.ofBody target.selfCall true body).calls = os.map (·.call)
        ∧ List.Forall₂ (fun o block => IsJumpOf target o block
              ∧ ∃ init place, block = init ++ [.next place] ∧ Stmt.Quiet init)
            (os.filter fun o => !Form.afterElseInBody body o.path)
            (Stmt.jumpsOfAll target.jumpSize [] ss))
    ∧ (target.selfCall = "recur" → Form.hasInnerIn body = false →
        ∀ fault c', loopBody (upTo n) target body c = .error fault c' →
          fault.kind ≠ .tailPosition) := by
  have hall := allTail_of_ok hok
  refine ⟨fun ss c' hrun => ?_, fun hself hinner fault c' hrun => ?_⟩
  · obtain ⟨os, hos, hv⟩ := Verdict.ofBody_found target.selfCall body
    refine ⟨os, hos, ?_, (loopBody_jumps hall hrun hos).imp ?_⟩
    · rw [hv, Verdict.ofOccurrences_calls fun o ho => hall o ((hos.mem_iff o).mp ho)]
    · rintro o block ⟨m, c₁, c₂, hjump⟩
      exact ⟨⟨m, c₁, c₂, hjump⟩, (jump_block target _ _ hjump).2⟩
  · rw [hself] at hall
    refine loopBody_avoids (upTo_avoiding n) hself body (fun i form hi => ?_) hrun
    have hform : form.hasInner = false :=
      Form.hasInnerIn_eq_false.mp hinner form (List.mem_of_getElem? hi)
    have hoccurs {t : Bool} (ht : (i + 1 == body.length) = t) : AllTail (Occurs "recur" t form) :=
      fun o ho => hall (o.under i) ⟨i, form, o, hi, ht ▸ ho, rfl⟩
    exact ⟨fun hlast => ⟨hoccurs (by simpa using hlast), hform⟩,
      fun hne => ⟨(hoccurs (by simpa using hne)).not_occurs, hform⟩⟩

/-- A body with two self-calls, the second of them after a test that always holds:
`(cond (= n 0) n true (recur (dec n)) :else (recur n))`. -/
def Form.overtaken : List Form :=
  [.made [.named "cond",
    .made [.named "=", .named "n", .const (.int 0)], .named "n",
    .const (.bool true), .made [.named "recur", .made [.named "dec", .named "n"]],
    .keyword ⟨"else", .none⟩, .made [.named "recur", .named "n"]]]

theorem Lowering.overtaken_agrees_with_walk :
    (Verdict.ofBody "recur" true Form.overtaken).ok = true
    ∧ (Verdict.ofBody "recur" true Form.overtaken).calls.length = 2
    ∧ (∃ ss c', loopBody (upTo 4) { vars := ["n"], exit := some ⟨"go", "result"⟩ }
          Form.overtaken {} = .ok ss c'
        ∧ (Stmt.jumpsOfAll 3 [] ss).length = 1
        ∧ ∃ os, Enumerates os (OccursInBody "recur" Form.overtaken)
          ∧ (Verdict.ofBody "recur" true Form.overtaken).calls = os.map (·.call)
          ∧ List.Forall₂ (fun o block =>
                IsJumpOf { vars := ["n"], exit := some ⟨"go", "result"⟩ } o block
                ∧ ∃ init place, block = init ++ [.next place] ∧ Stmt.Quiet init)
              (os.filter fun o => !Form.afterElseInBody Form.overtaken o.path)
              (Stmt.jumpsOfAll 3 [] ss))
    ∧ (Form.hasInnerIn Form.overtaken = false
      ∧ ∀ n fault c', loopBody (upTo n) { vars := ["n"] } Form.overtaken {} = .error fault c' →
          fault.kind ≠ .tailPosition) :=
  ⟨by decide, by decide,
    ⟨_, _, rfl, by decide, (loopBody_agrees_with_walk 4
      { vars := ["n"], exit := some ⟨"go", "result"⟩ } Form.overtaken {} (by decide)).1 _ _ rfl⟩,
    by decide, fun n => (loopBody_agrees_with_walk n { vars := ["n"] } Form.overtaken {}
      (by decide)).2 rfl (by decide)⟩

end TailLisp
