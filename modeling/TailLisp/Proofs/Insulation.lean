import TailLisp.Run.Builtin
import TailLisp.Proofs.Veil

/-!
# TailLisp.Proofs.Insulation

**Operators and the library do not see veiled variables.** They work on values, lists and
iterators, and variables matter to them only through the functions of the program that they call.
So they are insulated as soon as the two operations that run code are (`Interp.Insulated`). The
module follows `Run.Interp`, `Run.Format`, `Run.Operation`, `Run.Library` and `Run.Builtin` and has
one lemma for each computation there; what it says beside insulation is that clean values lead to
clean values.
-/

namespace TailLisp.Interp

open Veil

/-- Calls and iterators do not see the veiled variables. -/
structure Insulated (V : Veil) (interp : Interp) : Prop where
  call : ∀ fn args, V.Clean fn → (∀ v ∈ args, V.Clean v) →
    V.Insulated .nothing (interp.call fn args) V.Clean
  next : ∀ ref, V.Insulated .nothing (interp.next ref) fun item => ∀ v ∈ item, V.Clean v

variable {V : Veil} {self : Interp} {reach : Reach} {α : Type}

/-! ### Iteration -/

theorem nextAll_insulated (hself : self.Insulated V) (refs : List Nat) :
    V.Insulated reach (nextAll self refs) fun items => ∀ vs ∈ items, ∀ v ∈ vs, V.Clean v := by
  induction refs with
  | nil => exact .pure (by simp)
  | cons ref refs ih =>
    refine (hself.next ref).weaken.bind fun item hitem => ?_
    cases item with
    | none => exact .pure (by simp)
    | some v =>
      refine ih.bind fun items hitems => ?_
      cases items with
      | none => exact .pure (by simp)
      | some vs => exact .pure (by simpa using ⟨hitem v rfl, hitems vs rfl⟩)

/-- The next item of an iterator, by its kind. -/
theorem nextStep_insulated (hself : self.Insulated V) (ref : Nat) :
    V.Insulated reach (nextStep self ref) fun item => ∀ v ∈ item, V.Clean v := by
  refine (iterAt_insulated ref).bind fun iter hiter => ?_
  match iter, hiter with
  | .list list position, _ =>
    refine (listAt_insulated list).bind fun items hitems => ?_
    cases hv : items[position]? with
    | some v =>
      refine (setIter_insulated ref (by simp [CleanIter])).bind fun _ _ => .pure ?_
      simpa using hitems v (Array.mem_of_getElem? hv)
    | none => exact (setIter_insulated ref (by simp [CleanIter])).bind fun _ _ => .pure (by simp)
  | .row _ [], _ => exact .pure (by simp)
  | .row kind (v :: vs), hiter =>
    simp only [CleanIter, cleanAll_iff, List.forall_mem_cons] at hiter
    refine (setIter_insulated ref ?_).bind fun _ _ => .pure (by simpa using hiter.1)
    simpa [CleanIter] using hiter.2
  | .range _ _ 0 _, _ => exact .pure (by simp)
  | .range kind i (left + 1) step, _ =>
    exact (setIter_insulated ref (by simp [CleanIter])).bind fun _ _ => .pure (by simp)
  | .map fn sources, hiter =>
    refine (nextAll_insulated hself sources).bind fun items hitems => ?_
    cases items with
    | none => exact .pure (by simp)
    | some args =>
      refine (hself.call fn args hiter (hitems args rfl)).weaken.bind fun v hv => ?_
      exact .pure (by simpa using hv)
  | .calls fn last, hiter =>
    refine (hself.call fn [] hiter.1 (by simp)).weaken.bind fun v hv => ?_
    refine (same_insulated last v).bind fun ended _ => ?_
    split
    · exact (setIter_insulated ref (by simp [CleanIter])).bind fun _ _ => .pure (by simp)
    · exact .pure (by simpa using hv)

theorem drainIter_insulated (hself : self.Insulated V) (ref rounds : Nat) :
    V.Insulated reach (drainIter self ref rounds) fun vs => ∀ v ∈ vs, V.Clean v := by
  induction rounds with
  | zero => exact .fail
  | succ rounds ih =>
    refine (hself.next ref).weaken.bind fun item hitem => ?_
    cases item with
    | none => exact .pure (by simp)
    | some v => exact ih.bind fun vs hvs => .pure (by simpa using ⟨hitem v rfl, hvs⟩)

theorem checkRoom_insulated (tooLong : Failure) (n : Nat) :
    V.Insulated reach (checkRoom tooLong n) fun _ => True := by
  refine .get (fun W => by simp) fun W _ => ?_
  split
  · exact .pure trivial
  · exact .fail

theorem rangeValues_insulated (start stop step : Int) :
    V.Insulated reach (rangeValues start stop step) fun vs => ∀ v ∈ vs, V.Clean v := by
  refine (checkRoom_insulated _ _).bind fun _ _ => .pure fun v hv => ?_
  obtain ⟨i, -, rfl⟩ := List.mem_map.mp hv
  exact clean_ofInt i

/-- All items of a value: a collection has them, an iterator is asked for them. -/
theorem drain_insulated (hself : self.Insulated V) {v : Value} (hv : V.Clean v) :
    V.Insulated reach (drain self v) fun vs => ∀ u ∈ vs, V.Clean u := by
  unfold drain
  split
  · exact items_insulated _
  · exact .pure (by simpa using hv)
  · exact .pure (clean_chars _)
  · refine .pure fun u hu => ?_
    obtain ⟨e, he, rfl⟩ := List.mem_map.mp hu
    exact (clean_dict.mp hv e he).1
  · exact rangeValues_insulated _ _ _
  · refine (iterAt_insulated _).bind fun iter _ => ?_
    have hdrain {ref : Nat} : V.Insulated reach (do drainIter self ref ((← get).room + 1))
        fun vs => ∀ u ∈ vs, V.Clean u :=
      .get (fun W => by simp) fun W _ => drainIter_insulated hself _ _
    split
    · exact (checkRoom_insulated _ _).bind fun _ _ => hdrain
    · exact hdrain
  · exact (typeName_insulated _).bind fun _ _ => .fail

theorem iterate_insulated {v : Value} (hv : V.Clean v) :
    V.Insulated reach (iterate v) fun _ => True := by
  unfold iterate
  split
  · exact .pure trivial
  · exact newIter_insulated trivial
  · exact newIter_insulated (by simpa [CleanIter] using hv)
  · exact newIter_insulated (by simpa [CleanIter] using clean_chars _)
  · refine newIter_insulated ?_
    simp only [CleanIter, cleanAll_iff]
    intro u hu
    obtain ⟨e, he, rfl⟩ := List.mem_map.mp hu
    exact (clean_dict.mp hv e he).1
  · exact newIter_insulated trivial
  · exact (typeName_insulated _).bind fun _ _ => .fail

theorem foldIter_insulated {Q : α → Prop} {step : α → Value → Exec α} (hself : self.Insulated V)
    (hstep : ∀ a v, Q a → V.Clean v → V.Insulated reach (step a v) Q) (ref rounds : Nat) {a : α}
    (ha : Q a) : V.Insulated reach (foldIter self ref step rounds a) Q := by
  induction rounds generalizing a with
  | zero => exact .fail
  | succ rounds ih =>
    refine (hself.next ref).weaken.bind fun item hitem => ?_
    cases item with
    | none => exact .pure ha
    | some v => exact (hstep a v ha (hitem v rfl)).bind fun b hb => ih hb

/-! ### Sequences -/

theorem lengthOf_insulated (v : Value) : V.Insulated reach (lengthOf v) fun _ => True := by
  unfold lengthOf
  split
  · exact (listAt_insulated _).bind fun _ _ => .pure trivial
  · exact .pure trivial
  · exact .pure trivial
  · exact .pure trivial
  · dsimp only
    split
    · exact .fail
    · exact .pure trivial
  · exact (typeName_insulated _).bind fun _ _ => .fail

theorem itemAt?_insulated {v : Value} (hv : V.Clean v) (i : Nat) :
    V.Insulated reach (itemAt? v i) fun item => ∀ u ∈ item, V.Clean u := by
  unfold itemAt?
  split
  · exact (listAt_insulated _).bind fun items hitems => .pure fun u hu =>
      hitems u (Array.mem_of_getElem? hu)
  · exact .pure fun u hu => clean_tuple.mp hv u (List.mem_of_getElem? hu)
  · refine .pure fun u hu => ?_
    obtain ⟨c, -, rfl⟩ := Option.map_eq_some_iff.mp hu
    exact clean_ofString _
  · refine .pure ?_
    split <;> simp
  · exact .pure (by simp)

theorem pair?_insulated {v : Value} (hv : V.Clean v) :
    V.Insulated reach (pair? v) fun pair => ∀ p ∈ pair, V.Clean p.1 ∧ V.Clean p.2 := by
  unfold pair?
  split
  · refine (items_insulated _).bind fun items hitems => ?_
    split
    · exact .pure (by simpa using hitems)
    · exact .pure (by simp)
  · exact .pure (by simpa using hv)
  · refine (lengthOf_insulated _).bind fun n _ => ?_
    split
    · exact .pure (by simp)
    · exact .pure (by simp)
  · exact .pure (by simp)

/-! ### Dictionaries -/

theorem checkKey_insulated (v : Value) : V.Insulated reach (checkKey v) fun _ => True := by
  refine (read_insulated v).bind fun datum _ => ?_
  cases datum.unhashable? with
  | none => exact .pure trivial
  | some type => exact .fail

theorem clean_setEntry {isKey : Value → Bool} {key value : Value}
    {entries : List (Value × Value)} (hkey : V.Clean key) (hvalue : V.Clean value)
    (h : ∀ e ∈ entries, V.Clean e.1 ∧ V.Clean e.2) :
    ∀ e ∈ setEntry isKey key value entries, V.Clean e.1 ∧ V.Clean e.2 := by
  induction entries with
  | nil => simpa [setEntry] using ⟨hkey, hvalue⟩
  | cons e entries ih =>
    obtain ⟨k, v⟩ := e
    rw [List.forall_mem_cons] at h
    unfold setEntry
    split
    · exact List.forall_mem_cons.mpr ⟨⟨h.1.1, hvalue⟩, h.2⟩
    · exact List.forall_mem_cons.mpr ⟨h.1, ih h.2⟩

theorem putEntry_insulated {entries : List (Value × Value)} {entry : Value × Value}
    (h : ∀ e ∈ entries, V.Clean e.1 ∧ V.Clean e.2) (hentry : V.Clean entry.1 ∧ V.Clean entry.2) :
    V.Insulated reach (putEntry entries entry) fun es => ∀ e ∈ es, V.Clean e.1 ∧ V.Clean e.2 :=
  (checkKey_insulated _).bind fun _ _ =>
    .get (fun W => by simp) fun _ _ => .pure (clean_setEntry hentry.1 hentry.2 h)

theorem dictOf_insulated {entries : List (Value × Value)}
    (h : ∀ e ∈ entries, V.Clean e.1 ∧ V.Clean e.2) :
    V.Insulated reach (dictOf entries) V.Clean := by
  have hfold : V.Insulated reach (entries.foldlM putEntry [])
      fun es => ∀ e ∈ es, V.Clean e.1 ∧ V.Clean e.2 :=
    .foldlM (by simp) fun es hes e he => putEntry_insulated hes (h e he)
  exact hfold.bind fun es hes => .pure (clean_dict.mpr hes)

theorem entryValue_insulated {entries : List (Value × Value)}
    (h : ∀ e ∈ entries, V.Clean e.1 ∧ V.Clean e.2) (key : Value) :
    V.Insulated reach (valueAt? entries key) fun item => ∀ v ∈ item, V.Clean v := by
  refine (checkKey_insulated key).bind fun _ _ => .get (fun W => by simp) fun W _ => .pure ?_
  intro v hv
  obtain ⟨e, he, rfl⟩ := Option.map_eq_some_iff.mp hv
  exact (h e (List.mem_of_find?_eq_some he)).2

/-! ### Filling in strings -/

/-- The values that are left to be filled in are clean. -/
def Supply.Clean (V : Veil) (supply : Supply) : Prop :=
  (∀ v ∈ supply.items, V.Clean v) ∧ ∀ v ∈ supply.table, V.Clean v

theorem Supply.clean_ofValue {v : Value} (hv : V.Clean v) : (Supply.ofValue v).Clean V := by
  have hsingle : ∀ u ∈ [v], V.Clean u := List.forall_mem_singleton.mpr hv
  have htable : ∀ u ∈ some v, V.Clean u := by rintro u ⟨⟩; exact hv
  cases v with
  | tuple items => exact ⟨clean_tuple.mp hv, by simp [Supply.ofValue]⟩
  | list | dict | range => exact ⟨hsingle, htable⟩
  | _ => exact ⟨hsingle, by simp [Supply.ofValue]⟩

theorem Supply.next_insulated {supply : Supply} (h : supply.Clean V) :
    V.Insulated reach supply.next fun p => V.Clean p.1 ∧ p.2.Clean V := by
  obtain ⟨items, table⟩ := supply
  cases items with
  | nil => exact .fail
  | cons v items =>
    have hitems := List.forall_mem_cons.mp h.1
    exact .pure ⟨hitems.1, hitems.2, h.2⟩

theorem Supply.find_insulated {supply : Supply} (h : supply.Clean V) (key : String) :
    V.Insulated reach (supply.find key) (Supply.Clean V) := by
  unfold Supply.find
  split
  · rename_i entries htable
    have hentries := clean_dict.mp (h.2 _ htable)
    refine (entryValue_insulated hentries _).bind fun item hitem => ?_
    cases item with
    | none => exact .fail
    | some v => exact .pure ⟨by simpa using hitem v rfl, h.2⟩
  · exact (typeName_insulated _).bind fun _ _ => .fail
  · exact .fail

theorem readKey_insulated {supply : Supply} (h : supply.Clean V) (cs : List Char) :
    V.Insulated reach (readKey supply cs) fun p => p.1.Clean V := by
  unfold readKey
  split
  · split
    · exact .fail
    · split
      · exact (Supply.find_insulated h _).bind fun supply hsupply => .pure hsupply
      · exact .fail
  · exact .pure h

theorem readSize_insulated (limit : Nat) (tooBig : Failure) (n : Nat) (cs : List Char) :
    V.Insulated reach (readSize limit tooBig n cs) fun _ => True := by
  induction cs generalizing n with
  | nil => exact .pure trivial
  | cons c cs ih =>
    unfold readSize
    split
    · dsimp only
      split
      · exact .fail
      · exact ih _
    · exact .pure trivial

theorem starSize_insulated (limit : Int) (overflow : Failure) {supply : Supply}
    (h : supply.Clean V) :
    V.Insulated reach (starSize limit overflow supply) fun p => p.2.Clean V := by
  refine (Supply.next_insulated h).bind fun p hp => ?_
  obtain ⟨v, supply⟩ := p
  dsimp only
  split
  · exact .fail
  · split
    · exact .fail
    · exact .pure hp.2

theorem readWidth_insulated (spec : Spec) {supply : Supply} (h : supply.Clean V)
    (cs : List Char) : V.Insulated reach (readWidth spec supply cs) fun p => p.2.1.Clean V := by
  unfold readWidth
  split
  · exact (starSize_insulated _ _ h).bind fun p hp => .pure hp
  · exact (readSize_insulated _ _ _ _).bind fun p _ => .pure h

theorem readPrecision_insulated (spec : Spec) {supply : Supply} (h : supply.Clean V)
    (cs : List Char) :
    V.Insulated reach (readPrecision spec supply cs) fun p => p.2.1.Clean V := by
  unfold readPrecision
  split
  · exact (starSize_insulated _ _ h).bind fun p hp => .pure hp
  · exact (readSize_insulated _ _ _ _).bind fun p _ => .pure h
  · exact .pure h

theorem integerFor_insulated (conversion : Char) (v : Value) :
    V.Insulated reach (integerFor conversion v) fun _ => True := by
  unfold integerFor
  split
  · exact .pure trivial
  · split
    · exact (typeName_insulated v).bind fun _ _ => .fail
    · exact lift_insulated _
  · refine (typeName_insulated v).bind fun type _ => ?_
    split
    · exact .fail
    · exact .fail

theorem doubleFor_insulated (v : Value) : V.Insulated reach (doubleFor v) fun _ => True := by
  unfold doubleFor
  split
  · exact lift_insulated _
  · exact .pure trivial
  · exact (typeName_insulated v).bind fun _ _ => .fail

theorem characterFor_insulated (v : Value) :
    V.Insulated reach (characterFor v) fun _ => True := by
  unfold characterFor
  split
  · split
    · exact .pure trivial
    · exact .fail
  · split
    · exact .fail
    · exact .pure trivial
  · exact .fail

theorem convert_insulated (spec : Spec) (conversion : Char) (index : Nat) (v : Value) :
    V.Insulated reach (convert spec conversion index v) fun _ => True := by
  refine (checkRoom_insulated _ _).bind fun _ _ => ?_
  split
  · exact (text_insulated v).bind fun _ _ => .pure trivial
  split
  · exact (shown_insulated v).bind fun _ _ => .pure trivial
  split
  · exact (shown_insulated v).bind fun _ _ => .pure trivial
  split
  · refine (integerFor_insulated conversion v).bind fun i _ => ?_
    split
    · exact .pure trivial
    · exact .fail
  split
  · exact (doubleFor_insulated v).bind fun _ _ => .pure trivial
  split
  · exact (characterFor_insulated v).bind fun _ _ => .pure trivial
  · exact .fail

theorem fillPlace_insulated (total : Nat) {supply : Supply} (h : supply.Clean V)
    (cs : List Char) :
    V.Insulated reach (fillPlace total supply cs) fun p => p.2.1.Clean V := by
  refine (readKey_insulated h cs).bind fun ⟨supply, cs⟩ h => ?_
  refine (readWidth_insulated _ h _).bind fun ⟨spec, supply, cs⟩ h => ?_
  refine (readPrecision_insulated _ h _).bind fun ⟨spec, supply, cs⟩ h => ?_
  dsimp only
  split
  · exact .fail
  · refine (Supply.next_insulated h).bind fun ⟨v, supply⟩ h => ?_
    exact (convert_insulated _ _ _ v).bind fun _ _ => .pure h.2

theorem fillAll_insulated (total : Nat) {supply : Supply} (h : supply.Clean V) (places : Nat)
    (cs : List Char) : V.Insulated reach (fillAll total supply places cs) fun p => p.2.Clean V := by
  induction places generalizing supply cs with
  | zero => exact .pure h
  | succ places ih =>
    unfold fillAll
    dsimp only
    split
    · exact .pure h
    · exact (ih h _).bind fun p hp => .pure hp
    · refine (fillPlace_insulated total h _).bind fun ⟨piece, supply, cs⟩ h => ?_
      exact (ih h _).bind fun p hp => .pure hp

theorem format_insulated (s : String) {v : Value} (hv : V.Clean v) :
    V.Insulated reach (format s v) fun _ => True := by
  refine (fillAll_insulated _ (Supply.clean_ofValue hv) _ _).bind fun ⟨filled, supply⟩ _ => ?_
  dsimp only
  split
  · exact .pure trivial
  · exact .fail

/-! ### Operators -/

theorem refuse_insulated (op : BinaryOp) (a b : Value) {Q : α → Prop} :
    V.Insulated reach (refuse op a b : Exec α) Q :=
  (typeName_insulated a).bind fun _ _ => (typeName_insulated b).bind fun _ _ => .fail

theorem mem_of_mem_repeated {items : List α} {times : Int} {a : α}
    (h : a ∈ repeated items times) : a ∈ items := by
  unfold repeated at h
  split at h
  · simp at h
  · obtain ⟨row, hrow, ha⟩ := List.mem_flatten.mp h
    rwa [List.eq_of_mem_replicate hrow] at ha

theorem checkRepeat_insulated (tooLong : Failure) (n : Nat) (times : Int) :
    V.Insulated reach (checkRepeat tooLong n times) fun _ => True := by
  unfold checkRepeat
  split
  · exact .fail
  · exact checkRoom_insulated _ _

theorem repeat?_insulated {v : Value} (hv : V.Clean v) (times : Int) :
    V.Insulated reach (repeat? v times) fun item => ∀ u ∈ item, V.Clean u := by
  unfold repeat?
  split
  · exact (checkRepeat_insulated _ _ _).bind fun _ _ => .pure (by simp)
  · refine (items_insulated _).bind fun items hitems => ?_
    refine (checkRepeat_insulated _ _ _).bind fun _ _ => ?_
    refine (newList_insulated fun u hu => hitems u (mem_of_mem_repeated hu)).bind fun u hu => ?_
    exact .pure (by simpa using hu)
  · refine (checkRepeat_insulated _ _ _).bind fun _ _ => .pure ?_
    rintro u ⟨⟩
    exact clean_tuple.mpr fun u hu => clean_tuple.mp hv u (mem_of_mem_repeated hu)
  · exact .pure (by simp)

theorem join_insulated {a b : Value} (ha : V.Clean a) (hb : V.Clean b) :
    V.Insulated reach (join a b) V.Clean := by
  unfold join
  split
  · exact .pure (clean_ofString _)
  · refine (items_insulated _).bind fun r hr => (items_insulated _).bind fun s hs => ?_
    exact newList_insulated (List.forall_mem_append.mpr ⟨hr, hs⟩)
  · exact .pure (clean_tuple.mpr
      (List.forall_mem_append.mpr ⟨clean_tuple.mp ha, clean_tuple.mp hb⟩))
  · split
    · exact (typeName_insulated _).bind fun _ _ => (typeName_insulated _).bind fun _ _ => .fail
    · exact refuse_insulated _ _ _

theorem repeatOrRefuse_insulated {v : Value} (hv : V.Clean v) (n : Int) (a b : Value) :
    V.Insulated reach
      (do match ← repeat? v n with
        | some v => return v
        | none => refuse .mul a b) V.Clean := by
  refine (repeat?_insulated hv n).bind fun item hitem => ?_
  cases item with
  | none => exact refuse_insulated _ _ _
  | some u => exact .pure (hitem u rfl)

theorem multiply_insulated {a b : Value} (ha : V.Clean a) (hb : V.Clean b) :
    V.Insulated reach (multiply a b) V.Clean := by
  unfold multiply
  split
  · exact repeatOrRefuse_insulated ha _ a b
  · exact repeatOrRefuse_insulated hb _ a b
  · split
    · exact (typeName_insulated _).bind fun _ _ => .fail
    split
    · exact (typeName_insulated _).bind fun _ _ => .fail
    · exact refuse_insulated _ _ _

/-- Operators give numbers and collections of values that they are given. -/
theorem binary_insulated (op : BinaryOp) {a b : Value} (ha : V.Clean a) (hb : V.Clean b) :
    V.Insulated reach (binary op a b) V.Clean := by
  unfold binary
  split
  · split
    · exact ofNumber_insulated _
    · exact refuse_insulated _ _ _
    · exact .fail
  · split
    · exact join_insulated ha hb
    · exact multiply_insulated ha hb
    · split
      · exact (format_insulated _ hb).bind fun _ _ => .pure (clean_ofString _)
      · exact refuse_insulated _ _ _
    · exact refuse_insulated _ _ _

theorem unary_insulated (op : UnaryOp) (a : Value) : V.Insulated reach (unary op a) V.Clean := by
  unfold unary
  split
  · exact (truth_insulated a).bind fun _ _ => .pure (clean_ofBool _)
  · split
    · exact ofNumber_insulated _
    · exact (typeName_insulated a).bind fun _ _ => .fail

/-! ### Comparisons -/

theorem ordered_insulated (op : CompareOp) (a b : Value) :
    V.Insulated reach (ordered op a b) fun _ => True := by
  refine (read_insulated a).bind fun x _ => (read_insulated b).bind fun y _ => ?_
  split
  · exact .pure trivial
  · exact .fail

theorem searchIter_insulated (hself : self.Insulated V) (item : Value) (ref rounds : Nat) :
    V.Insulated reach (searchIter self item ref rounds) fun _ => True := by
  induction rounds with
  | zero => exact .fail
  | succ rounds ih =>
    refine (hself.next ref).weaken.bind fun next _ => ?_
    cases next with
    | none => exact .pure trivial
    | some v =>
      refine (same_insulated v item).bind fun found _ => ?_
      split
      · exact .pure trivial
      · exact ih

theorem memberOf_insulated (item : Value) (items : List Value) :
    V.Insulated reach (memberOf item items) fun _ => True :=
  .get (fun W => by simp) fun _ _ => .pure trivial

/-- Membership compares values and may go through an iterator. -/
theorem contains_insulated (hself : self.Insulated V) (item : Value) {collection : Value}
    (h : V.Clean collection) : V.Insulated reach (contains self item collection) fun _ => True := by
  unfold contains
  split
  · split
    · exact .pure trivial
    · exact (typeName_insulated _).bind fun _ _ => .fail
  · exact (entryValue_insulated (clean_dict.mp h) item).bind fun _ _ => .pure trivial
  · exact searchIter_insulated hself _ _ _
  · split
    · exact .pure trivial
    · exact .pure trivial
  · exact (items_insulated _).bind fun items _ => memberOf_insulated _ _
  · exact memberOf_insulated _ _
  · exact (typeName_insulated _).bind fun _ _ => .fail

theorem compare_insulated (hself : self.Insulated V) (op : CompareOp) (a : Value) {b : Value}
    (hb : V.Clean b) : V.Insulated reach (compare self op a b) fun _ => True := by
  unfold compare
  split
  · exact equal_insulated a b
  · exact (equal_insulated a b).bind fun _ _ => .pure trivial
  · exact .pure trivial
  · exact .pure trivial
  · exact contains_insulated hself a hb
  · exact (contains_insulated hself a hb).bind fun _ _ => .pure trivial
  · exact ordered_insulated _ a b

/-! ### The library -/

theorem seq_insulated (hself : self.Insulated V) {coll : Value} (h : V.Clean coll) :
    V.Insulated reach (seq self coll) V.Clean := by
  unfold seq
  split
  · exact (drain_insulated hself h).bind fun vs hvs => .pure (clean_tuple.mpr hvs)
  · exact (drain_insulated hself h).bind fun vs hvs => .pure (clean_tuple.mpr hvs)
  · exact .pure h

theorem mem_of_itemEqual {index : Datum} {i : Nat} {vs : List Value} {v : Value}
    (h : itemEqual index i vs = some v) : v ∈ vs := by
  induction vs generalizing i with
  | nil => simp [itemEqual] at h
  | cons u vs ih =>
    unfold itemEqual at h
    split at h
    · cases h
      exact List.mem_cons_self
    · exact List.mem_cons_of_mem _ (ih h)

theorem iterItem_insulated (hself : self.Insulated V) (index : Value) (ref i rounds : Nat) :
    V.Insulated reach (iterItem self index ref i rounds) fun item => ∀ v ∈ item, V.Clean v := by
  induction rounds generalizing i with
  | zero => exact .fail
  | succ rounds ih =>
    refine (hself.next ref).weaken.bind fun item hitem => ?_
    cases item with
    | none => exact .pure (by simp)
    | some v =>
      refine (equal_insulated _ _).bind fun found _ => ?_
      split
      · exact .pure hitem
      · exact ih _

theorem sequenceItem_insulated {coll : Value} (h : V.Clean coll) (index : Value) :
    V.Insulated reach (sequenceItem coll index) fun item => ∀ v ∈ item, V.Clean v := by
  refine (ordered_insulated _ _ _).bind fun _ _ => ?_
  split
  · refine (lengthOf_insulated coll).bind fun n _ => (ordered_insulated _ _ _).bind fun _ _ => ?_
    split
    · split
      · exact itemAt?_insulated h _
      · exact (typeName_insulated _).bind fun _ _ => (typeName_insulated _).bind fun _ _ => .fail
    · exact .pure (by simp)
  · exact .pure (by simp)

/-- An item comes from the collection or is the default. -/
theorem nth_insulated (hself : self.Insulated V) {coll default : Value} (h : V.Clean coll)
    (index : Value) (hdefault : V.Clean default) :
    V.Insulated reach (nth self coll index default) V.Clean := by
  have hget {m : Exec (Option Value)} (hm : V.Insulated reach m fun item => ∀ v ∈ item, V.Clean v) :
      V.Insulated reach (do return (← m).getD default) V.Clean := by
    refine hm.bind fun item hitem => .pure ?_
    cases item with
    | none => exact hdefault
    | some v => exact hitem v rfl
  unfold nth
  split
  · refine (read_insulated index).bind fun datum _ => hget (.pure fun v hv => ?_)
    obtain ⟨e, he, rfl⟩ := List.mem_map.mp (mem_of_itemEqual hv)
    exact (clean_dict.mp h e he).1
  · exact hget (iterItem_insulated hself index _ 0 _)
  · split
    · exact hget (sequenceItem_insulated h index)
    · exact hget (.pure (by simp))

theorem sliceStart_insulated (start : Value) (n : Nat) :
    V.Insulated reach (sliceStart start n) fun _ => True := by
  unfold sliceStart
  split
  · exact .pure trivial
  · exact .pure trivial
  · exact .fail

theorem skipCount_insulated (start : Value) :
    V.Insulated reach (skipCount start) fun _ => True := by
  unfold skipCount
  split
  · exact .pure trivial
  · split
    · exact .pure trivial
    · exact .fail
  · exact .fail

theorem subseq_insulated (hself : self.Insulated V) {coll : Value} (h : V.Clean coll)
    (start : Value) : V.Insulated reach (subseq self coll start) V.Clean := by
  have hdrop {vs : List Value} (hvs : ∀ v ∈ vs, V.Clean v) (n : Nat) :
      ∀ v ∈ vs.drop n, V.Clean v := fun v hv => hvs v (List.mem_of_mem_drop hv)
  unfold subseq
  split
  · refine (items_insulated _).bind fun items hitems => ?_
    exact (sliceStart_insulated _ _).bind fun n _ => newList_insulated (hdrop hitems n)
  · exact (sliceStart_insulated _ _).bind fun n _ =>
      .pure (clean_tuple.mpr (hdrop (clean_tuple.mp h) n))
  · exact (sliceStart_insulated _ _).bind fun _ _ => .pure (clean_ofString _)
  · exact (sliceStart_insulated _ _).bind fun _ _ => .pure (clean_range _ _ _)
  · refine (skipCount_insulated _).bind fun n _ => .pure (clean_tuple.mpr (hdrop ?_ n))
    intro v hv
    obtain ⟨e, he, rfl⟩ := List.mem_map.mp hv
    exact (clean_dict.mp h e he).1
  · exact (skipCount_insulated _).bind fun n _ => (drainIter_insulated hself _ _).bind
      fun vs hvs => .pure (clean_tuple.mpr (hdrop hvs n))
  · exact .pure (by simp)

theorem assoc?_insulated (key : Value) {items : List Value} (h : ∀ v ∈ items, V.Clean v) :
    V.Insulated reach (assoc? key items) fun item => ∀ v ∈ item, V.Clean v := by
  induction items with
  | nil => exact .pure (by simp)
  | cons item items ih =>
    rw [List.forall_mem_cons] at h
    refine (pair?_insulated h.1).bind fun pair hpair => ?_
    cases pair with
    | none => exact ih h.2
    | some p =>
      refine (equal_insulated _ _).bind fun found _ => ?_
      split
      · exact .pure (by simpa using (hpair p rfl).2)
      · exact ih h.2

/-- What is found in a table is a value of the table. -/
theorem find?_insulated {table : Value} (h : V.Clean table) (key : Value) :
    V.Insulated reach (find? table key) fun item => ∀ v ∈ item, V.Clean v := by
  unfold find?
  split
  · exact entryValue_insulated (clean_dict.mp h) key
  · exact (items_insulated _).bind fun items hitems => assoc?_insulated key hitems
  · exact assoc?_insulated key (clean_tuple.mp h)
  · exact .pure (by simp)

/-- A default that is a function is called; what it returns is clean since calls are insulated. -/
theorem lookup_insulated (hself : self.Insulated V) {table default : Value} (h : V.Clean table)
    (key : Value) (hdefault : V.Clean default) :
    V.Insulated reach (lookup self table key default) V.Clean := by
  refine (find?_insulated h key).bind fun item hitem => ?_
  cases item with
  | some v => exact .pure (hitem v rfl)
  | none =>
    dsimp only
    split
    · exact .pure clean_nil
    · exact (hself.call _ [] hdefault (by simp)).weaken

theorem getItem_insulated (hself : self.Insulated V) {coll default : Value} (h : V.Clean coll)
    (key : Value) (hdefault : V.Clean default) :
    V.Insulated reach (getItem self coll key default) V.Clean := by
  unfold getItem
  split
  · exact nth_insulated hself h key hdefault
  · refine (find?_insulated h key).bind fun item hitem => .pure ?_
    cases item with
    | none => exact hdefault
    | some v => exact hitem v rfl

theorem count_insulated (coll : Value) : V.Insulated reach (count coll) fun _ => True := by
  unfold count
  split
  · exact .pure trivial
  · exact lengthOf_insulated _

theorem conj_insulated (hself : self.Insulated V) {coll : Value} (h : V.Clean coll)
    {items : List Value} (hitems : ∀ v ∈ items, V.Clean v) :
    V.Insulated reach (conj self coll items) V.Clean := by
  unfold conj
  split
  · exact newList_insulated hitems
  · exact .pure (clean_tuple.mpr (List.forall_mem_append.mpr ⟨clean_tuple.mp h, hitems⟩))
  · exact (drain_insulated hself h).bind fun vs hvs =>
      newList_insulated (List.forall_mem_append.mpr ⟨hvs, hitems⟩)

theorem clean_pairUp {args : List Value} {entries : List (Value × Value)}
    (h : ∀ v ∈ args, V.Clean v) (hpair : pairUp args = some entries) :
    ∀ e ∈ entries, V.Clean e.1 ∧ V.Clean e.2 := by
  fun_induction pairUp args generalizing entries with
  | case1 => simp_all
  | case2 => simp at hpair
  | case3 key value rest ih =>
    obtain ⟨others, hothers, rfl⟩ := Option.map_eq_some_iff.mp hpair
    simp only [List.forall_mem_cons] at h
    exact List.forall_mem_cons.mpr ⟨⟨h.1, h.2.1⟩, ih h.2.2 hothers⟩

theorem hashMap_insulated {args : List Value} (h : ∀ v ∈ args, V.Clean v) :
    V.Insulated reach (hashMap args) V.Clean := by
  unfold hashMap
  split
  · rename_i entries hentries
    exact dictOf_insulated (clean_pairUp h hentries)
  · exact .fail

theorem printRest_insulated (vs : List Value) :
    V.Insulated reach (printRest vs) fun _ => True := by
  induction vs with
  | nil => exact .pure trivial
  | cons v vs ih =>
    exact (print_insulated _).bind fun _ _ => (text_insulated v).bind fun _ _ =>
      (print_insulated _).bind fun _ _ => ih

theorem println_insulated (args : List Value) : V.Insulated reach (println args) V.Clean := by
  have hend : V.Insulated reach (do Exec.print "\n"; return Value.nil) V.Clean :=
    (print_insulated _).bind fun _ _ => .pure clean_nil
  cases args with
  | nil => exact hend
  | cons v vs =>
    exact (text_insulated v).bind fun _ _ => (print_insulated _).bind fun _ _ =>
      (printRest_insulated vs).bind fun _ _ => hend

theorem clean_headD {vs : List Value} (h : ∀ v ∈ vs, V.Clean v) : V.Clean (vs.headD .nil) := by
  cases vs with
  | nil => exact clean_nil
  | cons v vs => exact h v List.mem_cons_self

/-- Every function of the library, by the lemma of that function. -/
theorem applyLibrary_insulated (hself : self.Insulated V) (fn : LibraryFn) {args : List Value}
    (h : ∀ v ∈ args, V.Clean v) : V.Insulated reach (applyLibrary self fn args) V.Clean := by
  unfold applyLibrary
  split
  · exact seq_insulated hself (h _ (by simp))
  · exact nth_insulated hself (h _ (by simp)) _ (clean_headD fun v hv => h v (by simp [hv]))
  · exact subseq_insulated hself (h _ (by simp)) _
  · exact lookup_insulated hself (h _ (by simp)) _ (clean_headD fun v hv => h v (by simp [hv]))
  · exact nth_insulated hself (h _ (by simp)) _ clean_nil
  · exact subseq_insulated hself (h _ (by simp)) _
  · exact (count_insulated _).bind fun _ _ => .pure (clean_ofInt _)
  · exact (count_insulated _).bind fun _ _ => .pure (clean_ofBool _)
  · exact conj_insulated hself (h _ (by simp)) fun v hv => h v (by simp [hv])
  · exact newList_insulated h
  · exact hashMap_insulated h
  · exact getItem_insulated hself (h _ (by simp)) _ (clean_headD fun v hv => h v (by simp [hv]))
  · exact binary_insulated _ (h _ (by simp)) (clean_ofInt 1)
  · exact binary_insulated _ (h _ (by simp)) (clean_ofInt 1)
  · exact println_insulated _
  · exact .fail

theorem callLibrary_insulated (hself : self.Insulated V) (fn : LibraryFn) {args : List Value}
    (h : ∀ v ∈ args, V.Clean v) : V.Insulated reach (callLibrary self fn args) V.Clean := by
  unfold callLibrary
  dsimp only
  split
  · exact .fail
  · exact applyLibrary_insulated hself fn h

/-! ### Built-in functions -/

theorem integerOf_insulated (base : Nat) (s : String) :
    V.Insulated reach (integerOf base s) fun _ => True := by
  unfold integerOf
  split
  · dsimp only
    split
    · exact .fail
    · exact .pure trivial
  · exact .fail

theorem toInteger_insulated (v : Value) : V.Insulated reach (toInteger v) fun _ => True := by
  unfold toInteger
  split
  · exact integerOf_insulated _ _
  · exact .pure trivial
  · exact lift_insulated _
  · exact (typeName_insulated _).bind fun _ _ => .fail

theorem requireInteger_insulated (v : Value) :
    V.Insulated reach (requireInteger v) fun _ => True := by
  unfold requireInteger
  split
  · exact .pure trivial
  · exact (typeName_insulated _).bind fun _ _ => .fail

theorem readInteger_insulated (v base : Value) :
    V.Insulated reach (readInteger v base) fun _ => True := by
  refine (requireInteger_insulated base).bind fun base _ => ?_
  split
  · exact .fail
  · split
    · exact integerOf_insulated _ _
    · exact .fail

theorem better_insulated (op : CompareOp) {best : Option Value} (h : ∀ v ∈ best, V.Clean v)
    {v : Value} (hv : V.Clean v) :
    V.Insulated reach (better op best v) fun best => ∀ v ∈ best, V.Clean v := by
  unfold better
  split
  · exact .pure (by simpa using hv)
  · refine (ordered_insulated _ _ _).bind fun before _ => .pure ?_
    split
    · simpa using hv
    · simpa using h

theorem bestOrFail_insulated {m : Exec (Option Value)} (fn : String)
    (hm : V.Insulated reach m fun best => ∀ v ∈ best, V.Clean v) :
    V.Insulated reach (do match ← m with
      | some v => return v
      | none => Exec.fail (.emptyExtremum fn)) V.Clean := by
  refine hm.bind fun best hbest => ?_
  cases best with
  | none => exact .fail
  | some v => exact .pure (hbest v rfl)

theorem extremumOf_insulated (hself : self.Insulated V) (fn : String) (op : CompareOp)
    {args : List Value} (h : ∀ v ∈ args, V.Clean v) :
    V.Insulated reach (extremumOf self fn op args) V.Clean := by
  unfold extremumOf
  split
  · exact bestOrFail_insulated fn .fail
  · refine (iterate_insulated (h _ (by simp))).bind fun ref _ => bestOrFail_insulated fn ?_
    exact foldIter_insulated hself (fun a v ha hv => better_insulated op ha hv) ref _ (by simp)
  · exact bestOrFail_insulated fn
      (.foldlM (by simp) fun a ha v hv => better_insulated op ha (h v hv))

theorem sum_insulated (hself : self.Insulated V) {coll start : Value} (hcoll : V.Clean coll)
    (hstart : V.Clean start) : V.Insulated reach (sum self coll start) V.Clean := by
  have hfold (ref : Nat) {start : Value} (hstart : V.Clean start) :
      V.Insulated reach (foldIter self ref (binary .add) roundLimit start) V.Clean :=
    foldIter_insulated hself (fun a v ha hv => binary_insulated _ ha hv) ref _ hstart
  refine (iterate_insulated hcoll).bind fun ref _ => ?_
  split
  · exact .fail
  · exact (ofNumber_insulated _).bind fun start hstart => hfold ref hstart
  · exact hfold ref hstart

/-- Every built-in function, by the lemma of that function. -/
theorem callBuiltin_insulated (hself : self.Insulated V) (fn : BuiltinFn) {args : List Value}
    (h : ∀ v ∈ args, V.Clean v) : V.Insulated reach (callBuiltin self fn args) V.Clean := by
  unfold callBuiltin
  split
  · split
    · exact (lift_insulated _).bind fun _ _ => ofNumber_insulated _
    · exact (typeName_insulated _).bind fun _ _ => .fail
  · exact .fail
  · exact (iterate_insulated (h _ (by simp))).bind fun _ _ => .pure (clean_iterator _)
  · split
    · refine (newIter_insulated ?_).bind fun _ _ => .pure (clean_iterator _)
      exact ⟨h _ (by simp), h _ (by simp)⟩
    · exact .fail
  · exact .fail
  · exact .fail
  · exact (lengthOf_insulated _).bind fun _ _ => .pure (clean_ofInt _)
  · exact .fail
  · exact extremumOf_insulated hself _ _ h
  · exact extremumOf_insulated hself _ _ h
  · exact sum_insulated hself (h _ (by simp)) (clean_ofInt 0)
  · exact sum_insulated hself (h _ (by simp)) (h _ (by simp))
  · exact .fail
  · exact .fail

/-! ### Types -/

theorem newRange_insulated (args : List Value) : V.Insulated reach (newRange args) V.Clean := by
  unfold newRange
  split
  · exact (requireInteger_insulated _).bind fun _ _ => .pure (clean_range _ _ _)
  · exact (requireInteger_insulated _).bind fun _ _ => (requireInteger_insulated _).bind fun _ _ =>
      .pure (clean_range _ _ _)
  · refine (requireInteger_insulated _).bind fun _ _ => (requireInteger_insulated _).bind fun _ _ =>
      (requireInteger_insulated _).bind fun _ _ => ?_
    split
    · exact .fail
    · exact .pure (clean_range _ _ _)
  · exact .fail
  · exact .fail

theorem requireCodec_insulated (parameter : String) (v : Value) :
    V.Insulated reach (requireCodec parameter v) fun _ => True := by
  unfold requireCodec
  split
  · split
    · exact .fail
    · exact .pure trivial
  · exact .fail
  · exact (typeName_insulated _).bind fun _ _ => .fail

theorem refuseBytes_insulated (v : Value) :
    V.Insulated reach (match v with
      | .const (.str _) => Exec.fail .alreadyText
      | v => do Exec.fail (.notBytes (← Exec.typeName v)) : Exec Value) V.Clean := by
  split
  · exact .fail
  · exact (typeName_insulated _).bind fun _ _ => .fail

theorem decodeBytes_insulated (v encoding : Value) (errors : Option Value) :
    V.Insulated reach (decodeBytes v encoding errors) V.Clean := by
  refine (requireCodec_insulated _ encoding).bind fun _ _ => ?_
  cases errors with
  | none => exact refuseBytes_insulated v
  | some errors =>
    exact (requireCodec_insulated _ errors).bind fun _ _ => refuseBytes_insulated v

theorem namedParts_insulated (type : TypeName) {args : List Value} (h : ∀ v ∈ args, V.Clean v) :
    V.Insulated reach (namedParts type args) fun p => V.Clean p.1 ∧ ∀ v ∈ p.2, V.Clean v := by
  have hnowhere (n : Nat) : ∀ v ∈ Exec.nowhere.drop n, V.Clean v := by
    intro v hv
    rw [List.eq_of_mem_replicate (List.mem_of_mem_drop hv)]
    exact clean_ofInt 0
  unfold namedParts
  split
  · exact .fail
  · rw [List.forall_mem_cons] at h
    split
    · exact .pure ⟨h.1, List.forall_mem_append.mpr ⟨h.2, hnowhere _⟩⟩
    · exact .fail

/-- Types called as functions make values of what they are given. -/
theorem construct_insulated (hself : self.Insulated V) (type : TypeName) {args : List Value}
    (h : ∀ v ∈ args, V.Clean v) : V.Insulated reach (construct self type args) V.Clean := by
  unfold construct
  split
  · exact .pure (clean_ofInt 0)
  · exact (toInteger_insulated _).bind fun _ _ => .pure (clean_ofInt _)
  · exact (readInteger_insulated _ _).bind fun _ _ => .pure (clean_ofInt _)
  · exact .fail
  · exact newList_insulated (by simp)
  · exact (drain_insulated hself (h _ (by simp))).bind fun vs hvs => newList_insulated hvs
  · exact .fail
  · exact .pure (by simp)
  · exact (drain_insulated hself (h _ (by simp))).bind fun vs hvs => .pure (clean_tuple.mpr hvs)
  · exact .fail
  · exact .pure (clean_ofString _)
  · exact (text_insulated _).bind fun _ _ => .pure (clean_ofString _)
  · exact decodeBytes_insulated _ _ _
  · exact decodeBytes_insulated _ _ _
  · exact .fail
  · exact newRange_insulated _
  · rename_i fn source sources
    have hrefs : V.Insulated reach ((source :: sources).mapM iterate)
        fun refs => ∀ r ∈ refs, True :=
      .mapM fun v hv => iterate_insulated (h v (List.mem_cons_of_mem _ hv))
    refine hrefs.bind fun refs _ => (newIter_insulated ?_).bind fun _ _ => .pure (clean_iterator _)
    exact h fn List.mem_cons_self
  · exact .fail
  · exact (namedParts_insulated _ h).bind fun ⟨name, place⟩ hparts => newId_insulated.bind
      fun _ _ => .pure (clean_keyword.mpr hparts)
  · exact (namedParts_insulated _ h).bind fun ⟨name, place⟩ hparts =>
      .pure (clean_symbol.mpr hparts)

/-! ### Methods and fields -/

theorem append_insulated (ref : Nat) {v : Value} (hv : V.Clean v) :
    V.Insulated reach (modify fun w : World => { w with lists := w.lists.modify ref (·.push v) })
      fun _ => True := by
  refine .change (fun W => ?_) (fun W hW => hW.withHeap (fun other u hu => ?_) hW.iters)
    (fun _ => trivial) fun W => .withHeap W (by simp) (Nat.le_refl _) (Nat.le_refl _)
  · cases hscope : V.scope <;> simp [hide, hscope]
  · have hold := hW.lists other u
    simp only [World.listAt, Array.getD_eq_getD_getElem?] at hold hu
    rw [Array.getElem?_modify] at hu
    split at hu
    · cases hlist : W.lists[other]? with
      | none => simp [hlist] at hu
      | some items =>
        simp only [hlist, Option.map_some, Option.getD_some, Array.mem_push] at hu hold
        rcases hu with hu | rfl
        · exact hold hu
        · exact hv
    · exact hold hu

theorem callBound_insulated (method : Bound) {args : List Value} (h : ∀ v ∈ args, V.Clean v) :
    V.Insulated reach (callBound method args) V.Clean := by
  unfold callBound
  split
  · exact .pure (clean_ofString _)
  · exact .fail
  · exact (append_insulated _ (h _ (by simp))).bind fun _ _ => .pure clean_nil
  · exact .fail

theorem bind_insulated (method : Method) (receiver : Value) :
    V.Insulated reach (bind method receiver) fun _ => True := by
  unfold bind
  split
  · exact .pure trivial
  · exact .pure trivial
  · exact (typeName_insulated _).bind fun _ _ => .fail

theorem namedField_insulated (type : TypeName) {name : Value} {place : List Value}
    (hname : V.Clean name) (hplace : ∀ v ∈ place, V.Clean v) (field : String) :
    V.Insulated reach (namedField type name place field) V.Clean := by
  unfold namedField
  split
  · exact .pure hname
  · split
    · rename_i v hv
      obtain ⟨i, -, hi⟩ := Option.bind_eq_some_iff.mp hv
      exact .pure (hplace v (List.mem_of_getElem? hi))
    · exact .fail

/-- Fields are methods bound to the value, or parts of it. -/
theorem fieldOf_insulated {v : Value} (hv : V.Clean v) (field : String) :
    V.Insulated reach (fieldOf v field) V.Clean := by
  unfold fieldOf
  split
  · exact .pure (clean_bound _)
  · exact .pure (clean_bound _)
  · exact namedField_insulated _ (clean_keyword.mp hv).1 (clean_keyword.mp hv).2 _
  · exact namedField_insulated _ (clean_symbol.mp hv).1 (clean_symbol.mp hv).2 _
  · exact .pure (clean_native _)
  · exact .pure (clean_native _)
  · split
    · exact .pure (clean_ofInt 0)
    · exact .fail
  · exact (typeName_insulated _).bind fun _ _ => .fail

/-- A native function sees its arguments and nothing else. -/
theorem callNative_insulated (hself : self.Insulated V) (fn : Native) {args : List Value}
    (h : ∀ v ∈ args, V.Clean v) : V.Insulated reach (callNative self fn args) V.Clean := by
  unfold callNative
  split
  · exact callLibrary_insulated hself _ h
  · exact callBuiltin_insulated hself _ h
  · exact construct_insulated hself _ h
  · split
    · exact (bind_insulated _ _).bind fun _ _ =>
        callBound_insulated _ fun v hv => h v (List.mem_cons_of_mem _ hv)
    · exact .fail

theorem callKeyword_insulated {keyword : Value} {args : List Value}
    (h : ∀ v ∈ args, V.Clean v) : V.Insulated reach (callKeyword keyword args) V.Clean := by
  unfold callKeyword
  split
  · rename_i coll rest
    rw [List.forall_mem_cons] at h
    split
    · split
      · refine (entryValue_insulated (clean_dict.mp h.1) _).bind fun item hitem => .pure ?_
        cases item with
        | none => exact clean_headD h.2
        | some v => exact hitem v rfl
      · exact .pure (clean_headD h.2)
    · exact .fail
  · exact .fail

end TailLisp.Interp
