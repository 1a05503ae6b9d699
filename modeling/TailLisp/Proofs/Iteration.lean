import TailLisp.Proofs.Reach
import TailLisp.Run.Machine

/-!
# TailLisp.Proofs.Iteration

**Positions and rest of a sequence.** A sequence pattern takes a value apart with three functions:
`seq` makes it one that can be gone through again, `nth` takes single items, and `subseq` takes the
rest. Each of them looks at the kinds of values on its own. What holds them together are the items
that the value yields when it is gone through: `Interp.Iterates` says this by the value's iterator,
which is asked for the next item until it ends, and so speaks about iterators that can be gone
through only once as well. `Interp.seq_splits` is the main result: `nth` and `subseq` read off and
cut exactly these items.
-/

namespace TailLisp

/-! ### The items of a value -/

/-- The items of a value that can be gone through any number of times. -/
def World.elements? (w : World) : Value → Option (List Value)
  | .list ref => some (w.items ref)
  | .tuple items => some items
  | .const (.str s) => some (Value.chars s)
  | .range start stop step => some ((rangeItems start stop step).map .ofInt)
  | .dict entries => some (entries.map (·.1))
  | _ => none

/-- The value can tell how many items it has; a range of too many numbers cannot. -/
def Value.TellsLength : Value → Prop
  | .range start stop step => rangeLength start stop step ≤ Interp.greatestLength
  | _ => True

namespace Interp

/-- The iterator gives the items one after the other and then ends. -/
inductive Yields (self : Interp) (ref : Nat) : World → List Value → World → Prop
  | ended {w w' : World} : self.next ref w = .ok none w' → Yields self ref w [] w'
  | item {w w₁ w' : World} {v : Value} {items : List Value} : self.next ref w = .ok (some v) w₁ →
      Yields self ref w₁ items w' → Yields self ref w (v :: items) w'

/-- Going through the value once, by its iterator, gives the items. -/
def Iterates (self : Interp) (v : Value) (w : World) (items : List Value) : Prop :=
  ∃ ref w₁ w', iterate v w = .ok ref w₁ ∧ Yields self ref w₁ items w'

variable {self : Interp} {w w' : World} {ref : Nat} {v : Value} {items : List Value}

/-- What an iterator yields is determined. -/
theorem Yields.unique (h : Yields self ref w items w') {items' : List Value} {w'' : World}
    (h' : Yields self ref w items' w'') : items = items' ∧ w' = w'' := by
  induction h generalizing items' with
  | ended hnext =>
    cases h' with
    | ended hnext' => cases hnext.symm.trans hnext'; exact ⟨rfl, rfl⟩
    | item hnext' => cases hnext.symm.trans hnext'
  | item hnext _ ih =>
    cases h' with
    | ended hnext' => cases hnext.symm.trans hnext'
    | item hnext' hrest =>
      cases hnext.symm.trans hnext'
      obtain ⟨rfl, rfl⟩ := ih hrest
      exact ⟨rfl, rfl⟩

/-- With enough rounds, `drainIter` takes all that the iterator gives. -/
theorem drainIter_of_yields (h : Yields self ref w items w') {rounds : Nat}
    (hrounds : items.length < rounds) : drainIter self ref rounds w = .ok items w' := by
  induction h generalizing rounds with
  | ended hnext =>
    obtain ⟨rounds, rfl⟩ : ∃ k, rounds = k + 1 := ⟨rounds - 1, by simp at hrounds; omega⟩
    rw [drainIter, Exec.bind_ok hnext]
    rfl
  | item hnext _ ih =>
    rw [List.length_cons] at hrounds
    obtain ⟨rounds, rfl⟩ : ∃ k, rounds = k + 1 := ⟨rounds - 1, by omega⟩
    rw [drainIter, Exec.bind_ok hnext]
    dsimp only
    rw [Exec.bind_ok (ih (by omega))]
    rfl

/-! ### Iterators of the world -/

section Iterators

variable {n : Nat}

/-- The world after an iterator was set. -/
def setWorld (w : World) (ref : Nat) (iter : Iter) : World :=
  { w with iters := w.iters.setIfInBounds ref iter }

theorem iters_setWorld {iter old : Iter} (h : w.iters[ref]? = some old) :
    (setWorld w ref iter).iters[ref]? = some iter := by
  obtain ⟨href, -⟩ := Array.getElem?_eq_some_iff.mp h
  simp [setWorld, href]

theorem iterAt_of_iters {iter : Iter} (h : w.iters[ref]? = some iter) :
    Exec.iterAt ref w = .ok iter w := by
  show EStateM.Result.ok (w.iters.getD ref (.row "" [])) w = _
  rw [Array.getD_eq_getD_getElem?, h]
  rfl

/-- An iterator over a row yields the items that are left. -/
theorem yields_row {kind : String} (h : w.iters[ref]? = some (.row kind items)) :
    ∃ w', Yields (upTo (n + 1)) ref w items w' := by
  induction items generalizing w with
  | nil =>
    refine ⟨w, .ended ?_⟩
    show nextStep (upTo n) ref w = _
    rw [nextStep, Exec.bind_ok (iterAt_of_iters h)]
    rfl
  | cons v items ih =>
    obtain ⟨w', hrest⟩ := ih (w := setWorld w ref (.row kind items)) (iters_setWorld h)
    refine ⟨w', .item ?_ hrest⟩
    show nextStep (upTo n) ref w = _
    rw [nextStep, Exec.bind_ok (iterAt_of_iters h)]
    rfl

/-- A range yields its numbers one step apart. -/
theorem yields_range {kind : String} {left : Nat} {i step : Int}
    (h : w.iters[ref]? = some (.range kind i left step)) :
    ∃ w', Yields (upTo (n + 1)) ref w
      ((List.range left).map fun (k : Nat) => Value.ofInt (i + k * step)) w' := by
  induction left generalizing w i with
  | zero =>
    refine ⟨w, .ended ?_⟩
    show nextStep (upTo n) ref w = _
    rw [nextStep, Exec.bind_ok (iterAt_of_iters h)]
    rfl
  | succ left ih =>
    obtain ⟨w', hrest⟩ :=
      ih (w := setWorld w ref (.range kind (i + step) left step)) (iters_setWorld h)
    have hitems : (List.range (left + 1)).map (fun (k : Nat) => Value.ofInt (i + k * step))
        = .ofInt i :: (List.range left).map fun (k : Nat) => Value.ofInt (i + step + k * step) := by
      simp [List.range_succ_eq_map, Function.comp_def, Int.add_mul, Int.add_assoc,
        Int.add_comm step]
    rw [hitems]
    refine ⟨w', .item ?_ hrest⟩
    show nextStep (upTo n) ref w = _
    rw [nextStep, Exec.bind_ok (iterAt_of_iters h)]
    rfl

/-- An iterator over a list yields what stands in the list from its position on. -/
theorem yields_list {list position : Nat} (h : w.iters[ref]? = some (.list list position)) :
    ∃ w', Yields (upTo (n + 1)) ref w ((w.items list).drop position) w' := by
  -- on the number of items behind the position: the list stays, and the iterator moves on
  generalize hleft : (w.items list).length - position = left
  induction left generalizing w position with
  | zero =>
    have hend : (w.listAt list)[position]? = none := by
      simp [World.items] at hleft ⊢
      omega
    rw [List.drop_of_length_le (by omega)]
    refine ⟨setWorld w ref (.row "list_iterator" []), .ended ?_⟩
    show nextStep (upTo n) ref w = _
    rw [nextStep, Exec.bind_ok (iterAt_of_iters h)]
    dsimp only
    have hlist : Exec.listAt list w = .ok (w.listAt list) w := rfl
    rw [Exec.bind_ok hlist, hend]
    rfl
  | succ left ih =>
    have hlt : position < (w.items list).length := by omega
    have hitem : (w.listAt list)[position]? = some (w.items list)[position] := by
      rw [← Array.getElem?_toList]
      exact List.getElem?_eq_getElem hlt
    obtain ⟨w', hrest⟩ := ih (w := setWorld w ref (.list list (position + 1))) (iters_setWorld h)
      (by show (w.items list).length - (position + 1) = left; omega)
    rw [List.drop_eq_getElem_cons hlt]
    refine ⟨w', .item ?_ hrest⟩
    show nextStep (upTo n) ref w = _
    rw [nextStep, Exec.bind_ok (iterAt_of_iters h)]
    dsimp only
    have hlist : Exec.listAt list w = .ok (w.listAt list) w := rfl
    rw [Exec.bind_ok hlist, hitem]
    rfl

/-- A value that is no iterator yields its elements. -/
theorem iterates_of_elements (h : w.elements? v = some items) :
    Iterates (upTo (n + 1)) v w items := by
  have hnew (iter : Iter) : ({ w with iters := w.iters.push iter } : World).iters[w.iters.size]?
      = some iter := by simp
  unfold World.elements? at h
  split at h
  · cases h
    obtain ⟨w', hyields⟩ := yields_list (n := n) (hnew _)
    exact ⟨_, _, w', rfl, hyields⟩
  · cases h
    obtain ⟨w', hyields⟩ := yields_row (n := n) (hnew _)
    exact ⟨_, _, w', rfl, hyields⟩
  · cases h
    obtain ⟨w', hyields⟩ := yields_row (n := n) (hnew _)
    exact ⟨_, _, w', rfl, hyields⟩
  · rename_i start stop step
    obtain ⟨w', hyields⟩ := yields_range (n := n)
      (hnew (.range (rangeKind start stop step) start (rangeLength start stop step) step))
    cases h
    rw [rangeItems, List.map_map]
    exact ⟨_, _, w', rfl, hyields⟩
  · cases h
    obtain ⟨w', hyields⟩ := yields_row (n := n) (hnew _)
    exact ⟨_, _, w', rfl, hyields⟩
  · cases h

theorem elements_of_iterate {w₁ : World} (h : iterate v w = .ok ref w₁) :
    (v = .iterator ref ∧ w₁ = w) ∨ ∃ items, w.elements? v = some items := by
  cases v with
  | iterator r =>
    cases h
    exact .inl ⟨rfl, rfl⟩
  | const c =>
    cases c with
    | str s => exact .inr ⟨_, rfl⟩
    | _ => cases h
  | list | tuple | range | dict => exact .inr ⟨_, rfl⟩
  | _ => cases h

/-- The interpreter that runs nothing gives no items. -/
theorem not_yields_zero : ¬Yields (upTo 0) ref w items w' := by
  intro h
  cases h with
  | ended hnext => cases hnext
  | item hnext => cases hnext

/-- What a value yields are its elements, or, for an iterator, what it has left. -/
theorem Iterates.cases (h : Iterates (upTo n) v w items) :
    w.elements? v = some items ∨ ∃ ref w', v = .iterator ref ∧ Yields (upTo n) ref w items w' := by
  obtain ⟨ref, w₁, w', hiterate, hyields⟩ := h
  cases n with
  | zero => exact (not_yields_zero hyields).elim
  | succ n =>
    rcases elements_of_iterate hiterate with ⟨rfl, rfl⟩ | ⟨items', helements⟩
    · exact .inr ⟨ref, w', rfl, hyields⟩
    · obtain ⟨_, _, _, hiterate', hyields'⟩ := iterates_of_elements (n := n) helements
      cases hiterate.symm.trans hiterate'
      rw [(hyields.unique hyields').1]
      exact .inl helements

/-- An iterator over a range knows how many numbers it has left. -/
theorem Yields.length_range (h : Yields (upTo n) ref w items w') {kind : String} {i step : Int}
    {left : Nat} (hiter : w.iters[ref]? = some (.range kind i left step)) :
    items.length = left := by
  cases n with
  | zero => exact (not_yields_zero h).elim
  | succ n =>
    obtain ⟨w'', h'⟩ := yields_range (n := n) hiter
    rw [(h.unique h').1, List.length_map, List.length_range]

/-- Draining an iterator collects all that it yields, if there is room. -/
theorem drain_iterator (h : Yields (upTo n) ref w items w') (hroom : items.length ≤ w.room) :
    drain (upTo n) (.iterator ref) w = .ok items w' := by
  have hdrain : drainIter (upTo n) ref (w.room + 1) w = .ok items w' :=
    drainIter_of_yields h (Nat.lt_succ_of_le hroom)
  cases hiter : w.iters[ref]? with
  | none =>
    have hat : Exec.iterAt ref w = .ok (.row "" []) w := by
      show EStateM.Result.ok (w.iters.getD ref (.row "" [])) w = _
      rw [Array.getD_eq_getD_getElem?, hiter]
      rfl
    rw [drain, Exec.bind_ok hat]
    exact hdrain
  | some iter =>
    rw [drain, Exec.bind_ok (iterAt_of_iters hiter)]
    cases iter with
    | range kind i left step =>
      -- room is checked before the first item is taken, by what the iterator has left
      have hleft := h.length_range hiter
      have hcheck : checkRoom .lengthOverflow left w = .ok () w := by
        show (if left ≤ w.room then pure () else Exec.fail _ : Exec Unit) w = _
        rw [if_pos (hleft ▸ hroom)]
        rfl
      dsimp only
      rw [Exec.bind_ok hcheck]
      exact hdrain
    | _ => exact hdrain

end Iterators

/-! ### Sequences -/

section Sequences

theorem length_rangeItems (start stop step : Int) :
    (rangeItems start stop step).length = rangeLength start stop step := by
  rw [rangeItems, List.length_map, List.length_range]

theorem lengthOf_of_elements (hv : isSequence v = true) (h : w.elements? v = some items)
    (htells : v.TellsLength) : lengthOf v w = .ok items.length w := by
  cases v with
  | list => cases h; exact congrArg (EStateM.Result.ok · w) Array.length_toList.symm
  | tuple => cases h; rfl
  | range start stop step =>
    cases h
    rw [lengthOf, if_neg (Nat.not_lt.mpr htells), List.length_map, length_rangeItems]
    rfl
  | const c =>
    cases c with
    | str s =>
      cases h
      rw [Value.chars, List.length_map, String.length_toList]
      rfl
    | _ => cases h
  | _ => cases hv

/-- An item of a sequence is found by its position. -/
theorem itemAt?_of_elements (hv : isSequence v = true) (h : w.elements? v = some items) (i : Nat) :
    itemAt? v i w = .ok items[i]? w := by
  cases v with
  | list ref =>
    cases h
    exact congrArg (EStateM.Result.ok · w) Array.getElem?_toList.symm
  | tuple => cases h; rfl
  | range start stop step =>
    cases h
    refine congrArg (EStateM.Result.ok · w) ?_
    by_cases hi : i < rangeLength start stop step
    · simp [rangeItems, hi]
    · simp [rangeItems, hi]
  | const c =>
    cases c with
    | str s =>
      cases h
      exact congrArg (EStateM.Result.ok · w) List.getElem?_map.symm
    | _ => cases h
  | _ => cases hv

theorem ordered_ofInt (op : CompareOp) (i j : Int) :
    ordered op (.ofInt i) (.ofInt j) w = .ok (Datum.holds op (some (Ord.compare i j))) w := rfl

theorem ordered_le (i j : Int) : ordered .le (.ofInt i) (.ofInt j) w = .ok (decide (i ≤ j)) w := by
  rw [ordered_ofInt]
  refine congrArg (EStateM.Result.ok · w) ?_
  cases h : Ord.compare i j with
  | lt => simp [Datum.holds, Int.compare_eq_lt.mp h, Int.le_of_lt]
  | eq => simp [Datum.holds, Int.compare_eq_eq.mp h]
  | gt => simp [Datum.holds, Int.compare_eq_gt.mp h]

theorem ordered_lt (i j : Int) : ordered .lt (.ofInt i) (.ofInt j) w = .ok (decide (i < j)) w := by
  rw [ordered_ofInt]
  refine congrArg (EStateM.Result.ok · w) ?_
  cases h : Ord.compare i j with
  | lt => simp [Datum.holds, Int.compare_eq_lt.mp h]
  | eq => simp [Datum.holds, Int.compare_eq_eq.mp h]
  | gt => simp [Datum.holds, Int.le_of_lt (Int.compare_eq_gt.mp h)]

/-- The item of a row at an index from zero on. -/
def itemOf (items : List Value) (i : Int) : Option Value := if 0 ≤ i then items[i.toNat]? else none

theorem sequenceItem_of_elements (hv : isSequence v = true) (h : w.elements? v = some items)
    {i : Int} (htells : 0 ≤ i → v.TellsLength) :
    sequenceItem v (.ofInt i) w = .ok (itemOf items i) w := by
  rw [sequenceItem, Exec.bind_ok (ordered_le 0 i)]
  by_cases hi : 0 ≤ i
  · rw [if_pos (decide_eq_true hi), Exec.bind_ok (lengthOf_of_elements hv h (htells hi)),
      Exec.bind_ok (ordered_lt i items.length), itemOf, if_pos hi]
    by_cases hlt : i < items.length
    · rw [if_pos (decide_eq_true hlt)]
      exact itemAt?_of_elements hv h i.toNat
    · rw [if_neg (by simpa using hlt), List.getElem?_eq_none (by omega)]
      rfl
  · rw [if_neg (by simpa using hi), itemOf, if_neg hi]
    rfl

/-- `nth` gives the item at a position from the front, and nil elsewhere. -/
theorem nth_of_elements (hv : isSequence v = true) (h : w.elements? v = some items) {i : Int}
    (htells : 0 ≤ i → v.TellsLength) :
    nth self v (.ofInt i) .nil w = .ok ((itemOf items i).getD .nil) w := by
  have hitem := sequenceItem_of_elements hv h htells
  cases v with
  | list | tuple | range => exact Exec.bind_ok hitem
  | const c =>
    cases c with
    | str s => exact Exec.bind_ok hitem
    | _ => cases h
  | _ => cases hv

/-! ### The rest of a sequence -/

theorem sliceStart_ofNat (start n : Nat) : sliceStart (.ofInt start) n w = .ok (min start n) w := by
  show EStateM.Result.ok (clampStart start n) w = _
  rw [clampStart, if_neg (by omega), Int.toNat_natCast]

/-- There are `k` steps of a size from one end of `k` such steps to the other. -/
theorem steps_between {k : Nat} (hk : 0 < k) {size : Int} (hsize : 0 < size) :
    ((k * size - 1) / size + 1).toNat = k := by
  have hsplit : k * size - 1 = size - 1 + ((k : Int) - 1) * size := by
    rw [Int.sub_mul, Int.one_mul]
    omega
  rw [hsplit, Int.add_mul_ediv_right _ _ (Int.ne_of_gt hsize),
    Int.ediv_eq_zero_of_lt (by omega) (by omega)]
  omega

/-- A range that begins at one of the numbers of a range, and ends behind its last one, has as many
numbers as follow there. -/
theorem rangeLength_slice {first step : Int} {i n : Nat} (hi : i ≤ n) (hstep : step ≠ 0) :
    rangeLength (first + i * step) (first + n * step) step = n - i := by
  obtain ⟨k, rfl⟩ := Nat.exists_eq_add_of_le hi
  -- the slice is `k` whole steps long, so both ways to count reduce to `steps_between`
  have hspan : first + ((i + k : Nat) : Int) * step = first + i * step + k * step := by
    rw [Int.natCast_add, Int.add_mul, Int.add_assoc]
  rw [hspan, Nat.add_sub_cancel_left]
  generalize first + i * step = a
  rcases Nat.eq_zero_or_pos k with rfl | hk
  · simp [rangeLength]
  · have hcast : (0 : Int) < k := by omega
    rcases Int.lt_or_gt_of_ne hstep with hneg | hpos
    · have hback : (k : Int) * step < 0 := Int.mul_neg_of_pos_of_neg hcast hneg
      rw [rangeLength, if_neg (by omega), if_pos hneg, if_pos (by omega)]
      have hsize : a - (a + k * step) - 1 = k * -step - 1 := by
        rw [Int.mul_neg]
        omega
      rw [hsize, steps_between hk (by omega)]
    · have hforth : 0 < (k : Int) * step := Int.mul_pos hcast hpos
      rw [rangeLength, if_pos hpos, if_pos (by omega)]
      have hsize : a + k * step - a - 1 = k * step - 1 := by omega
      rw [hsize, steps_between hk hpos]

/-- The numbers of a range from a position on are a range. -/
theorem rangeItems_slice (first stop step : Int) {i : Nat} (hi : i ≤ rangeLength first stop step) :
    rangeItems (first + i * step) (first + rangeLength first stop step * step) step
      = (rangeItems first stop step).drop i := by
  by_cases hstep : step = 0
  · subst hstep
    simp [rangeItems, rangeLength]
  · rw [rangeItems, rangeLength_slice hi hstep, rangeItems, ← List.map_drop]
    apply List.ext_getElem
    · simp
    · intro k _ _
      simp [Int.add_mul, Int.add_assoc]

/-- The rest of a sequence has the items from the start on, and is of the same type. -/
theorem subseq_of_elements (hv : isSequence v = true) (h : w.elements? v = some items)
    (start : Nat) :
    ∃ t w', subseq self v (.ofInt start) w = .ok t w' ∧ w'.elements? t = some (items.drop start)
      ∧ w'.typeName t = w.typeName v := by
  cases v with
  | list ref =>
    cases h
    have hitems : Exec.items ref w = .ok (w.items ref) w := rfl
    refine ⟨.list w.lists.size,
      { w with lists := w.lists.push ((w.items ref).drop start).toArray }, ?_, ?_, rfl⟩
    · rw [subseq, Exec.bind_ok hitems, Exec.bind_ok (sliceStart_ofNat start _),
        ← List.drop_eq_drop_min]
      rfl
    · simp [World.elements?, World.items, World.listAt]
  | tuple items =>
    cases h
    refine ⟨.tuple (items.drop start), w, ?_, rfl, rfl⟩
    rw [subseq, Exec.bind_ok (sliceStart_ofNat start _), ← List.drop_eq_drop_min]
    rfl
  | range first stop step =>
    cases h
    refine ⟨_, w, Exec.bind_ok (sliceStart_ofNat start _), ?_, rfl⟩
    rw [World.elements?, rangeItems_slice _ _ _ (Nat.min_le_right _ _), List.map_drop,
      ← length_rangeItems, ← List.length_map, ← List.drop_eq_drop_min]
  | const c =>
    cases c with
    | str s =>
      cases h
      refine ⟨_, w, Exec.bind_ok (sliceStart_ofNat start _), ?_, rfl⟩
      show some (Value.chars _) = _
      rw [Value.chars, String.toList_ofList, List.map_drop, Value.chars, ← String.length_toList,
        ← List.length_map, ← List.drop_eq_drop_min]
    | _ => cases h
  | _ => cases hv

end Sequences

/-! ### Any value -/

/-- The three functions agree that `s` is a sequence of the given items, and its rest is of the
given type. Items are not counted where the length cannot be told. -/
structure Splits (self : Interp) (s : Value) (w : World) (items : List Value) (type : String) :
    Prop where
  again : seq self s w = .ok s w
  positions : ∀ i : Int, (0 ≤ i → s.TellsLength) →
    nth self s (.ofInt i) .nil w = .ok ((itemOf items i).getD .nil) w
  rest : ∀ start : Nat, ∃ t w', subseq self s (.ofInt start) w = .ok t w' ∧
    Iterates self t w' (items.drop start) ∧ w'.typeName t = type

theorem seq_of_isSequence (hv : isSequence v = true) : seq self v w = .ok v w := by
  cases v with
  | dict | iterator => cases hv
  | _ => rfl

/-- `nth` and `subseq` take a sequence apart in the same way. -/
theorem splits_of_elements {n : Nat} (hv : isSequence v = true) (h : w.elements? v = some items) :
    Splits (upTo (n + 1)) v w items (w.typeName v) where
  again := seq_of_isSequence hv
  positions _ htells := nth_of_elements hv h htells
  rest start := by
    obtain ⟨t, w', hrest, helements, htype⟩ := subseq_of_elements hv h start
    exact ⟨t, w', hrest, iterates_of_elements helements, htype⟩

/-- **Positions and rest take one row of items apart.** A value that cannot be gone through has no
items, and nothing fails on it. For any other value `seq` gives a sequence of the items that the
value yields: asking again changes nothing, `nth` finds the items by their positions and nil
elsewhere, and `subseq` gives the items from a position on, as a list, tuple, string or range if the
value is one. There has to be room for what an iterator yields. -/
theorem seq_splits (n : Nat) (w : World) (v : Value) :
    ((∀ ref w', iterate v w ≠ .ok ref w') →
      seq (upTo n) v w = .ok v w ∧
      (∀ i : Int, nth (upTo n) v (.ofInt i) .nil w = .ok .nil w) ∧
      ∀ start : Nat, subseq (upTo n) v (.ofInt start) w = .ok (.tuple []) w) ∧
    ∀ items, Iterates (upTo n) v w items →
      ((∃ ref, v = .iterator ref) → items.length ≤ w.room) →
      ∃ s w₁, seq (upTo n) v w = .ok s w₁ ∧
        Splits (upTo n) s w₁ items (if isSequence v then w.typeName v else "tuple") := by
  constructor
  · intro hnot
    cases v with
    | const c =>
      cases c with
      | str s => exact (hnot _ _ rfl).elim
      | _ => exact ⟨rfl, fun _ => rfl, fun _ => rfl⟩
    | list | tuple | range | dict | iterator => exact (hnot _ _ rfl).elim
    | _ => exact ⟨rfl, fun _ => rfl, fun _ => rfl⟩
  · intro items h hroom
    cases n with
    | zero =>
      obtain ⟨_, _, _, -, hyields⟩ := h
      exact (not_yields_zero hyields).elim
    | succ n =>
      rcases h.cases with helements | ⟨ref, w', rfl, hyields⟩
      · by_cases hv : isSequence v = true
        · rw [if_pos hv]
          exact ⟨v, w, seq_of_isSequence hv, splits_of_elements hv helements⟩
        · rw [if_neg hv]
          -- the keys of a dictionary are kept in a tuple
          have hseq : seq (upTo (n + 1)) v w = .ok (.tuple items) w := by
            cases v with
            | dict entries => cases helements; rfl
            | const c =>
              cases c with
              | str s => cases hv rfl
              | _ => cases helements
            | list | tuple | range => cases hv rfl
            | _ => cases helements
          exact ⟨.tuple items, w, hseq, splits_of_elements rfl rfl⟩
      · exact ⟨.tuple items, w', Exec.bind_ok (drain_iterator hyields (hroom ⟨ref, rfl⟩)),
          splits_of_elements rfl rfl⟩

/-- A world with an iterator that has two items left. -/
def iteratorWorld : World where
  iters := #[.row "tuple_iterator" [.ofString "a", .nil]]

/-- A range that counts down, an iterator, and nil. -/
theorem seq_splits_kinds :
    (∃ s w₁, seq (upTo 1) (.range 5 (-2) (-3)) {} = .ok s w₁ ∧
      Splits (upTo 1) s w₁ [.ofInt 5, .ofInt 2, .ofInt (-1)] "range") ∧
    (∃ s w₁, seq (upTo 1) (.iterator 0) iteratorWorld = .ok s w₁ ∧
      Splits (upTo 1) s w₁ [.ofString "a", .nil] "tuple") ∧
    subseq (upTo 1) .nil (.ofInt 3) {} = .ok (.tuple []) {} := by
  refine ⟨?_, ?_, ?_⟩
  · exact (seq_splits 1 {} (.range 5 (-2) (-3))).2 _ (iterates_of_elements rfl) nofun
  · have hleft : iteratorWorld.iters[0]? = some (.row "tuple_iterator" [.ofString "a", .nil]) := rfl
    obtain ⟨w', hyields⟩ := yields_row (n := 0) hleft
    exact (seq_splits 1 iteratorWorld (.iterator 0)).2 _ ⟨0, _, w', rfl, hyields⟩
      fun _ => by decide
  · exact ((seq_splits 1 {} .nil).1 nofun).2.2 3

end Interp

end TailLisp
