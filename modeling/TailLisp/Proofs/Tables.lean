import Mathlib.Data.List.Find
import TailLisp.Proofs.Iteration
import TailLisp.Proofs.KeyEquality

/-!
# TailLisp.Proofs.Tables

**Dictionaries and association lists as tables.** A dictionary keeps one entry for a key and
replaces its value; an association list is searched from the front and may have any number of pairs
for a key, and items between them that are no pairs. `Interp.lookup_tables_agree` says what a
look-up finds in each: the last value that was set, and the first pair. So a list is the dictionary
of its pairs from the back.

A dictionary that keeps the key it had while another one sets the value relies on equality being an
equivalence among keys, for numbers of all kinds, keywords, and rows of them. `Datum.equal` is not
that for all data. The first half of the module shows that keys are equal if they have the same
*sense* (`Datum.equal_iff_sense`).
-/

namespace TailLisp

/-- What keys are compared by. -/
inductive KeySense where
  /-- A NaN. No key has the sense of another one with a NaN in it. -/
  | nan
  /-- A real number, nil or a string. -/
  | atom (value : KeyValue)
  /-- A complex number that is not real. -/
  | complex (re im : KeyValue)
  | tuple (items : List KeySense)
  /-- A range by its length, its first number and its step; what makes no difference is zero. -/
  | range (length : Nat) (start step : Int)
  | keyword (name : KeySense)
  | function (id : Nat)
  | native (fn : Native)
  | bound (method : Bound)
  | object (kind : String) (id : Nat)

/-- The sense of what has a value, or of a NaN. -/
def KeySense.ofValue : Option KeyValue → KeySense
  | some v => .atom v
  | none => .nan

/-- Is it the sense of a constant or a number? -/
def KeySense.isPlain : KeySense → Bool
  | .nan | .atom _ | .complex .. => true
  | _ => false

theorem KeySense.ne_of_isPlain {s t : KeySense} (hs : s.isPlain = true) (ht : t.isPlain = false) :
    s ≠ t := by
  rintro rfl
  exact Bool.false_ne_true (ht.symm.trans hs)

/-- Both zeros have the value 0. -/
theorem Double.isZero_iff (x : Double) : x.isZero = true ↔ x.value? = some (.number 0) := by
  cases x with
  | nan => simp [isZero, value?]
  | infinite => simp [isZero, value?]
  | finite negative m e =>
    have hunit : (2 : ℚ) ^ e ≠ 0 := zpow_ne_zero _ two_ne_zero
    cases negative <;> simp [isZero, value?, signed, hunit]

namespace Number

/-- The sense of a number. -/
def sense : Number → KeySense
  | .int i => .atom (.number i)
  | .double x => .ofValue x.value?
  | .complex z =>
    match z.re.value?, z.im.value? with
    | some re, some im => if z.im.isZero then .atom re else .complex re im
    | _, _ => .nan

/-- A complex number has a NaN in it, or is real, or is neither. -/
theorem sense_complex (z : Complex) :
    ((z.re.value? = none ∨ z.im.value? = none) ∧ (Number.complex z).sense = .nan) ∨
    (∃ re, z.re.value? = some re ∧ z.im.value? = some (.number 0) ∧ z.im.isZero = true ∧
      (Number.complex z).sense = .atom re) ∨
    ∃ re im, z.re.value? = some re ∧ z.im.value? = some im ∧ im ≠ .number 0 ∧ z.im.isZero = false ∧
      (Number.complex z).sense = .complex re im := by
  have hzero := z.im.isZero_iff
  cases hre : z.re.value? with
  | none => exact .inl ⟨.inl rfl, by simp [sense, hre]⟩
  | some re =>
    cases him : z.im.value? with
    | none => exact .inl ⟨.inr rfl, by simp [sense, him]⟩
    | some im =>
      rw [him, Option.some.injEq] at hzero
      cases h : z.im.isZero with
      | true =>
        obtain rfl := hzero.mp h
        exact .inr (.inl ⟨re, rfl, rfl, rfl, by simp [sense, hre, him, h]⟩)
      | false =>
        have hne : im ≠ .number 0 := fun him => by simp [hzero.mpr him] at h
        exact .inr (.inr ⟨re, im, rfl, rfl, hne, rfl, by simp [sense, hre, him, h]⟩)

/-- A complex number is equal to a real one if it is real itself and has the same value. -/
theorem sense_complex_real (z : Complex) (u : Option KeyValue) :
    (z.im.isZero = true ∧ z.re.value? = u ∧ u.isSome = true) ↔
      (Number.complex z).sense = .ofValue u ∧ KeySense.ofValue u ≠ .nan := by
  have hzero := z.im.isZero_iff
  cases u with
  | none => simp [KeySense.ofValue]
  | some v =>
    rcases sense_complex z with
      ⟨hnan, hsense⟩ | ⟨re, hre, him, h, hsense⟩ | ⟨re, im, hre, him, -, h, hsense⟩ <;> rw [hsense]
    · rcases hnan with hnan | hnan <;> simp [hnan, hzero, KeySense.ofValue]
    · simp [hre, h, KeySense.ofValue]
    · simp [h, KeySense.ofValue]

theorem equal_complex_iff (z : Complex) (n : Number) :
    (Number.complex z).equal n = true ↔ (Number.complex z).sense = n.sense ∧ n.sense ≠ .nan := by
  cases n with
  | int j =>
    rw [equal, Bool.and_eq_true, beq_iff_eq, Double.compareInt?_eq_iff, eq_comm (a := some _)]
    exact Iff.trans (and_congr_right fun _ => (and_iff_left rfl).symm) (sense_complex_real z _)
  | double y =>
    rw [equal, Bool.and_eq_true, beq_iff_eq, Double.compare?_eq_iff]
    refine Iff.trans (and_congr_right fun _ => and_congr_right fun h => ?_)
      (sense_complex_real z y.value?)
    rw [h]
  | complex w =>
    rw [equal, Complex.equal, Bool.and_eq_true, beq_iff_eq, beq_iff_eq, Double.compare?_eq_iff,
      Double.compare?_eq_iff]
    rcases sense_complex z with
      ⟨hnan, hsense⟩ | ⟨re, hre, him, -, hsense⟩ | ⟨re, im, hre, him, hne, -, hsense⟩ <;>
      rcases sense_complex w with
        ⟨hnan', hsense'⟩ | ⟨re', hre', him', -, hsense'⟩ |
          ⟨re', im', hre', him', hne', -, hsense'⟩ <;>
      rw [hsense, hsense']
    · rcases hnan with hnan | hnan <;> simp [hnan]
    · rcases hnan with hnan | hnan <;> simp [hnan]
    · rcases hnan with hnan | hnan <;> simp [hnan]
    · rcases hnan' with hnan' | hnan' <;> simp [hnan', hre, him]
    · simp [hre, him, hre', him']
    · simp [hre, him, hre', him', hne'.symm]
    · rcases hnan' with hnan' | hnan' <;> simp [hnan', hre, him]
    · simp [hre, him, hre', him', hne]
    · simp [hre, him, hre', him']

end Number

namespace Datum

/-! ### Keys and their senses -/

mutual

/-- The data that a key is made of: itself, the items of a tuple and the name of a keyword. -/
def parts : Datum → List Datum
  | .tuple items => .tuple items :: partsOfAll items
  | .keyword name id => .keyword name id :: parts name
  | d => [d]

/-- The data that keys are made of. -/
def partsOfAll : List Datum → List Datum
  | [] => []
  | d :: ds => parts d ++ partsOfAll ds

end

/-- The datum can be a key. A keyword is known by its mark, so there is one name for each mark. -/
structure IsKey (names : Nat → Datum) (d : Datum) : Prop where
  hashable : d.unhashable? = none
  marked : ∀ name id, .keyword name id ∈ d.parts → name = names id

/-- No part of the datum is a NaN. -/
def NoNan (d : Datum) : Prop := (d.parts.any fun p => p.number?.any Number.hasNan) = false

mutual

/-- The sense of a key. -/
def sense : Datum → KeySense
  | .const c => .ofValue c.value?
  | .complex z => (Number.complex z).sense
  | .tuple items => .tuple (senses items)
  | .range start stop step =>
    let n := rangeLength start stop step
    .range n (if n = 0 then 0 else start) (if n ≤ 1 then 0 else step)
  | .keyword name _ => .keyword (sense name)
  | .function _ _ id => .function id
  | .native fn => .native fn
  | .bound method => .bound method
  | .object kind id => .object kind id
  | .list _ | .dict _ | .symbol .. | .enclosing _ => .nan

/-- The senses of keys. -/
def senses : List Datum → List KeySense
  | [] => []
  | d :: ds => sense d :: senses ds

end

variable {names : Nat → Datum}

theorem mem_partsOfAll {p d : Datum} (hp : p ∈ d.parts) :
    ∀ {ds : List Datum}, d ∈ ds → p ∈ partsOfAll ds := by
  intro ds hd
  induction ds with
  | nil => cases hd
  | cons e es ih =>
    rw [partsOfAll, List.mem_append]
    rcases List.mem_cons.mp hd with rfl | hd
    · exact .inl hp
    · exact .inr (ih hd)

theorem mem_parts_tuple {items : List Datum} {p d : Datum} (hd : d ∈ items) (hp : p ∈ d.parts) :
    p ∈ (Datum.tuple items).parts := by
  rw [parts]
  exact List.mem_cons_of_mem _ (mem_partsOfAll hp hd)

theorem mem_parts_keyword {name p : Datum} {id : Nat} (hp : p ∈ name.parts) :
    p ∈ (Datum.keyword name id).parts := by
  rw [parts]
  exact List.mem_cons_of_mem _ hp

/-- A row without anything that cannot be a key has only keys in it. -/
theorem unhashable?_of_unhashableIn? {ds : List Datum} (h : unhashableIn? ds = none) :
    ∀ d ∈ ds, d.unhashable? = none := by
  induction ds with
  | nil => exact nofun
  | cons e es ih =>
    rw [unhashableIn?] at h
    split at h
    · cases h
    · rename_i he
      exact List.forall_mem_cons.mpr ⟨he, ih h⟩

namespace IsKey

theorem item {items : List Datum} (h : IsKey names (.tuple items)) {d : Datum} (hd : d ∈ items) :
    IsKey names d := by
  have hhashable := h.hashable
  rw [unhashable?] at hhashable
  exact ⟨unhashable?_of_unhashableIn? hhashable d hd,
    fun name id hp => h.marked name id (mem_parts_tuple hd hp)⟩

theorem name {name : Datum} {id : Nat} (h : IsKey names (.keyword name id)) :
    name = names id ∧ IsKey names name := by
  have hhashable := h.hashable
  rw [unhashable?] at hhashable
  exact ⟨h.marked name id (by rw [parts]; exact List.mem_cons_self), hhashable,
    fun name id hp => h.marked name id (mem_parts_keyword hp)⟩

end IsKey

namespace NoNan

theorem of_parts {d e : Datum} (h : NoNan e) (hparts : ∀ p ∈ d.parts, p ∈ e.parts) : NoNan d :=
  List.any_eq_false.mpr fun p hp => List.any_eq_false.mp h p (hparts p hp)

theorem item {items : List Datum} (h : NoNan (.tuple items)) {d : Datum} (hd : d ∈ items) :
    NoNan d :=
  h.of_parts fun _ => mem_parts_tuple hd

theorem name {name : Datum} {id : Nat} (h : NoNan (.keyword name id)) : NoNan name :=
  h.of_parts fun _ => mem_parts_keyword

theorem sense_const {c : Constant} (h : NoNan (.const c)) : (Datum.const c).sense ≠ .nan := by
  cases c with
  | double x =>
    cases x with
    | nan mark => cases h
    | infinite | finite => exact nofun
  | _ => exact nofun

theorem sense_complex {z : Complex} (h : NoNan (.complex z)) : (Number.complex z).sense ≠ .nan := by
  have hnan : z.re.isNan = false ∧ z.im.isNan = false := by
    simpa [NoNan, parts, number?, Number.hasNan] using h
  have hvalue {x : Double} (hx : x.isNan = false) : x.value? ≠ none := by
    cases x with
    | nan => cases hx
    | infinite | finite => exact nofun
  rcases Number.sense_complex z with
    ⟨h | h, -⟩ | ⟨_, _, _, _, hsense⟩ | ⟨_, _, _, _, _, _, hsense⟩
  · exact (hvalue hnan.1 h).elim
  · exact (hvalue hnan.2 h).elim
  · rw [hsense]; exact nofun
  · rw [hsense]; exact nofun

end NoNan

/-- Ranges are equal if they have the same items, whatever their bounds are. -/
theorem sameRange_iff (a b c d e f : Int) :
    sameRange a b c d e f = true ↔ (Datum.range a b c).sense = (Datum.range d e f).sense := by
  simp only [sameRange, sense, KeySense.range.injEq, Bool.and_eq_true, Bool.or_eq_true, beq_iff_eq]
  generalize rangeLength a b c = n
  generalize rangeLength d e f = k
  by_cases h : n = k
  · subst h
    rcases n with _ | _ | n <;> simp
  · simp [h]

/-- Constants are equal if they have the same sense. A NaN equals nothing. -/
theorem const_equal_iff (a b : Constant) :
    a.same b = true ↔ (Datum.const a).sense = (Datum.const b).sense ∧
      (Datum.const a).sense ≠ .nan := by
  rw [Constant.same_iff, sense, sense]
  cases a.value? <;> cases b.value? <;> simp [KeySense.ofValue]

/-- Equality of a complex number and a constant. -/
theorem complex_equal_iff (z : Complex) (c : Constant) :
    c.number?.any (Number.equal (.complex z)) = true ↔
      (Number.complex z).sense = (Datum.const c).sense ∧ (Datum.const c).sense ≠ .nan := by
  cases hn : c.number? with
  | some n =>
    have hsense : (Datum.const c).sense = n.sense := by
      cases c with
      | nil | str => cases hn
      | bool | int | double => cases hn; rfl
    rw [hsense]
    exact Number.equal_complex_iff z n
  | none =>
    refine iff_of_false nofun fun h => ?_
    rcases Number.sense_complex z with
      ⟨-, hsense⟩ | ⟨re, hre, -, -, hsense⟩ | ⟨_, _, _, _, _, _, hsense⟩
    · exact h.2 (h.1.symm.trans hsense)
    · have hatom := hsense.symm.trans h.1
      cases c with
      | nil =>
        obtain rfl : re = .nil := KeySense.atom.inj hatom
        exact Double.value?_ne (v := .nil) nofun nofun hre
      | str s =>
        obtain rfl : re = .text s := KeySense.atom.inj hatom
        exact Double.value?_ne (v := .text s) nofun nofun hre
      | _ => cases hn
    · cases c with
      | nil | str => cases hsense.symm.trans h.1
      | _ => cases hn

theorem isPlain_const (c : Constant) : (Datum.const c).sense.isPlain = true := by
  rw [sense]
  cases c.value? <;> rfl

theorem isPlain_complex (z : Complex) : (Datum.complex z).sense.isPlain = true := by
  rw [sense]
  rcases Number.sense_complex z with
    ⟨-, hsense⟩ | ⟨_, _, _, _, hsense⟩ | ⟨_, _, _, _, _, _, hsense⟩ <;> rw [hsense] <;> rfl

/-- What is no constant and no number is equal to none. -/
theorem equal_const_iff {a : Datum} (ha : a.sense.isPlain = false) (c : Constant) :
    equal a (.const c) = true ↔ sense a = sense (.const c) := by
  refine iff_of_false ?_ (KeySense.ne_of_isPlain (isPlain_const c) ha).symm
  cases a with
  | const c' => cases ha.symm.trans (isPlain_const c')
  | complex z => cases ha.symm.trans (isPlain_complex z)
  | _ => simp [equal]

theorem equal_complex_iff {a : Datum} (ha : a.sense.isPlain = false) (z : Complex) :
    equal a (.complex z) = true ↔ sense a = sense (.complex z) := by
  refine iff_of_false ?_ (KeySense.ne_of_isPlain (isPlain_complex z) ha).symm
  cases a with
  | const c => cases ha.symm.trans (isPlain_const c)
  | complex z' => cases ha.symm.trans (isPlain_complex z')
  | _ => simp [equal]

/-- Keys that are one and the same have one sense. -/
theorem sense_eq_of_identical {a b : Datum} (ha : IsKey names a) (hb : IsKey names b)
    (h : identical a b = true) : sense a = sense b := by
  unfold identical at h
  split at h
  · rw [eq_of_beq h]
  · rw [eq_of_beq h]
  · rw [sense, sense, ha.name.1, hb.name.1, eq_of_beq h]
  · cases h

mutual

/-- **A key without a NaN is equal to the keys that have its sense.** -/
theorem equal_iff_sense (a b : Datum) (ha : IsKey names a) (hnan : NoNan a) (hb : IsKey names b) :
    equal a b = true ↔ sense a = sense b := by
  -- constants and complex numbers may be equal across their kinds; no other two kinds may
  cases a with
  | const c =>
    cases b with
    | const c' =>
      rw [equal, const_equal_iff]
      exact and_iff_left hnan.sense_const
    | complex z =>
      rw [equal, complex_equal_iff, eq_comm, sense.eq_2]
      exact and_iff_left hnan.sense_const
    | list | dict | symbol | enclosing => cases hb.hashable
    | _ => exact iff_of_false (by simp [equal]) (KeySense.ne_of_isPlain (isPlain_const c) rfl)
  | complex z =>
    have hsense := hnan.sense_complex
    cases b with
    | const c =>
      rw [equal]
      exact (complex_equal_iff z c).trans (and_iff_left_of_imp fun h => h ▸ hsense)
    | complex z' =>
      rw [equal]
      exact (Number.equal_complex_iff z (.complex z')).trans
        (and_iff_left_of_imp fun h => h ▸ hsense)
    | list | dict | symbol | enclosing => cases hb.hashable
    | _ =>
      exact iff_of_false (by simp [equal, number?]) (KeySense.ne_of_isPlain (isPlain_complex z) rfl)
  | tuple as =>
    cases b with
    | tuple bs =>
      rw [equal, sense, sense, KeySense.tuple.injEq]
      exact sameAll_iff_senses as bs (fun _ => ha.item) (fun _ => hnan.item) fun _ => hb.item
    | list | dict | symbol | enclosing => cases hb.hashable
    | const c => exact equal_const_iff rfl c
    | complex z => exact equal_complex_iff rfl z
    | _ => simp [equal, sense]
  | range =>
    cases b with
    | range =>
      rw [equal]
      exact sameRange_iff ..
    | list | dict | symbol | enclosing => cases hb.hashable
    | const c => exact equal_const_iff rfl c
    | complex z => exact equal_complex_iff rfl z
    | _ => simp [equal, sense]
  | keyword m i =>
    cases b with
    | keyword n j =>
      rw [equal, sense, sense, KeySense.keyword.injEq]
      exact equal_iff_sense m n ha.name.2 hnan.name hb.name.2
    | list | dict | symbol | enclosing => cases hb.hashable
    | const c => exact equal_const_iff rfl c
    | complex z => exact equal_complex_iff rfl z
    | _ => simp [equal, sense]
  | list | dict | symbol | enclosing => cases ha.hashable
  | _ =>
    cases b with
    | list | dict | symbol | enclosing => cases hb.hashable
    | const c => exact equal_const_iff rfl c
    | complex z => exact equal_complex_iff rfl z
    | _ => simp [equal, sense]

theorem sameAll_iff_senses (as bs : List Datum) (ha : ∀ a ∈ as, IsKey names a)
    (hnan : ∀ a ∈ as, NoNan a) (hb : ∀ b ∈ bs, IsKey names b) :
    sameAll as bs = true ↔ senses as = senses bs := by
  cases as with
  | nil => cases bs <;> simp [sameAll, senses]
  | cons a as =>
    cases bs with
    | nil => simp [sameAll, senses]
    | cons b bs =>
      obtain ⟨ha, has⟩ := List.forall_mem_cons.mp ha
      obtain ⟨hnan, hnans⟩ := List.forall_mem_cons.mp hnan
      obtain ⟨hb, hbs⟩ := List.forall_mem_cons.mp hb
      -- items are also compared by identity, which adds nothing where no NaN is
      rw [sameAll, senses, senses, Bool.and_eq_true, Bool.or_eq_true, List.cons.injEq,
        equal_iff_sense a b ha hnan hb, sameAll_iff_senses as bs has hnans hbs,
        or_iff_right_of_imp (sense_eq_of_identical ha hb)]

end

/-- Keys are one key if they have the same sense. -/
theorem same_iff_sense {a b : Datum} (ha : IsKey names a) (hnan : NoNan a) (hb : IsKey names b) :
    same a b = true ↔ sense a = sense b := by
  rw [same, Bool.or_eq_true, equal_iff_sense a b ha hnan hb,
    or_iff_right_of_imp (sense_eq_of_identical ha hb)]

end Datum

/-! ### Dictionaries -/

/-- The value can be a key at this moment. -/
def World.IsKey (w : World) (names : Nat → Datum) (v : Value) : Prop := (w.read v).IsKey names

/-- The value can be a key at this moment, and there is no NaN in it. -/
structure World.IsPlainKey (w : World) (names : Nat → Datum) (v : Value) : Prop where
  isKey : w.IsKey names v
  noNan : (w.read v).NoNan

/-- Is the first part of a pair equal to the key? -/
def World.hasKey (w : World) (key : Value) (pair : Value × Value) : Bool :=
  (w.read pair.1).equal (w.read key)

/-- The value of the first pair with the key. -/
def World.valueIn (w : World) (key : Value) (pairs : List (Value × Value)) : Option Value :=
  (pairs.find? (w.hasKey key)).map (·.2)

namespace Interp

variable {w : World} {names : Nat → Datum} {key : Value}

/-- A pair has a key if it has the sense of the key. -/
theorem hasKey_iff {pair : Value × Value} (hpair : w.IsPlainKey names pair.1)
    (hkey : w.IsKey names key) :
    w.hasKey key pair = true ↔ (w.read pair.1).sense = (w.read key).sense :=
  Datum.equal_iff_sense _ _ hpair.isKey hpair.noNan hkey

theorem valueIn_cons (pair : Value × Value) (pairs : List (Value × Value)) :
    w.valueIn key (pair :: pairs) =
      if w.hasKey key pair then some pair.2 else w.valueIn key pairs := by
  rw [World.valueIn, List.find?_cons]
  split <;> simp_all [World.valueIn]

/-- The pairs in front are searched first. -/
theorem valueIn_append (pairs pairs' : List (Value × Value)) :
    w.valueIn key (pairs ++ pairs') = (w.valueIn key pairs).or (w.valueIn key pairs') := by
  rw [World.valueIn, List.find?_append, Option.map_or]
  rfl

/-- Setting an entry changes what is found for its key, and for no other one. -/
theorem valueIn_setEntry (hkey : w.IsKey names key) {entry : Value × Value}
    (hentry : w.IsPlainKey names entry.1) {entries : List (Value × Value)}
    (hentries : ∀ e ∈ entries, w.IsPlainKey names e.1) :
    w.valueIn key
        (setEntry (fun k => (w.read k).same (w.read entry.1)) entry.1 entry.2 entries)
      = if w.hasKey key entry then some entry.2 else w.valueIn key entries := by
  induction entries with
  | nil => exact valueIn_cons entry []
  | cons e es ih =>
    obtain ⟨he, hes⟩ := List.forall_mem_cons.mp hentries
    have hsame := Datum.same_iff_sense he.isKey he.noNan hentry.isKey
    have hhead := hasKey_iff he hkey
    have hset := hasKey_iff hentry hkey
    rw [setEntry, valueIn_cons e es]
    split
    · -- the entry is replaced: its key stays and has the sense of the one that is set
      rename_i h
      have hboth : w.hasKey key (e.1, entry.2) = w.hasKey key entry := by
        rw [Bool.eq_iff_iff, hset, ← hsame.mp h]
        exact hhead
      rw [valueIn_cons, hboth]
      split
      · rfl
      · rename_i hnot
        rw [if_neg fun hyes => hnot (hset.mpr ((hsame.mp h).symm.trans (hhead.mp hyes)))]
    · -- the entry stays: if its key is looked up, the one that is set has another sense
      rename_i h
      rw [valueIn_cons, ih hes]
      split
      · rename_i hyes
        rw [if_neg fun hnot => h (hsame.mpr ((hhead.mp hyes).trans (hset.mp hnot).symm))]
      · rfl

theorem isKey_setEntry (isKey : Value → Bool) {entry : Value × Value}
    (hentry : w.IsPlainKey names entry.1)
    {entries : List (Value × Value)} (hentries : ∀ e ∈ entries, w.IsPlainKey names e.1) :
    ∀ e ∈ setEntry isKey entry.1 entry.2 entries, w.IsPlainKey names e.1 := by
  induction entries with
  | nil => exact List.forall_mem_singleton.mpr hentry
  | cons e es ih =>
    obtain ⟨he, hes⟩ := List.forall_mem_cons.mp hentries
    rw [setEntry]
    split
    · exact List.forall_mem_cons.mpr ⟨he, hes⟩
    · exact List.forall_mem_cons.mpr ⟨he, ih hes⟩

/-- What can be a key passes the check. -/
theorem checkKey_of_isKey {v : Value} (h : w.IsKey names v) : checkKey v w = .ok () w := by
  have hread : Exec.read v w = .ok (w.read v) w := rfl
  rw [checkKey, Exec.bind_ok hread, h.hashable]
  rfl

/-- An entry with a proper key is put in without a failure. -/
theorem putEntry_of_isKey {entry : Value × Value} (h : w.IsKey names entry.1)
    (entries : List (Value × Value)) :
    putEntry entries entry w = .ok
      (setEntry (fun k => (w.read k).same (w.read entry.1)) entry.1 entry.2 entries) w := by
  rw [putEntry, Exec.bind_ok (checkKey_of_isKey h)]
  rfl

/-- Entries that are set one after the other: the last one with a key is found, or what was
there. -/
theorem foldlM_putEntry {pairs : List (Value × Value)}
    (hpairs : ∀ p ∈ pairs, w.IsPlainKey names p.1)
    {entries : List (Value × Value)} (hentries : ∀ e ∈ entries, w.IsPlainKey names e.1) :
    ∃ made, pairs.foldlM putEntry entries w = .ok made w ∧ (∀ e ∈ made, w.IsPlainKey names e.1) ∧
      ∀ key, w.IsKey names key →
        w.valueIn key made = (w.valueIn key pairs.reverse).or (w.valueIn key entries) := by
  induction pairs generalizing entries with
  | nil => exact ⟨entries, rfl, hentries, fun _ _ => rfl⟩
  | cons p ps ih =>
    obtain ⟨hp, hps⟩ := List.forall_mem_cons.mp hpairs
    obtain ⟨made, hrun, hmade, hfound⟩ :=
      ih hps (isKey_setEntry (fun k => (w.read k).same (w.read p.1)) hp hentries)
    refine ⟨made, ?_, hmade, fun key hkey => ?_⟩
    · rw [List.foldlM_cons, Exec.bind_ok (putEntry_of_isKey hp.isKey entries), hrun]
    · rw [hfound key hkey, valueIn_setEntry hkey hp hentries, List.reverse_cons, valueIn_append,
        Option.or_assoc, valueIn_cons]
      split <;> rfl

/-- Keys and values in turn. -/
def inTurn (pairs : List (Value × Value)) : List Value := pairs.flatMap fun p => [p.1, p.2]

theorem pairUp_inTurn (pairs : List (Value × Value)) : pairUp (inTurn pairs) = some pairs := by
  induction pairs with
  | nil => rfl
  | cons p ps ih =>
    show (pairUp (inTurn ps)).map (p :: ·) = _
    rw [ih]
    rfl

/-- A dictionary of pairs is made, and the last pair with a key is found in it. -/
theorem hashMap_inTurn {pairs : List (Value × Value)}
    (hpairs : ∀ p ∈ pairs, w.IsPlainKey names p.1) :
    ∃ table, hashMap (inTurn pairs) w = .ok table w ∧
      ∀ key, w.IsKey names key → find? table key w = .ok (w.valueIn key pairs.reverse) w := by
  have hempty : ∀ e ∈ ([] : List (Value × Value)), w.IsPlainKey names e.1 := nofun
  obtain ⟨made, hrun, hmade, hfound⟩ := foldlM_putEntry hpairs hempty
  refine ⟨.dict made, ?_, fun key hkey => ?_⟩
  · rw [hashMap, pairUp_inTurn]
    exact Exec.bind_ok hrun
  · have hsame : ∀ e ∈ made, (w.read e.1).same (w.read key) = w.hasKey key e := by
      intro e he
      rw [Bool.eq_iff_iff, hasKey_iff (hmade e he) hkey]
      exact Datum.same_iff_sense (hmade e he).isKey (hmade e he).noNan hkey
    show valueAt? made key w = _
    rw [valueAt?, Exec.bind_ok (checkKey_of_isKey hkey)]
    refine congrArg (EStateM.Result.ok · w) ?_
    rw [List.find?_congr hsame]
    exact (hfound key hkey).trans Option.or_none

/-! ### Association lists -/

end Interp

/-- The two parts of a row of two. -/
def Value.twoOf? : List Value → Option (Value × Value)
  | [a, b] => some (a, b)
  | _ => none

/-- The key and the value of a pair, which is a list, tuple or range of two items. -/
def World.pairOf? (w : World) : Value → Option (Value × Value)
  | .list ref => Value.twoOf? (w.items ref)
  | .tuple items => Value.twoOf? items
  | .range start stop step => Value.twoOf? ((rangeItems start stop step).map .ofInt)
  | _ => none

namespace Interp

variable {w : World} {names : Nat → Datum} {key : Value}

theorem pair?_range {start stop step : Int} (h : (Value.range start stop step).TellsLength) :
    pair? (.range start stop step) w = .ok (w.pairOf? (.range start stop step)) w := by
  have hlength : lengthOf (.range start stop step) w
      = .ok (rangeLength start stop step) w := by
    rw [lengthOf, if_neg (Nat.not_lt.mpr h)]
    rfl
  rw [pair?, Exec.bind_ok hlength, World.pairOf?, rangeItems]
  rcases rangeLength start stop step with _ | _ | _ | n
  · rfl
  · rfl
  · simp [List.range_succ, Value.twoOf?]
    rfl
  · simp [List.range_succ_eq_map, Value.twoOf?]
    rfl

/-- An item is a pair if it is a sequence of two items. -/
theorem pair?_eq {row : Value} (h : row.TellsLength) : pair? row w = .ok (w.pairOf? row) w := by
  cases row with
  | list ref =>
    have hitems : Exec.items ref w = .ok (w.items ref) w := rfl
    rw [pair?, Exec.bind_ok hitems, World.pairOf?]
    rcases w.items ref with _ | ⟨a, _ | ⟨b, _ | ⟨c, cs⟩⟩⟩ <;> rfl
  | tuple items => rcases items with _ | ⟨a, _ | ⟨b, _ | ⟨c, cs⟩⟩⟩ <;> rfl
  | range => exact pair?_range h
  | _ => rfl

/-- An association list is searched from the front, past items that are no pairs. -/
theorem assoc?_eq {rows : List Value} (hrows : ∀ row ∈ rows, row.TellsLength) :
    assoc? key rows w = .ok (w.valueIn key (rows.filterMap w.pairOf?)) w := by
  induction rows with
  | nil => rfl
  | cons row rows ih =>
    obtain ⟨hrow, hrows⟩ := List.forall_mem_cons.mp hrows
    rw [assoc?, Exec.bind_ok (pair?_eq hrow), List.filterMap_cons]
    cases w.pairOf? row with
    | none => exact ih hrows
    | some p =>
      have hequal : Exec.equal p.1 key w = .ok (w.hasKey key p) w := rfl
      dsimp only
      rw [Exec.bind_ok hequal, valueIn_cons]
      split
      · rfl
      · exact ih hrows

/-! ### Looking up -/

/-- How a look-up ends: with the value that was found, or with a single call of the default. -/
def answer (self : Interp) (default : Value) : Option Value → Exec Value
  | some v => pure v
  | none => self.call default []

/-- A value that is found is returned. Otherwise a function that is given as the default is
called. -/
theorem lookup_of_find? {self : Interp} {table default : Value} {found : Option Value}
    (hfind : find? table key w = .ok found w) (hdefault : default ≠ .nil) :
    lookup self table key default w = answer self default found w := by
  unfold lookup
  rw [Exec.bind_ok hfind]
  cases found with
  | some v => rfl
  | none =>
    cases default with
    | const c =>
      cases c with
      | nil => exact (hdefault rfl).elim
      | _ => rfl
    | _ => rfl

/-- **A table may be a dictionary or a list of pairs.** The dictionary of pairs gives the value of
the last pair with a key. The list or tuple of the pairs gives that of the first one, whatever
stands between them, which is what the dictionary of the pairs from the back gives. The default is
called once if there is no such pair, and not at all if there is one. -/
theorem lookup_tables_agree (self : Interp) (w : World) (names : Nat → Datum)
    (pairs : List (Value × Value))
    (hpairs : ∀ p ∈ pairs, w.IsPlainKey names p.1) (key default : Value)
    (hkey : w.IsKey names key) (hdefault : default ≠ .nil) :
    (∃ table, hashMap (inTurn pairs) w = .ok table w ∧
      lookup self table key default w = answer self default (w.valueIn key pairs.reverse) w) ∧
    ∀ rows list, rows.filterMap w.pairOf? = pairs → (∀ row ∈ rows, row.TellsLength) →
      (list = .tuple rows ∨ ∃ ref, list = .list ref ∧ w.items ref = rows) →
      lookup self list key default w = answer self default (w.valueIn key pairs) w ∧
      ∃ table, hashMap (inTurn pairs.reverse) w = .ok table w ∧
        lookup self list key default w = lookup self table key default w := by
  constructor
  · obtain ⟨table, hmade, hfind⟩ := hashMap_inTurn hpairs
    exact ⟨table, hmade, lookup_of_find? (hfind key hkey) hdefault⟩
  · intro rows list hrows htells hlist
    have hassoc : find? list key w = .ok (w.valueIn key pairs) w := by
      rw [← hrows]
      rcases hlist with rfl | ⟨ref, rfl, rfl⟩
      · exact assoc?_eq htells
      · exact assoc?_eq htells
    have hlist : lookup self list key default w = answer self default (w.valueIn key pairs) w :=
      lookup_of_find? hassoc hdefault
    have hreverse : ∀ p ∈ pairs.reverse, w.IsPlainKey names p.1 :=
      fun p hp => hpairs p (List.mem_reverse.mp hp)
    obtain ⟨table, hmade, hfind⟩ := hashMap_inTurn hreverse
    have hback := hfind key hkey
    rw [List.reverse_reverse] at hback
    exact ⟨hlist, table, hmade, hlist.trans (lookup_of_find? hback hdefault).symm⟩

/-- A world with one list, which is a pair with a keyword for its key. -/
def pairWorld : World where
  lists := #[#[.keyword (.ofString "a") [] 4, .ofInt 3]]

/-- Pairs of several kinds: two keys that are equal, one with the value nil, and a string and a
number between them. -/
def mixedRows : List Value :=
  [.ofString "ab", .tuple [.ofInt 1, .nil], .ofInt 7, .range 5 7 1, .tuple [.ofBool true, .ofInt 2],
    .list 0]

/-- The pairs among the rows. -/
def mixedPairs : List (Value × Value) :=
  [(.ofInt 1, .nil), (.ofInt 5, .ofInt 6), (.ofBool true, .ofInt 2),
    (.keyword (.ofString "a") [] 4, .ofInt 3)]

/-- Looked up by `1.0`, the list has nil for `1`, and the dictionary has what was set last, for
`true`. -/
theorem lookup_tables_agree_mixed :
    (∃ table, hashMap (inTurn mixedPairs) pairWorld = .ok table pairWorld ∧
      lookup (upTo 1) table (.const (.double .one)) (.native (.library .vector)) pairWorld
        = .ok (.ofInt 2) pairWorld) ∧
    lookup (upTo 1) (.tuple mixedRows) (.const (.double .one))
      (.native (.library .vector)) pairWorld
      = .ok .nil pairWorld := by
  have hconst (c : Constant) : pairWorld.IsKey (fun _ => .const (.str "a")) (.const c) :=
    ⟨rfl, fun _ _ h => nomatch h⟩
  have hkeyword : pairWorld.IsKey (fun _ => .const (.str "a")) (.keyword (.ofString "a") [] 4) := by
    refine ⟨rfl, fun _ _ h => ?_⟩
    rcases List.mem_cons.mp h with h | h
    · cases h
      rfl
    · cases h with
      | tail _ h => cases h
  have hpairs : ∀ p ∈ mixedPairs, pairWorld.IsPlainKey (fun _ => .const (.str "a")) p.1 := by
    refine List.forall_mem_cons.mpr ⟨⟨hconst _, rfl⟩,
      List.forall_mem_cons.mpr ⟨⟨hconst _, rfl⟩, ?_⟩⟩
    exact List.forall_mem_cons.mpr ⟨⟨hconst _, rfl⟩, List.forall_mem_singleton.mpr ⟨hkeyword, rfl⟩⟩
  have hagree := lookup_tables_agree (upTo 1) pairWorld _ mixedPairs hpairs (.const (.double .one))
    (.native (.library .vector)) (hconst _) nofun
  have htells : ∀ row ∈ mixedRows, row.TellsLength := by
    simp [mixedRows, Value.TellsLength, Value.ofString, Value.ofInt]
    decide
  have hrows := hagree.2 mixedRows (.tuple mixedRows) rfl htells (.inl rfl)
  exact ⟨hagree.1, hrows.1⟩

end Interp

end TailLisp
