import Mathlib.Algebra.Order.Field.Rat
import Mathlib.Data.Int.Cast.Lemmas
import TailLisp.Pattern

/-!
# TailLisp.Proofs.KeyEquality

**What makes two keys one key.** `Key.same` compares keys case by case: a boolean with a float, a
float with an integer, and so on. All of these cases come from one rule: a key stands for a value,
and two keys are equal if they stand for the same one (`Key.same_iff`). The value of a number is a
rational or an infinity, whatever kind of number writes it, so `1`, `1.0` and `true` are one key. A
NaN stands for no value and equals nothing, itself included.
-/

namespace TailLisp

/-- What keys are compared by. -/
inductive KeyValue where
  | nil
  | number (q : ℚ)
  | infinite (negative : Bool)
  | text (s : String)
  | keyword (name : String)

namespace Double

/-- The value of a number; a NaN has none. -/
def value? : Double → Option KeyValue
  | .nan _ => none
  | .infinite negative => some (.infinite negative)
  | .finite negative m e => some (.number (signed negative m * 2 ^ e))

/-- The order of scaled integers is that of the numbers they stand for. -/
theorem compareScaled_eq_iff (a e b f : Int) :
    compareScaled a e b f = .eq ↔ (a : ℚ) * 2 ^ e = b * 2 ^ f := by
  -- both sides as multiples of the lower power of two
  have hscale (m k : Int) (hk : min e f ≤ k) :
      ((m * twoTo (k - min e f).toNat : Int) : ℚ) * 2 ^ min e f = m * 2 ^ k := by
    have hpow : ((twoTo (k - min e f).toNat : Nat) : ℚ) = 2 ^ (k - min e f) := by
      rw [twoTo, Nat.pow_eq, Nat.cast_pow, Nat.cast_ofNat, ← zpow_natCast,
        Int.toNat_of_nonneg (Int.sub_nonneg_of_le hk)]
    rw [Int.cast_mul, Int.cast_natCast, hpow, mul_assoc, ← zpow_add₀ two_ne_zero,
      Int.sub_add_cancel]
  have hunit : (2 : ℚ) ^ min e f ≠ 0 := zpow_ne_zero _ two_ne_zero
  rw [← hscale a e (Int.min_le_left e f), ← hscale b f (Int.min_le_right e f),
    mul_left_inj' hunit, Int.cast_inj]
  exact Int.compare_eq_eq

/-- Floats compare as equal if they have the same value. A NaN has none. -/
theorem compare?_eq_iff (x y : Double) :
    x.compare? y = some .eq ↔ x.value? = y.value? ∧ x.value?.isSome = true := by
  cases x with
  | nan => simp [compare?, value?]
  | infinite s =>
    cases y with
    | nan => simp [compare?, value?]
    | infinite t => cases s <;> cases t <;> simp [compare?, value?]
    | finite => cases s <;> simp [compare?, value?]
  | finite s m e =>
    cases y with
    | nan => simp [compare?, value?]
    | infinite t => cases t <;> simp [compare?, value?]
    | finite t n f => simp [compare?, value?, compareScaled_eq_iff]

/-- An integer compares as equal to a float that has exactly its value. -/
theorem compareInt?_eq_iff (i : Int) (x : Double) :
    compareInt? i x = some .eq ↔ .some (.number i) = x.value? := by
  cases x with
  | nan => simp [compareInt?, value?]
  | infinite t => cases t <;> simp [compareInt?, value?]
  | finite t n f => simp [compareInt?, value?, compareScaled_eq_iff]

/-- Only numbers are values of numbers. -/
theorem value?_ne {x : Double} {v : KeyValue} (hnumber : ∀ q, v ≠ .number q)
    (hinfinite : ∀ negative, v ≠ .infinite negative) : x.value? ≠ some v := by
  intro h
  cases x with
  | nan => cases h
  | infinite negative => exact hinfinite negative (Option.some.inj h).symm
  | finite => exact hnumber _ (Option.some.inj h).symm

end Double

namespace Constant

/-- The value of a constant; a NaN has none. -/
def value? : Constant → Option KeyValue
  | .nil => some .nil
  | .bool b => some (.number ((if b then 1 else 0 : Int) : ℚ))
  | .int i => some (.number i)
  | .double x => x.value?
  | .str s => some (.text s)

/-- Constants are the same if they have the same value. -/
theorem same_iff (a b : Constant) :
    a.same b = true ↔ a.value? = b.value? ∧ a.value?.isSome = true := by
  have hnil (x : Double) : x.value? ≠ some .nil := Double.value?_ne nofun nofun
  have htext (x : Double) (s : String) : x.value? ≠ some (.text s) := Double.value?_ne nofun nofun
  have hnumber (i : Int) (x : Double) : Double.compareInt? i x = some .eq ↔
      x.value? = some (.number i) ∧ x.value?.isSome = true := by
    rw [Double.compareInt?_eq_iff]
    exact ⟨fun h => ⟨h.symm, by rw [← h]; rfl⟩, fun h => h.1.symm⟩
  cases a with
  | nil => cases b <;> simp [same, whole?, value?, (hnil _).symm]
  | str s => cases b <;> simp [same, whole?, value?, (htext _ _).symm]
  | double x => cases b <;>
    simp [same, whole?, value?, hnumber, Double.compare?_eq_iff, hnil, htext]
  | bool | int =>
    cases b <;>
      simp only [same, whole?, value?, beq_iff_eq, Option.some.injEq, KeyValue.number.injEq,
        Int.cast_inj, Double.compareInt?_eq_iff, Option.isSome_some, and_true, reduceCtorEq,
        Bool.false_eq_true]

end Constant

namespace Key

/-- The value of a key. -/
def value? : Key → Option KeyValue
  | .const c => c.value?
  | .keyword k => some (.keyword k.name)

/-- The keys stand for the same value. -/
def Equal (j k : Key) : Prop := j.value? = k.value? ∧ j.value?.isSome = true

theorem Equal.symm {j k : Key} (h : Equal j k) : Equal k j := ⟨h.1.symm, h.1 ▸ h.2⟩

theorem Equal.trans {j k l : Key} (h : Equal j k) (h' : Equal k l) : Equal j l :=
  ⟨h.1.trans h'.1, h.2⟩

/-- Keys are the same if they are equal, as constants or as keywords. -/
theorem same_iff (j k : Key) : j.same k = true ↔ Equal j k := by
  have hconst (c : Constant) (name : String) : c.value? ≠ some (.keyword name) := by
    cases c with
    | double x => exact Double.value?_ne nofun nofun
    | _ => simp [Constant.value?]
  cases j with
  | const c => cases k <;> simp [same, Equal, value?, Constant.same_iff, hconst]
  | keyword j => cases k <;> simp [same, Equal, value?, (hconst _ _).symm]

end Key

end TailLisp
