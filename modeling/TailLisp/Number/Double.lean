/-!
# TailLisp.Number.Double

**Binary floating-point numbers** of 64 bits, as exact data: a finite number is a sign, a
mantissa and a power of two. All arithmetic is done on natural numbers and rounded once, to
nearest with ties to even (`Double.round`), so every operation here computes in the kernel.

A finite value is kept in one form: its mantissa has 53 bits, or its exponent is the least one.
-/

namespace TailLisp

/-- A 64-bit floating-point number. -/
inductive Double where
  /-- Not a number. The mark tells apart NaNs that were computed separately. -/
  | nan (mark : Nat)
  /-- An infinity. -/
  | infinite (negative : Bool)
  /-- The number `± mantissa * 2 ^ exponent`. -/
  | finite (negative : Bool) (mantissa : Nat) (exponent : Int)
  deriving DecidableEq, Repr, Inhabited

namespace Double

/-- The exponent of the least positive number. -/
def leastExponent : Int := -1074

/-- The largest exponent of a 53-bit mantissa. -/
def greatestExponent : Int := 971

/-- A power of two. -/
def twoTo (n : Nat) : Nat := Nat.pow 2 n

/-- Zero with a sign. -/
def zero (negative : Bool) : Double := .finite negative 0 leastExponent

/-- The number one. -/
def one : Double := .finite false (twoTo 52) (-52)

/-! ### Rounding -/

/-- `n / d` rounded to nearest, a tie to the even neighbour. -/
def roundQuotient (n d : Nat) : Nat :=
  let q := n / d
  let r := n % d
  if 2 * r < d then q
  else if d < 2 * r then q + 1
  else q + q % 2

/-- Numerator and denominator of `(n / d) * 2 ^ (-e)`. -/
def scaleRatio (n d : Nat) (e : Int) : Nat × Nat :=
  if 0 ≤ e then (n, d * twoTo e.toNat) else (n * twoTo (-e).toNat, d)

/-- The number nearest to `± n / d`, for `d` not zero. The quotient is scaled so that its whole
part has 53 bits (fewer only at the least exponent), and that whole part is rounded. -/
def round (negative : Bool) (n d : Nat) : Double :=
  if n = 0 then zero negative
  else
    let guess := max ((n.log2 : Int) - d.log2 - 53) leastExponent
    let whole := (scaleRatio n d guess).1 / (scaleRatio n d guess).2
    let e := if twoTo 53 ≤ whole then guess + 1 else guess
    let m := roundQuotient (scaleRatio n d e).1 (scaleRatio n d e).2
    let (m, e) := if m = twoTo 53 then (twoTo 52, e + 1) else (m, e)
    if greatestExponent < e then .infinite negative else .finite negative m e

/-- The number nearest to `± m * 2 ^ e`. -/
def ofScaled (negative : Bool) (m : Nat) (e : Int) : Double :=
  round negative (scaleRatio m 1 (-e)).1 (scaleRatio m 1 (-e)).2

/-- The number nearest to an integer; infinite when out of range. -/
def ofInt (i : Int) : Double := round (i < 0) i.natAbs 1

/-! ### Sign and order -/

/-- Is the sign bit set? -/
def isNegative : Double → Bool
  | .nan _ => false
  | .infinite negative => negative
  | .finite negative _ _ => negative

/-- Is the number a zero of either sign? -/
def isZero : Double → Bool
  | .finite _ m _ => m == 0
  | _ => false

/-- Is it a NaN? -/
def isNan : Double → Bool
  | .nan _ => true
  | _ => false

/-- Is the number an infinity? -/
def isInfinite : Double → Bool
  | .infinite _ => true
  | _ => false

/-- The number with its sign set or cleared. -/
def withSign (negative : Bool) : Double → Double
  | .nan mark => .nan mark
  | .infinite _ => .infinite negative
  | .finite _ m e => .finite negative m e

/-- The number, with a mark if it is a NaN. -/
def marked (mark : Nat) : Double → Double
  | .nan _ => .nan mark
  | x => x

/-- The number with the opposite sign. -/
def neg (x : Double) : Double := x.withSign !x.isNegative

/-- The number without its sign. -/
def abs (x : Double) : Double := x.withSign false

/-- A mantissa with its sign. -/
def signed (negative : Bool) (m : Nat) : Int := if negative then -(m : Int) else m

/-- Order of `a * 2 ^ e` and `b * 2 ^ f`. -/
def compareScaled (a : Int) (e : Int) (b : Int) (f : Int) : Ordering :=
  let low := min e f
  compare (a * twoTo (e - low).toNat) (b * twoTo (f - low).toNat)

/-- The order of two numbers; a NaN has none, and the zeros are equal. -/
def compare? : Double → Double → Option Ordering
  | .nan _, _ => none
  | _, .nan _ => none
  | .infinite s, .infinite t => some (Ord.compare t s)
  | .infinite s, .finite .. => some (if s then .lt else .gt)
  | .finite .., .infinite t => some (if t then .gt else .lt)
  | .finite s m e, .finite t n f => some (compareScaled (signed s m) e (signed t n) f)

/-- The exact order of an integer and a number. -/
def compareInt? (i : Int) : Double → Option Ordering
  | .nan _ => none
  | .infinite t => some (if t then .gt else .lt)
  | .finite t n f => some (compareScaled i 0 (signed t n) f)

/-! ### Arithmetic -/

/-- The exact sum of two finite numbers, rounded once. A zero sum is positive unless both
operands are negative zeros. -/
def addFinite (s : Bool) (m : Nat) (e : Int) (t : Bool) (n : Nat) (f : Int) : Double :=
  let low := min e f
  let total := signed s m * twoTo (e - low).toNat + signed t n * twoTo (f - low).toNat
  if total = 0 then zero (s && t) else ofScaled (total < 0) total.natAbs low

/-- Sum. -/
def add : Double → Double → Double
  | .nan _, _ => .nan 0
  | _, .nan _ => .nan 0
  | .infinite s, .infinite t => if s = t then .infinite s else .nan 0
  | .infinite s, _ => .infinite s
  | _, .infinite t => .infinite t
  | .finite s m e, .finite t n f => addFinite s m e t n f

/-- Difference. -/
def sub (x y : Double) : Double := x.add y.neg

/-- Product. -/
def mul : Double → Double → Double
  | .nan _, _ => .nan 0
  | _, .nan _ => .nan 0
  | .infinite s, y => if y.isZero then .nan 0 else .infinite (s != y.isNegative)
  | x, .infinite t => if x.isZero then .nan 0 else .infinite (x.isNegative != t)
  | .finite s m e, .finite t n f => ofScaled (s != t) (m * n) (e + f)

/-- Quotient; a zero divisor gives an infinity or NaN. -/
def div : Double → Double → Double
  | .nan _, _ => .nan 0
  | _, .nan _ => .nan 0
  | .infinite _, .infinite _ => .nan 0
  | .infinite s, y => .infinite (s != y.isNegative)
  | x, .infinite t => zero (x.isNegative != t)
  | .finite s m e, .finite t n f =>
    if n = 0 then (if m = 0 then .nan 0 else .infinite (s != t))
    else round (s != t) (scaleRatio m n (f - e)).1 (scaleRatio m n (f - e)).2

/-- Remainder of the quotient cut toward zero: exact, with the sign of the dividend. -/
def remainder : Double → Double → Double
  | .nan _, _ => .nan 0
  | _, .nan _ => .nan 0
  | .infinite _, _ => .nan 0
  | x, .infinite _ => x
  | .finite s m e, .finite _ n f =>
    if n = 0 then .nan 0
    else
      let low := min e f
      let r := (m * twoTo (e - low).toNat) % (n * twoTo (f - low).toNat)
      if r = 0 then zero s else ofScaled s r low

/-- The whole number below a finite number, `none` for an infinity or NaN. -/
def floor? : Double → Option Int
  | .finite s m e =>
    some (if 0 ≤ e then signed s m * twoTo e.toNat else (signed s m).fdiv (twoTo (-e).toNat))
  | _ => none

/-- The whole part of a finite number, cut toward zero. -/
def truncate? : Double → Option Int
  | .finite s m e =>
    some (if 0 ≤ e then signed s m * twoTo e.toNat else (signed s m).tdiv (twoTo (-e).toNat))
  | _ => none

/-- The number rounded down to a whole number; a zero keeps its sign. -/
def floor (x : Double) : Double :=
  match x.floor? with
  | none => x
  | some i => if i = 0 then zero x.isNegative else ofInt i

/-- The remainder that has the sign of the divisor. -/
def modulo (x y : Double) : Double :=
  let r := x.remainder y
  if r.isZero then zero y.isNegative
  else if !r.isNan && y.isNegative != r.isNegative then r.add y
  else r

/-- The quotient rounded down, computed from the remainder and snapped to the nearest whole
number. -/
def floorDiv (x y : Double) : Double :=
  let r := x.remainder y
  let q := (x.sub r).div y
  let q := if !r.isZero && !r.isNan && y.isNegative != r.isNegative then q.sub one else q
  if q.isZero then zero (x.div y).isNegative
  else
    let whole := q.floor
    match (q.sub whole).compare? (.finite false 1 (-1)) with
    | some .gt => whole.add one
    | _ => whole

/-! ### The machine's own numbers -/

/-- The bit pattern: sign, eleven bits of exponent, 52 bits of mantissa. -/
def toBits : Double → UInt64
  | .nan _ => 0x7ff8000000000000
  | .infinite s => 0x7ff0000000000000 ||| (if s then 0x8000000000000000 else 0)
  | .finite s m e =>
    let field : Nat := if m < twoTo 52 then 0 else (e + 1075).toNat
    UInt64.ofNat ((if s then twoTo 63 else 0) + field * twoTo 52 + m % twoTo 52)

/-- The number of a bit pattern. -/
def ofBits (bits : UInt64) : Double :=
  let n := bits.toNat
  let negative := decide (twoTo 63 ≤ n)
  let field : Nat := n / twoTo 52 % twoTo 11
  let m := n % twoTo 52
  if field = 2047 then (if m = 0 then .infinite negative else .nan 0)
  else if field = 0 then .finite negative m leastExponent
  else .finite negative (m + twoTo 52) (field - 1075)

/-- A function of the machine's numbers. -/
def lift (f : Float → Float) (x : Double) : Double := ofBits (f (Float.ofBits x.toBits)).toBits

/-- A function of two of the machine's numbers. -/
def lift₂ (f : Float → Float → Float) (x y : Double) : Double :=
  ofBits (f (Float.ofBits x.toBits) (Float.ofBits y.toBits)).toBits

/-- Power, as the machine computes it. -/
def pow (x y : Double) : Double := lift₂ Float.pow x y

end Double

end TailLisp
