import TailLisp.Number.Double

/-!
# TailLisp.Number.Decimal

**Decimal text of numbers.** Reading rounds a decimal to the nearest number. Writing takes the
fewest digits that read back as the same number and, of those, the digits nearest to it: the
numbers that read back form an interval around the value, and for one, two, … digits the two
neighbours of the value on that decimal grid are tested against it in exact arithmetic.

A number is written positionally when its decimal exponent is from -4 to 15, always with a
point, and otherwise as `d.ddde+XX` with at least two digits of exponent.
-/

namespace TailLisp

/-- The decimal digits of a natural number. -/
def natText (n : Nat) : String := String.ofList (Nat.toDigits 10 n)

/-- An integer in decimal, with all its digits. -/
def intText (i : Int) : String :=
  if i < 0 then "-" ++ natText i.natAbs else natText i.natAbs

/-- The most digits with which an integer is read or written in decimal. -/
def digitLimit : Nat := 4300

/-- Is an integer short enough to be written in decimal? -/
def intFits (i : Int) : Bool := i.natAbs < Nat.pow 10 digitLimit

/-- What is said about a decimal numeral that is too long, given the number of its digits. -/
def longNumeralText (digits : Nat) : String :=
  "Exceeds the limit (" ++ natText digitLimit
    ++ " digits) for integer string conversion: value has " ++ natText digits
    ++ " digits; use sys.set_int_max_str_digits() to increase the limit"

/-- What is said about an integer that is too long to be written in decimal. -/
def longIntegerText : String :=
  "Exceeds the limit (" ++ natText digitLimit ++ " digits) for integer string conversion; "
    ++ "use sys.set_int_max_str_digits() to increase the limit"

namespace Double

/-- A power of ten. -/
def tenTo (n : Nat) : Nat := Nat.pow 10 n

/-! ### Reading -/

/-- The number nearest to `± digits * 10 ^ exponent`. Far outside the range the answer is known
without computing the power. -/
def ofDecimal (negative : Bool) (digits : Nat) (exponent : Int) : Double :=
  if digits = 0 then zero negative
  else
    let magnitude : Int := (Nat.toDigits 10 digits).length + exponent
    if 310 < magnitude then .infinite negative
    else if magnitude < -330 then zero negative
    else if 0 ≤ exponent then round negative (digits * tenTo exponent.toNat) 1
    else round negative digits (tenTo (-exponent).toNat)

/-! ### The fewest digits that read back -/

/-- A positive decimal `0.d₁d₂… * 10 ^ point`, the digits without trailing zeros. -/
structure Digits where
  digits : List Char
  point : Int

/-- The decimal point position of `n / d`: the `k` with `10 ^ (k - 1) ≤ n / d < 10 ^ k`. -/
def decimalPoint (n d : Nat) : Int :=
  if d ≤ n then (Nat.toDigits 10 (n / d)).length
  else
    let size := (Nat.toDigits 10 (d / n)).length
    if n * tenTo (size - 1) = d then 2 - size else 1 - size

/-- The numbers that read back as `m * 2 ^ e`, as an interval around it: its half-widths below
and above in quarter units of `2 ^ e`. Below a power of two the neighbour is nearer. -/
def halfWidths (m : Nat) (e : Int) : Nat × Nat :=
  (if m = twoTo 52 ∧ leastExponent < e then 1 else 2, 2)

/-- Does `c * 10 ^ p` read back as `m * 2 ^ e`? The ends of the interval belong to it exactly
when the mantissa is even. -/
def readsBack (m : Nat) (e : Int) (c : Nat) (p : Int) : Bool :=
  -- both sides as multiples of one unit: quarters of `2 ^ e` against `c * 10 ^ p`
  let (below, above) := halfWidths m e
  let tens := tenTo p.natAbs
  let twos := twoTo (e - 2).natAbs
  let value (quarters : Nat) : Nat :=
    let q := if 0 ≤ e - 2 then quarters * twos else quarters
    if 0 ≤ p then q else q * tens
  let candidate : Nat :=
    let q := if 0 ≤ p then c * tens else c
    if 0 ≤ e - 2 then q else q * twos
  let low := value (4 * m - below)
  let high := value (4 * m + above)
  if m % 2 = 0 then low ≤ candidate && candidate ≤ high else low < candidate && candidate < high

/-- Drop the zeros at the end of a digit row. -/
def stripZeros (ds : List Char) : List Char := (ds.reverse.dropWhile (· == '0')).reverse

/-- The decimal `c * 10 ^ p`, in digits. -/
def digitsOf (c : Nat) (p : Int) : Digits :=
  let ds := Nat.toDigits 10 c
  ⟨stripZeros ds, ds.length + p⟩

/-- Try grids of `places`, `places + 1`, … digits; `fuel` bounds their number. -/
def shortestFrom (m : Nat) (e : Int) (n d : Nat) (point : Int) : Nat → Nat → Digits
  | 0, places => digitsOf (n / d) (point - places)
  | fuel + 1, places =>
    let p := point - places
    -- the value as a quotient of units `10 ^ p`
    let (a, b) := if 0 ≤ p then (n, d * tenTo p.toNat) else (n * tenTo (-p).toNat, d)
    let c := a / b
    let r := a % b
    let lower := readsBack m e c p && c != 0
    let upper := readsBack m e (c + 1) p
    if lower && upper then
      digitsOf (if 2 * r < b then c else if b < 2 * r then c + 1 else c + c % 2) p
    else if lower then digitsOf c p
    else if upper then digitsOf (c + 1) p
    else shortestFrom m e n d point fuel (places + 1)

/-- The fewest digits that read back as `m * 2 ^ e`, for `m` positive. Seventeen always do. -/
def shortest (m : Nat) (e : Int) : Digits :=
  let (n, d) := scaleRatio m 1 (-e)
  shortestFrom m e n d (decimalPoint n d) 18 1

/-! ### Writing -/

/-- Positional text of a decimal: zeros fill up to the point, and a point is always there. -/
def positional (x : Digits) : String :=
  if x.point ≤ 0 then
    "0." ++ String.ofList (List.replicate (-x.point).toNat '0' ++ x.digits)
  else
    let whole := x.digits.take x.point.toNat
    let fraction := x.digits.drop x.point.toNat
    let padding := List.replicate (x.point.toNat - whole.length) '0'
    String.ofList (whole ++ padding ++ ['.'] ++ (if fraction.isEmpty then ['0'] else fraction))

/-- Exponent text of a decimal: one digit before the point, a signed exponent of two digits or
more. -/
def scientific (x : Digits) : String :=
  let exponent := x.point - 1
  let power := natText exponent.natAbs
  String.ofList (x.digits.take 1)
    ++ (if (x.digits.drop 1).isEmpty then "" else "." ++ String.ofList (x.digits.drop 1))
    ++ (if exponent < 0 then "e-" else "e+")
    ++ (if power.length < 2 then "0" ++ power else power)

/-- The text of a number. -/
def text : Double → String
  | .nan _ => "nan"
  | .infinite negative => if negative then "-inf" else "inf"
  | .finite negative m e =>
    let unsigned :=
      if m = 0 then "0.0"
      else
        let x := shortest m e
        if -4 < x.point ∧ x.point ≤ 16 then positional x else scientific x
    if negative then "-" ++ unsigned else unsigned

end Double

end TailLisp
