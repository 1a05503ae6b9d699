import TailLisp.Number.Decimal

/-!
# TailLisp.Number.Layout

**Decimal text with a set number of digits**: with a number of places after the point (`fixed`),
with one digit before the point and an exponent (`exponent`), or with a number of digits in
whichever of the two forms suits the size of the number (`general`). The exact value is rounded
once, a tie to the even neighbour. With `keepPoint` a point is written also where no digit
follows it.
-/

namespace TailLisp.Double

/-- The value `n / d * 10 ^ shift` rounded to a natural number. -/
def roundShifted (n d : Nat) (shift : Int) : Nat :=
  if 0 ≤ shift then roundQuotient (n * tenTo shift.toNat) d
  else roundQuotient n (d * tenTo (-shift).toNat)

/-- The first `count` digits of a number `m * 2 ^ e`, rounded, and the position of the decimal
point relative to the first. -/
def leadingDigits (m : Nat) (e : Int) (count : Nat) : List Char × Int :=
  if m = 0 then (List.replicate count '0', 1)
  else
    let (n, d) := scaleRatio m 1 (-e)
    let point := decimalPoint n d
    let c := roundShifted n d (count - point)
    if c = tenTo count then (Nat.toDigits 10 (c / 10), point + 1) else (Nat.toDigits 10 c, point)

/-- Digits before and after the point, and the point where it is wanted. -/
def joinPoint (keepPoint : Bool) (whole fraction : List Char) : List Char :=
  if fraction.isEmpty && !keepPoint then whole else whole ++ '.' :: fraction

/-- An exponent: a sign and at least two digits. -/
def exponentText (exponent : Int) : List Char :=
  let digits := Nat.toDigits 10 exponent.natAbs
  'e' :: (if exponent < 0 then '-' else '+')
    :: (if digits.length < 2 then '0' :: digits else digits)

/-- A magnitude with a number of places after the point. -/
def fixedDigits (keepPoint : Bool) (places m : Nat) (e : Int) : List Char :=
  let (n, d) := scaleRatio m 1 (-e)
  let digits := Nat.toDigits 10 (roundShifted n d places)
  let digits := List.replicate (places + 1 - digits.length) '0' ++ digits
  joinPoint keepPoint (digits.take (digits.length - places)) (digits.drop (digits.length - places))

/-- A magnitude as one digit, a number of places and an exponent. -/
def exponentDigits (keepPoint : Bool) (places m : Nat) (e : Int) : List Char :=
  let (digits, point) := leadingDigits m e (places + 1)
  joinPoint keepPoint (digits.take 1) (digits.drop 1) ++ exponentText (point - 1)

/-- A magnitude with a number of digits: positional when its decimal exponent is at least -4 and
less than that number. Zeros at the end are left out unless the point is kept. -/
def generalDigits (keepPoint : Bool) (count m : Nat) (e : Int) : List Char :=
  let (digits, point) := leadingDigits m e count
  let trim (row : List Char) : List Char := if keepPoint then row else stripZeros row
  if point ≤ -4 || count < point then
    joinPoint keepPoint (digits.take 1) (trim (digits.drop 1)) ++ exponentText (point - 1)
  else if point ≤ 0 then
    joinPoint keepPoint ['0'] (trim (List.replicate (-point).toNat '0' ++ digits))
  else joinPoint keepPoint (digits.take point.toNat) (trim (digits.drop point.toNat))

/-- The text of a number whose magnitude is written by a function of mantissa and exponent. -/
def layout (magnitude : Nat → Int → List Char) : Double → List Char
  | .nan _ => ['n', 'a', 'n']
  | .infinite negative => if negative then ['-', 'i', 'n', 'f'] else ['i', 'n', 'f']
  | .finite negative m e => if negative then '-' :: magnitude m e else magnitude m e

/-- A number with a number of places after the point. -/
def fixed (keepPoint : Bool) (places : Nat) (x : Double) : List Char :=
  layout (fixedDigits keepPoint places) x

/-- A number with an exponent and a number of places. -/
def exponent (keepPoint : Bool) (places : Nat) (x : Double) : List Char :=
  layout (exponentDigits keepPoint places) x

/-- A number with a number of digits, at least one. -/
def general (keepPoint : Bool) (count : Nat) (x : Double) : List Char :=
  layout (generalDigits keepPoint (max count 1)) x

end TailLisp.Double
