import TailLisp.Number.Decimal

/-!
# TailLisp.Number.Complex

**Complex numbers** with floating-point parts. They arise as powers of negative numbers. Each
operation rounds its parts as the formulas here say; `pow?` takes the polar form, and repeated
products for small whole exponents.
-/

namespace TailLisp

/-- A complex number. -/
structure Complex where
  re : Double
  im : Double
  deriving DecidableEq, Repr, Inhabited

namespace Double

/-- The bits of the root of `n` from the given number of bits down, added to a root so far. -/
def rootFrom (n : Nat) : Nat → Nat → Nat
  | 0, root => root
  | bits + 1, root =>
    let next := root + twoTo bits
    rootFrom n bits (if next * next ≤ n then next else root)

/-- The whole part of a square root. -/
def root (n : Nat) : Nat := rootFrom n (n.log2 / 2 + 1) 0

/-- The length of the hypotenuse over two sides, rounded once. -/
def hypotenuse : Double → Double → Double
  | .infinite _, _ => .infinite false
  | _, .infinite _ => .infinite false
  | .nan _, _ => .nan 0
  | _, .nan _ => .nan 0
  | .finite _ m e, .finite _ n f =>
    let low := min e f
    let a := m * twoTo (e - low).toNat
    let b := n * twoTo (f - low).toNat
    -- 64 more bits of the root, and one that says whether more follow
    let square := (a * a + b * b) * twoTo 128
    let r := root square
    ofScaled false (2 * r + (if r * r = square then 0 else 1)) (low - 65)

end Double

namespace Complex

/-- A real number as a complex one. -/
def ofReal (x : Double) : Complex := ⟨x, .zero false⟩

/-- The number one. -/
def one : Complex := ofReal .one

/-- Are both parts zero? -/
def isZero (z : Complex) : Bool := z.re.isZero && z.im.isZero

/-- Is a part infinite? -/
def isInfinite (z : Complex) : Bool := z.re.isInfinite || z.im.isInfinite

/-- Are both parts equal? -/
def equal (z w : Complex) : Bool :=
  z.re.compare? w.re == some .eq && z.im.compare? w.im == some .eq

/-- The number, with a mark on the parts that are NaNs. -/
def marked (mark : Nat) (z : Complex) : Complex := ⟨z.re.marked mark, z.im.marked mark⟩

/-- The opposite. -/
def neg (z : Complex) : Complex := ⟨z.re.neg, z.im.neg⟩

/-- Sum. -/
def add (z w : Complex) : Complex := ⟨z.re.add w.re, z.im.add w.im⟩

/-- Difference. -/
def sub (z w : Complex) : Complex := ⟨z.re.sub w.re, z.im.sub w.im⟩

/-- Product. -/
def mul (z w : Complex) : Complex :=
  ⟨(z.re.mul w.re).sub (z.im.mul w.im), (z.re.mul w.im).add (z.im.mul w.re)⟩

/-- Is a real number at least another? -/
def atLeast (x y : Double) : Bool :=
  match x.compare? y with
  | some .gt | some .eq => true
  | _ => false

/-- Quotient, divided through by the larger part of the divisor; `none` for a zero divisor. -/
def div? (z w : Complex) : Option Complex :=
  if atLeast w.re.abs w.im.abs then
    if w.re.isZero then none
    else
      let ratio := w.im.div w.re
      let denominator := w.re.add (w.im.mul ratio)
      some ⟨(z.re.add (z.im.mul ratio)).div denominator,
        (z.im.sub (z.re.mul ratio)).div denominator⟩
  else if atLeast w.im.abs w.re.abs then
    let ratio := w.re.div w.im
    let denominator := (w.re.mul ratio).add w.im
    some ⟨((z.re.mul ratio).add z.im).div denominator,
      ((z.im.mul ratio).sub z.re).div denominator⟩
  else some ⟨.nan 0, .nan 0⟩

/-- The magnitude. -/
def abs (z : Complex) : Double := z.re.hypotenuse z.im

/-- The product of the squares of `square` that the bits of `n` select, times `product`; `bits`
bounds the number of bits. -/
def powerFrom (n : Nat) : Nat → Complex → Complex → Complex
  | 0, product, _ => product
  | bits + 1, product, square =>
    if n = 0 then product
    else
      powerFrom (n / 2) bits (if n % 2 = 1 then product.mul square else product)
        (square.mul square)

/-- A power with a natural exponent of at most 100. -/
def powNat (z : Complex) (n : Nat) : Complex := powerFrom n 7 one z

/-- A power by magnitude and angle; `none` for a power of zero that does not exist. -/
def powPolar? (z w : Complex) : Option Complex :=
  if w.isZero then some one
  else if z.isZero then
    if !w.im.isZero || w.re.isNegative then none else some (ofReal (.zero false))
  else
    let size := z.abs
    let angle := Double.lift₂ Float.atan2 z.im z.re
    let length := size.pow w.re
    let phase := angle.mul w.re
    let (length, phase) :=
      if w.im.isZero then (length, phase)
      else
        (length.div (Double.lift Float.exp (angle.mul w.im)),
          phase.add (w.im.mul (Double.lift Float.log size)))
    some ⟨length.mul (Double.lift Float.cos phase), length.mul (Double.lift Float.sin phase)⟩

/-- The small whole number that an exponent is. -/
def smallExponent? (w : Complex) : Option Int :=
  match w.im.isZero, w.re.floor? with
  | true, some n =>
    if w.re.floor.compare? w.re == some .eq && n.natAbs ≤ 100 then some n else none
  | _, _ => none

/-- A power; `none` where it does not exist. -/
def pow? (z w : Complex) : Option Complex :=
  match smallExponent? w with
  | some n => if 0 < n then some (z.powNat n.toNat) else one.div? (z.powNat n.natAbs)
  | none => z.powPolar? w

/-! ### Text -/

/-- A part as it stands in the text of a complex number: whole numbers have no point. -/
def partText (x : Double) : String :=
  let cs := x.text.toList
  if cs.drop (cs.length - 2) == ['.', '0'] then String.ofList (cs.take (cs.length - 2))
  else x.text

/-- The text of a complex number: the imaginary part, after the real part unless that is zero. -/
def text (z : Complex) : String :=
  if z.re.isZero && !z.re.isNegative then partText z.im ++ "j"
  else
    "(" ++ partText z.re ++ (if z.im.isNegative then "" else "+") ++ partText z.im ++ "j)"

end Complex

end TailLisp
