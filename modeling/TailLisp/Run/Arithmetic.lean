import TailLisp.Constant
import TailLisp.Number.Complex
import TailLisp.Operator
import TailLisp.Run.Failure

/-!
# TailLisp.Run.Arithmetic

**Arithmetic.** Integers are unbounded and a boolean counts as zero or one. Two integers give an
integer, except that `/` and powers with a negative exponent give a floating-point number; an
operation with a floating-point number gives one. `//` rounds down and `%` has the sign of its
right operand. A negative number to a power that is not whole is complex, and an operation with a
complex number gives one.
-/

namespace TailLisp

/-- A number. -/
inductive Number where
  | int (i : Int)
  | double (x : Double)
  | complex (z : Complex)
  deriving DecidableEq, Repr

/-- The number that a constant is. -/
def Constant.number? : Constant → Option Number
  | .double x => some (.double x)
  | c => c.whole?.map .int

namespace Number

/-- The type of a number. -/
def typeName : Number → String
  | .int _ => "int"
  | .double _ => "float"
  | .complex _ => "complex"

/-- An integer as a floating-point number, if it is not too large. -/
def intToDouble (i : Int) : Except Failure Double :=
  let x := Double.ofInt i
  if x.isInfinite then .error .intOverflow else .ok x

/-- A number as a complex number. -/
def toComplex : Number → Except Failure Complex
  | .int i => (intToDouble i).map .ofReal
  | .double x => .ok (.ofReal x)
  | .complex z => .ok z

/-! ### Equality -/

/-- Equality of numbers by value; exact also between integers and floating-point numbers. -/
def equal : Number → Number → Bool
  | .int i, .int j => i == j
  | .int i, .double y => Double.compareInt? i y == some .eq
  | .double x, .int j => Double.compareInt? j x == some .eq
  | .double x, .double y => x.compare? y == some .eq
  | .complex z, .complex w => z.equal w
  | .complex z, .int j => z.im.isZero && Double.compareInt? j z.re == some .eq
  | .complex z, .double y => z.im.isZero && z.re.compare? y == some .eq
  | .int i, .complex w => w.im.isZero && Double.compareInt? i w.re == some .eq
  | .double x, .complex w => w.im.isZero && x.compare? w.re == some .eq

/-- The number, with a mark on what is a NaN in it. -/
def marked (mark : Nat) : Number → Number
  | .int i => .int i
  | .double x => .double (x.marked mark)
  | .complex z => .complex (z.marked mark)

/-- Is there a NaN in a number? -/
def hasNan : Number → Bool
  | .int _ => false
  | .double x => x.isNan
  | .complex z => z.re.isNan || z.im.isNan

/-! ### Operators -/

/-- The true quotient of integers, rounded once. -/
def divInt (a b : Int) : Except Failure Number :=
  if b = 0 then .error (.zeroDivision "division by zero")
  else
    let x := Double.round (decide (a < 0) != decide (b < 0)) a.natAbs b.natAbs
    if x.isInfinite then .error .quotientOverflow else .ok (.double x)

/-- Is a number a whole number? -/
def isWhole (x : Double) : Bool := x.floor.compare? x == some .eq

/-- The number of bits of the magnitude of an integer. -/
def bitLength (i : Int) : Nat := if i = 0 then 0 else i.natAbs.log2 + 1

/-- A power of an integer. Zero and the units have powers of any size; a power of any other integer
has to have room. -/
def powInt (a : Int) (n : Nat) : Except Failure Int :=
  if n = 0 || a = 1 then .ok 1
  else if a = 0 then .ok 0
  else if a = -1 then .ok (if n % 2 = 0 then 1 else -1)
  else if 34359738368 < bitLength a * n then .error .memory
  else .ok (a.pow n)

/-- A power of complex numbers. -/
def powComplex (z w : Complex) : Except Failure Number :=
  match z.pow? w with
  | none => .error .noPower
  | some v => if v.isInfinite then .error .complexOverflow else .ok (.complex v)

/-- A power of floating-point numbers. -/
def powDouble (x y : Double) : Except Failure Number :=
  if x.isZero && y.isNegative && !y.isZero && !y.isInfinite then .error .zeroPower
  else
    match x, y with
    | .finite true m _, .finite _ _ _ =>
      if m != 0 && !isWhole y then powComplex (.ofReal x) (.ofReal y) else real x y
    | _, _ => real x y
where
  real (x y : Double) : Except Failure Number :=
    let z := x.pow y
    if z.isInfinite && !x.isInfinite && !y.isInfinite then .error .powerOverflow
    else .ok (.double z)

/-- An operator on integers. -/
def applyInt (op : BinaryOp) (a b : Int) : Except Failure Number :=
  match op with
  | .add => .ok (.int (a + b))
  | .sub => .ok (.int (a - b))
  | .mul => .ok (.int (a * b))
  | .div => divInt a b
  | .floorDiv =>
    if b = 0 then .error (.zeroDivision "integer division or modulo by zero")
    else .ok (.int (a.fdiv b))
  | .mod =>
    if b = 0 then .error (.zeroDivision "integer modulo by zero")
    else .ok (.int (a.fmod b))
  | .pow =>
    if 0 ≤ b then do return .int (← powInt a b.toNat)
    else do powDouble (← intToDouble a) (← intToDouble b)

/-- An operator on floating-point numbers. -/
def applyDouble (op : BinaryOp) (x y : Double) : Except Failure Number :=
  match op with
  | .add => .ok (.double (x.add y))
  | .sub => .ok (.double (x.sub y))
  | .mul => .ok (.double (x.mul y))
  | .div =>
    if y.isZero then .error (.zeroDivision "float division by zero")
    else .ok (.double (x.div y))
  | .floorDiv =>
    if y.isZero then .error (.zeroDivision "float floor division by zero")
    else .ok (.double (x.floorDiv y))
  | .mod =>
    if y.isZero then .error (.zeroDivision "float modulo")
    else .ok (.double (x.modulo y))
  | .pow => powDouble x y

/-- The sign of an operator in messages. -/
def signOf : BinaryOp → String
  | .pow => "** or pow()"
  | op => op.symbol

/-- An operator on complex numbers; they have no whole quotients. -/
def applyComplex (op : BinaryOp) (a b : Number) : Except Failure Number := do
  match op with
  | .floorDiv | .mod => .error (.operands (signOf op) a.typeName b.typeName)
  | .add => return .complex ((← a.toComplex).add (← b.toComplex))
  | .sub => return .complex ((← a.toComplex).sub (← b.toComplex))
  | .mul => return .complex ((← a.toComplex).mul (← b.toComplex))
  | .div =>
    match (← a.toComplex).div? (← b.toComplex) with
    | some z => return .complex z
    | none => .error (.zeroDivision "complex division by zero")
  | .pow => powComplex (← a.toComplex) (← b.toComplex)

/-- An operator on numbers. -/
def apply (op : BinaryOp) (a b : Number) : Except Failure Number :=
  match a, b with
  | .int i, .int j => applyInt op i j
  | .int i, .double y => do applyDouble op (← intToDouble i) y
  | .double x, .int j => do applyDouble op x (← intToDouble j)
  | .double x, .double y => applyDouble op x y
  | a, b => applyComplex op a b

/-- The opposite of a number. -/
def neg : Number → Number
  | .int i => .int (-i)
  | .double x => .double x.neg
  | .complex z => .complex z.neg

/-- The magnitude of a number. -/
def abs : Number → Except Failure Number
  | .int i => .ok (.int i.natAbs)
  | .double x => .ok (.double x.abs)
  | .complex z =>
    let x := z.abs
    if x.isInfinite && !z.isInfinite then .error .magnitudeOverflow else .ok (.double x)

end Number

end TailLisp
