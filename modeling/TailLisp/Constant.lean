import TailLisp.Number.Decimal

/-!
# TailLisp.Constant

**Constants** that a program can write down: nil, booleans, integers, floating-point numbers and
strings. `Constant.same` is the equality that keys are compared with: it looks at the value and
not at the kind of number, so `1`, `1.0` and `true` are one key.
-/

namespace TailLisp

/-- A constant of the source language. -/
inductive Constant where
  | nil
  | bool (b : Bool)
  | int (i : Int)
  | double (x : Double)
  | str (s : String)
  deriving DecidableEq, Repr, Inhabited

namespace Constant

/-- The name of the type of a constant. -/
def typeName : Constant → String
  | .nil => "NoneType"
  | .bool _ => "bool"
  | .int _ => "int"
  | .double _ => "float"
  | .str _ => "str"

/-- Can the constant be written? -/
def isWritable : Constant → Bool
  | .int i => intFits i
  | _ => true

/-- The whole number a boolean or integer stands for. -/
def whole? : Constant → Option Int
  | .bool b => some (if b then 1 else 0)
  | .int i => some i
  | _ => none

/-- Equality by value: numbers and booleans compare as numbers, exactly. -/
def same : Constant → Constant → Bool
  | .nil, .nil => true
  | .str s, .str t => s == t
  | .double x, .double y => x.compare? y == some .eq
  | .double x, c =>
    match c.whole? with
    | some i => Double.compareInt? i x == some .eq
    | none => false
  | c, .double y =>
    match c.whole? with
    | some i => Double.compareInt? i y == some .eq
    | none => false
  | a, b =>
    match a.whole?, b.whole? with
    | some i, some j => i == j
    | _, _ => false

end Constant

end TailLisp
