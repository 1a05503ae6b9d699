import TailLisp.Text.Blank
import TailLisp.Text.Digit

/-!
# TailLisp.Text.Numeral

**Integers from text**, in a base from 2 to 36. Blanks may stand around a numeral, a sign before it
and an underscore between two digits. A mark such as `0x` may name the base; base 0 means that the
mark decides, and that a numeral without a mark is decimal and has no zeros in front.
-/

namespace TailLisp.Text

/-- The value of a digit or letter of a numeral: decimal digits of every script, and the letters
of the basic alphabet from ten on. -/
def numeralValue? (c : Char) : Option Nat :=
  if 'a' ≤ c && c ≤ 'z' then some (c.toNat - 'a'.toNat + 10)
  else if 'A' ≤ c && c ≤ 'Z' then some (c.toNat - 'A'.toNat + 10)
  else digitValue? c

/-- The value of a digit in a base. -/
def baseDigit? (base : Nat) (c : Char) : Option Nat :=
  (numeralValue? c).filter (· < base)

/-- The digits of a numeral in which an underscore may stand between two digits. -/
def numeralDigits? (base : Nat) : List Char → Option (List Nat)
  | [] => none
  | [c] => (baseDigit? base c).map ([·])
  | c :: '_' :: cs =>
    match baseDigit? base c, numeralDigits? base cs with
    | some d, some ds => some (d :: ds)
    | _, _ => none
  | c :: cs =>
    match baseDigit? base c, numeralDigits? base cs with
    | some d, some ds => some (d :: ds)
    | _, _ => none

/-- May the character stand around a numeral? Information separators may not. -/
def isMargin (c : Char) : Bool := isBlank c && !(0x1c ≤ c.toNat && c.toNat ≤ 0x1f)

/-- The base that a letter after a zero names. -/
def markBase? : Char → Option Nat
  | 'x' | 'X' => some 16
  | 'o' | 'O' => some 8
  | 'b' | 'B' => some 2
  | _ => none

/-- The digits after a mark, which an underscore may part from them. -/
def afterMark : List Char → List Char
  | '_' :: cs => cs
  | cs => cs

/-- Is the character a zero of some script? -/
def isZeroDigit (c : Char) : Bool := digitValue? c == some 0

/-- The number that a numeral without a sign writes. -/
def magnitude? (base : Nat) (cs : List Char) : Option Nat :=
  let plain := (numeralDigits? (if base = 0 then 10 else base) cs).map
    (ofDigits (if base = 0 then 10 else base))
  match cs with
  | zero :: letter :: rest =>
    if isZeroDigit zero then
      match markBase? letter with
      | some marked =>
        if base = 0 || base = marked then
          (numeralDigits? marked (afterMark rest)).map (ofDigits marked)
        else plain
      | none => if base = 0 then plain.filter (· = 0) else plain
    else plain
  | _ => plain

/-- The integer that a text writes in a base. -/
def integer? (base : Nat) (s : String) : Option Int :=
  match stripWhere isMargin s.toList with
  | '-' :: cs => (magnitude? base cs).map fun n => -(n : Int)
  | '+' :: cs => (magnitude? base cs).map fun n => (n : Int)
  | cs => (magnitude? base cs).map fun n => (n : Int)

/-- How many digits the numeral in a text has, if they are limited: not in a base that is a power of
two. -/
def limitedDigits (base : Nat) (s : String) : Nat :=
  let cs := (stripWhere isMargin s.toList).filter (· ∉ ['+', '-', '_'])
  let marked := base = 0 && (cs[1]?.bind markBase?).isSome
  if marked || [2, 4, 8, 16, 32].contains base then 0 else cs.length

end TailLisp.Text
