import TailLisp.Form
import TailLisp.Text.Digit

/-!
# TailLisp.Form.Atom

**What an atom or a string literal stands for.** An atom is a numeral if it has the shape of one,
else one of the constants `true`, `false` and `nil`, else a keyword if a name follows its colon,
and a symbol in all other cases. Digits may be of any script; hexadecimal ones are ASCII.
-/

namespace TailLisp

namespace Constant

/-- The values of the digits at the front of a text, and what follows them. -/
def splitDigits : List Char → List Nat × List Char
  | [] => ([], [])
  | c :: cs =>
    match Text.digitValue? c with
    | some d => (d :: (splitDigits cs).1, (splitDigits cs).2)
    | none => ([], c :: cs)

/-- A sign at the front of a text: is it a minus, and what follows it. -/
def splitSign : List Char → Bool × List Char
  | '+' :: cs => (false, cs)
  | '-' :: cs => (true, cs)
  | cs => (false, cs)

/-- The exponent part `e±digits` of a numeral, up to the end of the text; `none` if the text is
neither empty nor such a part. -/
def exponent? : List Char → Option (Option Int)
  | [] => some none
  | c :: cs =>
    if c = 'e' ∨ c = 'E' then
      let (negative, digits) := splitSign cs
      match splitDigits digits with
      | ([], _) => none
      | (ds, []) => some (some (Double.signed negative (Text.ofDigits 10 ds)))
      | (_, _ :: _) => none
    else none

/-- A decimal numeral without its sign: digits, a fraction that may be empty, an exponent. It is
an integer when neither of the last two is there. -/
def decimal? (negative : Bool) (cs : List Char) : Option Constant :=
  match splitDigits cs with
  | ([], _) => none
  | (whole, '.' :: rest) =>
    let (fraction, rest) := splitDigits rest
    (exponent? rest).map fun e =>
      .double (.ofDecimal negative (Text.ofDigits 10 (whole ++ fraction))
        (e.getD 0 - fraction.length))
  | (whole, rest) =>
    (exponent? rest).map fun
      | some e => .double (.ofDecimal negative (Text.ofDigits 10 whole) e)
      | none => .int (Double.signed negative (Text.ofDigits 10 whole))

/-- A hexadecimal numeral after its `0x`. -/
def hexadecimal? (negative : Bool) (cs : List Char) : Option Constant :=
  match cs.mapM Text.hexValue? with
  | some (d :: ds) => some (.int (Double.signed negative (Text.ofDigits 16 (d :: ds))))
  | _ => none

/-- The number that a text writes, if it has the shape of a numeral. -/
def numeral? (cs : List Char) : Option Constant :=
  match splitSign cs with
  | (negative, '0' :: 'x' :: digits) => hexadecimal? negative digits
  | (negative, digits) => decimal? negative digits

/-- The digits of a text that is a decimal integer with too many of them, by their number. -/
def tooLong? (cs : List Char) : Option Nat :=
  match splitDigits (splitSign cs).2 with
  | (digits, []) => if digitLimit < digits.length then some digits.length else none
  | _ => none

/-- The constants that are written as words. -/
def word? (text : String) : Option Constant :=
  if text = "true" then some (.bool true)
  else if text = "false" then some (.bool false)
  else if text = "nil" then some .nil
  else none

/-- The text that a string literal stands for: `\n` and `\t` are a line feed and a tab, a
backslash before a line feed joins the lines, and before any other character it leaves that
character. -/
def unescape : List Char → List Char
  | [] => []
  | ['\\'] => ['\\']
  | '\\' :: c :: cs =>
    if c = 'n' then '\n' :: unescape cs
    else if c = 't' then '\t' :: unescape cs
    else if c = '\n' then unescape cs
    else c :: unescape cs
  | c :: cs => c :: unescape cs

end Constant

namespace Form

/-- The form of an atom that starts at `p`; a numeral may have any number of digits here. -/
def ofAtom (text : List Char) (p : Position) : Form :=
  match Constant.numeral? text with
  | some c => .const c
  | none =>
    match Constant.word? (String.ofList text) with
    | some c => .const c
    | none =>
      match text with
      | ':' :: c :: cs => .keyword ⟨String.ofList (c :: cs), .onLine p text.length⟩
      | _ => .symbol ⟨String.ofList text, .onLine p text.length⟩

end Form

end TailLisp
