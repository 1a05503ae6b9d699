import TailLisp.Number.Decimal
import TailLisp.Text.Printable

/-!
# TailLisp.Text.Quoted

**Quoted text** as the target language writes it. A string stands between single quotes, or
between double quotes when it holds a single and no double one. The quote in use, the backslash
and what cannot be printed are escaped. Documentation strings (`docText`) stand between three
quotes and keep their line breaks.
-/

namespace TailLisp.Text

/-- The last `width` hexadecimal digits of a number. -/
def hexDigits (width n : Nat) : List Char :=
  (List.range width).reverse.map fun i => Nat.digitChar (n / Nat.pow 16 i % 16)

/-- A character by its number, in the shortest of the three forms. -/
def escapeCode (c : Char) : List Char :=
  let n := c.toNat
  if n < 0x100 then '\\' :: 'x' :: hexDigits 2 n
  else if n < 0x10000 then '\\' :: 'u' :: hexDigits 4 n
  else '\\' :: 'U' :: hexDigits 8 n

/-- Escapes that do not hang on the quote in use. -/
def escapeChar (c : Char) : List Char :=
  match c with
  | '\\' => ['\\', '\\']
  | '\n' => ['\\', 'n']
  | '\r' => ['\\', 'r']
  | '\t' => ['\\', 't']
  | c => if isPrintable c then [c] else escapeCode c

/-- The quote that a string is written with. -/
def quoteOf (cs : List Char) : Char :=
  if cs.contains '\'' && !cs.contains '"' then '"' else '\''

/-- The characters of a string between quotes `q`. -/
def escapeFor (q : Char) (cs : List Char) : List Char :=
  cs.flatMap fun c => if c = q then ['\\', q] else escapeChar c

/-- A string as a literal of the target language. -/
def quoted (s : String) : String :=
  let cs := s.toList
  let q := quoteOf cs
  String.ofList (q :: escapeFor q cs ++ [q])

/-! ### Documentation strings -/

/-- Escapes of a documentation string: line breaks and tabs stay. -/
def docEscape (c : Char) : List Char :=
  match c with
  | '\n' => ['\n']
  | '\t' => ['\t']
  | c => escapeChar c

/-- Does the row hold three of the character `q` in a row? -/
def holdsTriple (q : Char) : List Char → Bool
  | [] => false
  | c :: cs => [q, q, q].isPrefixOf (c :: cs) || holdsTriple q cs

/-- Put a backslash before the last character. -/
def escapeLast (cs : List Char) : List Char :=
  match cs.reverse with
  | [] => []
  | c :: rest => rest.reverse ++ ['\\', c]

/-- Three times a quote, the characters, and three times the quote again. -/
def tripled (q : Char) (cs : List Char) : String :=
  String.ofList ([q, q, q] ++ cs ++ [q, q, q])

/-- A documentation string. Of the quotes that do not occur three times in a row, double quotes
come first, but one that the text does not end with is preferred; when only the other is left,
the last character is escaped. -/
def docText (s : String) : String :=
  let cs := s.toList.flatMap docEscape
  let ends (q : Char) : Bool := cs.getLast? == some q
  match ['"', '\''].filter fun q => !holdsTriple q cs with
  | [] =>
    let q := quoteOf s.toList
    tripled q (escapeFor q s.toList)
  | [q] => tripled q (if ends q then escapeLast cs else cs)
  | q :: r :: _ => tripled (if ends q then r else q) cs

end TailLisp.Text
