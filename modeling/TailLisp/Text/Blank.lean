import TailLisp.Text.Ranges

/-!
# TailLisp.Text.Blank

**Blank characters**: the Unicode (14.0) white space together with the four information
separators U+001C to U+001F. Zero-width characters are not blank.
-/

namespace TailLisp.Text

/-- Code points of the blank characters. -/
def blanks : List (Nat × Nat) :=
  [(0x9, 0xd), (0x1c, 0x20), (0x85, 0x85), (0xa0, 0xa0), (0x1680, 0x1680), (0x2000, 0x200a),
    (0x2028, 0x2029), (0x202f, 0x202f), (0x205f, 0x205f), (0x3000, 0x3000)]

/-- Is `c` white space? -/
def isBlank (c : Char) : Bool := inRanges blanks c.toNat

/-- A row of characters without those at its ends that have a property. -/
def stripWhere (p : Char → Bool) (cs : List Char) : List Char :=
  ((cs.dropWhile p).reverse.dropWhile p).reverse

/-- A text without the blanks at its ends. -/
def strip (s : String) : String := String.ofList (stripWhere isBlank s.toList)

end TailLisp.Text
