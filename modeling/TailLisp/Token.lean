import TailLisp.Fault
import TailLisp.Text.Blank

/-!
# TailLisp.Token

**Tokens** of the source text and the scanner that finds them. Blanks and commas separate, a
semicolon starts a comment that runs to the end of the line, brackets and the quote mark are
tokens of one character, a string runs to its closing double quote, and everything else is an
atom.

The scanner reads one character at a time. What it is inside of is its `ScanState`; `step` says
which tokens a character completes and which state it leads to, `finish` what the end of the
text does. Every character is read exactly once and moves the position, so no text is lost and
every token knows where it starts.
-/

namespace TailLisp

/-- The three kinds of brackets. -/
inductive Bracket where
  | round
  | square
  | curly
  deriving DecidableEq, Repr, Inhabited

namespace Bracket

/-- The character that opens a collection. -/
def opener : Bracket → Char
  | .round => '('
  | .square => '['
  | .curly => '\x7b'

/-- The character that closes it. -/
def closer : Bracket → Char
  | .round => ')'
  | .square => ']'
  | .curly => '\x7d'

/-- The bracket that a character opens. -/
def ofOpener? (c : Char) : Option Bracket :=
  if c = '(' then some .round
  else if c = '[' then some .square
  else if c = '\x7b' then some .curly
  else none

/-- The bracket that a character closes. -/
def ofCloser? (c : Char) : Option Bracket :=
  if c = ')' then some .round
  else if c = ']' then some .square
  else if c = '\x7d' then some .curly
  else none

end Bracket

/-- What a token is made of. -/
inductive Lexeme where
  /-- A string literal, by the characters between its quotes, escapes included. -/
  | string (body : List Char)
  | opening (bracket : Bracket)
  | closing (bracket : Bracket)
  | quote
  /-- A number, a constant or a name. -/
  | atom (text : List Char)
  deriving DecidableEq, Repr, Inhabited

/-- The characters of a lexeme as they stand in the source. -/
def Lexeme.text : Lexeme → List Char
  | .string body => '"' :: body ++ ['"']
  | .opening b => [b.opener]
  | .closing b => [b.closer]
  | .quote => ['\'']
  | .atom text => text

/-- A lexeme and the place of its first character. -/
structure Token where
  lexeme : Lexeme
  start : Position
  deriving DecidableEq, Repr, Inhabited

namespace Token

/-- Does the character only separate tokens? -/
def isSeparator (c : Char) : Bool := Text.isBlank c || c == ','

/-- May the character stand in an atom? -/
def isAtomChar (c : Char) : Bool :=
  !Text.isBlank c && !",;()[]\x7b\x7d\"'".toList.contains c

/-- What the scanner is inside of. The characters read so far are kept latest first. -/
inductive ScanState where
  | between
  | comment
  | atom (start : Position) (read : List Char)
  | string (start : Position) (read : List Char)
  /-- In a string, after a backslash. -/
  | escape (start : Position) (read : List Char)
  deriving DecidableEq, Repr

/-- What a character outside of every token begins. -/
def enter (p : Position) (c : Char) : Except Fault (List Token × ScanState) :=
  if isSeparator c then .ok ([], .between)
  else if c = ';' then .ok ([], .comment)
  else if c = '"' then .ok ([], .string p [])
  else match Bracket.ofOpener? c, Bracket.ofCloser? c with
    | some b, _ => .ok ([⟨.opening b, p⟩], .between)
    | none, some b => .ok ([⟨.closing b, p⟩], .between)
    | none, none =>
      if c = '\'' then .ok ([⟨.quote, p⟩], .between)
      else if isAtomChar c then .ok ([], .atom p [c])
      else .error (.atPosition .invalidCharacter p)

/-- Read the character `c` at `p`: the tokens it completes and the state after it. -/
def step (state : ScanState) (p : Position) (c : Char) :
    Except Fault (List Token × ScanState) :=
  match state with
  | .between => enter p c
  | .comment => .ok ([], if c = '\n' then .between else .comment)
  | .atom start read =>
    if isAtomChar c then .ok ([], .atom start (c :: read))
    else do
      let (tokens, next) ← enter p c
      return (⟨.atom read.reverse, start⟩ :: tokens, next)
  | .string start read =>
    if c = '"' then .ok ([⟨.string read.reverse, start⟩], .between)
    else if c = '\\' then .ok ([], .escape start (c :: read))
    else .ok ([], .string start (c :: read))
  | .escape start read => .ok ([], .string start (c :: read))

/-- The end of the text completes an atom; a string that is still open is a fault. -/
def finish : ScanState → Except Fault (List Token)
  | .between => .ok []
  | .comment => .ok []
  | .atom start read => .ok [⟨.atom read.reverse, start⟩]
  | .string start _ => .error (.atPosition .unterminatedString start)
  | .escape start _ => .error (.atPosition .unterminatedString start)

/-- Scan the characters from `p` on. -/
def scanFrom (state : ScanState) (p : Position) : List Char → Except Fault (List Token)
  | [] => finish state
  | c :: cs => do
    let (tokens, next) ← step state p c
    let rest ← scanFrom next (p.advance c) cs
    return tokens ++ rest

/-- The tokens of a source text. -/
def scan (source : String) : Except Fault (List Token) :=
  scanFrom .between .start source.toList

end Token

end TailLisp
