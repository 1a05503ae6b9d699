/-!
# TailLisp.Span

**Places in the source.** Lines count from one, columns from zero, and a column counts
characters. A `Position` is one place, a `Span` a stretch of text from its first place to the
place after its last. A name that no source text stands behind has the span `Span.none`, which
is all zeros; only a span on a line that exists (`Span.isReal`) is ever reported.
-/

namespace TailLisp

/-- A place in the source text. -/
structure Position where
  line : Nat
  col : Nat
  deriving DecidableEq, Repr, Inhabited

namespace Position

/-- Where a source text begins. -/
def start : Position := ⟨1, 0⟩

/-- The place after the character `c`; only a line feed ends a line. -/
def advance (p : Position) (c : Char) : Position :=
  if c = '\n' then ⟨p.line + 1, 0⟩ else ⟨p.line, p.col + 1⟩

end Position

/-- A stretch of source text. -/
structure Span where
  line : Nat
  col : Nat
  endLine : Nat
  endCol : Nat
  deriving DecidableEq, Repr, Inhabited

namespace Span

/-- The span of what was not read from a source. -/
protected def none : Span := ⟨0, 0, 0, 0⟩

/-- The span of `length` characters on one line. -/
def onLine (p : Position) (length : Nat) : Span := ⟨p.line, p.col, p.line, p.col + length⟩

/-- The span from one place to another. -/
def between (first last : Position) : Span := ⟨first.line, first.col, last.line, last.col⟩

/-- The span of a place alone, with no end. -/
def ofPosition (p : Position) : Span := ⟨p.line, p.col, 0, 0⟩

/-- Does the span lie in a source text? -/
def isReal (s : Span) : Bool := 0 < s.line

/-- A span with its first column left out. -/
def dropFirst (s : Span) : Span := { s with col := s.col + 1 }

end Span

end TailLisp
