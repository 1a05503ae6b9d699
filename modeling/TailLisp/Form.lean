import TailLisp.Constant
import TailLisp.Span

/-!
# TailLisp.Form

**Forms**, the data that source text is read into and that every later stage works on. A form is
a constant, a name (a symbol or a keyword), a list, a vector or a map. Names and collections
carry the span they were read from; a list that a macro made has none.
-/

namespace TailLisp

/-- A name that refers to something. -/
structure Symbol where
  name : String
  span : Span := Span.none
  deriving DecidableEq, Repr, Inhabited

/-- A name that stands for itself; `name` is written without its first colon. -/
structure Keyword where
  name : String
  span : Span := Span.none
  deriving DecidableEq, Repr, Inhabited

/-- A piece of source as data. -/
inductive Form where
  /-- A constant; constants have no span. -/
  | const (value : Constant)
  | symbol (symbol : Symbol)
  | keyword (keyword : Keyword)
  /-- `(…)`, without a span when no source text stands behind it. -/
  | list (items : List Form) (span : Option Span)
  /-- `[…]` -/
  | vector (items : List Form) (span : Span)
  /-- `{…}`, its keys and values in source order. -/
  | map (entries : List (Form × Form)) (span : Span)
  deriving Repr, Inhabited

namespace Form

/-- The form `nil`. -/
protected def nil : Form := .const .nil

/-- A symbol that no source text stands behind. -/
def named (name : String) : Form := .symbol { name }

/-- A list that no source text stands behind. -/
def made (items : List Form) : Form := .list items none

/-- Is the form the constant `nil`? -/
def isNil : Form → Bool
  | .const .nil => true
  | _ => false

/-- The span of a form that has one. -/
def span? : Form → Option Span
  | .const _ => none
  | .symbol s => some s.span
  | .keyword k => some k.span
  | .list _ span => span
  | .vector _ span => some span
  | .map _ span => some span

/-- The span of a form that was read from a source. -/
def place? (form : Form) : Option Span := form.span?.filter Span.isReal

/-- Is the form the keyword `name`? -/
def isKeyword (name : String) : Form → Bool
  | .keyword k => k.name == name
  | _ => false

/-- The head symbol of a list that begins with one. -/
def head? : Form → Option Symbol
  | .list (.symbol s :: _) _ => some s
  | _ => none

/-- Is the form a list whose head is the symbol `name`? -/
def isCallOf (name : String) (form : Form) : Bool :=
  match form.head? with
  | some s => s.name == name
  | none => false

/-- Forms in pairs; `none` if one is left over. -/
def pairUp : List Form → Option (List (Form × Form))
  | [] => some []
  | [_] => none
  | key :: value :: rest => (pairUp rest).map ((key, value) :: ·)

/-! ### Measures -/

mutual

/-- How deeply collections nest in a form; a constant or name has depth zero. -/
def depth : Form → Nat
  | .const _ => 0
  | .symbol _ => 0
  | .keyword _ => 0
  | .list items _ => depthOfAll items + 1
  | .vector items _ => depthOfAll items + 1
  | .map entries _ => depthOfEntries entries + 1

/-- The greatest depth among forms. -/
def depthOfAll : List Form → Nat
  | [] => 0
  | form :: forms => max (depth form) (depthOfAll forms)

/-- The greatest depth among keys and values. -/
def depthOfEntries : List (Form × Form) → Nat
  | [] => 0
  | (key, value) :: entries => max (max (depth key) (depth value)) (depthOfEntries entries)

end

mutual

/-- How many forms there are in a form, itself included. -/
def size : Form → Nat
  | .const _ => 1
  | .symbol _ => 1
  | .keyword _ => 1
  | .list items _ => sizeOfAll items + 1
  | .vector items _ => sizeOfAll items + 1
  | .map entries _ => sizeOfEntries entries + 1

/-- How many forms there are in a row of forms. -/
def sizeOfAll : List Form → Nat
  | [] => 0
  | form :: forms => size form + sizeOfAll forms

/-- How many forms there are in the entries of a map. -/
def sizeOfEntries : List (Form × Form) → Nat
  | [] => 0
  | (key, value) :: entries => size key + size value + sizeOfEntries entries

end

end Form

end TailLisp
