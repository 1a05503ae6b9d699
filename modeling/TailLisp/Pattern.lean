import TailLisp.Fault

/-!
# TailLisp.Pattern

**Binding patterns.** A binding position holds a name, a sequence pattern or a table pattern:

    name
    [b₁ b₂ … & rest :as whole]
    [:: b₁ k₁ b₂ k₂ … :as whole :or {k default …}]

A `Pattern` describes one level only. The binders inside it stay forms, to be parsed when the
expansion reaches them.
-/

namespace TailLisp

/-- A constant that a table is looked up with. -/
inductive Key where
  | const (value : Constant)
  | keyword (keyword : Keyword)
  deriving DecidableEq, Repr, Inhabited

namespace Key

/-- The keywords that mark parts of a pattern and so are no keys. -/
def markers : List String := ["as", "or", ":"]

/-- The key that a form writes. -/
def ofForm? : Form → Option Key
  | .const c => some (.const c)
  | .keyword k => if markers.contains k.name then none else some (.keyword k)
  | _ => none

/-- The form of a key. -/
def toForm : Key → Form
  | .const c => .const c
  | .keyword k => .keyword k

/-- Equality of keys: keywords by name, constants by value. -/
def same : Key → Key → Bool
  | .const a, .const b => a.same b
  | .keyword j, .keyword k => j.name == k.name
  | _, _ => false

end Key

/-- Binders by position. -/
structure SequencePattern where
  /-- The positional binders, in order. -/
  items : List Form := []
  /-- The name of what follows the positional binders. -/
  rest : Option Symbol := none
  /-- The name of the whole value. -/
  whole : Option Symbol := none
  deriving Repr, Inhabited

/-- Binders by key. -/
structure TablePattern where
  /-- Each binder with its key, in order. -/
  entries : List (Form × Key) := []
  /-- The name of the whole value. -/
  whole : Option Symbol := none
  /-- The forms that stand in for missing keys, in order. -/
  defaults : List (Key × Form) := []
  deriving Repr, Inhabited

/-- The default of a key, if the pattern has one. -/
def TablePattern.default? (p : TablePattern) (key : Key) : Option Form :=
  (p.defaults.find? fun entry => entry.1.same key).map (·.2)

/-- One level of a binding pattern. -/
inductive Pattern where
  | name (symbol : Symbol)
  | sequence (pattern : SequencePattern)
  | table (pattern : TablePattern)
  deriving Repr, Inhabited

end TailLisp
