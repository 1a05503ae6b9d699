/-!
# TailLisp.Name

**Spelling of names in generated code.** Source names may hold characters that identifiers do
not: `empty?`, `set!` and `hash-map` become `empty_q`, `set_bang` and `hash_map`, and an operator
used as a name gets a name of its own.
-/

namespace TailLisp.Name

/-- The spelling of an operator that stands alone. -/
def operator? (name : String) : Option String :=
  [("+", "_plus_"), ("-", "_minus_"), ("*", "_star_"), ("/", "_slash_"), ("=", "_eq_"),
   ("<", "_lt_"), (">", "_gt_"), ("<=", "_lte_"), (">=", "_gte_")].lookup name

/-- The spelling of one character inside a name. -/
def spellChar (c : Char) : List Char :=
  match c with
  | '-' => ['_']
  | '*' => "_star_".toList
  | '+' => "_plus_".toList
  | '<' => "_lt_".toList
  | '>' => "_gt_".toList
  | '=' => "_eq_".toList
  | c => [c]

/-- A question or exclamation mark at the end is written as a word. -/
def spellLast (cs : List Char) : List Char :=
  match cs.reverse with
  | '?' :: rest => rest.reverse ++ "_q".toList
  | '!' :: rest => rest.reverse ++ "_bang".toList
  | _ => cs

/-- The spelling of a source name in generated code. -/
def spell (name : String) : String :=
  match operator? name with
  | some spelled => spelled
  | none => String.ofList ((spellLast name.toList).flatMap spellChar)

/-- Add a character to the first of some parts. -/
def extendFirst (c : Char) : List (List Char) → List (List Char)
  | [] => [[c]]
  | part :: parts => (c :: part) :: parts

/-- The stretches between points. -/
def splitPoints : List Char → List (List Char)
  | [] => [[]]
  | c :: cs => if c = '.' then [] :: splitPoints cs else extendFirst c (splitPoints cs)

/-- The parts of a name between its points, at least one. -/
def parts (name : String) : List String := (splitPoints name.toList).map String.ofList

end TailLisp.Name
