import TailLisp.Form

/-!
# TailLisp.Form.Text

**The text of a form**, as messages show it: collections with single spaces between their parts,
a quoted form as `(quote …)`, a string with its quotes escaped and nothing else. A form with an
integer that is too long to be written has no text. Without floating-point numbers and backslashes,
reading the text gives the form back.
-/

namespace TailLisp

namespace Constant

/-- A string between double quotes; a double quote inside is escaped. -/
def quotedText (s : String) : String :=
  "\"" ++ String.ofList (s.toList.flatMap fun c => if c = '"' then ['\\', '"'] else [c]) ++ "\""

/-- The text of a constant, with all digits of an integer. -/
def text : Constant → String
  | .nil => "nil"
  | .bool b => if b then "true" else "false"
  | .int i => intText i
  | .double x => x.text
  | .str s => quotedText s

end Constant

namespace Form

mutual

/-- The text of a form, with all digits of its integers. -/
def text : Form → String
  | .const c => c.text
  | .symbol s => s.name
  | .keyword k => ":" ++ k.name
  | .list items _ => "(" ++ textOfAll items ++ ")"
  | .vector items _ => "[" ++ textOfAll items ++ "]"
  | .map entries _ => "\x7b" ++ textOfEntries entries ++ "\x7d"

/-- The texts of forms with a space between each two. -/
def textOfAll : List Form → String
  | [] => ""
  | [form] => text form
  | form :: next :: forms => text form ++ " " ++ textOfAll (next :: forms)

/-- The texts of keys and values with a space between each two. -/
def textOfEntries : List (Form × Form) → String
  | [] => ""
  | [(key, value)] => text key ++ " " ++ text value
  | (key, value) :: next :: entries =>
    text key ++ " " ++ text value ++ " " ++ textOfEntries (next :: entries)

end

mutual

/-- Can the form be written? -/
def isWritable : Form → Bool
  | .const c => c.isWritable
  | .symbol _ => true
  | .keyword _ => true
  | .list items _ => allWritable items
  | .vector items _ => allWritable items
  | .map entries _ => entriesWritable entries

/-- Can all forms be written? -/
def allWritable : List Form → Bool
  | [] => true
  | form :: forms => isWritable form && allWritable forms

/-- Can all keys and values be written? -/
def entriesWritable : List (Form × Form) → Bool
  | [] => true
  | (key, value) :: entries => isWritable key && isWritable value && entriesWritable entries

end

/-- The text of a form that can be written. -/
def text? (form : Form) : Option String := if form.isWritable then some form.text else none

end Form

end TailLisp
