import TailLisp.Form
import TailLisp.Run.Datum

/-!
# TailLisp.Form.Data

**Forms as plain data**, for files that hold data instead of programs: a keyword stands for its
name, vectors and lists for lists, and a map for a dictionary.
-/

namespace TailLisp

/-- Set a key among entries; a key that is there keeps its place and itself. -/
def Datum.setEntry (key value : Datum) : List (Datum × Datum) → List (Datum × Datum)
  | [] => [(key, value)]
  | (k, v) :: entries =>
    if k.same key then (k, value) :: entries else (k, v) :: Datum.setEntry key value entries

/-- A dictionary of keys and values, set in order; the type of a key that cannot be one is the
error. -/
def Datum.dictOf (entries : List (Datum × Datum)) : Except String Datum := do
  let entries ← entries.foldlM (fun built (key, value) =>
    match key.unhashable? with
    | some type => .error type
    | none => .ok (Datum.setEntry key value built)) []
  return .dict entries

namespace Form

mutual

/-- The datum that a form stands for. -/
def toDatum : Form → Except String Datum
  | .const c => .ok (.const c)
  | .symbol s => .ok (.ofName s.name)
  | .keyword k => .ok (.const (.str k.name))
  | .list items _ => do return .list (← toData items)
  | .vector items _ => do return .list (← toData items)
  | .map entries _ => do Datum.dictOf (← toEntries entries)

/-- The data that forms stand for. -/
def toData : List Form → Except String (List Datum)
  | [] => .ok []
  | form :: forms => do
    let datum ← toDatum form
    let data ← toData forms
    return datum :: data

/-- The keys and values that the entries of a map stand for. -/
def toEntries : List (Form × Form) → Except String (List (Datum × Datum))
  | [] => .ok []
  | (key, value) :: entries => do
    let key ← toDatum key
    let value ← toDatum value
    let rest ← toEntries entries
    return (key, value) :: rest

end

end Form

end TailLisp
