import TailLisp.Command

/-!
# TailLisp.Main

**The program.** It collects what the command may look at from the file system, runs the command
and prints what it leaves behind.
-/

namespace TailLisp

/-- What stands at a place of the file system. -/
def entryAt? (place : Place) : IO (Option Entry) := do
  let path : Path := { parts := place }
  try
    return some (.file (← IO.FS.readFile path.text))
  catch
    | .inappropriateType .. => return some (.folder place)
    | _ => return none

/-- The part of the file system that a command may look at. -/
def collect (here : Place) (words : List String) : IO FileTree := do
  let mut tree : FileTree := { here }
  for place in Command.lookedAt here words do
    match ← entryAt? place with
    | some (.file text) => tree := { tree with files := (place, text) :: tree.files }
    | some (.folder place) => tree := { tree with folders := place :: tree.folders }
    | none => pure ()
  return tree

end TailLisp

/-- Run the command line. -/
def main (words : List String) : IO UInt32 := do
  let here := ((← IO.currentDir).toString.splitOn "/").filter (!·.isEmpty)
  let tree ← TailLisp.collect here words
  let report := TailLisp.Command.run tree words
  IO.print report.output
  IO.eprint report.errors
  match report.ending with
  | .escaped trouble => IO.eprintln (trouble.message "")
  | _ => pure ()
  return report.ending.code.toUInt32
