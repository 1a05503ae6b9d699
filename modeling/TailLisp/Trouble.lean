import TailLisp.Fault
import TailLisp.FileTree
import TailLisp.Run.Failure
import TailLisp.Target.Validity

/-!
# TailLisp.Trouble

**What can keep a source from being run to its end**: the file cannot be opened, the compiler
finds a fault, the target language does not accept the result, or the run fails.
-/

namespace TailLisp

/-- Why a source was not run to its end. -/
inductive Trouble where
  | file (fault : FileFault)
  | fault (fault : Fault)
  | rejected (rejection : Rejection)
  | failed (failure : Failure)
  deriving Repr

namespace Trouble

/-- The wording of a trouble with a source of the given name. -/
def message (source : String) : Trouble → String
  | .file f => f.message
  | .fault f => f.message
  | .rejected rejection =>
    match rejection.place? with
    | none => rejection.message
    | some place =>
      rejection.message ++ " (" ++ FileTree.baseName source ++ ", line " ++ natText place.line
        ++ ")"
  | .failed failure => failure.message

/-- Is it a fault of the syntax, as opposed to one of the names, digits or files or of the run? -/
def isSyntactic : Trouble → Bool
  | .fault f => f.isSyntactic
  | .rejected rejection => rejection.place?.isSome
  | _ => false

end Trouble

end TailLisp
