/-!
# TailLisp.Special

**Special forms**: the names that, at the head of a list, are not called but have rules of their
own.
-/

namespace TailLisp

/-- The special forms. -/
inductive Special where
  | ifForm
  | condForm
  | caseForm
  | doForm
  | letForm
  | loopForm
  | fnForm
  | andForm
  | orForm
  | notForm
  | quoteForm
  | recurForm
  | defForm
  | defnForm
  deriving DecidableEq, Repr

/-- The special form of a name. -/
def Special.ofName? : String → Option Special
  | "if" => some .ifForm
  | "cond" => some .condForm
  | "case" => some .caseForm
  | "do" => some .doForm
  | "let" => some .letForm
  | "loop" => some .loopForm
  | "fn" => some .fnForm
  | "and" => some .andForm
  | "or" => some .orForm
  | "not" => some .notForm
  | "quote" => some .quoteForm
  | "recur" => some .recurForm
  | "def" => some .defForm
  | "defn" => some .defnForm
  | _ => none

end TailLisp
