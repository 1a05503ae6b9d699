import TailLisp.Form.Atom
import TailLisp.Token

/-!
# TailLisp.Form.Reader

**Reading forms from tokens.** The reader keeps a stack of what is still open: collections with
the items read so far, and quote marks that wait for the form they quote. Each token either
opens something, closes the innermost collection or is a form by itself, and a finished form is
handed to whatever waits for it. One pass over the tokens reads every form of the source.
-/

namespace TailLisp

namespace Form

/-- Something that waits for forms. -/
inductive Pending where
  /-- An open collection and its items, latest first. -/
  | collection (bracket : Bracket) (opened : Position) (items : List Form)
  /-- A quote mark. -/
  | quote (mark : Position)
  deriving Repr

/-- What is open, innermost first, and the finished top-level forms, latest first. -/
structure ReadState where
  pending : List Pending
  forms : List Form
  deriving Repr

/-- The form `(quote form)` written with a quote mark. It ends where the quoted form ends; a
constant has no span, and there the quote mark itself counts as the end. -/
def quoted (mark : Position) (form : Form) : Form :=
  let afterMark : Span := .onLine mark 1
  let last : Position := match form.span? with
    | some s => ⟨s.endLine, s.endCol⟩
    | none => ⟨mark.line, mark.col + 1⟩
  .list [.symbol ⟨"quote", afterMark⟩, form] (some (.between mark last))

/-- Hand a finished form to what waits for it. -/
def deliver (form : Form) : List Pending → List Form → ReadState
  | [], forms => ⟨[], form :: forms⟩
  | .quote mark :: pending, forms => deliver (quoted mark form) pending forms
  | .collection b p items :: pending, forms => ⟨.collection b p (form :: items) :: pending, forms⟩

/-- The collection of the given items. -/
def collect (bracket : Bracket) (opened closed : Position) (items : List Form) :
    Except Fault Form :=
  let span : Span := .between opened ⟨closed.line, closed.col + 1⟩
  match bracket with
  | .round => .ok (.list items (some span))
  | .square => .ok (.vector items span)
  | .curly =>
    match pairUp items with
    | some entries => .ok (.map entries span)
    | none => .error (.atPosition .oddMap opened)

/-- Read one token. -/
def readToken (state : ReadState) (token : Token) : Except Fault ReadState :=
  match token.lexeme with
  | .opening b => .ok { state with pending := .collection b token.start [] :: state.pending }
  | .quote => .ok { state with pending := .quote token.start :: state.pending }
  | .string body =>
    .ok (deliver (.const (.str (String.ofList (Constant.unescape body))))
      state.pending state.forms)
  | .atom text =>
    match Constant.tooLong? text with
    | some digits => .error { cause := .longNumeral digits }
    | none => .ok (deliver (ofAtom text token.start) state.pending state.forms)
  | .closing b =>
    match state.pending with
    | .collection expected opened items :: pending =>
      if b = expected then do
        let form ← collect b opened token.start items.reverse
        return deliver form pending state.forms
      else .error (.atPosition (.mismatchedCloser expected.closer b.closer) token.start)
    | _ => .error (.atPosition (.unexpectedCloser b.closer) token.start)

/-- The forms read when the tokens end; nothing may be open then. -/
def readEnd (state : ReadState) : Except Fault (List Form) :=
  match state.pending with
  | [] => .ok state.forms.reverse
  | .quote _ :: _ => .error { cause := .unexpectedEnd }
  | .collection b opened _ :: _ => .error (.atPosition (.unterminatedLiteral b.closer) opened)

/-- The forms that a row of tokens writes. -/
def ofTokens (tokens : List Token) : Except Fault (List Form) := do
  readEnd (← tokens.foldlM readToken ⟨[], []⟩)

/-- Every form of a source text. -/
def readAll (source : String) : Except Fault (List Form) := do
  ofTokens (← Token.scan source)

end Form

end TailLisp
