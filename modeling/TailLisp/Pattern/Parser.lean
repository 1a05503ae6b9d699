import TailLisp.Form.Reader
import TailLisp.Name
import TailLisp.Pattern
import TailLisp.Text.Identifier

/-!
# TailLisp.Pattern.Parser

**Parsing one level of a pattern.** Both parsers go through the items of a vector once, from
left to right, and remember what the next item has to be: a name after `&` or `:as`, a map after
`:or`, a key after a binder. `step` functions say what one item does, `finish` functions what may
be open at the end.
-/

namespace TailLisp

namespace Pattern

/-- Does the name begin with the rest marker? -/
def isRestName (name : String) : Bool :=
  match name.toList with
  | '&' :: _ => true
  | _ => false

/-- The symbol a form binds, if it is one that may bind. -/
def binder? : Form → Option Symbol
  | .symbol s => if isRestName s.name then none else some s
  | _ => none

/-- Is the name, as spelled in generated code, an identifier that is free to bind? -/
def isBindable (name : String) : Bool :=
  Text.isIdentifier (Name.spell name) && !Text.isReserved (Name.spell name)

/-- The symbol itself if it may be bound, for a pattern that stands in `container`. -/
def checkName (s : Symbol) (container : Form) : Except Fault Symbol :=
  if isBindable s.name then .ok s else .error (.ofItem .bindingName (.symbol s) container)

/-- The symbol after a rest marker that is written together with it. -/
def fusedRest (s : Symbol) : Symbol := ⟨String.ofList (s.name.toList.drop 1), s.span.dropFirst⟩

/-! ### Sequence patterns -/

/-- What the next item of a sequence pattern has to be; a marker waits for a name. -/
inductive SequenceState where
  | normal
  | afterRest (marker : Form)
  | afterWhole (marker : Form)

/-- Take a name for the rest. -/
def takeRest (container : Form) (p : SequencePattern) (s : Symbol) :
    Except Fault (SequenceState × SequencePattern) := do
  let s ← checkName s container
  return (.normal, { p with rest := some s })

/-- Take a positional binder. -/
def takeItem (container : Form) (p : SequencePattern) (item : Form) :
    Except Fault (SequenceState × SequencePattern) :=
  if p.rest.isSome then .error (.ofItem .restNotLast item container)
  else .ok (.normal, { p with items := p.items ++ [item] })

/-- An item where any item may stand. -/
def sequenceItem (container : Form) (p : SequencePattern) (item : Form) :
    Except Fault (SequenceState × SequencePattern) :=
  match item with
  | .keyword k =>
    if k.name = "as" then .ok (.afterWhole item, p)
    else .error (.ofItem .sequenceElement item container)
  | .symbol s =>
    if isRestName s.name then
      if p.rest.isSome then .error (.ofItem .secondRest item container)
      else if s.name = "&" then .ok (.afterRest item, p)
      else takeRest container p (fusedRest s)
    else if p.rest.isSome then .error (.ofItem .restNotLast item container)
    else do
      let _ ← checkName s container
      takeItem container p item
  | .vector .. => takeItem container p item
  | .map .. => takeItem container p item
  | _ => .error (.ofItem .sequenceElement item container)

/-- Read one item of a sequence pattern. -/
def sequenceStep (container : Form) (state : SequenceState × SequencePattern) (item : Form) :
    Except Fault (SequenceState × SequencePattern) :=
  let p := state.2
  match state.1 with
  | .afterRest _ =>
    match binder? item with
    | some s => takeRest container p s
    | none => .error (.ofItem .restName item container)
  | .afterWhole _ =>
    match binder? item with
    | some s =>
      if p.whole.isSome then .error (.ofItem .duplicateAlias item container)
      else do
        let s ← checkName s container
        return (.normal, { p with whole := some s })
    | none => .error (.ofItem .aliasName item container)
  | .normal => sequenceItem container p item

/-- No marker may be left without its name. -/
def sequenceFinish (container : Form) (state : SequenceState × SequencePattern) :
    Except Fault SequencePattern :=
  match state.1 with
  | .afterRest marker => .error (.ofItem .restName marker container)
  | .afterWhole marker => .error (.ofItem .aliasName marker container)
  | .normal => .ok state.2

/-- Parse the items of a sequence pattern that stands in the vector `container`. -/
def parseSequence (container : Form) (items : List Form) : Except Fault SequencePattern := do
  sequenceFinish container (← items.foldlM (sequenceStep container) (.normal, {}))

/-! ### Table patterns -/

/-- What the next item of a table pattern has to be. -/
inductive TableState where
  | normal
  | afterWhole (marker : Form)
  | afterDefaults (marker : Form)
  /-- A binder waits for its key. -/
  | afterBinder (binder : Form)

/-- A table pattern under construction; the `:or` map is parsed when all keys are known. -/
structure TableDraft where
  state : TableState := .normal
  pattern : TablePattern := {}
  defaults : Option (List (Form × Form) × Form) := none

/-- An item where a binder or a clause may stand. -/
def tableItem (container : Form) (d : TableDraft) (item : Form) : Except Fault TableDraft :=
  if item.isKeyword "as" then .ok { d with state := .afterWhole item }
  else if item.isKeyword "or" then
    if d.defaults.isSome then .error (.ofItem .duplicateDefaults item container)
    else .ok { d with state := .afterDefaults item }
  else match item with
    | .symbol s =>
      if isRestName s.name then .error (.ofItem .tableBinder item container)
      else do
        let _ ← checkName s container
        return { d with state := .afterBinder item }
    | .vector .. => .ok { d with state := .afterBinder item }
    | .map .. => .ok { d with state := .afterBinder item }
    | _ => .error (.ofItem .tableBinder item container)

/-- The key of a binder. -/
def tableKey (container : Form) (d : TableDraft) (binder item : Form) :
    Except Fault TableDraft :=
  if item.isKeyword "as" || item.isKeyword "or" then
    .error (.ofItem .missingKey binder container)
  else match Key.ofForm? item with
    | some key =>
      .ok { d with
        state := .normal
        pattern := { d.pattern with entries := d.pattern.entries ++ [(binder, key)] } }
    | none => .error (.ofItem .tableKey item container)

/-- Read one item of a table pattern. -/
def tableStep (container : Form) (d : TableDraft) (item : Form) : Except Fault TableDraft :=
  match d.state with
  | .afterWhole _ =>
    match binder? item with
    | some s =>
      if d.pattern.whole.isSome then .error (.ofItem .duplicateAlias item container)
      else do
        let s ← checkName s container
        return { d with state := .normal, pattern := { d.pattern with whole := some s } }
    | none => .error (.ofItem .aliasName item container)
  | .afterDefaults _ =>
    match item with
    | .map entries _ => .ok { d with state := .normal, defaults := some (entries, item) }
    | _ => .error (.ofItem .defaultsMap item container)
  | .afterBinder binder => tableKey container d binder item
  | .normal => tableItem container d item

/-- Read one entry of an `:or` map: its key is a constant that the pattern looks up and that no
earlier entry has. -/
def defaultStep (keys : List Key) (container : Form) (defaults : List (Key × Form))
    (entry : Form × Form) : Except Fault (List (Key × Form)) :=
  match Key.ofForm? entry.1 with
  | none => .error (.ofItem .defaultKey entry.1 container)
  | some key =>
    if defaults.any fun d => d.1.same key then
      .error (.ofItem .duplicateDefaultKey entry.1 container)
    else if keys.any fun k => k.same key then .ok (defaults ++ [(key, entry.2)])
    else .error (.ofItem .unusedDefaultKey entry.1 container)

/-- Nothing may be left open; the defaults are checked against the keys of the pattern. -/
def tableFinish (container : Form) (d : TableDraft) : Except Fault TablePattern :=
  match d.state with
  | .afterBinder binder => .error (.ofItem .missingKey binder container)
  | .afterWhole marker => .error (.ofItem .aliasName marker container)
  | .afterDefaults marker => .error (.ofItem .defaultsMap marker container)
  | .normal =>
    match d.defaults with
    | none => .ok d.pattern
    | some (entries, form) => do
      let keys := d.pattern.entries.map (·.2)
      let defaults ← entries.foldlM (defaultStep keys form) []
      return { d.pattern with defaults }

/-- Parse the items after the table marker of the vector `container`. -/
def parseTable (container : Form) (items : List Form) : Except Fault TablePattern := do
  tableFinish container (← items.foldlM (tableStep container) {})

/-! ### Any pattern -/

/-- One level of the pattern that a form writes. -/
def ofForm (form : Form) : Except Fault Pattern :=
  match form with
  | .symbol s =>
    if isRestName s.name then .error (.ofForm .strayRest form)
    else do return .name (← checkName s form)
  | .vector (first :: items) _ =>
    if first.isKeyword ":" then do return .table (← parseTable form items)
    else do return .sequence (← parseSequence form (first :: items))
  | .vector [] _ => do return .sequence (← parseSequence form [])
  | _ => .error (.ofForm .unsupportedBinding form)

/-- The only form of a text that writes a pattern. -/
def read (source : String) : Except Fault Form :=
  match Form.readAll source with
  | .error fault =>
    if fault.isSyntactic then
      .error { cause := .unreadablePattern fault.cause, span? := fault.span? }
    else .error fault
  | .ok [form] => .ok form
  | .ok forms => .error { cause := .patternCount forms.length }

end Pattern

end TailLisp
