import TailLisp.Form.Reader
import TailLisp.Proofs.SourceLayout

/-!
# TailLisp.Proofs.Derivation

**The reader accepts exactly its grammar.** A `Derivation` is a tree of the grammar

    Form ::= atom | string | quote Form | ( Form* ) | [ Form* ] | { (Form Form)* }

with the tokens it derives (`Derivation.tokens`) and the form it stands for (`Derivation.form`).
The reader keeps forms on its stack and forgets how they were written. `Growth.step` is the same
machine with derivations in their place: the reader's state is always the image of a growth
(`readToken_state`), a growth holds exactly the tokens it was fed (`tokens_step`), and feeding it
the tokens of a derivation hands that derivation over (`foldlM_tokens`). What the reader accepts
is read off these three.

One thing stands beside the grammar: the reader stops at a decimal integer that has more digits than
are read (`Token.tooLong?`), wherever it stands.
-/

namespace TailLisp

/-- The digits of a token that is a decimal integer with too many of them, by their number. -/
def Token.tooLong? (token : Token) : Option Nat :=
  match token.lexeme with
  | .atom text => Constant.tooLong? text
  | _ => none

/-- A tree of the grammar of forms. -/
inductive Derivation where
  | atom (text : List Char) (start : Position)
  | string (body : List Char) (start : Position)
  | quote (mark : Position) (quoted : Derivation)
  | list (opened : Position) (items : List Derivation) (closed : Position)
  | vector (opened : Position) (items : List Derivation) (closed : Position)
  | map (opened : Position) (entries : List (Derivation × Derivation)) (closed : Position)

namespace Derivation

mutual

/-- The tokens that a tree derives. -/
def tokens : Derivation → List Token
  | .atom text start => [⟨.atom text, start⟩]
  | .string body start => [⟨.string body, start⟩]
  | .quote mark quoted => ⟨.quote, mark⟩ :: tokens quoted
  | .list opened items closed =>
    ⟨.opening .round, opened⟩ :: tokensOfAll items ++ [⟨.closing .round, closed⟩]
  | .vector opened items closed =>
    ⟨.opening .square, opened⟩ :: tokensOfAll items ++ [⟨.closing .square, closed⟩]
  | .map opened entries closed =>
    ⟨.opening .curly, opened⟩ :: tokensOfEntries entries ++ [⟨.closing .curly, closed⟩]

/-- The tokens that a row of trees derives. -/
def tokensOfAll : List Derivation → List Token
  | [] => []
  | d :: ds => tokens d ++ tokensOfAll ds

/-- The tokens that the keys and values of a map derive. -/
def tokensOfEntries : List (Derivation × Derivation) → List Token
  | [] => []
  | (key, value) :: entries => tokens key ++ tokens value ++ tokensOfEntries entries

end

mutual

/-- The form that a tree stands for. -/
def form : Derivation → Form
  | .atom text start => .ofAtom text start
  | .string body _ => .const (.str (String.ofList (Constant.unescape body)))
  | .quote mark quoted =>
    let last := match (form quoted).span? with
      | some span => ⟨span.endLine, span.endCol⟩
      | none => ⟨mark.line, mark.col + 1⟩
    .list [.symbol ⟨"quote", .onLine mark 1⟩, form quoted] (some (.between mark last))
  | .list opened items closed =>
    .list (formsOfAll items) (some (.between opened ⟨closed.line, closed.col + 1⟩))
  | .vector opened items closed =>
    .vector (formsOfAll items) (.between opened ⟨closed.line, closed.col + 1⟩)
  | .map opened entries closed =>
    .map (formsOfEntries entries) (.between opened ⟨closed.line, closed.col + 1⟩)

/-- The forms that a row of trees stands for. -/
def formsOfAll : List Derivation → List Form
  | [] => []
  | d :: ds => form d :: formsOfAll ds

/-- The keys and values that the trees of a map stand for. -/
def formsOfEntries : List (Derivation × Derivation) → List (Form × Form)
  | [] => []
  | (key, value) :: entries => (form key, form value) :: formsOfEntries entries

end

theorem tokensOfAll_eq_flatMap (ds : List Derivation) : tokensOfAll ds = ds.flatMap tokens := by
  induction ds with
  | nil => rfl
  | cons d ds ih => rw [tokensOfAll, ih, List.flatMap_cons]

theorem formsOfAll_eq_map (ds : List Derivation) : formsOfAll ds = ds.map form := by
  induction ds with
  | nil => rfl
  | cons d ds ih => rw [formsOfAll, ih, List.map_cons]

/-- Trees in pairs; `none` if one is left over. -/
def pairUp : List Derivation → Option (List (Derivation × Derivation))
  | [] => some []
  | [_] => none
  | key :: value :: rest => (pairUp rest).map ((key, value) :: ·)

theorem tokensOfEntries_of_pairUp {ds : List Derivation} {entries : List (Derivation × Derivation)}
    (h : pairUp ds = some entries) : tokensOfEntries entries = tokensOfAll ds := by
  fun_induction pairUp ds generalizing entries with
  | case1 =>
    obtain rfl := Option.some.inj h
    rfl
  | case2 => exact absurd h (by simp)
  | case3 key value rest ih =>
    obtain ⟨entries, hrest, rfl⟩ := Option.map_eq_some_iff.1 h
    rw [tokensOfEntries, ih hrest, tokensOfAll, tokensOfAll, List.append_assoc]

/-- Forms pair up as their derivations do. -/
theorem form_pairUp (ds : List Derivation) :
    Form.pairUp (formsOfAll ds) = (pairUp ds).map formsOfEntries := by
  fun_induction pairUp ds with
  | case1 => rfl
  | case2 => rfl
  | case3 key value rest ih =>
    simp only [formsOfAll, Form.pairUp, ih, Option.map_map]
    rfl

/-- The keys and values of a map as one row. -/
def rowOf (entries : List (Derivation × Derivation)) : List Derivation :=
  entries.flatMap fun (key, value) => [key, value]

theorem pairUp_rowOf (entries : List (Derivation × Derivation)) :
    pairUp (rowOf entries) = some entries := by
  induction entries with
  | nil => rfl
  | cons entry entries ih => simp [rowOf, pairUp] at ih ⊢; exact ih

end Derivation

/-! ### Growing derivations -/

/-- Something that waits for derivations. -/
inductive Waiting where
  /-- An open collection and its items, latest first. -/
  | collection (bracket : Bracket) (opened : Position) (items : List Derivation)
  | quote (mark : Position)

/-- What waits, innermost first, and the finished derivations, latest first. -/
structure Growth where
  waiting : List Waiting
  done : List Derivation

namespace Waiting

/-- The tokens that have been read for it. -/
def tokens : Waiting → List Token
  | .collection b opened items => ⟨.opening b, opened⟩ :: Derivation.tokensOfAll items.reverse
  | .quote mark => [⟨.quote, mark⟩]

/-- What the reader keeps of it. -/
def pending : Waiting → Form.Pending
  | .collection b opened items => .collection b opened (items.map Derivation.form)
  | .quote mark => .quote mark

end Waiting

namespace Growth

/-- The tokens that have been read. -/
def tokens (g : Growth) : List Token :=
  Derivation.tokensOfAll g.done.reverse ++ g.waiting.reverse.flatMap Waiting.tokens

/-- What the reader keeps. -/
def state (g : Growth) : Form.ReadState :=
  ⟨g.waiting.map Waiting.pending, g.done.map Derivation.form⟩

/-- Hand a finished derivation to what waits for it. -/
def deliver (d : Derivation) : List Waiting → List Derivation → Growth
  | [], done => ⟨[], d :: done⟩
  | .quote mark :: waiting, done => deliver (.quote mark d) waiting done
  | .collection b opened items :: waiting, done =>
    ⟨.collection b opened (d :: items) :: waiting, done⟩

/-- The derivation of a collection with the given items. -/
def collect (bracket : Bracket) (opened closed : Position) (items : List Derivation) :
    Option Derivation :=
  match bracket with
  | .round => some (.list opened items closed)
  | .square => some (.vector opened items closed)
  | .curly => (Derivation.pairUp items).map fun entries => .map opened entries closed

/-- Read one token; `none` if no derivation goes on with it. -/
def step (g : Growth) (token : Token) : Option Growth :=
  match token.lexeme with
  | .opening b => some { g with waiting := .collection b token.start [] :: g.waiting }
  | .quote => some { g with waiting := .quote token.start :: g.waiting }
  | .string body => some (deliver (.string body token.start) g.waiting g.done)
  | .atom text => some (deliver (.atom text token.start) g.waiting g.done)
  | .closing b =>
    match g.waiting with
    | .collection expected opened items :: waiting =>
      if b = expected then
        (collect b opened token.start items.reverse).map fun d => deliver d waiting g.done
      else none
    | _ => none

/-! ### What the reader keeps of a growth -/

/-- A derivation is handed to whatever waits for it as the reader hands its form over. -/
theorem state_deliver (d : Derivation) (waiting : List Waiting) (done : List Derivation) :
    (deliver d waiting done).state =
      Form.deliver d.form (waiting.map Waiting.pending) (done.map Derivation.form) := by
  fun_induction deliver d waiting done with
  | case1 => rfl
  | case2 d mark waiting done ih => rw [ih]; rfl
  | case3 => rfl

/-- The items of a bracket make a form as they make a derivation. -/
theorem form_collect (b : Bracket) (opened closed : Position) (items : List Derivation) :
    Form.collect b opened closed (items.map Derivation.form) =
      match collect b opened closed items with
      | some d => .ok d.form
      | none => .error (.atPosition .oddMap opened) := by
  rw [← Derivation.formsOfAll_eq_map]
  cases b with
  | round => rfl
  | square => rfl
  | curly =>
    simp only [Form.collect, collect, Derivation.form_pairUp]
    cases Derivation.pairUp items <;> rfl

/-- The fault with which the reader stops at a token: no derivation goes on with it, or it is a
numeral that is too long. -/
def Stops (g : Growth) (token : Token) (fault : Fault) : Prop :=
  token.tooLong? = none ∧ fault.kind = .reader ∧ g.step token = none ∨
    ∃ digits, token.tooLong? = some digits ∧ fault = { cause := .longNumeral digits }

/-- The reader does what the growth does, and where the growth has no way on, neither has the
reader. It has none either at a numeral that is too long. -/
theorem readToken_state (g : Growth) (token : Token) :
    (∃ g', g.step token = some g' ∧ token.tooLong? = none ∧
        Form.readToken g.state token = .ok g'.state) ∨
      ∃ fault, Form.readToken g.state token = .error fault ∧ g.Stops token fault := by
  obtain ⟨lexeme, start⟩ := token
  cases lexeme with
  | opening b => exact .inl ⟨_, rfl, rfl, rfl⟩
  | quote => exact .inl ⟨_, rfl, rfl, rfl⟩
  | string body => exact .inl ⟨_, rfl, rfl, by rw [state_deliver]; rfl⟩
  | atom text =>
    cases hlong : Constant.tooLong? text with
    | none =>
      refine .inl ⟨_, rfl, hlong, ?_⟩
      rw [state_deliver]
      simp only [Form.readToken, hlong]
      rfl
    | some digits => exact .inr ⟨_, by simp only [Form.readToken, hlong], .inr ⟨digits, hlong, rfl⟩⟩
  | closing b =>
    obtain ⟨waiting, done⟩ := g
    cases waiting with
    | nil => exact .inr ⟨_, rfl, .inl ⟨rfl, rfl, rfl⟩⟩
    | cons first waiting =>
      cases first with
      | quote mark => exact .inr ⟨_, rfl, .inl ⟨rfl, rfl, rfl⟩⟩
      | collection expected opened items =>
        by_cases hb : b = expected
        · subst hb
          have hcollect := form_collect b opened start items.reverse
          simp only [Stops, step, state, Form.readToken, List.map_cons, Waiting.pending, if_true,
            ← List.map_reverse, hcollect]
          cases collect b opened start items.reverse with
          | none => exact .inr ⟨_, rfl, .inl ⟨rfl, rfl, rfl⟩⟩
          | some d =>
            exact .inl ⟨_, rfl, rfl, congrArg Except.ok (state_deliver d waiting done).symm⟩
        · simp only [Stops, step, state, Form.readToken, List.map_cons, Waiting.pending, hb,
            if_false]
          exact .inr ⟨_, rfl, .inl ⟨rfl, rfl, trivial⟩⟩

/-! ### A growth holds the tokens it was fed -/

theorem tokens_deliver (d : Derivation) (waiting : List Waiting) (done : List Derivation) :
    (deliver d waiting done).tokens = tokens ⟨waiting, done⟩ ++ d.tokens := by
  fun_induction deliver d waiting done with
  | case1 => simp [tokens, Derivation.tokensOfAll_eq_flatMap]
  | case2 d mark waiting done ih =>
    rw [ih]
    simp [tokens, Waiting.tokens, Derivation.tokens]
  | case3 => simp [tokens, Waiting.tokens, Derivation.tokensOfAll_eq_flatMap]

theorem tokens_collect {b : Bracket} {opened closed : Position} {items : List Derivation}
    {d : Derivation} (h : collect b opened closed items = some d) :
    d.tokens = ⟨.opening b, opened⟩ :: Derivation.tokensOfAll items ++ [⟨.closing b, closed⟩] := by
  cases b with
  | round =>
    obtain rfl := Option.some.inj h
    rfl
  | square =>
    obtain rfl := Option.some.inj h
    rfl
  | curly =>
    obtain ⟨entries, hpairs, rfl⟩ := Option.map_eq_some_iff.1 h
    rw [Derivation.tokens, Derivation.tokensOfEntries_of_pairUp hpairs]

/-- One step adds its token to those that the growth holds. -/
theorem tokens_step {g g' : Growth} {token : Token} (h : g.step token = some g') :
    g'.tokens = g.tokens ++ [token] := by
  obtain ⟨lexeme, start⟩ := token
  cases lexeme with
  | opening b =>
    obtain rfl := Option.some.inj h
    simp [tokens, Waiting.tokens, Derivation.tokensOfAll]
  | quote =>
    obtain rfl := Option.some.inj h
    simp [tokens, Waiting.tokens]
  | string body =>
    obtain rfl := Option.some.inj h
    exact tokens_deliver _ _ _
  | atom text =>
    obtain rfl := Option.some.inj h
    exact tokens_deliver _ _ _
  | closing b =>
    obtain ⟨waiting, done⟩ := g
    cases waiting with
    | nil => exact absurd h (by simp [step])
    | cons first waiting =>
      cases first with
      | quote mark => exact absurd h (by simp [step])
      | collection expected opened items =>
        by_cases hb : b = expected
        · subst hb
          simp only [step, if_true] at h
          obtain ⟨d, hd, rfl⟩ := Option.map_eq_some_iff.1 h
          rw [tokens_deliver, tokens_collect hd]
          simp [tokens, Waiting.tokens]
        · exact absurd h (by simp [step, hb])

/-- A growth holds the tokens that it was fed, in order. -/
theorem tokens_foldlM {g g' : Growth} {row : List Token} (h : row.foldlM step g = some g') :
    g'.tokens = g.tokens ++ row := by
  induction row generalizing g with
  | nil =>
    obtain rfl := Option.some.inj h
    simp
  | cons token row ih =>
    obtain ⟨next, hstep, hrest⟩ := Option.bind_eq_some_iff.1 h
    rw [ih hrest, tokens_step hstep, List.append_assoc, List.singleton_append]

/-! ### The tokens of a derivation hand it over -/

theorem collect_rowOf (opened closed : Position) (entries : List (Derivation × Derivation)) :
    collect .curly opened closed (Derivation.rowOf entries)
      = some (.map opened entries closed) := by
  simp [collect, Derivation.pairUp_rowOf]

/-- The items of a collection between its brackets. -/
theorem foldlM_bracketed {b : Bracket} {opened closed : Position} {inner : List Token}
    {items : List Derivation} {d : Derivation} {waiting : List Waiting} {done : List Derivation}
    (hinner : inner.foldlM step ⟨.collection b opened [] :: waiting, done⟩ =
      some ⟨.collection b opened items.reverse :: waiting, done⟩)
    (hd : collect b opened closed items = some d) :
    List.foldlM step ⟨waiting, done⟩ (⟨.opening b, opened⟩ :: inner ++ [⟨.closing b, closed⟩]) =
      some (deliver d waiting done) := by
  have hopen : step ⟨waiting, done⟩ ⟨.opening b, opened⟩ =
      some ⟨.collection b opened [] :: waiting, done⟩ := rfl
  have hclose : step ⟨.collection b opened items.reverse :: waiting, done⟩ ⟨.closing b, closed⟩ =
      some (deliver d waiting done) := by simp [step, hd]
  simp [List.foldlM_append, hopen, hinner, hclose]

mutual

/-- Fed with the tokens of a derivation, a growth has it handed over at the end, by recursion on the
derivation. -/
theorem foldlM_tokens (waiting : List Waiting) (done : List Derivation) :
    ∀ d : Derivation, d.tokens.foldlM step ⟨waiting, done⟩ = some (deliver d waiting done)
  | .atom text start => rfl
  | .string body start => rfl
  | .quote mark quoted => foldlM_tokens (.quote mark :: waiting) done quoted
  | .list opened items closed => by
    have hitems := foldlM_tokensOfAll .round opened [] waiting done items
    rw [List.append_nil] at hitems
    exact foldlM_bracketed hitems rfl
  | .vector opened items closed => by
    have hitems := foldlM_tokensOfAll .square opened [] waiting done items
    rw [List.append_nil] at hitems
    exact foldlM_bracketed hitems rfl
  | .map opened entries closed => by
    have hentries := foldlM_tokensOfEntries opened [] waiting done entries
    rw [List.append_nil] at hentries
    exact foldlM_bracketed hentries (collect_rowOf opened closed entries)

theorem foldlM_tokensOfAll (b : Bracket) (opened : Position) (items : List Derivation)
    (waiting : List Waiting) (done : List Derivation) :
    ∀ ds : List Derivation,
      (Derivation.tokensOfAll ds).foldlM step ⟨.collection b opened items :: waiting, done⟩ =
        some ⟨.collection b opened (ds.reverse ++ items) :: waiting, done⟩
  | [] => rfl
  | d :: ds => by
    rw [Derivation.tokensOfAll, List.foldlM_append, foldlM_tokens _ _ d]
    have hds := foldlM_tokensOfAll b opened (d :: items) waiting done ds
    simpa [deliver] using hds

theorem foldlM_tokensOfEntries (opened : Position) (items : List Derivation)
    (waiting : List Waiting) (done : List Derivation) :
    ∀ entries : List (Derivation × Derivation),
      (Derivation.tokensOfEntries entries).foldlM step
          ⟨.collection .curly opened items :: waiting, done⟩ =
        some ⟨.collection .curly opened ((Derivation.rowOf entries).reverse ++ items) :: waiting,
          done⟩
  | [] => rfl
  | (key, value) :: entries => by
    rw [Derivation.tokensOfEntries, List.foldlM_append, List.foldlM_append, foldlM_tokens _ _ key]
    have hvalue := foldlM_tokens (.collection .curly opened (key :: items) :: waiting) done value
    have hrest := foldlM_tokensOfEntries opened (value :: key :: items) waiting done entries
    simpa [deliver, hvalue, Derivation.rowOf] using hrest

end

/-- A row of derivations is what its tokens grow into. -/
theorem foldlM_row (done : List Derivation) (ds : List Derivation) :
    (Derivation.tokensOfAll ds).foldlM step ⟨[], done⟩ = some ⟨[], ds.reverse ++ done⟩ := by
  induction ds generalizing done with
  | nil => rfl
  | cons d ds ih =>
    rw [Derivation.tokensOfAll, List.foldlM_append, foldlM_tokens]
    simpa [deliver] using ih (d :: done)

/-- The tokens determine the derivations: feeding them gives these back. -/
theorem tokensOfAll_injective {ds ds' : List Derivation}
    (h : Derivation.tokensOfAll ds = Derivation.tokensOfAll ds') : ds = ds' := by
  have hgrown := foldlM_row [] ds
  rw [h, foldlM_row [] ds'] at hgrown
  simpa using hgrown.symm

/-! ### What is open can be finished -/

theorem length_deliver (d : Derivation) (waiting : List Waiting) (done : List Derivation) :
    (deliver d waiting done).waiting.length ≤ waiting.length := by
  fun_induction deliver d waiting done with
  | case1 => simp
  | case2 d mark waiting done ih => exact Nat.le_succ_of_le ih
  | case3 => simp

/-- A collection can be closed, a map at the latest after one more item. -/
theorem exists_collect (b : Bracket) (opened closed : Position) (items : List Derivation) :
    (∃ d, collect b opened closed items = some d) ∨
      ∀ extra, ∃ d, collect b opened closed (items ++ [extra]) = some d := by
  cases b with
  | round => exact .inl ⟨_, rfl⟩
  | square => exact .inl ⟨_, rfl⟩
  | curly =>
    simp only [collect, Option.map_eq_some_iff]
    fun_induction Derivation.pairUp items with
    | case1 => exact .inl ⟨_, _, rfl, rfl⟩
    | case2 item => exact .inr fun extra => ⟨_, _, rfl, rfl⟩
    | case3 key value rest ih =>
      rcases ih with ⟨_, entries, hrest, _⟩ | hrest
      · exact .inl ⟨_, _, by rw [hrest]; rfl, rfl⟩
      · refine .inr fun extra => ?_
        obtain ⟨_, entries, hextra, _⟩ := hrest extra
        exact ⟨_, (key, value) :: entries, by simp [Derivation.pairUp, hextra], rfl⟩

/-- Whatever is open, some tokens finish it. -/
theorem exists_completion (g : Growth) :
    ∃ (row : List Token) (done : List Derivation), row.foldlM step g = some ⟨[], done⟩ := by
  obtain ⟨waiting, done⟩ := g
  match waiting with
  | [] => exact ⟨[], done, rfl⟩
  | .quote mark :: waiting =>
    -- any atom is enough for a quote mark
    have hlength := length_deliver (.quote mark (.atom [] mark)) waiting done
    obtain ⟨row, done', hrow⟩ := exists_completion
      (deliver (.quote mark (.atom [] mark)) waiting done)
    exact ⟨⟨.atom [], mark⟩ :: row, done', hrow⟩
  | .collection b opened items :: waiting =>
    rcases exists_collect b opened opened items.reverse with ⟨d, hd⟩ | hextra
    · have hlength := length_deliver d waiting done
      obtain ⟨row, done', hrow⟩ := exists_completion (deliver d waiting done)
      refine ⟨⟨.closing b, opened⟩ :: row, done', ?_⟩
      have hclose : step ⟨.collection b opened items :: waiting, done⟩ ⟨.closing b, opened⟩ =
          some (deliver d waiting done) := by simp [step, hd]
      simp [hclose, hrow]
    · obtain ⟨d, hd⟩ := hextra (.atom [] opened)
      have hlength := length_deliver d waiting done
      obtain ⟨row, done', hrow⟩ := exists_completion (deliver d waiting done)
      refine ⟨⟨.atom [], opened⟩ :: ⟨.closing b, opened⟩ :: row, done', ?_⟩
      have hitem : step ⟨.collection b opened items :: waiting, done⟩ ⟨.atom [], opened⟩ =
          some ⟨.collection b opened (.atom [] opened :: items) :: waiting, done⟩ := rfl
      have hclose : step ⟨.collection b opened (.atom [] opened :: items) :: waiting, done⟩
          ⟨.closing b, opened⟩ = some (deliver d waiting done) := by simp [step, hd]
      simp [hitem, hclose, hrow]
termination_by g.waiting.length

end Growth

/-- Can the tokens be followed by others so that all of them are derived? -/
def Derivation.Viable (row : List Token) : Prop :=
  ∃ rest ds, Derivation.tokensOfAll ds = row ++ rest

namespace Growth

/-- A row that a growth takes in can be continued to the tokens of derivations. -/
theorem viable_of_foldlM {row : List Token} {g : Growth} (h : row.foldlM step ⟨[], []⟩ = some g) :
    Derivation.Viable row := by
  obtain ⟨rest, done, hrest⟩ := exists_completion g
  have hall : (row ++ rest).foldlM step ⟨[], []⟩ = some ⟨[], done⟩ := by
    simpa [List.foldlM_append, h] using hrest
  refine ⟨rest, done.reverse, ?_⟩
  simpa [tokens, Derivation.tokensOfAll] using tokens_foldlM hall

/-- The beginning of the tokens of derivations is taken in. -/
theorem foldlM_of_viable {row : List Token} (h : Derivation.Viable row) :
    ∃ g, row.foldlM step ⟨[], []⟩ = some g := by
  obtain ⟨rest, ds, hds⟩ := h
  have hall := foldlM_row [] ds
  rw [hds, List.foldlM_append] at hall
  obtain ⟨g, hrow, _⟩ := Option.bind_eq_some_iff.1 hall
  exact ⟨g, hrow⟩

/-! ### Reading a row of tokens -/

/-- The reader goes along with the growth, up to the first token that it stops at, whatever follows
there. -/
theorem foldlM_readToken (g : Growth) (row : List Token) :
    (∃ g', row.foldlM step g = some g' ∧ (∀ t ∈ row, t.tooLong? = none) ∧
        row.foldlM Form.readToken g.state = .ok g'.state) ∨
      ∃ before token after g' fault, row = before ++ token :: after ∧
        before.foldlM step g = some g' ∧ (∀ t ∈ before, t.tooLong? = none) ∧
        g'.Stops token fault ∧
        ∀ rest, (before ++ token :: rest).foldlM Form.readToken g.state = .error fault := by
  -- the growth goes along, so the induction has to start from any of them
  induction row generalizing g with
  | nil => exact .inl ⟨g, rfl, by simp, rfl⟩
  | cons token row ih =>
    rcases readToken_state g token with ⟨next, hstep, hshort, hread⟩ | ⟨fault, hread, hstops⟩
    · rcases ih next with ⟨g', hgrow, hall, hrow⟩ |
        ⟨before, bad, after, g', fault, rfl, hgrow, hall, hstops, hrow⟩
      · refine .inl ⟨g', by simp [hstep, hgrow], List.forall_mem_cons.2 ⟨hshort, hall⟩, ?_⟩
        rw [List.foldlM_cons, hread]
        exact hrow
      · refine .inr ⟨token :: before, bad, after, g', fault, rfl, by simp [hstep, hgrow],
          List.forall_mem_cons.2 ⟨hshort, hall⟩, hstops, fun rest => ?_⟩
        rw [List.cons_append, List.foldlM_cons, hread]
        exact hrow rest
    · refine .inr ⟨[], token, row, g, fault, rfl, rfl, by simp, hstops, fun rest => ?_⟩
      rw [List.nil_append, List.foldlM_cons, hread]
      rfl

/-- At the end of a source nothing may wait. -/
theorem readEnd_state (g : Growth) :
    (g.waiting = [] ∧ Form.readEnd g.state = .ok (Derivation.formsOfAll g.done.reverse)) ∨
      (g.waiting ≠ [] ∧ ∃ fault, Form.readEnd g.state = .error fault ∧
        fault.cause.kind = .reader) := by
  obtain ⟨waiting, done⟩ := g
  cases waiting with
  | nil =>
    refine .inl ⟨rfl, ?_⟩
    rw [Derivation.formsOfAll_eq_map, List.map_reverse]
    rfl
  | cons first waiting => cases first <;> exact .inr ⟨by simp, _, rfl, rfl⟩

end Growth

namespace Form

open Derivation (tokensOfAll formsOfAll Viable)

/-- The tokens of derivations are read if no numeral among them is too long. -/
theorem ofTokens_tokensOfAll (ds : List Derivation)
    (hshort : ∀ t ∈ tokensOfAll ds, t.tooLong? = none) :
    ofTokens (tokensOfAll ds) = .ok (formsOfAll ds) := by
  have hgrow := Growth.foldlM_row [] ds
  rw [List.append_nil] at hgrow
  rcases Growth.foldlM_readToken ⟨[], []⟩ (tokensOfAll ds) with
    ⟨g, hg, _, hread⟩ | ⟨before, token, after, g, fault, hsplit, hbefore, _, hstops, _⟩
  · obtain rfl := Option.some.inj (hg.symm.trans hgrow)
    rcases Growth.readEnd_state ⟨[], ds.reverse⟩ with ⟨_, hend⟩ | ⟨hopen, _⟩
    · have hread : (tokensOfAll ds).foldlM readToken ⟨[], []⟩ = .ok _ := hread
      rw [List.reverse_reverse] at hend
      rw [ofTokens, hread]
      exact hend
    · exact absurd rfl hopen
  · -- the growth takes in all of these tokens, so the reader stops at none of them
    rw [hsplit, List.foldlM_append, hbefore] at hgrow
    rcases hstops with ⟨_, _, hnone⟩ | ⟨digits, hlong, _⟩
    · simp [hnone] at hgrow
    · have htoken := hshort token (by simp [hsplit])
      simp [htoken] at hlong

/-- A row that is not derived, or has a numeral that is too long, is refused: at the first such
numeral or the first token that no derivation goes on with or, if there is none, at the end. -/
theorem ofTokens_refused {tokens : List Token}
    (h : ¬∃ ds, tokensOfAll ds = tokens ∧ ∀ t ∈ tokens, t.tooLong? = none) :
    ∃ fault, ofTokens tokens = .error fault ∧
      (fault.kind = .reader ∧ Viable tokens ∧ (∀ t ∈ tokens, t.tooLong? = none) ∨
        ∃ before token after, tokens = before ++ token :: after ∧ Viable before ∧
          (∀ t ∈ before, t.tooLong? = none) ∧
          (token.tooLong? = none ∧ fault.kind = .reader ∧ ¬Viable (before ++ [token]) ∨
            ∃ digits, token.tooLong? = some digits ∧ fault = { cause := .longNumeral digits }) ∧
          ∀ rest, ofTokens (before ++ token :: rest) = .error fault) := by
  rcases Growth.foldlM_readToken ⟨[], []⟩ tokens with ⟨g, hg, hall, hread⟩ |
    ⟨before, token, after, g, fault, rfl, hbefore, hall, hstops, hread⟩
  · have hread : tokens.foldlM readToken ⟨[], []⟩ = .ok _ := hread
    rcases Growth.readEnd_state g with ⟨hdone, _⟩ | ⟨_, fault, hend, hkind⟩
    · -- nothing waits at the end, so the growth has derived the row
      refine absurd ⟨g.done.reverse, ?_, hall⟩ h
      simpa [Growth.tokens, hdone, tokensOfAll] using Growth.tokens_foldlM hg
    · refine ⟨fault, ?_, .inl ⟨hkind, Growth.viable_of_foldlM hg, hall⟩⟩
      rw [ofTokens, hread]
      exact hend
  · have hfail (rest : List Token) : ofTokens (before ++ token :: rest) = .error fault := by
      have hrest : (before ++ token :: rest).foldlM readToken ⟨[], []⟩ = .error fault := hread rest
      rw [ofTokens, hrest]
      rfl
    refine ⟨fault, hfail after, .inr ⟨before, token, after, rfl,
      Growth.viable_of_foldlM hbefore, hall, ?_, hfail⟩⟩
    rcases hstops with ⟨hshort, hkind, hnone⟩ | hlong
    · -- a growth would take in the token if the row could go on with it
      refine .inl ⟨hshort, hkind, fun hviable => ?_⟩
      obtain ⟨g', hg'⟩ := Growth.foldlM_of_viable hviable
      simp [List.foldlM_append, hbefore, hnone] at hg'
    · exact .inr hlong

/-- A row of tokens is read exactly if it is derived and none of them is too long. -/
theorem ofTokens_eq_ok_iff {tokens : List Token} {forms : List Form} :
    ofTokens tokens = .ok forms ↔
      ∃ ds, tokensOfAll ds = tokens ∧ (∀ t ∈ tokens, t.tooLong? = none) ∧
        formsOfAll ds = forms := by
  constructor
  · intro hforms
    by_cases hderived : ∃ ds, tokensOfAll ds = tokens ∧ ∀ t ∈ tokens, t.tooLong? = none
    · obtain ⟨ds, rfl, hshort⟩ := hderived
      exact ⟨ds, rfl, hshort, Except.ok.inj ((ofTokens_tokensOfAll ds hshort).symm.trans hforms)⟩
    · obtain ⟨fault, hfault, _⟩ := ofTokens_refused hderived
      exact absurd (hfault.symm.trans hforms) (by simp)
  · rintro ⟨ds, rfl, hshort, rfl⟩
    exact ofTokens_tokensOfAll ds hshort

/-- What the scanner refuses is unreadable. -/
theorem kind_of_scan_error {source : String} {fault : Fault}
    (h : Token.scan source = .error fault) :
    fault.kind = .reader := by
  rcases Token.scan_cases source with ⟨_, _, _, hok⟩ | ⟨_, _, _, _, _, herror⟩
  · exact absurd (h.symm.trans hok) (by simp)
  · obtain rfl := Except.error.inj (h.symm.trans herror)
    rfl

theorem readAll_of_scan {source : String} {tokens : List Token}
    (hscan : Token.scan source = .ok tokens) : readAll source = ofTokens tokens := by
  rw [readAll, hscan]
  rfl

theorem readAll_of_scan_error {source : String} {fault : Fault}
    (hscan : Token.scan source = .error fault) : readAll source = .error fault := by
  rw [readAll, hscan]
  rfl

/-- A source is refused as unreadable, or because it has a numeral that is too long. -/
theorem readAll_faults {source : String} {fault : Fault} (h : readAll source = .error fault) :
    fault.kind = .reader ∨
      ∃ tokens, Token.scan source = .ok tokens ∧ ∃ token ∈ tokens, ∃ digits,
        token.tooLong? = some digits ∧ fault = { cause := .longNumeral digits } := by
  cases hscan : Token.scan source with
  | error first =>
    obtain rfl := Except.error.inj ((readAll_of_scan_error hscan).symm.trans h)
    exact .inl (kind_of_scan_error hscan)
  | ok tokens =>
    rw [readAll_of_scan hscan] at h
    by_cases hderived : ∃ ds, tokensOfAll ds = tokens ∧ ∀ t ∈ tokens, t.tooLong? = none
    · obtain ⟨ds, rfl, hshort⟩ := hderived
      exact absurd ((ofTokens_tokensOfAll ds hshort).symm.trans h) (by simp)
    · obtain ⟨first, hfirst, hwhy⟩ := ofTokens_refused hderived
      obtain rfl := Except.error.inj (hfirst.symm.trans h)
      rcases hwhy with ⟨hkind, _⟩ | ⟨before, token, after, rfl, _, _, ⟨_, hkind, _⟩ | hlong, _⟩
      · exact .inl hkind
      · exact .inl hkind
      · exact .inr ⟨_, rfl, token, by simp, hlong⟩

/-- **The reader accepts exactly its grammar, up to the length of numerals.** A source is read
exactly if it is scanned, its tokens are derived and no decimal integer among them has too many
digits; the forms are those of the derivation, and no other row of derivations has these tokens.
Every other source is refused, as unreadable or with the number of digits of such an integer. A
refused row of tokens is viable, and then it is its end that is reported, or the fault is settled by
the first token that makes it unviable or is too long, whatever follows. -/
theorem readAll_accepts_grammar (source : String) (tokens : List Token) :
    (∀ forms, readAll source = .ok forms ↔
      ∃ ds, Token.scan source = .ok (tokensOfAll ds) ∧
        (∀ t ∈ tokensOfAll ds, t.tooLong? = none) ∧ formsOfAll ds = forms) ∧
    (∀ fault, readAll source = .error fault →
      fault.kind = .reader ∨
        ∃ row, Token.scan source = .ok row ∧ ∃ token ∈ row, ∃ digits,
          token.tooLong? = some digits ∧ fault = { cause := .longNumeral digits }) ∧
    (∀ ds ds', tokensOfAll ds = tokensOfAll ds' → ds = ds') ∧
    (∀ ds, (∀ t ∈ tokensOfAll ds, t.tooLong? = none) →
      ofTokens (tokensOfAll ds) = .ok (formsOfAll ds)) ∧
    ((¬∃ ds, tokensOfAll ds = tokens ∧ ∀ t ∈ tokens, t.tooLong? = none) →
      ∃ fault, ofTokens tokens = .error fault ∧
        (fault.kind = .reader ∧ Viable tokens ∧ (∀ t ∈ tokens, t.tooLong? = none) ∨
          ∃ before token after, tokens = before ++ token :: after ∧ Viable before ∧
            (∀ t ∈ before, t.tooLong? = none) ∧
            (token.tooLong? = none ∧ fault.kind = .reader ∧ ¬Viable (before ++ [token]) ∨
              ∃ digits, token.tooLong? = some digits ∧ fault = { cause := .longNumeral digits }) ∧
            ∀ rest, ofTokens (before ++ token :: rest) = .error fault)) := by
  refine ⟨?_, fun _ h => readAll_faults h, fun _ _ h => Growth.tokensOfAll_injective h,
    ofTokens_tokensOfAll, ofTokens_refused⟩
  intro forms
  cases hscan : Token.scan source with
  | error fault => simp [readAll_of_scan_error hscan]
  | ok row =>
    rw [readAll_of_scan hscan, ofTokens_eq_ok_iff]
    constructor
    · rintro ⟨ds, rfl, hshort, hforms⟩
      exact ⟨ds, rfl, hshort, hforms⟩
    · rintro ⟨ds, hds, hshort, hforms⟩
      obtain rfl := Except.ok.inj hds
      exact ⟨ds, rfl, hshort, hforms⟩

/-- A numeral with one digit too many. -/
def longNumeral : Token := ⟨.atom (List.replicate (digitLimit + 1) '1'), ⟨1, 0⟩⟩

/-- A quote mark quotes the form behind it, a closing bracket is none, and a numeral can be too
long. -/
theorem readAll_accepts_grammar_quote :
    (∃ ds, Token.scan "('x [])" = .ok (tokensOfAll ds)) ∧
      (∃ fault, readAll "(')" = .error fault) ∧
      ∃ fault, ofTokens [longNumeral] = .error fault ∧ fault.kind = .digits := by
  obtain ⟨ds, hscan, _⟩ := ((readAll_accepts_grammar "('x [])" []).1 _).1 (by rfl)
  have hlong : longNumeral.tooLong? = some (digitLimit + 1) := by decide +kernel
  have hnot : ¬∀ t ∈ [longNumeral], t.tooLong? = none := by simp [hlong]
  obtain ⟨fault, hfault, hwhy⟩ := (readAll_accepts_grammar "" [longNumeral]).2.2.2.2
    fun ⟨_, _, hshort⟩ => hnot hshort
  refine ⟨⟨ds, hscan⟩, ⟨_, rfl⟩, fault, hfault, ?_⟩
  rcases hwhy with ⟨_, _, hshort⟩ | ⟨before, token, after, hsplit, _, _, hstop, _⟩
  · exact absurd hshort hnot
  · cases before with
    | cons t before => simp at hsplit
    | nil =>
      obtain ⟨rfl, -⟩ := List.cons.inj hsplit
      rcases hstop with ⟨hshort, _⟩ | ⟨digits, _, rfl⟩
      · simp [hlong] at hshort
      · rfl

end Form

end TailLisp
