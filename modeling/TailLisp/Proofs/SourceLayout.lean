import TailLisp.Token

/-!
# TailLisp.Proofs.SourceLayout

**A source text is a row of pieces.** A piece is a separating character, a comment or a token, and
`Piece.Fits` says which text may follow it: an atom is as long as it can be, a comment runs to the
end of its line. The scanner finds the pieces of a text and reports its tokens, each at the place
where it stands; the only texts that it refuses have a string that is never closed
(`Token.scan_splits_source`).

The scanner works character by character. One lemma for each kind of piece says that it is between
tokens again when the piece is over, so a row of pieces is scanned piece by piece
(`scanFrom_texts`). Every text splits into pieces up to its end or to an open quote
(`exists_pieces`).
-/

namespace TailLisp

/-- The place behind a text: a line for each line feed, and a column for each character after the
last one. -/
def Position.after (before : List Char) : Position :=
  ⟨1 + before.count '\n', (before.reverse.takeWhile (· ≠ '\n')).length⟩

theorem Position.after_append_singleton (before : List Char) (c : Char) :
    Position.after (before ++ [c]) = (Position.after before).advance c := by
  by_cases hc : c = '\n'
  · subst hc
    simp [after, advance, Nat.add_assoc]
  · simp [after, advance, hc]

theorem Position.foldl_advance (before text : List Char) :
    text.foldl Position.advance (.after before) = .after (before ++ text) := by
  induction text generalizing before with
  | nil => simp
  | cons c text ih =>
    rw [List.foldl_cons, ← after_append_singleton, ih, List.append_assoc, List.singleton_append]

/-! ### Pieces -/

/-- Characters that can stand between the quotes of a string: a quote only after a backslash, and
every backslash with the character that it escapes. -/
inductive IsStringBody : List Char → Prop
  | nil : IsStringBody []
  | plain {c : Char} {cs : List Char} (hquote : c ≠ '"') (hescape : c ≠ '\\')
      (rest : IsStringBody cs) : IsStringBody (c :: cs)
  | escaped (c : Char) {cs : List Char} (rest : IsStringBody cs) : IsStringBody ('\\' :: c :: cs)

/-- A text in which a string that was opened before it is closed. -/
def ClosesString (text : List Char) : Prop :=
  ∃ body rest, IsStringBody body ∧ text = body ++ '"' :: rest

/-- A piece of a source text. -/
inductive Piece where
  /-- A blank or a comma. -/
  | separator (c : Char)
  /-- A semicolon and what follows it on its line. -/
  | comment (body : List Char)
  | token (lexeme : Lexeme)

namespace Piece

/-- The characters of a piece. -/
def text : Piece → List Char
  | .separator c => [c]
  | .comment body => ';' :: body
  | .token lexeme => lexeme.text

/-- The characters of a row of pieces. -/
def texts (pieces : List Piece) : List Char := pieces.flatMap text

/-- The piece is well formed, and it is over where the text `next` follows it. -/
def Fits : Piece → List Char → Prop
  | .separator c, _ => Token.isSeparator c = true
  | .comment body, next => '\n' ∉ body ∧ ∀ c ∈ next.head?, c = '\n'
  | .token (.atom text), next =>
    text ≠ [] ∧ (∀ c ∈ text, Token.isAtomChar c = true) ∧
      ∀ c ∈ next.head?, Token.isAtomChar c = false
  | .token (.string body), _ => IsStringBody body
  | .token _, _ => True

/-- Each piece fits where it stands, and the text `next` follows the last one. -/
def AllFit : List Piece → List Char → Prop
  | [], _ => True
  | piece :: pieces, next => piece.Fits (texts pieces ++ next) ∧ AllFit pieces next

/-- The tokens among pieces that stand behind the text `before`. -/
def tokens (before : List Char) : List Piece → List Token
  | [] => []
  | .token lexeme :: pieces =>
    ⟨lexeme, .after before⟩ :: tokens (before ++ lexeme.text) pieces
  | piece :: pieces => tokens (before ++ piece.text) pieces

@[simp] theorem texts_nil : texts [] = [] := rfl

@[simp] theorem texts_cons (piece : Piece) (pieces : List Piece) :
    texts (piece :: pieces) = piece.text ++ texts pieces := rfl

theorem tokens_cons (before : List Char) (piece : Piece) (pieces : List Piece) :
    tokens before (piece :: pieces) =
      tokens before [piece] ++ tokens (before ++ piece.text) pieces := by
  cases piece <;> rfl

/-- A token fits wherever no character follows that could go on with an atom. -/
theorem Fits.of_ends {lexeme : Lexeme} {next other : List Char}
    (h : (Piece.token lexeme).Fits next)
    (hother : ∀ c ∈ other.head?, Token.isAtomChar c = false) : (Piece.token lexeme).Fits other := by
  cases lexeme with
  | atom text => exact ⟨h.1, h.2.1, hother⟩
  | string body => exact h
  | opening b => trivial
  | closing b => trivial
  | quote => trivial

/-- The lexeme of a piece that is a token. -/
def lexeme? : Piece → Option Lexeme
  | .token lexeme => some lexeme
  | _ => none

theorem map_lexeme_tokens (before : List Char) (pieces : List Piece) :
    (tokens before pieces).map (·.lexeme) = pieces.filterMap lexeme? := by
  induction pieces generalizing before with
  | nil => rfl
  | cons piece pieces ih => cases piece <;> simp [tokens, List.filterMap_cons, lexeme?, ih]

end Piece

namespace Token

/-! ### Scanning one piece -/

section Scan

variable {p : Position} {c : Char} {rest : List Char}

/-- The scanner takes one character and goes on in the state that it is in then. -/
theorem scanFrom_cons {state next : ScanState} {found : List Token}
    (h : step state p c = .ok (found, next)) :
    scanFrom state p (c :: rest) = (found ++ ·) <$> scanFrom next (p.advance c) rest := by
  simp only [scanFrom, h]
  rfl

/-- Blanks and commas are skipped. -/
theorem scanFrom_separator (hc : isSeparator c = true) :
    scanFrom .between p (c :: rest) = scanFrom .between (p.advance c) rest := by
  have hstep : step .between p c = .ok ([], .between) := by simp [step, enter, hc]
  simp [scanFrom_cons hstep]

/-- A comment is over at the end of its line, where nothing is lost by being between tokens. -/
theorem scanFrom_comment {body : List Char} (hbody : '\n' ∉ body)
    (hrest : ∀ c ∈ rest.head?, c = '\n') :
    scanFrom .comment p (body ++ rest) =
      scanFrom .between (body.foldl Position.advance p) rest := by
  induction body generalizing p with
  | nil =>
    cases rest with
    | nil => rfl
    | cons c rest =>
      obtain rfl : c = '\n' := hrest c rfl
      have hstep : step .comment p '\n' = .ok ([], .between) := rfl
      rw [List.nil_append, scanFrom_cons hstep, scanFrom_separator (by decide)]
      simp
  | cons c body ih =>
    rw [List.mem_cons, not_or] at hbody
    have hstep : step .comment p c = .ok ([], .comment) := by simp [step, Ne.symm hbody.1]
    rw [List.cons_append, scanFrom_cons hstep, ih hbody.2]
    simp

/-- An atom goes as far as characters of atoms do. -/
theorem scanFrom_atom {start : Position} {read text : List Char}
    (htext : ∀ c ∈ text, isAtomChar c = true) (hrest : ∀ c ∈ rest.head?, isAtomChar c = false) :
    scanFrom (.atom start read) p (text ++ rest) =
      (⟨.atom (read.reverse ++ text), start⟩ :: ·) <$>
        scanFrom .between (text.foldl Position.advance p) rest := by
  induction text generalizing p read with
  | nil =>
    cases rest with
    | nil =>
      simp only [List.append_nil, List.foldl_nil]
      rfl
    | cons c rest =>
      have hc : isAtomChar c = false := hrest c rfl
      simp only [List.nil_append, List.append_nil, List.foldl_nil, scanFrom, step, hc]
      -- the character ends the atom and is then entered as it would be between tokens
      cases enter p c with
      | error fault => rfl
      | ok next => cases scanFrom next.2 (p.advance c) rest <;> simp <;> rfl
  | cons c text ih =>
    rw [List.forall_mem_cons] at htext
    have hstep : step (.atom start read) p c = .ok ([], .atom start (c :: read)) := by
      simp [step, htext.1]
    rw [List.cons_append, scanFrom_cons hstep, ih htext.2]
    simp

/-- Inside of a string the scanner keeps all characters, escapes included. -/
theorem scanFrom_string {start : Position} {read body : List Char} (hbody : IsStringBody body) :
    scanFrom (.string start read) p (body ++ rest) =
      scanFrom (.string start (body.reverse ++ read)) (body.foldl Position.advance p) rest := by
  induction hbody generalizing p read with
  | nil => rfl
  | @plain c cs hquote hescape _ ih =>
    have hstep : step (.string start read) p c = .ok ([], .string start (c :: read)) := by
      simp [step, hquote, hescape]
    rw [List.cons_append, scanFrom_cons hstep, ih]
    simp
  | @escaped c cs _ ih =>
    have hstep : step (.string start read) p '\\' = .ok ([], .escape start ('\\' :: read)) := by
      simp [step]
    have hnext (q : Position) : step (.escape start ('\\' :: read)) q c =
        .ok ([], .string start (c :: '\\' :: read)) := rfl
    rw [List.cons_append, List.cons_append, scanFrom_cons hstep, scanFrom_cons (hnext _), ih]
    simp

/-- A character of an atom is of no other use. -/
theorem enter_atomChar (hc : isAtomChar c = true) : enter p c = .ok ([], .atom p [c]) := by
  have hchar : Text.isBlank c = false ∧ c ≠ ',' ∧ c ≠ ';' ∧ c ≠ '(' ∧ c ≠ ')' ∧ c ≠ '[' ∧ c ≠ ']' ∧
      c ≠ '\x7b' ∧ c ≠ '\x7d' ∧ c ≠ '"' ∧ c ≠ '\'' := by
    simpa [isAtomChar] using hc
  simp [enter, isSeparator, Bracket.ofOpener?, Bracket.ofCloser?, hchar, hc]

/-- A lexeme is scanned where it begins, and the scanner is between tokens after it. -/
theorem scanFrom_lexeme {lexeme : Lexeme} (h : (Piece.token lexeme).Fits rest) :
    scanFrom .between p (lexeme.text ++ rest) =
      (⟨lexeme, p⟩ :: ·) <$> scanFrom .between (lexeme.text.foldl Position.advance p) rest := by
  cases lexeme with
  | opening b =>
    have hstep : step .between p b.opener = .ok ([⟨.opening b, p⟩], .between) := by cases b <;> rfl
    exact scanFrom_cons hstep
  | closing b =>
    have hstep : step .between p b.closer = .ok ([⟨.closing b, p⟩], .between) := by cases b <;> rfl
    exact scanFrom_cons hstep
  | quote =>
    have hstep : step .between p '\'' = .ok ([⟨.quote, p⟩], .between) := rfl
    exact scanFrom_cons hstep
  | string body =>
    have hstep : step .between p '"' = .ok ([], .string p []) := rfl
    have hclose (q : Position) (read : List Char) : step (.string p read) q '"' =
        .ok ([⟨.string read.reverse, p⟩], .between) := rfl
    have hbody : IsStringBody body := h
    simp only [Lexeme.text, List.cons_append, List.append_assoc]
    rw [scanFrom_cons hstep, scanFrom_string hbody, scanFrom_cons (hclose _ _)]
    simp
  | atom text =>
    obtain ⟨hne, htext, hrest⟩ := h
    obtain ⟨c, cs, rfl⟩ := List.exists_cons_of_ne_nil hne
    rw [List.forall_mem_cons] at htext
    have hstep : step .between p c = .ok ([], .atom p [c]) := enter_atomChar htext.1
    rw [Lexeme.text, List.cons_append, scanFrom_cons hstep, scanFrom_atom htext.2 hrest]
    simp

/-- A piece that fits is scanned to its tokens, and the scanner is between tokens again. -/
theorem scanFrom_piece (before : List Char) {piece : Piece} (h : piece.Fits rest) :
    scanFrom .between (.after before) (piece.text ++ rest) =
      (Piece.tokens before [piece] ++ ·) <$>
        scanFrom .between (.after (before ++ piece.text)) rest := by
  rw [← Position.foldl_advance]
  cases piece with
  | separator c =>
    have hc : isSeparator c = true := h
    simp [Piece.text, Piece.tokens, scanFrom_separator hc]
  | comment body =>
    have hstep : step .between (.after before) ';' = .ok ([], .comment) := rfl
    simp only [Piece.text, List.cons_append]
    rw [scanFrom_cons hstep, scanFrom_comment h.1 h.2]
    simp [Piece.tokens]
  | token lexeme => exact scanFrom_lexeme h

end Scan

/-! ### Scanning a row of pieces -/

/-- A row of pieces is scanned piece by piece. -/
theorem scanFrom_texts (before : List Char) {pieces : List Piece} {next : List Char}
    (h : Piece.AllFit pieces next) :
    scanFrom .between (.after before) (Piece.texts pieces ++ next) =
      (Piece.tokens before pieces ++ ·) <$>
        scanFrom .between (.after (before ++ Piece.texts pieces)) next := by
  induction pieces generalizing before with
  | nil => simp [Piece.tokens]
  | cons piece pieces ih =>
    rw [Piece.tokens_cons before piece pieces, Piece.texts_cons, List.append_assoc,
      scanFrom_piece before h.1, ih _ h.2]
    simp

/-- A string that nothing closes is the end of scanning, and the fault names its quote. -/
theorem scanFrom_unclosed {start p : Position} {read : List Char} :
    ∀ {text : List Char}, ¬ClosesString text →
      scanFrom (.string start read) p text = .error (.atPosition .unterminatedString start)
  | [], _ => rfl
  | c :: text, h => by
    by_cases hquote : c = '"'
    · exact absurd ⟨[], text, .nil, by rw [hquote]; rfl⟩ h
    by_cases hescape : c = '\\'
    · subst hescape
      have hstep : step (.string start read) p '\\' = .ok ([], .escape start ('\\' :: read)) := rfl
      rw [scanFrom_cons hstep]
      cases text with
      | nil => rfl
      | cons d text =>
        have hrest : ¬ClosesString text := by
          intro ⟨body, rest, hbody, htext⟩
          exact h ⟨'\\' :: d :: body, rest, .escaped d hbody, by rw [htext]; rfl⟩
        have hnext (q : Position) : step (.escape start ('\\' :: read)) q d =
            .ok ([], .string start (d :: '\\' :: read)) := rfl
        rw [scanFrom_cons (hnext _), scanFrom_unclosed hrest]
        rfl
    · have hrest : ¬ClosesString text := by
        intro ⟨body, rest, hbody, htext⟩
        exact h ⟨c :: body, rest, .plain hquote hescape hbody, by rw [htext]; rfl⟩
      have hstep : step (.string start read) p c = .ok ([], .string start (c :: read)) := by
        simp [step, hquote, hescape]
      rw [scanFrom_cons hstep, scanFrom_unclosed hrest]
      rfl

/-! ### Splitting a text -/

/-- What a character can begin. -/
theorem separates_or_begins (c : Char) :
    isSeparator c = true ∨ c = ';' ∨ c = '"' ∨ (∃ b : Bracket, c = b.opener) ∨
      (∃ b : Bracket, c = b.closer) ∨ c = '\'' ∨ isAtomChar c = true := by
  by_cases hblank : Text.isBlank c = true
  · simp [isSeparator, hblank]
  by_cases hspecial : c ∈ [',', ';', '"', '(', '[', '\x7b', ')', ']', '\x7d', '\'']
  · simp only [List.mem_cons, List.not_mem_nil, or_false] at hspecial
    rcases hspecial with rfl | rfl | rfl | rfl | rfl | rfl | rfl | rfl | rfl | rfl
    · simp [isSeparator]
    · simp
    · simp
    · exact .inr (.inr (.inr (.inl ⟨.round, rfl⟩)))
    · exact .inr (.inr (.inr (.inl ⟨.square, rfl⟩)))
    · exact .inr (.inr (.inr (.inl ⟨.curly, rfl⟩)))
    · exact .inr (.inr (.inr (.inr (.inl ⟨.round, rfl⟩))))
    · exact .inr (.inr (.inr (.inr (.inl ⟨.square, rfl⟩))))
    · exact .inr (.inr (.inr (.inr (.inl ⟨.curly, rfl⟩))))
    · simp
  · have hatom : isAtomChar c = true := by
      simp_all [isAtomChar]
    simp [hatom]

/-- A longest run of characters of one class, and what follows it. -/
theorem exists_run (p : Char → Bool) (text : List Char) :
    ∃ run next, text = run ++ next ∧ (∀ c ∈ run, p c = true) ∧ (∀ c ∈ next.head?, p c = false) ∧
      next.length ≤ text.length := by
  refine ⟨text.takeWhile p, text.dropWhile p, by simp, ?_, ?_, (List.dropWhile_sublist p).length_le⟩
  · exact List.all_eq_true.1 List.all_takeWhile
  · intro c hc
    have hnot := List.head?_dropWhile_not p text
    rw [Option.mem_def.1 hc] at hnot
    exact hnot

/-- A text that is not over begins with a piece or with a quote that nothing closes. -/
theorem exists_piece (c : Char) (text : List Char) :
    (c = '"' ∧ ¬ClosesString text) ∨
      ∃ (piece : Piece) (next : List Char),
        c :: text = piece.text ++ next ∧ piece.Fits next ∧ next.length ≤ text.length := by
  rcases separates_or_begins c with hc | rfl | rfl | ⟨b, rfl⟩ | ⟨b, rfl⟩ | rfl | hc
  · exact .inr ⟨.separator c, text, rfl, hc, Nat.le_refl _⟩
  · obtain ⟨body, next, rfl, hbody, hnext, hlength⟩ := exists_run (· ≠ '\n') text
    refine .inr ⟨.comment body, next, rfl, ⟨?_, ?_⟩, hlength⟩
    · intro hmem
      simpa using hbody _ hmem
    · intro c hc
      simpa using hnext c hc
  · by_cases hclosed : ClosesString text
    · obtain ⟨body, rest, hbody, rfl⟩ := hclosed
      refine .inr ⟨.token (.string body), rest, by simp [Piece.text, Lexeme.text], hbody, ?_⟩
      simp; omega
    · exact .inl ⟨rfl, hclosed⟩
  · exact .inr ⟨.token (.opening b), text, rfl, trivial, Nat.le_refl _⟩
  · exact .inr ⟨.token (.closing b), text, rfl, trivial, Nat.le_refl _⟩
  · exact .inr ⟨.token .quote, text, rfl, trivial, Nat.le_refl _⟩
  · obtain ⟨run, next, rfl, hrun, hnext, hlength⟩ := exists_run isAtomChar text
    refine .inr ⟨.token (.atom (c :: run)), next, rfl, ⟨by simp, ?_, hnext⟩, hlength⟩
    exact List.forall_mem_cons.2 ⟨hc, hrun⟩

/-- Every text is a row of pieces, up to its end or to a quote that nothing closes. -/
theorem exists_pieces (text : List Char) :
    ∃ (pieces : List Piece) (next : List Char),
      text = Piece.texts pieces ++ next ∧ Piece.AllFit pieces next ∧
        (next = [] ∨ ∃ rest, next = '"' :: rest ∧ ¬ClosesString rest) := by
  match text with
  | [] => exact ⟨[], [], rfl, trivial, .inl rfl⟩
  | c :: text =>
    rcases exists_piece c text with ⟨rfl, hopen⟩ | ⟨piece, rest, htext, hfits, hlength⟩
    · exact ⟨[], _, rfl, trivial, .inr ⟨text, rfl, hopen⟩⟩
    · obtain ⟨pieces, next, rfl, hall, hnext⟩ := exists_pieces rest
      refine ⟨piece :: pieces, next, ?_, ⟨hfits, hall⟩, hnext⟩
      rw [htext, Piece.texts_cons, List.append_assoc]
termination_by text.length

/-! ### Scanning again -/

/-- Lexemes that stand in a text one by one stand in it with single spaces between them too. -/
theorem allFit_intersperse {lexemes : List Lexeme}
    (h : ∀ lexeme ∈ lexemes, ∃ next, (Piece.token lexeme).Fits next) :
    Piece.AllFit ((lexemes.map Piece.token).intersperse (.separator ' ')) [] := by
  induction lexemes with
  | nil => trivial
  | cons lexeme lexemes ih =>
    obtain ⟨⟨next, hfits⟩, hrest⟩ := List.forall_mem_cons.1 h
    have hspaced := ih hrest
    cases lexemes with
    | nil => exact ⟨hfits.of_ends (by simp), trivial⟩
    | cons second lexemes =>
      have hspace : isSeparator ' ' = true := by decide
      exact ⟨hfits.of_ends (by simp [Piece.text]; decide), hspace, hspaced⟩

theorem texts_intersperse (lexemes : List Lexeme) :
    Piece.texts ((lexemes.map Piece.token).intersperse (.separator ' ')) =
      [' '].intercalate (lexemes.map Lexeme.text) := by
  induction lexemes with
  | nil => rfl
  | cons lexeme lexemes ih =>
    cases lexemes with
    | nil => simp [List.intercalate, Piece.text]
    | cons second lexemes =>
      simp only [List.map_cons, List.intersperse_cons_cons, Piece.texts_cons, List.intercalate,
        List.flatten_cons] at ih ⊢
      rw [ih]
      rfl

theorem filterMap_intersperse (lexemes : List Lexeme) :
    ((lexemes.map Piece.token).intersperse (.separator ' ')).filterMap Piece.lexeme? = lexemes := by
  induction lexemes with
  | nil => rfl
  | cons lexeme lexemes ih =>
    cases lexemes with
    | nil => rfl
    | cons second lexemes =>
      simp only [List.map_cons, List.intersperse_cons_cons] at ih ⊢
      simp [List.filterMap_cons, Piece.lexeme?, ih]

/-- Scanning a row of pieces that is the whole text. -/
theorem scan_texts {source : String} {pieces : List Piece}
    (hsource : source.toList = Piece.texts pieces)
    (h : Piece.AllFit pieces []) : scan source = .ok (Piece.tokens [] pieces) := by
  have hscan := scanFrom_texts [] h
  rw [List.append_nil, ← hsource] at hscan
  exact hscan.trans (congrArg Except.ok (List.append_nil _))

/-- A quote that is not closed is refused at its place. -/
theorem scan_unclosed {source : String} {pieces : List Piece} {rest : List Char}
    (hsource : source.toList = Piece.texts pieces ++ '"' :: rest)
    (h : Piece.AllFit pieces ('"' :: rest)) (hopen : ¬ClosesString rest) :
    scan source = .error (.atPosition .unterminatedString (.after (Piece.texts pieces))) := by
  have hscan := scanFrom_texts [] h
  rw [← hsource] at hscan
  have hstep (p : Position) : step .between p '"' = .ok ([], .string p []) := rfl
  rw [scanFrom_cons (hstep _), scanFrom_unclosed hopen] at hscan
  exact hscan

/-- A source is a row of pieces, or it has a quote at the end of such a row that nothing closes. -/
theorem scan_cases (source : String) :
    (∃ pieces, source.toList = Piece.texts pieces ∧ Piece.AllFit pieces [] ∧
        scan source = .ok (Piece.tokens [] pieces)) ∨
      ∃ pieces rest, source.toList = Piece.texts pieces ++ '"' :: rest ∧
        Piece.AllFit pieces ('"' :: rest) ∧ ¬ClosesString rest ∧
        scan source = .error (.atPosition .unterminatedString (.after (Piece.texts pieces))) := by
  obtain ⟨pieces, next, hsource, hall, rfl | ⟨rest, rfl, hopen⟩⟩ := exists_pieces source.toList
  · rw [List.append_nil] at hsource
    exact .inl ⟨pieces, hsource, hall, scan_texts hsource hall⟩
  · exact .inr ⟨pieces, rest, hsource, hall, hopen, scan_unclosed hsource hall hopen⟩

/-- Every token of a text fits in front of something. -/
theorem exists_fits_of_allFit {pieces : List Piece} {next : List Char}
    (h : Piece.AllFit pieces next) :
    ∀ lexeme ∈ pieces.filterMap Piece.lexeme?, ∃ next, (Piece.token lexeme).Fits next := by
  induction pieces with
  | nil => simp
  | cons piece pieces ih =>
    cases piece with
    | separator c => exact ih h.2
    | comment body => exact ih h.2
    | token lexeme => exact List.forall_mem_cons.2 ⟨⟨_, h.1⟩, ih h.2⟩

/-- Scanning the texts of lexemes with single spaces between them gives these lexemes. -/
theorem scan_spaced {lexemes : List Lexeme}
    (h : ∀ lexeme ∈ lexemes, ∃ next, (Piece.token lexeme).Fits next) :
    ∃ tokens, scan (" ".intercalate (lexemes.map fun lexeme => String.ofList lexeme.text))
      = .ok tokens ∧
      tokens.map (·.lexeme) = lexemes := by
  refine ⟨_, scan_texts ?_ (allFit_intersperse h), ?_⟩
  · rw [texts_intersperse]
    simp [Function.comp_def]
  · rw [Piece.map_lexeme_tokens, filterMap_intersperse]

/-- **Scanning loses nothing, and every place is right.** A source is scanned into tokens exactly
if it is a row of pieces; the tokens are then those of the row, each with the line and the column
that the text before it gives. It is refused exactly if a quote that stands where a piece could
begin is never closed, and for no other reason. The tokens of a source, written with single spaces
between them, are scanned into the same lexemes. -/
theorem scan_splits_source (source : String) :
    (∀ tokens, scan source = .ok tokens ↔
      ∃ pieces, source.toList = Piece.texts pieces ∧ Piece.AllFit pieces [] ∧
        tokens = Piece.tokens [] pieces) ∧
    (∀ fault, scan source = .error fault ↔
      ∃ pieces rest, source.toList = Piece.texts pieces ++ '"' :: rest ∧
        Piece.AllFit pieces ('"' :: rest) ∧ ¬ClosesString rest ∧
        fault = .atPosition .unterminatedString (.after (Piece.texts pieces))) ∧
    (∀ fault, scan source = .error fault → fault.cause ≠ .invalidCharacter) ∧
    (∀ tokens, scan source = .ok tokens →
      ∃ again, scan (" ".intercalate (tokens.map fun t => String.ofList t.lexeme.text))
        = .ok again ∧
        again.map (·.lexeme) = tokens.map (·.lexeme)) := by
  refine ⟨?_, ?_, ?_, ?_⟩
  · intro tokens
    constructor
    · intro hscan
      rcases scan_cases source with ⟨pieces, hsource, hall, hok⟩ | ⟨_, _, _, _, _, herror⟩
      · exact ⟨pieces, hsource, hall, Except.ok.inj (hscan.symm.trans hok)⟩
      · exact absurd (hscan.symm.trans herror) (by simp)
    · intro ⟨pieces, hsource, hall, htokens⟩
      rw [htokens, scan_texts hsource hall]
  · intro fault
    constructor
    · intro hscan
      rcases scan_cases source with ⟨_, _, _, hok⟩ | ⟨pieces, rest, hsource, hall, hopen, herror⟩
      · exact absurd (hscan.symm.trans hok) (by simp)
      · exact ⟨pieces, rest, hsource, hall, hopen, Except.error.inj (hscan.symm.trans herror)⟩
    · intro ⟨pieces, rest, hsource, hall, hopen, hfault⟩
      rw [hfault, scan_unclosed hsource hall hopen]
  · intro fault hscan
    rcases scan_cases source with ⟨_, _, _, hok⟩ | ⟨_, _, _, _, _, herror⟩
    · exact absurd (hscan.symm.trans hok) (by simp)
    · obtain rfl := Except.error.inj (hscan.symm.trans herror)
      simp [Fault.atPosition]
  · intro tokens hscan
    rcases scan_cases source with ⟨pieces, _, hall, hok⟩ | ⟨_, _, _, _, _, herror⟩
    · obtain rfl : tokens = Piece.tokens [] pieces := Except.ok.inj (hscan.symm.trans hok)
      have hlexemes := Piece.map_lexeme_tokens [] pieces
      obtain ⟨again, hagain, hsame⟩ := scan_spaced (exists_fits_of_allFit hall)
      rw [← hlexemes, List.map_map] at hagain
      exact ⟨again, hagain, hsame.trans hlexemes.symm⟩
    · exact absurd (hscan.symm.trans herror) (by simp)

/-- A string over two lines moves the places behind it to the second line. -/
theorem scan_splits_source_lines :
    ∃ tokens, scan "(f \"a\nb\" 'x), ; c" = .ok tokens ∧
      tokens.map (·.start) = [⟨1, 0⟩, ⟨1, 1⟩, ⟨1, 3⟩, ⟨2, 3⟩, ⟨2, 4⟩, ⟨2, 5⟩] ∧
      ∃ again, scan (" ".intercalate (tokens.map fun t => String.ofList t.lexeme.text))
        = .ok again ∧
        again.map (·.lexeme) = tokens.map (·.lexeme) := by
  have hscan : scan "(f \"a\nb\" 'x), ; c" =
      .ok [⟨.opening .round, ⟨1, 0⟩⟩, ⟨.atom ['f'], ⟨1, 1⟩⟩, ⟨.string ['a', '\n', 'b'], ⟨1, 3⟩⟩,
        ⟨.quote, ⟨2, 3⟩⟩, ⟨.atom ['x'], ⟨2, 4⟩⟩, ⟨.closing .round, ⟨2, 5⟩⟩] := by rfl
  exact ⟨_, hscan, rfl, (scan_splits_source _).2.2.2 _ hscan⟩

end Token

end TailLisp
