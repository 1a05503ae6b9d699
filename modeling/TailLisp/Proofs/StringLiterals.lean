import TailLisp.Proofs.SourceSpans

/-!
# TailLisp.Proofs.StringLiterals

**What a string literal stands for.** Two passes look at the escapes of a literal: the scanner,
which has to find the closing quote, and `Constant.unescape`, which computes the value. `StandsFor`
says what the value is, from left to right. The scanner pairs backslashes with the characters behind
them in the same way, so the characters between two quotes stand for exactly one value
(`standsFor_iff`), and that value is what is read. In the other direction every text has a literal:
it is enough to put a backslash before each quote and each backslash (`Constant.literalOf`).
-/

namespace TailLisp

/-! ### Escapes -/

/-- The characters between the quotes of a string stand for the text. -/
inductive StandsFor : List Char → List Char → Prop
  | nil : StandsFor [] []
  | plain {c : Char} {body text : List Char} (hc : c ≠ '\\') (rest : StandsFor body text) :
      StandsFor (c :: body) (c :: text)
  | lineFeed {body text : List Char} (rest : StandsFor body text) :
      StandsFor ('\\' :: 'n' :: body) ('\n' :: text)
  | tab {body text : List Char} (rest : StandsFor body text) :
      StandsFor ('\\' :: 't' :: body) ('\t' :: text)
  /-- A backslash at the end of a line joins it to the next one. -/
  | joined {body text : List Char} (rest : StandsFor body text) :
      StandsFor ('\\' :: '\n' :: body) text
  | escaped {c : Char} {body text : List Char} (hn : c ≠ 'n') (ht : c ≠ 't') (hline : c ≠ '\n')
      (rest : StandsFor body text) : StandsFor ('\\' :: c :: body) (c :: text)

namespace Constant

theorem unescape_plain {c : Char} (hc : c ≠ '\\') (body : List Char) :
    unescape (c :: body) = c :: unescape body := by
  rw [unescape] <;> simp [hc]

/-- Reading a literal gives what it stands for. -/
theorem unescape_of_standsFor {body text : List Char} (h : StandsFor body text) :
    unescape body = text := by
  induction h with
  | nil => rfl
  | plain hc _ ih => rw [unescape_plain hc, ih]
  | lineFeed _ ih | tab _ ih | joined _ ih => simp [unescape, ih]
  | escaped hn ht hline _ ih => simp [unescape, hn, ht, hline, ih]

/-- The characters between two quotes have one value, the computed one. -/
theorem standsFor_iff {body text : List Char} (h : IsStringBody body) :
    StandsFor body text ↔ text = unescape body := by
  constructor
  · exact fun hstands => (unescape_of_standsFor hstands).symm
  · rintro rfl
    -- By the way the scanner went: each backslash is taken with the character behind it.
    induction h with
    | nil => exact .nil
    | plain _ hescape _ ih =>
      rw [unescape_plain hescape]
      exact .plain hescape ih
    | escaped c _ ih =>
      rw [unescape]
      split
      · next hc => exact hc ▸ .lineFeed ih
      split
      · next hc => exact hc ▸ .tab ih
      split
      · next hc => exact hc ▸ .joined ih
      · exact .escaped ‹_› ‹_› ‹_› ih

/-- The values of a row of insides of strings. -/
theorem forall₂_standsFor_iff {bodies texts : List (List Char)}
    (h : ∀ body ∈ bodies, IsStringBody body) :
    List.Forall₂ StandsFor bodies texts ↔ texts = bodies.map unescape := by
  induction bodies generalizing texts with
  | nil =>
    constructor
    · rintro ⟨⟩
      rfl
    · rintro rfl
      exact .nil
  | cons body bodies ih =>
    rw [List.forall_mem_cons] at h
    constructor
    · rintro (_ | ⟨hbody, hbodies⟩)
      rw [(standsFor_iff h.1).1 hbody, (ih h.2).1 hbodies, List.map_cons]
    · rintro rfl
      exact .cons ((standsFor_iff h.1).2 rfl) ((ih h.2).2 rfl)

/-- The text with a backslash before each character that is marked. -/
def escapeWhere (mark : Char → Bool) (text : List Char) : List Char :=
  text.flatMap fun c => if mark c then ['\\', c] else [c]

section Escape

variable {mark : Char → Bool} {text : List Char}

/-- A text with its quotes and backslashes escaped is the body of a literal. -/
theorem isStringBody_escapeWhere (h : ∀ c ∈ text, mark c = false → c ≠ '"' ∧ c ≠ '\\') :
    IsStringBody (escapeWhere mark text) := by
  induction text with
  | nil => exact .nil
  | cons c text ih =>
    rw [List.forall_mem_cons] at h
    rw [escapeWhere, List.flatMap_cons]
    cases hc : mark c with
    | true => exact .escaped c (ih h.2)
    | false => exact .plain (h.1 hc).1 (h.1 hc).2 (ih h.2)

/-- A backslash may be put before a character that has no escape of its own. -/
theorem standsFor_escapeWhere (hplain : ∀ c ∈ text, mark c = false → c ≠ '\\')
    (hmark : ∀ c ∈ text, mark c = true → c ≠ 'n' ∧ c ≠ 't' ∧ c ≠ '\n') :
    StandsFor (escapeWhere mark text) text := by
  induction text with
  | nil => exact .nil
  | cons c text ih =>
    rw [List.forall_mem_cons] at hplain hmark
    have hrest := ih hplain.2 hmark.2
    rw [escapeWhere, List.flatMap_cons]
    cases hc : mark c with
    | true =>
      obtain ⟨hn, ht, hline⟩ := hmark.1 hc
      exact .escaped hn ht hline hrest
    | false => exact .plain (hplain.1 hc) hrest

end Escape

/-- The literal of a text: between quotes, with a backslash before each quote and each backslash. -/
def literalOf (s : String) : String :=
  "\"" ++ String.ofList (escapeWhere ['"', '\\'].contains s.toList) ++ "\""

theorem isStringBody_literalOf (text : List Char) :
    IsStringBody (escapeWhere ['"', '\\'].contains text) :=
  isStringBody_escapeWhere fun c _ hc => by simpa using hc

theorem unescape_literalOf (text : List Char) :
    unescape (escapeWhere ['"', '\\'].contains text) = text := by
  refine unescape_of_standsFor (standsFor_escapeWhere (fun c _ hc => ?_) fun c _ hc => ?_)
  · rintro rfl
    simp at hc
  · rcases (by simpa using hc : c = '"' ∨ c = '\\') with rfl | rfl <;> decide

/-- The text of a constant that is a string. -/
def string? : Constant → Option String
  | .str s => some s
  | _ => none

/-- A number is no string. -/
theorem string?_numeral? {text : List Char} {c : Constant} (h : numeral? text = some c) :
    c.string? = none := by
  have hdecimal {negative : Bool} {digits : List Char} (h : decimal? negative digits = some c) :
      c.string? = none := by
    unfold decimal? at h
    split at h
    · cases h
    all_goals
      obtain ⟨e, -, rfl⟩ := Option.map_eq_some_iff.1 h
    · rfl
    · cases e <;> rfl
  unfold numeral? at h
  split at h
  · unfold hexadecimal? at h
    split at h
    · cases h; rfl
    · cases h
  · exact hdecimal h

theorem string?_word? {text : String} {c : Constant} (h : word? text = some c) :
    c.string? = none := by
  unfold word? at h
  split at h
  · cases h; rfl
  split at h
  · cases h; rfl
  split at h
  · cases h; rfl
  · cases h

end Constant

/-! ### The strings of a source -/

/-- The characters between the quotes of a string. -/
def Lexeme.body? : Lexeme → Option (List Char)
  | .string body => some body
  | _ => none

/-- The characters between the quotes of each string among tokens. -/
def Token.bodies (tokens : List Token) : List (List Char) := tokens.filterMap (·.lexeme.body?)

theorem Token.bodies_append (row row' : List Token) :
    bodies (row ++ row') = bodies row ++ bodies row' :=
  List.filterMap_append ..

/-- Each token of a source is well formed. -/
theorem Token.fits_of_scan {source : String} {tokens : List Token} (h : scan source = .ok tokens) :
    ∀ token ∈ tokens, ∃ next, (Piece.token token.lexeme).Fits next := by
  rcases scan_cases source with ⟨pieces, -, hall, hok⟩ | ⟨_, _, _, _, _, herror⟩
  · obtain rfl : tokens = Piece.tokens [] pieces := Except.ok.inj (h.symm.trans hok)
    intro token htoken
    exact exists_fits_of_allFit hall _
      (Piece.map_lexeme_tokens [] pieces ▸ List.mem_map_of_mem htoken)
  · cases h.symm.trans herror

/-- What is scanned between two quotes is the inside of a string. -/
theorem Token.isStringBody_of_scan {source : String} {tokens : List Token}
    (h : scan source = .ok tokens) : ∀ body ∈ bodies tokens, IsStringBody body := by
  intro body hbody
  obtain ⟨⟨lexeme, start⟩, htoken, hsome⟩ := List.mem_filterMap.1 hbody
  obtain ⟨next, hfits⟩ := fits_of_scan h _ htoken
  cases lexeme with
  | string inside =>
    cases hsome
    exact hfits
  | opening | closing | quote | atom => cases hsome

namespace Form

mutual

/-- The strings of a form, in the order in which they stand in it. -/
def strings : Form → List String
  | .const c => c.string?.toList
  | .symbol _ => []
  | .keyword _ => []
  | .list items _ => stringsOfAll items
  | .vector items _ => stringsOfAll items
  | .map entries _ => stringsOfEntries entries

/-- The strings of a row of forms. -/
def stringsOfAll : List Form → List String
  | [] => []
  | form :: forms => strings form ++ stringsOfAll forms

/-- The strings of the keys and values of a map. -/
def stringsOfEntries : List (Form × Form) → List String
  | [] => []
  | (key, value) :: entries => strings key ++ strings value ++ stringsOfEntries entries

end

/-- Atoms are no strings. -/
theorem strings_ofAtom (text : List Char) (p : Position) : (ofAtom text p).strings = [] := by
  unfold ofAtom
  split
  · next hc => simp [strings, Constant.string?_numeral? hc]
  split
  · next hc => simp [strings, Constant.string?_word? hc]
  split <;> rfl

/-- A row of pieces that is the whole text, with the tokens of derivations, is read as their forms
if no numeral among them is too long. -/
theorem readAll_of_pieces {source : String} {pieces : List Piece} {ds : List Derivation}
    (hsource : source.toList = Piece.texts pieces) (hall : Piece.AllFit pieces [])
    (hds : Derivation.tokensOfAll ds = Piece.tokens [] pieces)
    (hshort : ∀ t ∈ Derivation.tokensOfAll ds, t.tooLong? = none) :
    readAll source = .ok (Derivation.formsOfAll ds) := by
  rw [readAll_of_scan (Token.scan_texts hsource hall), ← hds]
  exact ofTokens_tokensOfAll ds hshort

end Form

namespace Derivation

/-- The value of the inside of a string. -/
def valueOf (body : List Char) : String := String.ofList (Constant.unescape body)

mutual

/-- The strings of a form have the values of its string tokens. -/
theorem strings_form : ∀ d : Derivation, d.form.strings = (Token.bodies d.tokens).map valueOf
  | .atom text start => Form.strings_ofAtom text start
  | .string _ _ => rfl
  | .quote mark quoted => by
    simp [form, Form.strings, Form.stringsOfAll, tokens, strings_form quoted, Token.bodies,
      Lexeme.body?]
  | .list opened items closed => by
    simp [form, Form.strings, tokens, stringsOfAll_formsOfAll items, Token.bodies, Lexeme.body?]
  | .vector opened items closed => by
    simp [form, Form.strings, tokens, stringsOfAll_formsOfAll items, Token.bodies, Lexeme.body?]
  | .map opened entries closed => by
    simp [form, Form.strings, tokens, stringsOfEntries_formsOfEntries entries, Token.bodies,
      Lexeme.body?]

theorem stringsOfAll_formsOfAll : ∀ ds : List Derivation,
    Form.stringsOfAll (formsOfAll ds) = (Token.bodies (tokensOfAll ds)).map valueOf
  | [] => rfl
  | d :: ds => by
    rw [formsOfAll, Form.stringsOfAll, strings_form d, stringsOfAll_formsOfAll ds, tokensOfAll,
      Token.bodies_append, List.map_append]

theorem stringsOfEntries_formsOfEntries : ∀ entries : List (Derivation × Derivation),
    Form.stringsOfEntries (formsOfEntries entries) =
      (Token.bodies (tokensOfEntries entries)).map valueOf
  | [] => rfl
  | (key, value) :: entries => by
    rw [formsOfEntries, Form.stringsOfEntries, strings_form key, strings_form value,
      stringsOfEntries_formsOfEntries entries, tokensOfEntries, Token.bodies_append,
      Token.bodies_append, List.map_append, List.map_append]

end

end Derivation

namespace Form

/-- A string between quotes is a source of its own. -/
theorem readAll_string {source : String} {body : List Char}
    (hsource : source.toList = '"' :: body ++ ['"']) (hbody : IsStringBody body) :
    readAll source = .ok [.const (.str (String.ofList (Constant.unescape body)))] :=
  readAll_of_pieces (hsource.trans (List.append_nil _).symm)
    (show Piece.AllFit [.token (.string body)] [] from ⟨hbody, trivial⟩)
    (show Derivation.tokensOfAll [.string body (.after [])] = _ from rfl)
    (List.forall_mem_singleton.2 rfl)

/-- **Every text is the value of a literal, and a literal has one value.** The literal of a text is
read as that string and nothing else. In every source, the characters between the quotes of each
string stand for one text, and the strings that are read are these texts, in order. -/
theorem readAll_strings :
    (∀ s : String, readAll (Constant.literalOf s) = .ok [.const (.str s)]) ∧
    ∀ source tokens, Token.scan source = .ok tokens →
      ∃ texts, (∀ other, List.Forall₂ StandsFor (Token.bodies tokens) other ↔ other = texts) ∧
        ∀ forms, readAll source = .ok forms → (stringsOfAll forms).map String.toList = texts := by
  constructor
  · intro s
    rw [readAll_string (by simp [Constant.literalOf]) (Constant.isStringBody_literalOf s.toList),
      Constant.unescape_literalOf, String.ofList_toList]
  · intro source tokens hscan
    -- Even where the forms cannot be read, the insides of the strings have values.
    have hbodies := Token.isStringBody_of_scan hscan
    refine ⟨(Token.bodies tokens).map Constant.unescape,
      fun _ => Constant.forall₂_standsFor_iff hbodies, fun forms hread => ?_⟩
    obtain ⟨ds, hderived, rfl⟩ := exists_derivations hread
    obtain rfl : tokens = Derivation.tokensOfAll ds := Except.ok.inj (hscan.symm.trans hderived)
    rw [Derivation.stringsOfAll_formsOfAll, List.map_map]
    simp [Function.comp_def, Derivation.valueOf]

/-- A backslash with a quote behind it, and two lines that are joined. -/
theorem readAll_strings_joined :
    ∃ tokens forms, Token.scan "[\"\\\\\\\"\" \"a\\\n\\tb\"]" = .ok tokens ∧
      readAll "[\"\\\\\\\"\" \"a\\\n\\tb\"]" = .ok forms ∧
      (stringsOfAll forms).map String.toList = [['\\', '"'], ['a', '\t', 'b']] ∧
      List.Forall₂ StandsFor (Token.bodies tokens) ((stringsOfAll forms).map String.toList) := by
  have hscan : Token.scan "[\"\\\\\\\"\" \"a\\\n\\tb\"]" =
      .ok [⟨.opening .square, ⟨1, 0⟩⟩, ⟨.string ['\\', '\\', '\\', '"'], ⟨1, 1⟩⟩,
        ⟨.string ['a', '\\', '\n', '\\', 't', 'b'], ⟨1, 8⟩⟩, ⟨.closing .square, ⟨2, 4⟩⟩] := by rfl
  have hread : readAll "[\"\\\\\\\"\" \"a\\\n\\tb\"]" =
      .ok [.vector [.const (.str (.ofList ['\\', '"'])), .const (.str (.ofList ['a', '\t', 'b']))]
        (.between ⟨1, 0⟩ ⟨2, 5⟩)] := by
    rw [readAll, hscan]
    rfl
  obtain ⟨texts, hstands, htexts⟩ := readAll_strings.2 _ _ hscan
  exact ⟨_, _, hscan, hread, rfl, (hstands _).2 (htexts _ hread)⟩

end Form

end TailLisp
