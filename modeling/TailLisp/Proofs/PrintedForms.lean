import TailLisp.Form.Text
import TailLisp.Proofs.Expansion
import TailLisp.Proofs.StringLiterals

/-!
# TailLisp.Proofs.PrintedForms

**Reading the text of a form gives the form back.** Messages show a form by its text, `Form.text?`.
It is not the text that the form was read from: comments and layout are gone, integers are decimal,
a quote mark is spelled out and only quotes are escaped. Still, it is a source of one form, and
apart from the spans this is the form that was printed (`Form.readAll_text`). Two things do not
survive, and the statement leaves them out: floating-point numbers, whose text may be that of a
symbol, and strings with a backslash, which is not escaped. There is no text if an integer of the
form has more digits than are written in decimal; it can be read all the same if it is hexadecimal.

The text is followed through the three stages that read it. `Form.Writes` says that a text consists
of pieces that the scanner finds wherever an atom can end behind them, with the tokens of
derivations of the given forms. It is passed on from the parts of a form to the form, and holds of
the names because they were read once already (`Derivation.isReadName_form`).
-/

namespace TailLisp

/-! ### Integers -/

namespace Constant

section Digits

variable {c : Char} {digits : List Char}

theorem toNat_of_isDigit (h : c.isDigit = true) : 48 ≤ c.toNat ∧ c.toNat < 58 := by
  simp only [Char.isDigit, ge_iff_le, Bool.and_eq_true, decide_eq_true_eq] at h
  have hlow : '0'.toNat ≤ c.toNat := h.1
  have hhigh : c.toNat ≤ '9'.toNat := h.2
  exact ⟨hlow, Nat.lt_succ_of_le hhigh⟩

theorem digitValue?_of_isDigit (h : c.isDigit = true) :
    Text.digitValue? c = some (c.toNat - '0'.toNat) := by
  obtain ⟨hlow, hhigh⟩ := toNat_of_isDigit h
  have hfind : Text.zeros.find? (fun z => z ≤ c.toNat && c.toNat < z + 10) = some 48 :=
    List.find?_cons_of_pos (by simp only [Bool.and_eq_true, decide_eq_true_eq]; omega)
  rw [Text.digitValue?, hfind]
  rfl

theorem splitDigits_of_isDigit (h : ∀ c ∈ digits, c.isDigit = true) :
    splitDigits digits = (digits.map fun c => c.toNat - '0'.toNat, []) := by
  induction digits with
  | nil => rfl
  | cons c digits ih =>
    rw [List.forall_mem_cons] at h
    simp only [splitDigits, digitValue?_of_isDigit h.1, ih h.2, List.map_cons]

/-- A row of plain digits is read as the decimal number that it writes. -/
theorem decimal?_of_isDigit (negative : Bool) (hne : digits ≠ [])
    (h : ∀ c ∈ digits, c.isDigit = true) :
    decimal? negative digits =
      some (.int (Double.signed negative (Nat.ofDigitChars 10 digits 0))) := by
  have hvalue : Text.ofDigits 10 (digits.map fun c => c.toNat - '0'.toNat) =
      Nat.ofDigitChars 10 digits 0 := by
    rw [Text.ofDigits, List.foldl_map, Nat.ofDigitChars_eq_foldl]
    simp only [Nat.mul_comm 10]
  obtain ⟨c, cs, rfl⟩ := List.exists_cons_of_ne_nil hne
  rw [decimal?, splitDigits_of_isDigit h, ← hvalue]
  rfl

theorem numeral?_of_isDigit {text : List Char} {negative : Bool}
    (hsign : splitSign text = (negative, digits)) (h : ∀ c ∈ digits, c.isDigit = true) :
    numeral? text = decimal? negative digits := by
  unfold numeral?
  rw [hsign]
  split
  · next heq =>
    -- the mark of a hexadecimal numeral is no digit
    obtain ⟨rfl, rfl⟩ := Prod.mk.inj heq
    exact absurd (h 'x' (by simp)) (by decide)
  · next heq =>
    obtain ⟨rfl, rfl⟩ := Prod.mk.inj heq
    rfl

theorem splitSign_of_isDigit (h : ∀ c ∈ digits, c.isDigit = true) :
    splitSign digits = (false, digits) := by
  unfold splitSign
  split
  · exact absurd (h '+' (by simp)) (by decide)
  · exact absurd (h '-' (by simp)) (by decide)
  · rfl

end Digits

/-- The decimal text of an integer is a numeral with its value. -/
theorem numeral?_intText (i : Int) : numeral? (intText i).toList = some (.int i) := by
  have hdigits : ∀ c ∈ Nat.toDigits 10 i.natAbs, c.isDigit = true := fun c hc =>
    Nat.isDigit_of_mem_toDigits (by decide) (by decide) hc
  have hvalue (negative : Bool) : decimal? negative (Nat.toDigits 10 i.natAbs) =
      some (.int (Double.signed negative i.natAbs)) := by
    rw [decimal?_of_isDigit negative Nat.toDigits_ne_nil hdigits, Nat.ofDigitChars_ten_toDigits]
  unfold intText natText
  split
  · have htext : ("-" ++ String.ofList (Nat.toDigits 10 i.natAbs)).toList =
        '-' :: Nat.toDigits 10 i.natAbs := by simp
    have hsigned : Double.signed true i.natAbs = i := by simp only [Double.signed, if_true]; omega
    have hsign : splitSign ('-' :: Nat.toDigits 10 i.natAbs) =
        (true, Nat.toDigits 10 i.natAbs) := rfl
    rw [htext, numeral?_of_isDigit hsign hdigits, hvalue, hsigned]
  · have hsigned : Double.signed false i.natAbs = i := by
      simp only [Double.signed, Bool.false_eq_true, if_false]; omega
    rw [String.toList_ofList, numeral?_of_isDigit (splitSign_of_isDigit hdigits) hdigits, hvalue,
      hsigned]

/-- Whether an integer can be written is a matter of its digits. -/
theorem intFits_iff {i : Int} :
    intFits i = true ↔ (Nat.toDigits 10 i.natAbs).length ≤ digitLimit := by
  rw [Nat.length_toDigits_le_iff (by decide) (by decide), intFits, decide_eq_true_iff, Nat.pow_eq]

/-- An integer that can be written is written with as many digits as can be read. -/
theorem tooLong?_intText {i : Int} (h : intFits i = true) :
    tooLong? (intText i).toList = none := by
  have hdigits : ∀ c ∈ Nat.toDigits 10 i.natAbs, c.isDigit = true := fun c hc =>
    Nat.isDigit_of_mem_toDigits (by decide) (by decide) hc
  have hsplit : (splitSign (intText i).toList).2 = Nat.toDigits 10 i.natAbs := by
    unfold intText natText
    split
    · have htext : ("-" ++ String.ofList (Nat.toDigits 10 i.natAbs)).toList =
          '-' :: Nat.toDigits 10 i.natAbs := by simp
      rw [htext]
      rfl
    · rw [String.toList_ofList, splitSign_of_isDigit hdigits]
  have hlength := intFits_iff.1 h
  simp only [tooLong?, hsplit, splitDigits_of_isDigit hdigits, List.length_map]
  exact if_neg (by omega)

/-- A numeral that is too long is a numeral. -/
theorem tooLong?_of_numeral? {cs : List Char} (h : numeral? cs = none) : tooLong? cs = none := by
  unfold tooLong?
  split
  · next digits hsplit =>
    refine if_neg fun hlong => ?_
    obtain ⟨d, ds, rfl⟩ := List.exists_cons_of_ne_nil
      (List.ne_nil_of_length_pos (Nat.lt_of_le_of_lt (Nat.zero_le _) hlong))
    unfold numeral? at h
    split at h
    · next hsign =>
      -- the mark of a hexadecimal numeral is no digit
      rw [hsign] at hsplit
      simp [splitDigits, show Text.digitValue? 'x' = none by decide,
        show Text.digitValue? '0' = some 0 by decide] at hsplit
    · next negative rest _ hsign =>
      rw [hsign] at hsplit
      simp [decimal?, hsplit, exponent?] at h
  · rfl

theorem isAtomChar_of_isDigit {c : Char} (h : c.isDigit = true) : Token.isAtomChar c = true := by
  have hall : ∀ n < 58, 48 ≤ n → Token.isAtomChar (Char.ofNat n) = true := by decide
  obtain ⟨hlow, hhigh⟩ := toNat_of_isDigit h
  rw [← Char.ofNat_toNat c]
  exact hall c.toNat hhigh hlow

/-- An integer is written with characters of atoms. -/
theorem isAtomChar_intText (i : Int) : ∀ c ∈ (intText i).toList, Token.isAtomChar c = true := by
  have hdigits : ∀ c ∈ Nat.toDigits 10 i.natAbs, Token.isAtomChar c = true := fun c hc =>
    isAtomChar_of_isDigit (Nat.isDigit_of_mem_toDigits (by decide) (by decide) hc)
  have hminus : Token.isAtomChar '-' = true := by decide
  unfold intText natText
  split
  · simpa [hminus] using hdigits
  · simpa using hdigits

theorem intText_ne_nil (i : Int) : (intText i).toList ≠ [] := by
  unfold intText natText
  split
  · simp
  · rw [String.toList_ofList]
    exact Nat.toDigits_ne_nil

end Constant

/-! ### Rows of pieces -/

namespace Piece

theorem texts_append (pieces pieces' : List Piece) :
    texts (pieces ++ pieces') = texts pieces ++ texts pieces' :=
  List.flatMap_append ..

/-- The tokens of two rows of pieces; those of the second row stand behind the text of the first. -/
theorem tokens_append (before : List Char) (pieces pieces' : List Piece) :
    tokens before (pieces ++ pieces') =
      tokens before pieces ++ tokens (before ++ texts pieces) pieces' := by
  induction pieces generalizing before with
  | nil => simp [tokens]
  | cons piece pieces ih =>
    rw [List.cons_append, tokens_cons, ih, tokens_cons before piece pieces, texts_cons]
    simp only [List.append_assoc]

/-- Pieces fit if each of them fits before the text that follows it. -/
theorem allFit_append {pieces pieces' : List Piece} {next : List Char} :
    AllFit (pieces ++ pieces') next ↔
      AllFit pieces (texts pieces' ++ next) ∧ AllFit pieces' next := by
  induction pieces with
  | nil => simp [AllFit]
  | cons piece pieces ih =>
    simp only [List.cons_append, AllFit, ih, texts_append, List.append_assoc, and_assoc]

end Piece

namespace Form

/-! ### Forms without places -/

mutual

/-- The form without the spans in it. -/
def unplaced : Form → Form
  | .const c => .const c
  | .symbol s => .named s.name
  | .keyword k => .keyword { name := k.name }
  | .list items _ => .made (unplacedAll items)
  | .vector items _ => .vector (unplacedAll items) .none
  | .map entries _ => .map (unplacedEntries entries) .none

def unplacedAll : List Form → List Form
  | [] => []
  | form :: forms => unplaced form :: unplacedAll forms

def unplacedEntries : List (Form × Form) → List (Form × Form)
  | [] => []
  | (key, value) :: entries => (unplaced key, unplaced value) :: unplacedEntries entries

end

theorem unplacedAll_eq_map (forms : List Form) : unplacedAll forms = forms.map unplaced := by
  induction forms with
  | nil => rfl
  | cons form forms ih => rw [unplacedAll, ih, List.map_cons]

/-- Forgetting the places of a row keeps its pairs. -/
theorem pairUp_unplacedAll (forms : List Form) :
    pairUp (unplacedAll forms) = (pairUp forms).map unplacedEntries := by
  fun_induction pairUp forms with
  | case1 => rfl
  | case2 => rfl
  | case3 key value forms ih =>
    simp only [unplacedAll, pairUp, ih, Option.map_map]
    rfl

theorem pairUp_flatMap (entries : List (Form × Form)) :
    pairUp (entries.flatMap fun (key, value) => [key, value]) = some entries := by
  induction entries with
  | nil => rfl
  | cons entry entries ih =>
    simp only [List.flatMap_cons, List.cons_append, List.nil_append, pairUp, ih]
    rfl

/-! ### Texts that write forms -/

/-- The text is an atom that is read as the form, wherever it stands. -/
structure IsAtom (text : List Char) (form : Form) : Prop where
  ne_nil : text ≠ []
  chars : ∀ c ∈ text, Token.isAtomChar c = true
  short : Constant.tooLong? text = none
  reads : ∀ p, (ofAtom text p).unplaced = form.unplaced

/-- Whether a fixed text is an atom can be computed. -/
theorem isAtom_of_all {text : List Char} {form : Form} (hne : text.isEmpty = false)
    (hchars : text.all Token.isAtomChar = true) (hshort : Constant.tooLong? text = none)
    (hreads : ∀ p, (ofAtom text p).unplaced = form.unplaced) : IsAtom text form :=
  ⟨List.isEmpty_eq_false_iff.1 hne, List.all_eq_true.1 hchars, hshort, hreads⟩

/-- The text consists of pieces that fit before every text which ends an atom, and wherever it
stands its tokens are those of derivations of the forms, none of them too long. -/
def Writes (text : List Char) (forms : List Form) : Prop :=
  ∃ pieces, Piece.texts pieces = text ∧
    (∀ next : List Char, (∀ c ∈ next.head?, Token.isAtomChar c = false) →
      Piece.AllFit pieces next) ∧
    ∀ before, ∃ ds, Derivation.tokensOfAll ds = Piece.tokens before pieces ∧
      (∀ t ∈ Derivation.tokensOfAll ds, t.tooLong? = none) ∧
      unplacedAll (Derivation.formsOfAll ds) = unplacedAll forms

namespace Writes

variable {text text' : List Char} {forms forms' : List Form} {form : Form}

theorem nil : Writes [] [] := ⟨[], rfl, fun _ _ => trivial, fun _ => ⟨[], rfl, nofun, rfl⟩⟩

/-- The text of an atom is one piece, and one derivation. -/
theorem atom (h : IsAtom text form) : Writes text [form] := by
  refine ⟨[.token (.atom text)], List.append_nil _, ?_, fun before => ?_⟩
  · exact fun next hnext => ⟨⟨h.ne_nil, h.chars, hnext⟩, trivial⟩
  · exact ⟨[.atom text (.after before)], rfl, List.forall_mem_singleton.2 h.short,
      congrArg (· :: []) (h.reads _)⟩

/-- A string between quotes; its form has no place. -/
theorem string {body : List Char} (h : IsStringBody body) :
    Writes ('"' :: body ++ ['"']) [.const (.str (String.ofList (Constant.unescape body)))] :=
  ⟨[.token (.string body)], List.append_nil _, fun _ _ => ⟨h, trivial⟩, fun before =>
    ⟨[.string body (.after before)], rfl, List.forall_mem_singleton.2 rfl, rfl⟩⟩

/-- Two texts with a blank between them: no piece runs on into the next one. -/
theorem spaced (h : Writes text forms) (h' : Writes text' forms') :
    Writes (text ++ ' ' :: text') (forms ++ forms') := by
  obtain ⟨pieces, rfl, hfit, hread⟩ := h
  obtain ⟨pieces', rfl, hfit', hread'⟩ := h'
  have hspace : Token.isSeparator ' ' = true := by decide
  refine ⟨pieces ++ .separator ' ' :: pieces', Piece.texts_append .., fun next hnext => ?_,
    fun before => ?_⟩
  · -- The space ends an atom, so the pieces before it fit.
    refine Piece.allFit_append.2 ⟨hfit _ ?_, hspace, hfit' next hnext⟩
    rintro c ⟨⟩
    decide
  · obtain ⟨ds, htokens, hshort, hforms⟩ := hread before
    obtain ⟨ds', htokens', hshort', hforms'⟩ := hread' (before ++ Piece.texts pieces ++ [' '])
    have hall : Derivation.tokensOfAll (ds ++ ds') =
        Derivation.tokensOfAll ds ++ Derivation.tokensOfAll ds' := by
      simp only [Derivation.tokensOfAll_eq_flatMap, List.flatMap_append]
    refine ⟨ds ++ ds', ?_, ?_, ?_⟩
    · rw [hall, htokens, htokens', Piece.tokens_append]
      rfl
    · rw [hall]
      exact List.forall_mem_append.2 ⟨hshort, hshort'⟩
    · simp only [unplacedAll_eq_map, Derivation.formsOfAll_eq_map, List.map_append]
        at hforms hforms' ⊢
      rw [hforms, hforms']

/-- A row between brackets, if derivations of its forms derive the collection. -/
theorem bracketed {b : Bracket} (h : Writes text forms)
    (hform : ∀ opened closed ds, unplacedAll (Derivation.formsOfAll ds) = unplacedAll forms →
      ∃ d : Derivation, d.tokens =
          ⟨.opening b, opened⟩ :: Derivation.tokensOfAll ds ++ [⟨.closing b, closed⟩] ∧
        d.form.unplaced = form.unplaced) :
    Writes (b.opener :: text ++ [b.closer]) [form] := by
  obtain ⟨pieces, rfl, hfit, hread⟩ := h
  refine ⟨.token (.opening b) :: (pieces ++ [.token (.closing b)]), ?_, fun next _ => ?_,
    fun before => ?_⟩
  · rw [Piece.texts_cons, Piece.texts_append]
    rfl
  · refine ⟨trivial, Piece.allFit_append.2 ⟨hfit _ ?_, trivial, trivial⟩⟩
    rintro c ⟨⟩
    cases b <;> decide
  · obtain ⟨ds, htokens, hshort, hforms⟩ := hread (before ++ [b.opener])
    obtain ⟨d, hd, hsame⟩ := hform (.after before)
      (.after (before ++ [b.opener] ++ Piece.texts pieces)) ds hforms
    have hall : Derivation.tokensOfAll [d] = d.tokens := List.append_nil _
    refine ⟨[d], ?_, ?_, congrArg (· :: []) hsame⟩
    · rw [hall, hd, htokens, Piece.tokens_cons, Piece.tokens_append]
      rfl
    · rw [hall, hd]
      -- brackets are no numerals
      exact List.forall_mem_append.2
        ⟨List.forall_mem_cons.2 ⟨rfl, hshort⟩, List.forall_mem_singleton.2 rfl⟩

theorem list {items : List Form} (h : Writes text items) (span : Option Span) :
    Writes ('(' :: text ++ [')']) [.list items span] :=
  h.bracketed (b := .round) fun opened closed ds hds =>
    ⟨.list opened ds closed, rfl, congrArg Form.made hds⟩

theorem vector {items : List Form} (h : Writes text items) (span : Span) :
    Writes ('[' :: text ++ [']']) [.vector items span] :=
  h.bracketed (b := .square) fun opened closed ds hds =>
    ⟨.vector opened ds closed, rfl, congrArg (Form.vector · .none) hds⟩

/-- As many forms are read as were written, so they can be paired again. -/
theorem map {entries : List (Form × Form)}
    (h : Writes text (entries.flatMap fun (key, value) => [key, value])) (span : Span) :
    Writes ('\x7b' :: text ++ ['\x7d']) [.map entries span] := by
  refine h.bracketed (b := .curly) fun opened closed ds hds => ?_
  have hpairs : ((Derivation.pairUp ds).map Derivation.formsOfEntries).map unplacedEntries =
      some (unplacedEntries entries) := by
    rw [← Derivation.form_pairUp, ← pairUp_unplacedAll, hds, pairUp_unplacedAll, pairUp_flatMap]
    rfl
  obtain ⟨_, hforms, hsame⟩ := Option.map_eq_some_iff.1 hpairs
  obtain ⟨ds', hds', rfl⟩ := Option.map_eq_some_iff.1 hforms
  refine ⟨.map opened ds' closed, ?_, congrArg (Form.map · .none) hsame⟩
  rw [Derivation.tokens, Derivation.tokensOfEntries_of_pairUp hds']

end Writes

/-! ### Names that have been read -/

/-- A name is read back from its text; other forms are no names. -/
def IsReadName : Form → Prop
  | .symbol s => IsAtom s.name.toList (.symbol s)
  | .keyword k => IsAtom (':' :: k.name.toList) (.keyword k)
  | _ => True

theorem unplaced_ofAtom (text : List Char) (p p' : Position) :
    (ofAtom text p).unplaced = (ofAtom text p').unplaced := by
  unfold ofAtom
  split
  · rfl
  split
  · rfl
  split <;> rfl

/-- A name that has been read is the text of an atom, and would be read again. -/
theorem isReadName_ofAtom {text next : List Char} (h : (Piece.token (.atom text)).Fits next)
    (p : Position) : (ofAtom text p).Throughout true IsReadName := by
  obtain ⟨hne, hchars, -⟩ := h
  have hread (hnot : Constant.numeral? text = none) : IsAtom text (ofAtom text p) :=
    ⟨hne, hchars, Constant.tooLong?_of_numeral? hnot, fun p' => unplaced_ofAtom text p' p⟩
  revert hread
  unfold ofAtom
  split
  · exact fun _ => trivial
  next hnot =>
  split
  · exact fun _ => trivial
  split
  · intro hread
    show IsAtom (':' :: (String.ofList _).toList) _
    rw [String.toList_ofList]
    exact hread hnot
  · intro hread
    show IsAtom (String.ofList _).toList _
    rw [String.toList_ofList]
    exact hread hnot

end Form

namespace Derivation

mutual

/-- The names that derivations stand for are read back from their texts. -/
theorem isReadName_form : ∀ d : Derivation,
    (∀ t ∈ d.tokens, ∃ next, (Piece.token t.lexeme).Fits next) →
      d.form.Throughout true Form.IsReadName
  | .atom text start, h => by
    obtain ⟨next, hfits⟩ := h ⟨.atom text, start⟩ (by simp [tokens])
    exact Form.isReadName_ofAtom hfits start
  | .string _ _, _ => trivial
  | .quote mark quoted, h => by
    -- The mark is no atom, but it is printed as one.
    have hquote : Form.IsAtom "quote".toList (.symbol ⟨"quote", .onLine mark 1⟩) :=
      Form.isAtom_of_all (by decide) (by decide) (by decide) fun _ => rfl
    exact ⟨trivial, .inr ⟨hquote, isReadName_form quoted fun t ht => h t (by simp [tokens, ht]),
      trivial⟩⟩
  | .list opened items closed, h =>
    ⟨trivial, .inr (isReadName_formsOfAll items fun t ht => h t (by simp [tokens, ht]))⟩
  | .vector opened items closed, h =>
    ⟨trivial, isReadName_formsOfAll items fun t ht => h t (by simp [tokens, ht])⟩
  | .map opened entries closed, h =>
    ⟨trivial, isReadName_formsOfEntries entries fun t ht => h t (by simp [tokens, ht])⟩

theorem isReadName_formsOfAll : ∀ ds : List Derivation,
    (∀ t ∈ tokensOfAll ds, ∃ next, (Piece.token t.lexeme).Fits next) →
      Form.ThroughoutAll true Form.IsReadName (formsOfAll ds)
  | [], _ => trivial
  | d :: ds, h =>
    ⟨isReadName_form d fun t ht => h t (by simp [tokensOfAll, ht]),
      isReadName_formsOfAll ds fun t ht => h t (by simp [tokensOfAll, ht])⟩

theorem isReadName_formsOfEntries : ∀ entries : List (Derivation × Derivation),
    (∀ t ∈ tokensOfEntries entries, ∃ next, (Piece.token t.lexeme).Fits next) →
      Form.ThroughoutEntries true Form.IsReadName (formsOfEntries entries)
  | [], _ => trivial
  | (key, value) :: entries, h =>
    ⟨⟨isReadName_form key fun t ht => h t (by simp [tokensOfEntries, ht]),
      isReadName_form value fun t ht => h t (by simp [tokensOfEntries, ht])⟩,
      isReadName_formsOfEntries entries fun t ht => h t (by simp [tokensOfEntries, ht])⟩

end

end Derivation

namespace Form

/-- The names in a form that has been read are read back from their texts. -/
theorem isReadName_of_readAll {source : String} {forms : List Form}
    (h : readAll source = .ok forms) : ∀ form ∈ forms, form.Throughout true IsReadName := by
  obtain ⟨ds, hscan, rfl⟩ := exists_derivations h
  have hfits : ∀ t ∈ Derivation.tokensOfAll ds, ∃ next, (Piece.token t.lexeme).Fits next :=
    Token.fits_of_scan hscan
  exact throughoutAll_iff.1 (Derivation.isReadName_formsOfAll ds hfits)

/-! ### Printing -/

/-- The form is no floating-point number and no string with a backslash. -/
def IsPlain : Form → Prop
  | .const (.double _) => False
  | .const (.str s) => '\\' ∉ s.toList
  | _ => True

instance : DecidablePred IsPlain
  | .const (.double _) => inferInstanceAs (Decidable False)
  | .const (.str s) => inferInstanceAs (Decidable ('\\' ∉ s.toList))
  | .const .nil | .const (.bool _) | .const (.int _) => inferInstanceAs (Decidable True)
  | .symbol _ | .keyword _ | .list .. | .vector .. | .map .. => inferInstanceAs (Decidable True)

/-- The form is no integer with more digits than are written. -/
def HasFewDigits : Form → Prop
  | .const (.int i) => (Nat.toDigits 10 i.natAbs).length ≤ digitLimit
  | _ => True

mutual

/-- A form can be written if its integers have few digits. -/
theorem isWritable_iff : ∀ form : Form,
    form.isWritable = true ↔ form.Throughout true HasFewDigits
  | .const c => by
    cases c with
    | int i =>
      rw [isWritable, Constant.isWritable, Constant.intFits_iff]
      rfl
    | _ => exact iff_of_true rfl trivial
  | .symbol _ => iff_of_true rfl trivial
  | .keyword _ => iff_of_true rfl trivial
  | .list items span =>
    (allWritable_iff items).trans ⟨fun h => ⟨trivial, .inr h⟩, fun h => h.2.resolve_left nofun⟩
  | .vector items span => (allWritable_iff items).trans (and_iff_right trivial).symm
  | .map entries span => (entriesWritable_iff entries).trans (and_iff_right trivial).symm

theorem allWritable_iff : ∀ forms : List Form,
    allWritable forms = true ↔ ThroughoutAll true HasFewDigits forms
  | [] => iff_of_true rfl trivial
  | form :: forms => by
    rw [allWritable, Bool.and_eq_true, isWritable_iff form, allWritable_iff forms, ThroughoutAll]

theorem entriesWritable_iff : ∀ entries : List (Form × Form),
    entriesWritable entries = true ↔ ThroughoutEntries true HasFewDigits entries
  | [] => iff_of_true rfl trivial
  | (key, value) :: entries => by
    rw [entriesWritable, Bool.and_eq_true, Bool.and_eq_true, isWritable_iff key,
      isWritable_iff value, entriesWritable_iff entries, ThroughoutEntries]

end

/-- The text of an integer that can be written is read as that integer. -/
theorem isAtom_int {i : Int} (h : intFits i = true) :
    IsAtom (intText i).toList (.const (.int i)) where
  ne_nil := Constant.intText_ne_nil i
  chars := Constant.isAtomChar_intText i
  short := Constant.tooLong?_intText h
  reads _ := by simp only [ofAtom, Constant.numeral?_intText]

/-- Without backslashes it is enough to escape the quotes. -/
theorem writes_str {s : String} (h : '\\' ∉ s.toList) :
    Writes (Constant.quotedText s).toList [.const (.str s)] := by
  have hplain (c : Char) (hc : c ∈ s.toList) : c ≠ '\\' := fun heq => h (heq ▸ hc)
  have hbody : IsStringBody (Constant.escapeWhere (· == '"') s.toList) :=
    Constant.isStringBody_escapeWhere fun c hc hmark => ⟨by simpa using hmark, hplain c hc⟩
  have hvalue : Constant.unescape (Constant.escapeWhere (· == '"') s.toList) = s.toList := by
    refine Constant.unescape_of_standsFor (Constant.standsFor_escapeWhere
      (fun c hc _ => hplain c hc) fun c _ hmark => ?_)
    obtain rfl : c = '"' := by simpa using hmark
    decide
  have htext : (Constant.quotedText s).toList =
      '"' :: Constant.escapeWhere (· == '"') s.toList ++ ['"'] := by
    have hescape : (fun c : Char => if c = '"' then ['\\', '"'] else [c]) =
        fun c => if (c == '"') = true then ['\\', c] else [c] := by
      funext c
      by_cases hc : c = '"' <;> simp [hc]
    simp [Constant.quotedText, hescape, Constant.escapeWhere]
  have hwrites := Writes.string hbody
  rwa [hvalue, String.ofList_toList, ← htext] at hwrites

/-- The text of a constant is read as that constant, if it is plain and can be written. -/
theorem writes_const {c : Constant} (h : IsPlain (.const c)) (hwritable : c.isWritable = true) :
    Writes (Form.const c).text.toList [.const c] := by
  cases c with
  | nil => exact .atom (isAtom_of_all (by decide) (by decide) (by decide) fun _ => rfl)
  | bool b =>
    cases b <;> exact .atom (isAtom_of_all (by decide) (by decide) (by decide) fun _ => rfl)
  | int i => exact .atom (isAtom_int hwritable)
  | double x => exact h.elim
  | str s => exact writes_str h

mutual

/-- The text of a form writes it. -/
theorem writes_text : ∀ form : Form, form.Throughout true IsPlain →
    form.Throughout true IsReadName → form.isWritable = true → Writes form.text.toList [form]
  | .const _, hplain, _, hwritable => writes_const hplain hwritable
  | .symbol _, _, hnames, _ => .atom hnames
  | .keyword k, _, hnames, _ => by
    rw [text, String.toList_append]
    exact .atom hnames
  | .list items span, hplain, hnames, hwritable => by
    have hitems := writes_textOfAll items (hplain.2.resolve_left nofun)
      (hnames.2.resolve_left nofun) hwritable
    rw [text, String.toList_append, String.toList_append]
    exact hitems.list span
  | .vector items span, hplain, hnames, hwritable => by
    rw [text, String.toList_append, String.toList_append]
    exact (writes_textOfAll items hplain.2 hnames.2 hwritable).vector span
  | .map entries span, hplain, hnames, hwritable => by
    rw [text, String.toList_append, String.toList_append]
    exact (writes_textOfEntries entries hplain.2 hnames.2 hwritable).map span

theorem writes_textOfAll : ∀ forms : List Form, ThroughoutAll true IsPlain forms →
    ThroughoutAll true IsReadName forms → allWritable forms = true →
      Writes (textOfAll forms).toList forms
  | [], _, _, _ => .nil
  | [form], hplain, hnames, hwritable =>
    writes_text form hplain.1 hnames.1 (Bool.and_eq_true_iff.1 hwritable).1
  | form :: next :: forms, hplain, hnames, hwritable => by
    obtain ⟨hform, hforms⟩ := Bool.and_eq_true_iff.1 hwritable
    rw [textOfAll, String.toList_append, String.toList_append, List.append_assoc]
    exact (writes_text form hplain.1 hnames.1 hform).spaced
      (writes_textOfAll (next :: forms) hplain.2 hnames.2 hforms)

theorem writes_textOfEntries : ∀ entries : List (Form × Form),
    ThroughoutEntries true IsPlain entries → ThroughoutEntries true IsReadName entries →
      entriesWritable entries = true →
        Writes (textOfEntries entries).toList (entries.flatMap fun (key, value) => [key, value])
  | [], _, _, _ => .nil
  | [(key, value)], hplain, hnames, hwritable => by
    obtain ⟨hkey, hvalue⟩ := Bool.and_eq_true_iff.1 (Bool.and_eq_true_iff.1 hwritable).1
    rw [textOfEntries, String.toList_append, String.toList_append, List.append_assoc]
    exact (writes_text key hplain.1.1 hnames.1.1 hkey).spaced
      (writes_text value hplain.1.2 hnames.1.2 hvalue)
  | (key, value) :: next :: entries, hplain, hnames, hwritable => by
    obtain ⟨hfirst, hentries⟩ := Bool.and_eq_true_iff.1 hwritable
    obtain ⟨hkey, hvalue⟩ := Bool.and_eq_true_iff.1 hfirst
    have hrest := writes_textOfEntries (next :: entries) hplain.2 hnames.2 hentries
    simp only [textOfEntries, String.toList_append, List.append_assoc]
    exact (writes_text key hplain.1.1 hnames.1.1 hkey).spaced
      ((writes_text value hplain.1.2 hnames.1.2 hvalue).spaced hrest)

end

/-- A text that writes forms is read as these forms. -/
theorem Writes.readAll {source : String} {forms : List Form} (h : Writes source.toList forms) :
    ∃ forms', readAll source = .ok forms' ∧ forms'.map unplaced = forms.map unplaced := by
  obtain ⟨pieces, hsource, hfit, hread⟩ := h
  obtain ⟨ds, htokens, hshort, hforms⟩ := hread []
  rw [unplacedAll_eq_map, unplacedAll_eq_map] at hforms
  exact ⟨_, readAll_of_pieces hsource.symm (hfit [] nofun) htokens hshort, hforms⟩

/-- What holds throughout a form, quoted parts included, holds throughout its parts. -/
theorem Throughout.parts {P : Form → Prop} {form : Form} (h : form.Throughout true P) :
    ∀ part ∈ form.parts, part.Throughout true P := by
  cases form with
  | const | symbol | keyword => exact nofun
  | list items span => exact (throughout_list.1 h).2.resolve_left nofun
  | vector items span => exact (throughout_vector.1 h).2
  | map entries span =>
    intro part hpart
    obtain ⟨entry, hentry, hmem⟩ := List.mem_flatMap.1 hpart
    obtain ⟨hkey, hvalue⟩ := (throughout_map.1 h).2 entry hentry
    rcases List.mem_pair.1 hmem with rfl | rfl
    · exact hkey
    · exact hvalue

/-- What holds throughout a form, quoted parts included, holds throughout the forms in it. -/
theorem Throughout.of_inside {P : Form → Prop} {inner outer : Form} (h : outer.Throughout true P)
    (hinside : inner.Inside outer) : inner.Throughout true P := by
  induction hinside with
  | part hpart => exact h.parts _ hpart
  | deeper hmiddle _ ih => exact ih (h.parts _ hmiddle)

/-- **Printing a form and reading it gives the form back.** Take a form that has been read, or that
stands in one, without floating-point numbers and strings with a backslash. If its integers have at
most as many digits as are written in decimal, it has a text, one form is read from that, and apart
from the spans it is the same form. If one of them has more digits, the form has no text. -/
theorem readAll_text {source : String} {forms : List Form} (hread : readAll source = .ok forms)
    {form : Form} (hform : form.OccursIn forms) (hplain : form.Throughout true IsPlain) :
    (form.Throughout true HasFewDigits →
      ∃ text form', form.text? = some text ∧ readAll text = .ok [form'] ∧
        form'.unplaced = form.unplaced) ∧
    (¬form.Throughout true HasFewDigits → form.text? = none) := by
  constructor
  · intro hdigits
    have hwritable := (isWritable_iff form).2 hdigits
    -- names are written as they are, so it matters that they come from a source
    have hnames : form.Throughout true IsReadName := by
      rcases hform with hmem | ⟨top, hmem, hinside⟩
      · exact isReadName_of_readAll hread form hmem
      · exact (isReadName_of_readAll hread top hmem).of_inside hinside
    obtain ⟨forms', hagain, hsame⟩ := (writes_text form hplain hnames hwritable).readAll
    obtain ⟨form', rfl, hone⟩ := List.map_eq_singleton_iff.1 hsame
    exact ⟨form.text, form', if_pos hwritable, hagain, hone⟩
  · intro hdigits
    exact if_neg fun hwritable => hdigits ((isWritable_iff form).1 hwritable)

/-- A quoted list with a hexadecimal number and a string that looks like the rest of the text. -/
def quotedEntry : Form :=
  .map [(.keyword ⟨":", .onLine ⟨1, 1⟩ 2⟩,
    .list [.symbol ⟨"quote", .onLine ⟨1, 4⟩ 1⟩,
      .list [.const (.int 31), .const (.str "\")")] (some (.between ⟨1, 5⟩ ⟨1, 17⟩))]
      (some (.between ⟨1, 4⟩ ⟨1, 17⟩)))] (.between ⟨1, 0⟩ ⟨1, 18⟩)

theorem readAll_text_quotedEntry :
    readAll "\x7b:: '(0x1f \"\\\")\")\x7d" = .ok [quotedEntry] ∧
      ∃ text form', quotedEntry.text? = some text ∧ readAll text = .ok [form'] ∧
        form'.unplaced = quotedEntry.unplaced := by
  have hscan : Token.scan "\x7b:: '(0x1f \"\\\")\")\x7d" =
      .ok [⟨.opening .curly, ⟨1, 0⟩⟩, ⟨.atom [':', ':'], ⟨1, 1⟩⟩, ⟨.quote, ⟨1, 4⟩⟩,
        ⟨.opening .round, ⟨1, 5⟩⟩, ⟨.atom ['0', 'x', '1', 'f'], ⟨1, 6⟩⟩,
        ⟨.string ['\\', '"', ')'], ⟨1, 11⟩⟩, ⟨.closing .round, ⟨1, 16⟩⟩,
        ⟨.closing .curly, ⟨1, 17⟩⟩] := by rfl
  have hread : readAll "\x7b:: '(0x1f \"\\\")\")\x7d" = .ok [quotedEntry] := by
    rw [readAll_of_scan hscan]
    rfl
  have hdigits : quotedEntry.isWritable = true := by decide +kernel
  exact ⟨hread, (readAll_text hread (.inl (List.mem_singleton_self _)) (by decide)).1
    ((isWritable_iff quotedEntry).1 hdigits)⟩

end Form

end TailLisp
