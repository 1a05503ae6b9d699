import TailLisp.Command
import TailLisp.Proofs.PatternLevel

/-!
# TailLisp.Proofs.SettingsFile

**Files of settings.** The text of a file is read, its first map is turned into data, and the data
are checked. `Settings.Says` describes the settings that a map asks for without these steps: each
key is the name of a setting, the last value of a key counts, and what is not set is as usual.
`Settings.load_accepts_or_reports` says that a file gives these settings, and that otherwise the
file is reported, for all files but those with a map whose keys cannot be keys of a dictionary.
-/

namespace TailLisp

/-! ### Forms as data -/

namespace Form

/-- The constant that a form stands for as data. -/
def constant? : Form → Option Constant
  | .const c => some c
  | .keyword k => some (.str k.name)
  | _ => none

mutual

/-- Does each key of each map in the form stand for a constant? -/
def hasKeys : Form → Bool
  | .const _ | .symbol _ | .keyword _ => true
  | .list items _ => allHaveKeys items
  | .vector items _ => allHaveKeys items
  | .map entries _ => entriesHaveKeys entries

/-- Does each key of each map in the forms stand for a constant? -/
def allHaveKeys : List Form → Bool
  | [] => true
  | form :: forms => hasKeys form && allHaveKeys forms

/-- Does each key, and each key of each map in the values, stand for a constant? -/
def entriesHaveKeys : List (Form × Form) → Bool
  | [] => true
  | (key, value) :: entries => key.constant?.isSome && hasKeys value && entriesHaveKeys entries

end

/-- What a collection stands for is no constant and cannot be a key. -/
theorem toDatum_cases {form : Form} {d : Datum} (h : toDatum form = .ok d) :
    (∃ c, form.constant? = some c ∧ d = .const c) ∨
      (form.constant? = none ∧ d.unhashable? ≠ none ∧ ∀ c, d ≠ .const c) := by
  cases form with
  | const c => cases h; exact .inl ⟨c, rfl, rfl⟩
  | symbol s => cases h; exact .inr ⟨rfl, nofun, nofun⟩
  | keyword k => cases h; exact .inl ⟨.str k.name, rfl, rfl⟩
  | list items span | vector items span =>
    obtain ⟨data, -, h⟩ := Parsing.bind_ok h
    cases h
    exact .inr ⟨rfl, nofun, nofun⟩
  | map entries span =>
    obtain ⟨data, -, h⟩ := Parsing.bind_ok h
    obtain ⟨made, -, h⟩ := Parsing.bind_ok h
    cases h
    exact .inr ⟨rfl, nofun, nofun⟩

theorem eq_const_iff_of_toDatum {form : Form} {d : Datum} (h : toDatum form = .ok d)
    (c : Constant) : d = .const c ↔ form.constant? = some c := by
  obtain ⟨c', hform, rfl⟩ | ⟨hform, -, hne⟩ := toDatum_cases h
  · simp [hform]
  · simp [hform, hne]

theorem unhashable?_of_toDatum {form : Form} {d : Datum} (h : toDatum form = .ok d) :
    d.unhashable?.isNone = form.constant?.isSome := by
  obtain ⟨c, hform, rfl⟩ | ⟨hform, hkey, -⟩ := toDatum_cases h
  · simp [hform, Datum.unhashable?]
  · simp [hform, Option.isSome_iff_ne_none, hkey]

theorem toDatum_of_constant? {form : Form} {c : Constant} (h : form.constant? = some c) :
    toDatum form = .ok (.const c) := by
  cases form <;> simp_all [constant?, toDatum]

end Form

namespace Datum

/-- Entries with one more set. -/
def put (entries : List (Datum × Datum)) (entry : Datum × Datum) : List (Datum × Datum) :=
  setEntry entry.1 entry.2 entries

/-- Can the keys of all entries be keys? -/
def haveKeys (data : List (Datum × Datum)) : Bool := data.all (·.1.unhashable?.isNone)

/-- A dictionary is made unless one of the keys cannot be a key. -/
theorem dictOf_cases (data : List (Datum × Datum)) :
    (haveKeys data = true ∧ dictOf data = .ok (.dict (data.foldl put []))) ∨
      (haveKeys data = false ∧ ∃ type, dictOf data = .error type) := by
  unfold dictOf
  generalize ([] : List (Datum × Datum)) = built
  induction data generalizing built with
  | nil => exact .inl ⟨rfl, rfl⟩
  | cons entry data ih =>
    obtain ⟨key, value⟩ := entry
    cases hkey : key.unhashable? with
    | some type =>
      refine .inr ⟨by simp [haveKeys, hkey], type, ?_⟩
      simp only [List.foldlM_cons, hkey]
      rfl
    | none =>
      have hkeys : haveKeys ((key, value) :: data) = haveKeys data := by simp [haveKeys, hkey]
      rw [hkeys]
      simp only [List.foldlM_cons, hkey]
      exact ih (put built (key, value))

end Datum

namespace Form

mutual

/-- A form is turned into data exactly if the keys of all its maps can be keys. -/
theorem toDatum_isOk (form : Form) : (toDatum form).isOk = form.hasKeys := by
  cases form with
  | const => rfl
  | symbol => rfl
  | keyword => rfl
  | list items span | vector items span =>
    have hitems := toData_isOk items
    rw [toDatum, hasKeys, ← hitems]
    cases toData items <;> rfl
  | map entries span =>
    have hentries := toEntries_haveKeys entries
    rw [toDatum, hasKeys, ← hentries]
    cases toEntries entries with
    | error type => rfl
    | ok data =>
      obtain ⟨hkeys, hdict⟩ | ⟨hkeys, type, hdict⟩ := Datum.dictOf_cases data
      · exact (congrArg Except.isOk hdict).trans hkeys.symm
      · exact (congrArg Except.isOk hdict).trans hkeys.symm

theorem toData_isOk (forms : List Form) : (toData forms).isOk = allHaveKeys forms := by
  cases forms with
  | nil => rfl
  | cons form forms =>
    have hform := toDatum_isOk form
    have hforms := toData_isOk forms
    rw [toData, allHaveKeys, ← hform, ← hforms]
    cases toDatum form with
    | error type => rfl
    | ok datum => cases toData forms <;> rfl

/-- The keys of entries can be keys of a dictionary if they stand for constants. -/
theorem toEntries_haveKeys (entries : List (Form × Form)) :
    (toEntries entries).toOption.any Datum.haveKeys = entriesHaveKeys entries := by
  cases entries with
  | nil => rfl
  | cons entry entries =>
    obtain ⟨key, value⟩ := entry
    have hvalue := toDatum_isOk value
    have hentries := toEntries_haveKeys entries
    rw [toEntries, entriesHaveKeys, ← hvalue, ← hentries]
    cases hkey : toDatum key with
    | error type =>
      cases hconst : key.constant? with
      | none => rfl
      | some c => cases hkey.symm.trans (toDatum_of_constant? hconst)
    | ok k =>
      rw [← unhashable?_of_toDatum hkey]
      cases toDatum value with
      | error type =>
        change false = (k.unhashable?.isNone && false && _)
        rw [Bool.and_false, Bool.false_and]
      | ok v =>
        cases toEntries entries with
        | error type => exact (Bool.and_false _).symm
        | ok data =>
          change (k.unhashable?.isNone && _) = (k.unhashable?.isNone && true && _)
          rw [Bool.and_true]
          rfl

end

theorem toEntries_cons {key value : Form} {entries : List (Form × Form)}
    {data : List (Datum × Datum)} (h : toEntries ((key, value) :: entries) = .ok data) :
    ∃ k v rest, toDatum key = .ok k ∧ toDatum value = .ok v ∧ toEntries entries = .ok rest ∧
      data = (k, v) :: rest := by
  rw [toEntries] at h
  obtain ⟨k, hk, h⟩ := Parsing.bind_ok h
  obtain ⟨v, hv, h⟩ := Parsing.bind_ok h
  obtain ⟨rest, hrest, h⟩ := Parsing.bind_ok h
  cases h
  exact ⟨k, v, rest, hk, hv, hrest, rfl⟩

/-- A map stands for a dictionary of what its entries stand for, set in order, if the keys of all
maps in it stand for constants. -/
theorem toDatum_map (entries : List (Form × Form)) (span : Span) :
    (entriesHaveKeys entries = true ∧ ∃ data, toEntries entries = .ok data ∧
        toDatum (.map entries span) = .ok (.dict (data.foldl Datum.put []))) ∨
      (entriesHaveKeys entries = false ∧ ∃ type, toDatum (.map entries span) = .error type) := by
  rw [toDatum, ← toEntries_haveKeys entries]
  cases toEntries entries with
  | error type => exact .inr ⟨rfl, type, rfl⟩
  | ok data =>
    obtain ⟨hkeys, hdict⟩ | ⟨hkeys, type, hdict⟩ := Datum.dictOf_cases data
    · exact .inl ⟨hkeys, data, rfl, hdict⟩
    · exact .inr ⟨hkeys, type, hdict⟩

end Form

/-! ### Dictionaries with texts for keys -/

namespace Datum

variable {d : Datum} {s : String}

/-- No other datum is equal to a text. -/
theorem equal_str_iff : d.equal (.const (.str s)) = true ↔ d = .const (.str s) := by
  cases d with
  | const c => cases c <;> simp [equal, Constant.same, Constant.whole?]
  | _ => simp [equal, number?, Constant.number?, Constant.whole?]

theorem str_equal_iff : equal (.const (.str s)) d = true ↔ .const (.str s) = d := by
  cases d with
  | const c => cases c <;> simp [equal, Constant.same, Constant.whole?]
  | _ => simp [equal, Constant.number?, Constant.whole?]

/-- Of two data that are one key, both are a text or none is. -/
theorem eq_str_iff_of_same {a b : Datum} (h : a.same b = true) (s : String) :
    a = .const (.str s) ↔ b = .const (.str s) := by
  simp only [same, Bool.or_eq_true] at h
  constructor
  · rintro rfl
    obtain h | h := h
    · cases b <;> simp_all [identical]
    · exact (str_equal_iff.mp h).symm
  · rintro rfl
    obtain h | h := h
    · cases a <;> simp_all [identical]
    · exact equal_str_iff.mp h

end Datum

/-- Does a fault lie in what a file of settings says? -/
def SettingsFault.isContent : SettingsFault → Bool
  | .missingPath _ | .unhashable _ => false
  | _ => true

namespace Settings

open Datum (put setEntry)

theorem isKnown_iff {d : Datum} : isKnown d = true ↔ ∃ key ∈ knownKeys, d = .const (.str key) := by
  unfold isKnown
  split <;> simp_all

theorem isKnown_of_same {a b : Datum} (h : a.same b = true) : isKnown a = isKnown b := by
  rw [Bool.eq_iff_iff, isKnown_iff, isKnown_iff]
  simp only [Datum.eq_str_iff_of_same h]

theorem equal_key_of_same {a b : Datum} (h : a.same b = true) (key : String) :
    a.equal (.const (.str key)) = b.equal (.const (.str key)) := by
  rw [Bool.eq_iff_iff, Datum.equal_str_iff, Datum.equal_str_iff, Datum.eq_str_iff_of_same h]

/-- Setting an entry changes the value of its key only. -/
theorem valueOf_put (entries : List (Datum × Datum)) (k v : Datum) (key : String)
    (default : Constant) :
    valueOf (put entries (k, v)) key default
      = if k.equal (.const (.str key)) then v else valueOf entries key default := by
  unfold valueOf put
  fun_induction setEntry k v entries with
  | case1 => by_cases h : k.equal (.const (.str key)) <;> simp [h]
  | case2 k' v' entries hsame =>
    rw [← equal_key_of_same hsame]
    by_cases h : k'.equal (.const (.str key)) <;> simp [h]
  | case3 k' v' entries hsame ih =>
    by_cases h' : k'.equal (.const (.str key))
    · -- two keys that are this text would be the same, so the entry would have been replaced
      have hk : ¬k.equal (.const (.str key)) = true := by
        intro hk
        rw [Datum.equal_str_iff] at h' hk
        simp [h', hk, Datum.same, Datum.identical] at hsame
      simp [h', hk]
    · simpa [h'] using ih

/-- An entry that replaces another one has a key that is known if the other one is. -/
theorem known_put (entries : List (Datum × Datum)) (k v : Datum) :
    (∀ e ∈ put entries (k, v), isKnown e.1 = true) ↔
      isKnown k = true ∧ ∀ e ∈ entries, isKnown e.1 = true := by
  unfold put
  fun_induction setEntry k v entries with
  | case1 => simp
  | case2 k' v' entries hsame => simp [← isKnown_of_same hsame]
  | case3 k' v' entries hsame ih =>
    rw [List.forall_mem_cons, List.forall_mem_cons, ih]
    exact and_left_comm

/-- Nothing is reported about keys exactly if all of them are known. -/
theorem unknownKeys_eq_nil_iff {entries : List (Datum × Datum)} :
    unknownKeys entries = [] ↔ ∀ e ∈ entries, isKnown e.1 = true := by
  simp [unknownKeys]

/-! ### What settings a map says -/

/-- The value that entries give to a key, which is that of the last entry with the key. -/
def valueFor (entries : List (Form × Form)) (key : String) (default : Form) : Form :=
  entries.foldl (fun value e => if e.1.constant? = some (.str key) then e.2 else value) default

/-- The settings when nothing is set. -/
def usual : Settings := {}

/-- The settings are those that the entries of a map say. -/
structure Says (entries : List (Form × Form)) (settings : Settings) : Prop where
  known : ∀ e ∈ entries, ∃ key ∈ knownKeys, e.1.constant? = some (.str key)
  tempPrefix : (valueFor entries tempPrefixKey (.const (.str usual.tempPrefix))).constant?
    = some (.str settings.tempPrefix)
  isIdentifier : Text.isIdentifier settings.tempPrefix = true
  startsWith : settings.tempPrefix.startsWith "_" = true
  maxDepth : (valueFor entries maxDepthKey (.const (.int usual.maxDepth))).constant?
    = some (.int settings.maxDepth)
  one_le_maxDepth : 1 ≤ settings.maxDepth
  logLevel : ∃ level, settings.logLevel = Text.upper level ∧
    (valueFor entries logLevelKey (.const (.str usual.logLevel))).constant? = some (.str level)
  isLevel : (levels.lookup settings.logLevel).isSome = true

section Entries

variable {entries : List (Form × Form)} {data : List (Datum × Datum)}

/-- The dictionary that entries make has the last value of each key. -/
theorem toDatum_valueFor (h : Form.toEntries entries = .ok data) (key : String)
    (default : Constant) (built : List (Datum × Datum)) (form : Form)
    (hform : form.toDatum = .ok (valueOf built key default)) :
    (valueFor entries key form).toDatum = .ok (valueOf (data.foldl put built) key default) := by
  -- the form goes along with the dictionary: it stands for the value that the key has so far
  induction entries generalizing data built form with
  | nil => cases h; exact hform
  | cons entry entries ih =>
    obtain ⟨key', value⟩ := entry
    obtain ⟨k, v, rest, hk, hv, hrest, rfl⟩ := Form.toEntries_cons h
    refine ih hrest (put built (k, v)) _ ?_
    rw [valueOf_put]
    have hkey : k.equal (.const (.str key)) = true ↔ key'.constant? = some (.str key) :=
      Datum.equal_str_iff.trans (Form.eq_const_iff_of_toDatum hk _)
    by_cases hsame : key'.constant? = some (.str key)
    · simpa [hsame, hkey] using hv
    · simpa [hsame, hkey] using hform

/-- A map has known keys only if all its entries do, also those which are replaced. -/
theorem known_foldl_put (h : Form.toEntries entries = .ok data) (built : List (Datum × Datum)) :
    (∀ e ∈ data.foldl put built, isKnown e.1 = true) ↔
      (∀ e ∈ entries, ∃ key ∈ knownKeys, e.1.constant? = some (.str key)) ∧
        ∀ e ∈ built, isKnown e.1 = true := by
  induction entries generalizing data built with
  | nil => cases h; simp
  | cons entry entries ih =>
    obtain ⟨key', value⟩ := entry
    obtain ⟨k, v, rest, hk, -, hrest, rfl⟩ := Form.toEntries_cons h
    have hkey : isKnown k = true ↔ ∃ key ∈ knownKeys, key'.constant? = some (.str key) := by
      rw [isKnown_iff]
      simp only [Form.eq_const_iff_of_toDatum hk]
    rw [List.foldl_cons, ih hrest, known_put, List.forall_mem_cons, hkey, and_left_comm, and_assoc]

end Entries

/-! ### Checks -/

section Checks

variable {got : Datum} {s : String} {i : Int} {fault : SettingsFault}

/-- A prefix is an identifier that begins with an underscore. -/
theorem checkTempPrefix_eq_ok_iff : checkTempPrefix got = .ok s ↔
    got = .const (.str s) ∧ Text.isIdentifier s = true ∧ s.startsWith "_" = true := by
  unfold checkTempPrefix
  split
  · split
    · grind
    · split <;> grind
  · grind

theorem checkMaxDepth_eq_ok_iff : checkMaxDepth got = .ok i ↔ got = .const (.int i) ∧ 1 ≤ i := by
  unfold checkMaxDepth
  split
  · split <;> grind
  · grind

/-- A level is the name of one in letters of either case. -/
theorem checkLogLevel_eq_ok_iff : checkLogLevel got = .ok s ↔
    (∃ level, s = Text.upper level ∧ got = .const (.str level)) ∧
      (levels.lookup s).isSome = true := by
  unfold checkLogLevel
  split
  · dsimp only
    split <;> grind
  · grind

theorem isContent_of_checkTempPrefix (h : checkTempPrefix got = .error fault) :
    fault.isContent = true := by
  unfold checkTempPrefix at h
  grind [SettingsFault.isContent]

theorem isContent_of_checkMaxDepth (h : checkMaxDepth got = .error fault) :
    fault.isContent = true := by
  unfold checkMaxDepth at h
  grind [SettingsFault.isContent]

theorem isContent_of_checkLogLevel (h : checkLogLevel got = .error fault) :
    fault.isContent = true := by
  unfold checkLogLevel at h
  grind [SettingsFault.isContent]

end Checks

/-- Settings are made of entries whose keys are known and whose values pass their checks. -/
theorem ofEntries_eq_ok_iff {made : List (Datum × Datum)} {file : Option String}
    {settings : Settings} : ofEntries made file = .ok settings ↔
    ((∀ e ∈ made, isKnown e.1 = true) ∧
      checkTempPrefix (valueOf made tempPrefixKey (.str usual.tempPrefix))
        = .ok settings.tempPrefix ∧
      checkMaxDepth (valueOf made maxDepthKey (.int usual.maxDepth)) = .ok settings.maxDepth ∧
      checkLogLevel (valueOf made logLevelKey (.str usual.logLevel)) = .ok settings.logLevel) ∧
      settings.file = file ∧ settings.written = .dict made := by
  rw [← unknownKeys_eq_nil_iff]
  unfold ofEntries
  constructor
  · intro h
    cases hkeys : unknownKeys made with
    | cons key keys => rw [hkeys] at h; cases h
    | nil =>
      rw [hkeys] at h
      obtain ⟨tempPrefix, htemp, h⟩ := Parsing.bind_ok h
      obtain ⟨maxDepth, hdepth, h⟩ := Parsing.bind_ok h
      obtain ⟨logLevel, hlevel, h⟩ := Parsing.bind_ok h
      cases h
      exact ⟨⟨rfl, htemp, hdepth, hlevel⟩, rfl, rfl⟩
  · rintro ⟨⟨hkeys, htemp, hdepth, hlevel⟩, rfl, hwritten⟩
    simp only [usual] at htemp hdepth hlevel
    simp only [hkeys, htemp, hdepth, hlevel, ← hwritten]
    rfl

theorem bind_error {ε α β : Type} {m : Except ε α} {f : α → Except ε β} {e : ε}
    (h : (m >>= f) = .error e) : m = .error e ∨ ∃ a, m = .ok a ∧ f a = .error e := by
  cases m with
  | error e' => cases h; exact .inl rfl
  | ok a => exact .inr ⟨a, rfl, h⟩

/-- Whatever check fails, the fault is about the content of the file. -/
theorem isContent_of_ofEntries {made : List (Datum × Datum)} {file : Option String}
    {fault : SettingsFault} (h : ofEntries made file = .error fault) : fault.isContent = true := by
  unfold ofEntries at h
  cases hkeys : unknownKeys made with
  | cons key keys => rw [hkeys] at h; cases h; rfl
  | nil =>
    rw [hkeys] at h
    obtain h | ⟨tempPrefix, -, h⟩ := bind_error h
    · exact isContent_of_checkTempPrefix h
    obtain h | ⟨maxDepth, -, h⟩ := bind_error h
    · exact isContent_of_checkMaxDepth h
    obtain h | ⟨logLevel, -, h⟩ := bind_error h
    · exact isContent_of_checkLogLevel h
    cases h

/-- The dictionary of a map makes the settings that the map says. -/
theorem ofEntries_eq_ok_iff_said {entries : List (Form × Form)} {data : List (Datum × Datum)}
    (h : Form.toEntries entries = .ok data) {file : Option String} {settings : Settings} :
    ofEntries (data.foldl put []) file = .ok settings ↔
      Says entries settings ∧ settings.file = file ∧
        settings.written = .dict (data.foldl put []) := by
  -- each value that is checked is a constant just if the form that it comes from stands for one
  have hvalue (key : String) (default c : Constant) :
      valueOf (data.foldl put []) key default = .const c ↔
        (valueFor entries key (.const default)).constant? = some c :=
    Form.eq_const_iff_of_toDatum (toDatum_valueFor h key default [] _ rfl) c
  rw [ofEntries_eq_ok_iff, known_foldl_put h, checkTempPrefix_eq_ok_iff, checkMaxDepth_eq_ok_iff,
    checkLogLevel_eq_ok_iff]
  simp only [hvalue]
  refine and_congr_left fun _ => ⟨?_, fun hsaid => ?_⟩
  · rintro ⟨⟨hknown, -⟩, ⟨htemp, hident, hstart⟩, ⟨hdepth, hone⟩, hlevel, hname⟩
    exact ⟨hknown, htemp, hident, hstart, hdepth, hone, hlevel, hname⟩
  · exact ⟨⟨hsaid.known, nofun⟩, ⟨hsaid.tempPrefix, hsaid.isIdentifier, hsaid.startsWith⟩,
      ⟨hsaid.maxDepth, hsaid.one_le_maxDepth⟩, hsaid.logLevel, hsaid.isLevel⟩

/-! ### Reading a file -/

/-- The entries of the first map in a text, if the text can be read and has one. -/
def mapIn? (text : String) : Option (List (Form × Form)) :=
  (Form.readAll text).toOption.bind firstMap?

/-- A text that is unreadable or has no map as its first form is reported. -/
theorem ofText_of_no_map (file : String) {text : String} (h : mapIn? text = none) :
    ∃ fault, ofText file text = .error fault ∧ fault.isContent = true := by
  unfold ofText
  unfold mapIn? at h
  cases hread : Form.readAll text with
  | error fault => exact ⟨.unreadable file fault, rfl, rfl⟩
  | ok forms =>
    rw [hread] at h
    have hmap : firstMap? forms = none := h
    refine ⟨.noMap file, ?_, rfl⟩
    simp only [pure_bind, hmap]
    rfl

theorem ofText_of_map (file : String) {text : String} {entries : List (Form × Form)}
    (h : mapIn? text = some entries) :
    ofText file text = match Form.toDatum (.map entries .none) with
      | .ok (.dict made) => ofEntries made (some file)
      | .ok _ => .error (.noMap file)
      | .error type => .error (.unhashable type) := by
  unfold ofText
  unfold mapIn? at h
  cases hread : Form.readAll text with
  | error fault => rw [hread] at h; cases h
  | ok forms =>
    rw [hread] at h
    have hmap : firstMap? forms = some entries := h
    simp only [pure_bind, hmap]
    rfl

/-- A map with constants for keys either gives the settings that it says, or says none and has a
fault. -/
theorem ofText_of_hasKeys (file : String) {text : String} {entries : List (Form × Form)}
    (h : mapIn? text = some entries) (hkeys : Form.entriesHaveKeys entries = true) :
    (∃ settings, ofText file text = .ok settings ∧ Says entries settings ∧
        settings.file = some file) ∨
      (∃ fault, ofText file text = .error fault ∧ fault.isContent = true ∧
        ∀ settings, ¬Says entries settings) := by
  rw [ofText_of_map file h]
  obtain ⟨-, data, hdata, hdatum⟩ | ⟨hfalse, -⟩ := Form.toDatum_map entries .none
  · simp only [hdatum]
    cases hmade : ofEntries (data.foldl put []) (some file) with
    | ok settings =>
      obtain ⟨hsaid, hfile, -⟩ := (ofEntries_eq_ok_iff_said hdata).mp hmade
      exact .inl ⟨settings, rfl, hsaid, hfile⟩
    | error fault =>
      refine .inr ⟨fault, rfl, isContent_of_ofEntries hmade, fun settings hsaid => ?_⟩
      -- settings that were said would be made, whatever file and text are noted in them
      have hok : ofEntries (data.foldl put []) (some file)
          = .ok { settings with file := some file, written := .dict (data.foldl put []) } :=
        (ofEntries_eq_ok_iff_said hdata).mpr
          ⟨⟨hsaid.known, hsaid.tempPrefix, hsaid.isIdentifier, hsaid.startsWith, hsaid.maxDepth,
            hsaid.one_le_maxDepth, hsaid.logLevel, hsaid.isLevel⟩, rfl, rfl⟩
      cases hmade.symm.trans hok
  · cases hkeys.symm.trans hfalse

/-- A map with a key that cannot be one escapes as a failure of another kind. -/
theorem ofText_of_not_hasKeys (file : String) {text : String} {entries : List (Form × Form)}
    (h : mapIn? text = some entries) (hkeys : Form.entriesHaveKeys entries = false) :
    ∃ type, ofText file text = .error (.unhashable type) := by
  rw [ofText_of_map file h]
  obtain ⟨htrue, -⟩ | ⟨-, type, hdatum⟩ := Form.toDatum_map entries .none
  · cases hkeys.symm.trans htrue
  · exact ⟨type, by rw [hdatum]⟩

/-- The file that the settings for a path are read from, if there is one. -/
def fileFor? (tree : FileTree) (path : Option String) : Option String :=
  match path with
  | none => (findRoot tree none).map fun root => (root.child fileName).text
  | some p =>
    if !tree.pathExists p then none
    else if tree.isFile p then some (tree.absolute p).text
    else (findRoot tree path).map fun root => (root.child fileName).text

/-- If the file is there, its text is all that matters. -/
theorem load_eq_ofText {tree : FileTree} {path : Option String} {file text : String}
    (hfile : fileFor? tree path = some file) (htext : tree.read file = .ok text) :
    load tree path = ofText file text := by
  have hsearch (from? : Option String)
      (h : (findRoot tree from?).map (fun root => (root.child fileName).text) = some file) :
      load.search tree from? = ofText file text := by
    obtain ⟨root, hroot, rfl⟩ := Option.map_eq_some_iff.mp h
    simp only [load.search, hroot, ofFile, htext]
  cases path with
  | none => exact hsearch none hfile
  | some p =>
    unfold fileFor? at hfile
    unfold load
    dsimp only at hfile ⊢
    split at hfile
    · cases hfile
    · rw [if_neg ‹_›]
      split at hfile
      · cases hfile
        rw [if_pos ‹_›, ofFile, htext]
      · rw [if_neg ‹_›]
        exact hsearch (some p) hfile

end Settings

/-! ### The command line -/

namespace Command

/-- The path that the command looks for settings from, unless its words make it end before. -/
def settingsPath? (tree : FileTree) (words : List String) : Option (Option String) :=
  match Arguments.read (splitFile words).2 with
  | .error _ => none
  | .ok args =>
    let target := (targetOf (splitFile words).1 args).filter tree.pathExists
    some (given args.config <|> target.map fun target => (tree.absolute target).parent.text)

/-- The command line reads the settings of the path that its arguments name. -/
theorem settingsFor_of_settingsPath? {tree : FileTree} {words : List String}
    {path : Option String} (h : settingsPath? tree words = some path) :
    ∃ args, Arguments.read (splitFile words).2 = .ok args ∧
      settingsFor tree args (targetOf (splitFile words).1 args) = Settings.load tree path := by
  unfold settingsPath? at h
  cases hargs : Arguments.read (splitFile words).2 with
  | error stop => rw [hargs] at h; cases h
  | ok args =>
    rw [hargs] at h
    cases h
    refine ⟨args, rfl, ?_⟩
    unfold settingsFor
    cases given args.config with
    | some path => rfl
    | none => cases (targetOf (splitFile words).1 args).filter tree.pathExists <;> rfl

/-- The command reports a fault that lies in what a file of settings says. -/
theorem run_of_isContent {tree : FileTree} {words : List String} {path : Option String}
    {fault : SettingsFault} (hpath : settingsPath? tree words = some path)
    (hload : Settings.load tree path = .error fault) (hfault : fault.isContent = true) :
    run tree words =
      { errors := "Error in " ++ Settings.fileName ++ ": " ++ fault.message ++ "\n"
        ending := .exit 1 } := by
  obtain ⟨args, hargs, hsettings⟩ := settingsFor_of_settingsPath? hpath
  simp only [run, hargs, hsettings, hload]
  cases fault <;> first | rfl | cases hfault

/-- The command does not report a key that cannot be one. -/
theorem run_of_unhashable {tree : FileTree} {words : List String} {path : Option String}
    {type : String} (hpath : settingsPath? tree words = some path)
    (hload : Settings.load tree path = .error (.unhashable type)) :
    run tree words = { ending := .escaped (.failed (.unhashable type)) } := by
  obtain ⟨args, hargs, hsettings⟩ := settingsFor_of_settingsPath? hpath
  simp only [run, hargs, hsettings, hload]

end Command

namespace Settings

/-- A file of settings, whatever its text, gives settings that its first map says and that pass all
checks, or it is reported, and then also by the command. The exception is a first map in which some
map has a key that stands for no constant: it ends in a failure that the command does not report. -/
theorem load_accepts_or_reports (tree : FileTree) (path : Option String) (file text : String)
    (hfile : fileFor? tree path = some file) (htext : tree.read file = .ok text) :
    ((∀ entries ∈ mapIn? text, Form.entriesHaveKeys entries = true) →
      (∃ settings, load tree path = .ok settings ∧ settings.file = some file ∧
        ∃ entries ∈ mapIn? text, Says entries settings) ∨
      (∃ fault, load tree path = .error fault ∧ fault.isContent = true ∧
        (∀ entries ∈ mapIn? text, ∀ settings, ¬Says entries settings) ∧
        ∀ words, Command.settingsPath? tree words = some path →
          Command.run tree words =
            { errors := "Error in " ++ fileName ++ ": " ++ fault.message ++ "\n"
              ending := .exit 1 })) ∧
    (∀ entries ∈ mapIn? text, Form.entriesHaveKeys entries = false →
      ∃ type, load tree path = .error (.unhashable type) ∧
        ∀ words, Command.settingsPath? tree words = some path →
          Command.run tree words = { ending := .escaped (.failed (.unhashable type)) }) := by
  have hload : load tree path = ofText file text := load_eq_ofText hfile htext
  refine ⟨fun hkeys => ?_, fun entries hmap hkeys => ?_⟩
  · cases hmap : mapIn? text with
    | none =>
      obtain ⟨fault, hfault, hcontent⟩ := ofText_of_no_map file hmap
      exact .inr ⟨fault, hload.trans hfault, hcontent, nofun,
        fun words hpath => Command.run_of_isContent hpath (hload.trans hfault) hcontent⟩
    | some entries =>
      obtain ⟨settings, hok, hsaid, hof⟩ | ⟨fault, hfault, hcontent, hnone⟩ :=
        ofText_of_hasKeys file hmap (hkeys entries hmap)
      · exact .inl ⟨settings, hload.trans hok, hof, entries, rfl, hsaid⟩
      · refine .inr ⟨fault, hload.trans hfault, hcontent, ?_,
          fun words hpath => Command.run_of_isContent hpath (hload.trans hfault) hcontent⟩
        rintro _ ⟨⟩ settings
        exact hnone settings
  · obtain ⟨type, htype⟩ := ofText_of_not_hasKeys file hmap hkeys
    exact ⟨type, hload.trans htype,
      fun words hpath => Command.run_of_unhashable hpath (hload.trans htype)⟩

/-- A file system with nothing but a file of settings. -/
def folderWith (text : String) : FileTree where
  files := [([fileName], text)]

theorem folderWith_find (text : String) :
    (folderWith text).find "/letloop.it" = .ok (.file text) := by
  have hparts : "/letloop.it".splitOn "/" = ["", "letloop.it"] := by
    rw [String.splitOn, if_neg (by decide)]
    repeat (rw [String.splitOnAux]; simp (disch := decide) only [if_neg, if_pos])
    decide
  have hstart : "/letloop.it".startsWith "/" = true := by decide +kernel
  rw [FileTree.find, hparts, hstart]
  rfl

theorem folderWith_fileFor? (text : String) :
    fileFor? (folderWith text) none = some "/letloop.it" := by
  have htext : (Path.child ⟨[], false⟩ fileName).text = "/letloop.it" := by decide
  have hroot : findRoot (folderWith text) none = some ⟨[], false⟩ := by
    have hisFile : (folderWith text).isFile (Path.child ⟨[], false⟩ fileName).text = true := by
      rw [htext, FileTree.isFile, folderWith_find]
    have hfolders : FileTree.ancestors ⟨[], false⟩ = [⟨[], false⟩] := by decide
    have hhere : (folderWith text).here = [] := rfl
    simp only [findRoot, FileTree.findUp, hhere, hfolders, List.find?_cons, hisFile]
  rw [fileFor?, hroot, Option.map_some, htext]

theorem folderWith_read {text : String} (hlines : FileTree.unixLines text.toList = text.toList) :
    (folderWith text).read "/letloop.it" = .ok text := by
  rw [FileTree.read, folderWith_find]
  exact congrArg Except.ok ((congrArg String.ofList hlines).trans String.ofList_toList)

theorem folderWith_load {text : String} (hlines : FileTree.unixLines text.toList = text.toList) :
    load (folderWith text) none = ofText "/letloop.it" text :=
  load_eq_ofText (folderWith_fileFor? text) (folderWith_read hlines)

def smallLevel : String := "\x7b:log-level \"debug\"\x7d"

def numberLevel : String := "\x7b:log-level 1\x7d"

def vectorKey : String := "\x7b[1] 2\x7d"

/-- A level may be written in small letters, a number for it is reported, and a vector as a key ends
in a failure. -/
theorem load_accepts_or_reports_levels :
    (∃ settings, load (folderWith smallLevel) none = .ok settings ∧
      ∃ entries ∈ mapIn? smallLevel, Says entries settings) ∧
    (Command.run (folderWith numberLevel) ["-c", "1"]).ending = .exit 1 ∧
    ∃ type, load (folderWith vectorKey) none = .error (.unhashable type) := by
  refine ⟨?_, ?_, ?_⟩
  · have hkeys : (mapIn? smallLevel).all Form.entriesHaveKeys = true := by
      decide +kernel
    have hok : (ofText "/letloop.it" smallLevel).isOk = true := by decide +kernel
    rw [← folderWith_load (by decide)] at hok
    obtain ⟨haccepts, -⟩ := load_accepts_or_reports _ none _ _
      (folderWith_fileFor? smallLevel) (folderWith_read (by decide))
    obtain ⟨settings, hload, -, hsaid⟩ | ⟨fault, hload, -⟩ :=
      haccepts fun entries hmap => by rw [hmap] at hkeys; exact hkeys
    · exact ⟨settings, hload, hsaid⟩
    · cases hload ▸ hok
  · have hkeys : (mapIn? numberLevel).all Form.entriesHaveKeys = true := by decide +kernel
    have hnot : (ofText "/letloop.it" numberLevel).isOk = false := by decide +kernel
    have hpath : Command.settingsPath? (folderWith numberLevel) ["-c", "1"] = some none := by
      decide +kernel
    rw [← folderWith_load (by decide)] at hnot
    obtain ⟨hreports, -⟩ := load_accepts_or_reports _ none _ _
      (folderWith_fileFor? numberLevel) (folderWith_read (by decide))
    obtain ⟨settings, hload, -⟩ | ⟨fault, -, -, -, hrun⟩ :=
      hreports fun entries hmap => by rw [hmap] at hkeys; exact hkeys
    · cases hload ▸ hnot
    · rw [hrun _ hpath]
  · have hkeys : (mapIn? vectorKey).map Form.entriesHaveKeys = some false := by decide +kernel
    obtain ⟨entries, hmap, hkeys⟩ := Option.map_eq_some_iff.mp hkeys
    obtain ⟨-, hescapes⟩ := load_accepts_or_reports _ none _ _ (folderWith_fileFor? vectorKey)
      (folderWith_read (by decide))
    obtain ⟨type, hload, -⟩ := hescapes entries hmap hkeys
    exact ⟨type, hload⟩

end Settings

end TailLisp
