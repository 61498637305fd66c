import MatchingEngine.Foundation.Tokens
import Mathlib.Data.Multiset.Filter

/-!
# The configuration file

Every line of a configuration file gives an attribute and its value, with an equals sign between
them. Empty lines and lines that start with a number sign are skipped. An attribute may be given
several times, and the order of its values is not kept.

The checks of a line count its characters and its equals signs, and the split is done by a
tokenizer that drops empty tokens. A line with a single equals sign at one of its ends passes the
checks and has one token only.
-/

namespace MatchingEngine

/-- A text, as the list of its characters. A `Char` stands for one `char` of the program, which is a byte of the file, so
that a letter of several bytes is several of them. -/
abbrev Text := List Char

/-- Why a call does not return: it throws an exception, or one that its function may not throw, or an assertion fails, which
for the tokenizer means that it is past its end. -/
inductive Failure
  | invalidArgument (what : String)
  | outOfRange (what : String)
  | runtimeError (what : String)
  | badAlloc
  | unexpected
  | assertion
  | pastEnd
deriving DecidableEq

/-- The attributes and values that were read. -/
structure ConfigFile where
  dictionary : Multiset (Text × Text)
deriving DecidableEq

namespace ConfigFile

/-- Forget all attributes. -/
def clear (configuration : ConfigFile) : ConfigFile := { configuration with dictionary := 0 }

/-- Add a value of an attribute. -/
def insert (configuration : ConfigFile) (entry : Text × Text) : ConfigFile :=
  { configuration with dictionary := entry ::ₘ configuration.dictionary }

/-- The lines of a file. A line feed ends a line, and so does the end of the file after another character. -/
def lines : Text → List Text
  | [] => []
  | c :: rest =>
    if c = '\n' then [] :: lines rest
    else
      match lines rest with
      | [] => [[c]]
      | line :: lines => (c :: line) :: lines

/-- The position of a character in a text, from a position on. -/
def find (text : Text) (c : Char) (pos : ℕ) : Option ℕ := ((text.drop pos).idxOf? c).map (pos + ·)

/-- The delimiter of the tokens of a line. -/
def seperator (c : Char) : Bool := c == '='

/-- The first two tokens of a line. -/
def attributeAndValue (line : Text) : Option (Text × Text) := do
  let iter := TokenIterator.begin seperator line
  let attributeName ← iter.dereference
  let iter ← iter.increment seperator
  let value ← iter.dereference
  return (attributeName, value)

/-- Read a line. -/
def loadLine (configuration : ConfigFile) (lineNumber : ℕ) (line : Text) : Except Failure ConfigFile :=
  if line.head? = some '#' ∨ line.length = 0 then .ok configuration
  else if line.length < 3 then .error (.runtimeError s!"Line is too short , line number : {lineNumber}")
  else
    match find line '=' 0 with
    | none => .error (.runtimeError s!"Line doesn`t contain equals sign , line number : {lineNumber}")
    | some equalsPos =>
      if (find line '=' (equalsPos + 1)).isSome then
        .error (.runtimeError s!"Line contains more than one equals sign , line number : {lineNumber}")
      else
        match attributeAndValue line with
        | none => .error .pastEnd
        | some entry => .ok (configuration.insert entry)

/-- Read lines, from a line number on; the attributes read before an error are kept. -/
def loadLines (configuration : ConfigFile) (lineNumber : ℕ) : List Text → ConfigFile × Except Failure Unit
  | [] => (configuration, .ok ())
  | line :: lines =>
    match loadLine configuration lineNumber line with
    | .ok configuration => loadLines configuration (lineNumber + 1) lines
    | .error failure => (configuration, .error failure)

/-- Read a file, if it can be opened. -/
def loadFromFile (configuration : ConfigFile) (fileName : String) (file : Option Text) : ConfigFile × Except Failure Unit :=
  match file with
  | none => (configuration.clear, .error (.runtimeError s!"File {fileName} could not be opened"))
  | some content => loadLines configuration.clear 1 (lines content)

/-- All values of an array. -/
def getArray (configuration : ConfigFile) (attributeName : Text) : Multiset Text :=
  (configuration.dictionary.filter fun entry => entry.1 = attributeName ++ "[]".toList).map Prod.snd

/-- An attribute and a value as a line may give them. -/
structure Entry where
  attributeName : Text
  value : Text
  attributeName_ne : attributeName ≠ []
  value_ne : value ≠ []
  equals_not_mem_attributeName : '=' ∉ attributeName
  equals_not_mem_value : '=' ∉ value

namespace Entry

/-- The line that gives an attribute its value. -/
def line (entry : Entry) : Text := entry.attributeName ++ '=' :: entry.value

/-- What is kept of a line. -/
def pair (entry : Entry) : Text × Text := (entry.attributeName, entry.value)

end Entry

/-- A comment line or an empty line. -/
def Skipped (line : Text) : Prop := line = [] ∨ line.head? = some '#'

instance : DecidablePred Skipped := fun _ => inferInstanceAs (Decidable (_ ∨ _))

/-- A line that gives an attribute its value. -/
def WellFormed (line : Text) : Prop := ∃ entry : Entry, line = entry.line

/-- A line that a configuration file may contain. -/
def Accepted (line : Text) : Prop := Skipped line ∨ WellFormed line

/-- A line that is not too short, and whose only equals sign is its first or last character. -/
def OneSided (line : Text) : Prop :=
  3 ≤ line.length ∧ ∃ part : Text, '=' ∉ part ∧ (line = '=' :: part ∨ line = part ++ ['='])

section Line

variable {configuration : ConfigFile} {lineNumber : ℕ} {line left right : Text}

/-- A line contains an equals sign if one is found. -/
theorem find_eq_none : find line '=' 0 = none ↔ '=' ∉ line := by
  simp [find, List.idxOf?_eq_none_iff]

/-- The first equals sign is found. -/
theorem find_append (hleft : '=' ∉ left) : find (left ++ '=' :: right) '=' 0 = some left.length := by
  have hindex : (left ++ '=' :: right).idxOf? '=' = some left.length := by
    induction left with
    | nil => simp [List.idxOf?_cons]
    | cons c left ih =>
      obtain ⟨hc, hleft⟩ := not_or.mp (mt List.mem_cons.mpr hleft)
      simp [List.idxOf?_cons, Ne.symm hc, ih hleft]
  simp [find, hindex]

/-- Another equals sign is found after the first one if there is one. -/
theorem find_after : (find (left ++ '=' :: right) '=' (left.length + 1)).isSome = true ↔ '=' ∈ right := by
  have hdrop : (left ++ '=' :: right).drop (left.length + 1) = right := by simp
  rw [find, hdrop, Option.isSome_map, List.isSome_idxOf?]

/-- The attribute and the value are the first two tokens. -/
theorem attributeAndValue_eq :
    attributeAndValue line =
      match tokens seperator line with
      | attributeName :: value :: _ => some (attributeName, value)
      | _ => none := by
  have hbegin := TokenIterator.ahead_begin seperator line
  have hfirst := TokenIterator.dereference_eq seperator (.begin seperator line)
  rw [hbegin] at hfirst
  unfold attributeAndValue
  cases htokens : tokens seperator line with
  | nil => simp [hfirst, htokens]
  | cons attributeName tokens =>
    rw [htokens] at hbegin hfirst
    cases hincrement : (TokenIterator.begin seperator line).increment seperator with
    | none => simp [TokenIterator.increment_eq_none.mp hincrement] at hbegin
    | some next =>
      have hsecond := TokenIterator.dereference_eq seperator next
      rw [TokenIterator.increment_eq hincrement, hbegin] at hsecond
      cases tokens <;> simp [hfirst, hincrement, hsecond]

/-- Characters other than the equals sign are no delimiters. -/
theorem seperator_eq_false {text : Text} (htext : '=' ∉ text) : ∀ c ∈ text, seperator c = false := by
  intro c hc
  exact beq_eq_false_iff_ne.mpr fun heq => htext (heq ▸ hc)

/-- The two tokens of a well-formed line. -/
theorem attributeAndValue_line (entry : Entry) : attributeAndValue entry.line = some entry.pair := by
  rw [attributeAndValue_eq, Entry.line, tokens_append_cons _ _ rfl,
    tokens_of_forall entry.attributeName_ne (seperator_eq_false entry.equals_not_mem_attributeName),
    tokens_of_forall entry.value_ne (seperator_eq_false entry.equals_not_mem_value)]
  rfl

/-- A line with its only equals sign at one end has one token. -/
theorem OneSided.attributeAndValue_eq_none (h : OneSided line) : attributeAndValue line = none := by
  obtain ⟨hlength, part, hpart, hline⟩ := h
  have hne : part ≠ [] := by
    rintro rfl
    obtain rfl | rfl := hline <;> simp at hlength
  have htokens : tokens seperator line = [part] := by
    have htoken := tokens_of_forall hne (seperator_eq_false hpart)
    obtain rfl | rfl := hline
    · rw [tokens_cons rfl, htoken]
    · rw [tokens_append_cons _ _ rfl, htoken, tokens_nil, List.append_nil]
  rw [attributeAndValue_eq, htokens]

/-- The test that skips a line. -/
theorem skipped_iff : line.head? = some '#' ∨ line.length = 0 ↔ Skipped line := by
  rw [Skipped, List.length_eq_zero_iff, or_comm]

/-- Skipped lines are not read. -/
theorem loadLine_of_skipped (hskipped : Skipped line) : loadLine configuration lineNumber line = .ok configuration :=
  if_pos (skipped_iff.mpr hskipped)

/-- A line without an equals sign is an error. -/
theorem loadLine_of_not_mem (hskipped : ¬Skipped line) (hequals : '=' ∉ line) :
    ∃ what, ∀ configuration, loadLine configuration lineNumber line = .error (.runtimeError what) := by
  simp only [loadLine, if_neg (skipped_iff.not.mpr hskipped), find_eq_none.mpr hequals]
  split
  · exact ⟨_, fun _ => rfl⟩
  · exact ⟨_, fun _ => rfl⟩

/-- The checks of a line with an equals sign. -/
theorem loadLine_of_mem (hskipped : ¬Skipped (left ++ '=' :: right)) (hleft : '=' ∉ left) :
    loadLine configuration lineNumber (left ++ '=' :: right) =
      if (left ++ '=' :: right).length < 3 then .error (.runtimeError s!"Line is too short , line number : {lineNumber}")
      else if '=' ∈ right then
        .error (.runtimeError s!"Line contains more than one equals sign , line number : {lineNumber}")
      else
        match attributeAndValue (left ++ '=' :: right) with
        | none => .error .pastEnd
        | some entry => .ok (configuration.insert entry) := by
  rw [loadLine, if_neg (skipped_iff.not.mpr hskipped), find_append hleft]
  simp only [find_after]

/-- A well-formed line gives an attribute its value. -/
theorem loadLine_line (entry : Entry) (hskipped : ¬Skipped entry.line) :
    loadLine configuration lineNumber entry.line = .ok (configuration.insert entry.pair) := by
  have hattributeName := List.length_pos_iff.mpr entry.attributeName_ne
  have hvalue := List.length_pos_iff.mpr entry.value_ne
  have hlength : ¬(entry.attributeName ++ '=' :: entry.value).length < 3 := by
    rw [List.length_append, List.length_cons]
    omega
  have hpair := attributeAndValue_line entry
  rw [Entry.line] at hpair hskipped ⊢
  rw [loadLine_of_mem hskipped entry.equals_not_mem_attributeName, if_neg hlength, if_neg entry.equals_not_mem_value, hpair]

/-- A one-sided line is read past its only token. -/
theorem loadLine_of_oneSided (hskipped : ¬Skipped line) (h : OneSided line) :
    loadLine configuration lineNumber line = .error .pastEnd := by
  have hnone := h.attributeAndValue_eq_none
  obtain ⟨hlength, part, hpart, rfl | rfl⟩ := h
  · rw [← List.nil_append ('=' :: part)] at hskipped hnone hlength ⊢
    rw [loadLine_of_mem hskipped List.not_mem_nil, if_neg (not_lt.mpr hlength), if_neg hpart, hnone]
  · rw [loadLine_of_mem hskipped hpart, if_neg (not_lt.mpr hlength), if_neg List.not_mem_nil, hnone]

/-- All other lines are errors. -/
theorem loadLine_of_not_wellFormed (hskipped : ¬Skipped line) (hform : ¬WellFormed line) (hsides : ¬OneSided line) :
    ∃ what, ∀ configuration, loadLine configuration lineNumber line = .error (.runtimeError what) := by
  by_cases hequals : '=' ∈ line
  · obtain ⟨left, right, rfl, hleft⟩ := List.eq_append_cons_of_mem hequals
    simp only [loadLine_of_mem hskipped hleft]
    split
    · exact ⟨_, fun _ => rfl⟩
    rename_i hlength
    split
    · exact ⟨_, fun _ => rfl⟩
    rename_i hright
    -- A single equals sign that is at neither end leaves two parts, and one at an end is excluded.
    have hleftEmpty : left ≠ [] := by
      rintro rfl
      exact hsides ⟨not_lt.mp hlength, right, hright, Or.inl rfl⟩
    have hrightEmpty : right ≠ [] := by
      rintro rfl
      exact hsides ⟨not_lt.mp hlength, left, hleft, Or.inr rfl⟩
    exact absurd ⟨⟨left, right, hleftEmpty, hrightEmpty, hleft, hright⟩, rfl⟩ hform
  · exact loadLine_of_not_mem hskipped hequals

end Line

/-- Among the lines is a one-sided one, and those before it are accepted. -/
def ReachesOneSided (lines : List Text) : Prop :=
  ∃ before line after, lines = before ++ line :: after ∧ (∀ earlier ∈ before, Accepted earlier) ∧
    ¬Skipped line ∧ OneSided line

/-- A file is read if and only if all its lines are accepted, and then the attributes and values are those that its lines
give. Reading any other file throws a runtime error. -/
structure LoadsByGrammar (configuration : ConfigFile) (fileName : String) (content : Text) : Prop where
  returns_iff : (configuration.loadFromFile fileName (some content)).2 = .ok () ↔ ∀ line ∈ lines content, Accepted line
  dictionary : (configuration.loadFromFile fileName (some content)).2 = .ok () →
    ∃ entries : List Entry, (lines content).filter (fun line => ¬Skipped line) = entries.map Entry.line ∧
      (configuration.loadFromFile fileName (some content)).1.dictionary = entries.map Entry.pair ∧
      ∀ attributeName, (configuration.loadFromFile fileName (some content)).1.getArray attributeName =
        (entries.filter fun entry => entry.attributeName = attributeName ++ "[]".toList).map Entry.value
  fails : (configuration.loadFromFile fileName (some content)).2 = .ok () ∨
    ∃ what, (configuration.loadFromFile fileName (some content)).2 = .error (.runtimeError what)

section File

variable {content : Text} {before after : List Text}

/-- Accepted lines add their attributes and values. -/
theorem loadLines_append (haccepted : ∀ line ∈ before, Accepted line) (configuration : ConfigFile) (lineNumber : ℕ) :
    ∃ entries : List Entry, before.filter (fun line => ¬Skipped line) = entries.map Entry.line ∧
      ∀ after, loadLines configuration lineNumber (before ++ after) =
        loadLines ⟨entries.map Entry.pair + configuration.dictionary⟩ (lineNumber + before.length) after := by
  induction before generalizing configuration lineNumber with
  | nil => exact ⟨[], rfl, by simp⟩
  | cons line before ih =>
    obtain ⟨hline, hbefore⟩ := List.forall_mem_cons.mp haccepted
    by_cases hskipped : Skipped line
    · obtain ⟨entries, hentries, hload⟩ := ih hbefore configuration (lineNumber + 1)
      refine ⟨entries, by simpa [hskipped] using hentries, fun after => ?_⟩
      rw [List.cons_append, loadLines, loadLine_of_skipped hskipped]
      simp only [hload, List.length_cons, Nat.add_right_comm lineNumber 1, Nat.add_assoc]
    · obtain ⟨entry, rfl⟩ := hline.resolve_left hskipped
      obtain ⟨entries, hentries, hload⟩ := ih hbefore (configuration.insert entry.pair) (lineNumber + 1)
      refine ⟨entry :: entries, by simpa [hskipped] using hentries, fun after => ?_⟩
      rw [List.cons_append, loadLines, loadLine_line entry hskipped]
      simp only [hload]
      simp only [insert, List.map_cons, ← Multiset.cons_coe, Multiset.cons_add, Multiset.add_cons, List.length_cons,
        Nat.add_right_comm lineNumber 1, Nat.add_assoc]

/-- A file of accepted lines is read. -/
theorem loadFromFile_of_accepted (haccepted : ∀ line ∈ lines content, Accepted line) (configuration : ConfigFile)
    (fileName : String) :
    ∃ entries : List Entry, (lines content).filter (fun line => ¬Skipped line) = entries.map Entry.line ∧
      configuration.loadFromFile fileName (some content) = (⟨entries.map Entry.pair⟩, .ok ()) := by
  obtain ⟨entries, hentries, hload⟩ := loadLines_append haccepted configuration.clear 1
  refine ⟨entries, hentries, ?_⟩
  have hload := hload []
  rw [List.append_nil, loadLines] at hload
  rw [loadFromFile, hload, clear, Multiset.add_zero]

/-- After accepted lines, the outcome is that of the first line that is not accepted. -/
theorem loadFromFile_of_error {line : Text} {failure : Failure} (hlines : lines content = before ++ line :: after)
    (hbefore : ∀ earlier ∈ before, Accepted earlier)
    (hline : ∀ configuration, loadLine configuration (1 + before.length) line = .error failure)
    (configuration : ConfigFile) (fileName : String) :
    (configuration.loadFromFile fileName (some content)).2 = .error failure := by
  obtain ⟨entries, _, hload⟩ := loadLines_append hbefore configuration.clear 1
  rw [loadFromFile, hlines, hload, loadLines, hline]

/-- The values of an array are those that its lines give. -/
theorem getArray_entries (entries : List Entry) (attributeName : Text) :
    getArray ⟨entries.map Entry.pair⟩ attributeName =
      (entries.filter fun entry => entry.attributeName = attributeName ++ "[]".toList).map Entry.value := by
  rw [getArray, Multiset.filter_coe, Multiset.map_coe, List.filter_map, List.map_map]
  rfl

/-- The first line that is not accepted, if there is one. -/
theorem accepted_or_first_rejected (lines : List Text) :
    (∀ line ∈ lines, Accepted line) ∨
      ∃ before line after, lines = before ++ line :: after ∧ (∀ earlier ∈ before, Accepted earlier) ∧ ¬Accepted line := by
  classical
  cases hfirst : lines.find? fun line => decide ¬Accepted line with
  | none => exact Or.inl (by simpa using hfirst)
  | some line =>
    obtain ⟨hline, before, after, hlines, hbefore⟩ := List.find?_eq_some_iff_append.mp hfirst
    exact Or.inr ⟨before, line, after, hlines, by simpa using hbefore, by simpa using hline⟩

/-- A file that is read by its grammar is not read past the end of a tokenizer. -/
theorem LoadsByGrammar.ne_pastEnd {configuration : ConfigFile} {fileName : String}
    (h : LoadsByGrammar configuration fileName content) :
    (configuration.loadFromFile fileName (some content)).2 ≠ .error .pastEnd := by
  obtain hok | ⟨what, herror⟩ := h.fails
  · simp [hok]
  · simp [herror]

end File

/-- A file is read by its grammar if and only if no one-sided line comes before all other lines that are not accepted. -/
theorem loads_by_grammar_iff (configuration : ConfigFile) (fileName : String) (content : Text) :
    LoadsByGrammar configuration fileName content ↔ ¬ReachesOneSided (lines content) := by
  constructor
  · rintro hloads ⟨before, line, after, hlines, hbefore, hskipped, hline⟩
    have hpastEnd : (configuration.loadFromFile fileName (some content)).2 = .error .pastEnd :=
      loadFromFile_of_error hlines hbefore (fun _ => loadLine_of_oneSided hskipped hline) configuration fileName
    exact hloads.ne_pastEnd hpastEnd
  · intro hreaches
    obtain haccepted | ⟨before, line, after, hlines, hbefore, hline⟩ := accepted_or_first_rejected (lines content)
    · obtain ⟨entries, hentries, hload⟩ := loadFromFile_of_accepted haccepted configuration fileName
      refine ⟨⟨fun _ => haccepted, fun _ => by rw [hload]⟩, fun _ => ⟨entries, hentries, by rw [hload], fun _ => ?_⟩,
        Or.inl (by rw [hload])⟩
      rw [hload, getArray_entries]
    · obtain ⟨hskipped, hform⟩ := not_or.mp hline
      have hsides : ¬OneSided line := fun hsides => hreaches ⟨before, line, after, hlines, hbefore, hskipped, hsides⟩
      obtain ⟨what, hwhat⟩ := loadLine_of_not_wellFormed hskipped hform hsides
      have herror := loadFromFile_of_error hlines hbefore hwhat configuration fileName
      refine ⟨?_, ?_, Or.inr ⟨what, herror⟩⟩
      · rw [herror, hlines]
        exact ⟨fun hok => (by cases hok), fun haccepted => absurd (haccepted line (by simp)) hline⟩
      · intro hok
        rw [herror] at hok
        cases hok

/-- A line that ends with its only equals sign is read past its only token. -/
theorem oneSided_pastEnd :
    (loadFromFile ⟨0⟩ "ome.ini" (some "ab=".toList)).2 = .error .pastEnd ∧ ¬LoadsByGrammar ⟨0⟩ "ome.ini" "ab=".toList := by
  have hpastEnd : (loadFromFile ⟨0⟩ "ome.ini" (some "ab=".toList)).2 = .error .pastEnd := by rfl
  exact ⟨hpastEnd, fun hloads => hloads.ne_pastEnd hpastEnd⟩

/-- A file with a line for every entry. -/
def contentOf (entries : List Entry) : Text := entries.flatMap fun entry => entry.line ++ ['\n']

/-- A line feed ends a line. -/
theorem lines_append {line : Text} (hline : '\n' ∉ line) (rest : Text) :
    lines (line ++ '\n' :: rest) = line :: lines rest := by
  induction line with
  | nil => rfl
  | cons c line ih =>
    obtain ⟨hc, hline⟩ := not_or.mp (mt List.mem_cons.mpr hline)
    rw [List.cons_append, lines, if_neg (Ne.symm hc), ih hline]

/-- The lines of the file are those of its entries. -/
theorem lines_contentOf {entries : List Entry} (hlines : ∀ entry ∈ entries, '\n' ∉ entry.line) :
    lines (contentOf entries) = entries.map Entry.line := by
  induction entries with
  | nil => rfl
  | cons entry entries ih =>
    obtain ⟨hentry, hlines⟩ := List.forall_mem_cons.mp hlines
    rw [contentOf, List.flatMap_cons, List.append_assoc, List.singleton_append, lines_append hentry, List.map_cons]
    exact congrArg _ (ih hlines)

/-- Lines of entries are of one entry only. -/
theorem Entry.line_injective : Function.Injective Entry.line := by
  intro first second heq
  have hpairs := congrArg attributeAndValue heq
  rw [attributeAndValue_line, attributeAndValue_line] at hpairs
  obtain ⟨hattributeName, hvalue⟩ := Prod.mk.inj (Option.some.inj hpairs)
  cases first
  cases second
  obtain rfl : _ = _ := hattributeName
  obtain rfl : _ = _ := hvalue
  rfl

/-- Entries that are written to a file, none of which reads as a comment, are read back, and nothing else is. -/
theorem loadFromFile_contentOf (configuration : ConfigFile) (fileName : String) {entries : List Entry}
    (hlines : ∀ entry ∈ entries, '\n' ∉ entry.line) (hskipped : ∀ entry ∈ entries, ¬Skipped entry.line) :
    configuration.loadFromFile fileName (some (contentOf entries)) = (⟨entries.map Entry.pair⟩, .ok ()) := by
  have hcontent := lines_contentOf hlines
  have haccepted : ∀ line ∈ lines (contentOf entries), Accepted line := by
    rw [hcontent]
    intro line hline
    obtain ⟨entry, _, rfl⟩ := List.mem_map.mp hline
    exact Or.inr ⟨entry, rfl⟩
  obtain ⟨read, hread, hload⟩ := loadFromFile_of_accepted haccepted configuration fileName
  have hall : (entries.map Entry.line).filter (fun line => ¬Skipped line) = entries.map Entry.line := by
    rw [List.filter_eq_self]
    intro line hline
    obtain ⟨entry, hentry, rfl⟩ := List.mem_map.mp hline
    exact decide_eq_true (hskipped entry hentry)
  rw [hcontent, hall] at hread
  rw [hload, List.map_injective_iff.mpr Entry.line_injective hread]

/-- An array with two values, after a comment and an empty line. -/
example :
    (loadFromFile ⟨0⟩ "ome.ini" (some "#Symbols array\n\nSYMBOL[]=MSFT\nSYMBOL[]=AAPL\n".toList)).1.getArray "SYMBOL".toList =
      {"AAPL".toList, "MSFT".toList} := by decide

end ConfigFile

end MatchingEngine
