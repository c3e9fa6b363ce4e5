import Mathlib.Algebra.GroupWithZero.Nat
import Mathlib.Data.List.Basic

/-! Reading the text of a class body by the lexical rules of C++. -/

namespace SecretTyping

/-- Program text, as the characters it consists of. -/
abbrev Text := List Char

/-- The first position at which a pattern occurs in a text. -/
def findText (pattern : Text) : Text → Option Nat
  | [] => if pattern.isEmpty then some 0 else none
  | c :: rest =>
    if pattern.isPrefixOf (c :: rest) then some 0 else (findText pattern rest).map (· + 1)

/-- Texts with a comma and a space between neighbours. -/
def commaSeparated (texts : List Text) : Text := (texts.intersperse ", ".toList).flatten

/-- Between each two neighbours of a list stand two characters. -/
theorem length_commaSeparated (text : Text) (texts : List Text) :
    (commaSeparated (text :: texts)).length =
      text.length + (texts.map fun other => other.length + 2).sum := by
  -- By induction on the texts after the first.
  induction texts generalizing text with
  | nil => simp [commaSeparated]
  | cons next rest ih =>
    have others := ih next
    simp only [commaSeparated, List.intersperse, List.flatten_cons, List.length_append,
      List.map_cons, List.sum_cons] at others ⊢
    have comma : (", ".toList).length = 2 := rfl
    omega

/-- The access of a class member. -/
inductive AccessSpecifier where
  | asPublic
  | asProtected
  | asPrivate
  deriving DecidableEq

namespace Lexical

/-- Where a reader stands between two characters. -/
inductive Mode where
  /-- Ordinary code, with the word read so far. -/
  | code (word : Text)
  /-- After a slash that may open a comment. -/
  | slash
  | lineComment
  /-- After a backslash that joins the next line to a line comment. -/
  | lineSplice
  | blockComment
  | blockStar
  | stringLiteral
  | stringEscape
  | charLiteral
  | charEscape
  /-- Between the quote and the parenthesis of a raw string literal. -/
  | rawDelimiter (delimiter : Text)
  /-- Inside a raw string literal, with what followed the last closing parenthesis. -/
  | rawString (delimiter : Text) (closing : Option Text)
  deriving DecidableEq

/-- Code with no word begun. -/
abbrev Mode.fresh : Mode := .code []

/-- A reader counts open braces and knows the access the outermost class is in. -/
structure Reader where
  mode : Mode
  depth : Nat
  access : AccessSpecifier
  deriving DecidableEq

/-- Characters of identifiers, keywords and numbers. -/
def isWordChar (c : Char) : Bool := c.isAlphanum || c == '_'

/-- The access a word selects when a colon follows it. -/
def accessKeyword (word : Text) : Option AccessSpecifier :=
  -- Any other word before a colon is a label or a qualified name.
  if word = "public".toList then some .asPublic
  else if word = "protected".toList then some .asProtected
  else if word = "private".toList then some .asPrivate
  else none

/-- Encoding prefixes that make the next quote open a raw string literal. -/
def rawPrefixes : List Text := ["R".toList, "u8R".toList, "uR".toList, "UR".toList, "LR".toList]

/-- Read one character of code that is no part of a word. -/
def Reader.delimit (reader : Reader) (word : Text) (c : Char) : Reader :=
  -- The body of a class starts in private access, and labels count only directly inside it.
  if c = '{' then
    { mode := .fresh, depth := reader.depth + 1,
      access := if reader.depth = 0 then .asPrivate else reader.access }
  else if c = '}' then { reader with mode := .fresh, depth := reader.depth - 1 }
  else if c = ':' then
    { reader with
      mode := .fresh
      access := if reader.depth = 1 then (accessKeyword word).getD reader.access
        else reader.access }
  else if c = '/' then { reader with mode := .slash }
  else if c = '"' then
    { reader with mode := if word ∈ rawPrefixes then .rawDelimiter [] else .stringLiteral }
  else if c = '\'' then
    -- A quote inside a number separates digits.
    { reader with mode := if word.head?.any Char.isDigit then .code word else .charLiteral }
  else { reader with mode := .fresh }

/-- Read one character of code after the given part of a word. -/
def Reader.advance (reader : Reader) (word : Text) (c : Char) : Reader :=
  -- A word is read to its end before anything else is decided.
  if isWordChar c then { reader with mode := .code (word ++ [c]) } else reader.delimit word c

/-- Read one character. -/
def Reader.step (reader : Reader) (c : Char) : Reader :=
  -- Only code has braces, colons and quotes with a meaning; all other modes wait for their end.
  match reader.mode with
  | .code word => reader.advance word c
  | .slash =>
    if c = '/' then { reader with mode := .lineComment }
    else if c = '*' then { reader with mode := .blockComment }
    else reader.advance [] c
  | .lineComment =>
    if c = '\n' then { reader with mode := .fresh }
    else if c = '\\' then { reader with mode := .lineSplice }
    else reader
  | .lineSplice =>
    { reader with mode := if c = '\\' then .lineSplice else .lineComment }
  | .blockComment => { reader with mode := if c = '*' then .blockStar else .blockComment }
  | .blockStar =>
    { reader with
      mode := if c = '/' then .fresh else if c = '*' then .blockStar else .blockComment }
  | .stringLiteral =>
    { reader with
      mode := if c = '"' then .fresh else if c = '\\' then .stringEscape else .stringLiteral }
  | .stringEscape => { reader with mode := .stringLiteral }
  | .charLiteral =>
    { reader with
      mode := if c = '\'' then .fresh else if c = '\\' then .charEscape else .charLiteral }
  | .charEscape => { reader with mode := .charLiteral }
  | .rawDelimiter delimiter =>
    { reader with
      mode := if c = '(' then .rawString delimiter none else .rawDelimiter (delimiter ++ [c]) }
  | .rawString delimiter closing =>
    { reader with
      mode :=
        if c = '"' ∧ closing = some delimiter then .fresh
        else if c = ')' then .rawString delimiter (some [])
        else .rawString delimiter (closing.map (· ++ [c])) }

/-- Read a text from left to right. -/
def Reader.read (reader : Reader) (text : Text) : Reader := text.foldl Reader.step reader

/-- A reader before the first character of a class. -/
def Reader.start : Reader := { mode := .fresh, depth := 0, access := .asPrivate }

/-- The section of the class that a text leaves open for what follows it, if it ends in code. -/
def sectionAfter (text : Text) : Option AccessSpecifier :=
  -- Inside a literal or a comment, and deeper inside the class, no section is open for members.
  let reader := Reader.start.read text
  match reader.mode with
  | .code _ => if reader.depth = 1 then some reader.access else none
  | _ => none

@[simp] theorem read_nil (reader : Reader) : reader.read [] = reader := rfl

@[simp] theorem read_cons (reader : Reader) (c : Char) (text : Text) :
    reader.read (c :: text) = (reader.step c).read text := rfl

@[simp] theorem read_append (reader : Reader) (first second : Text) :
    reader.read (first ++ second) = (reader.read first).read second :=
  List.foldl_append

/-- A reader directly inside a class or deeper, between two tokens. -/
abbrev inside (mode : Mode) (depth : Nat) (access : AccessSpecifier) : Reader :=
  { mode, depth := depth + 1, access }

/-- A mode that any separator ends. -/
def Mode.Resting : Mode → Prop
  | .code _ => True
  | .slash => True
  | _ => False

/-- Text that leaves braces, literals, comments and the current section as it found them. -/
def Neutral (text : Text) : Prop :=
  ∀ depth access, ∃ mode : Mode, mode.Resting ∧
    (inside .fresh depth access).read text = inside mode depth access

/-- Neutral text that ends in no operator either. -/
def Settled (text : Text) : Prop :=
  ∀ depth access, ∃ word,
    (inside .fresh depth access).read text = inside (.code word) depth access

/-- Text that ends every word it begins, besides being neutral. -/
def Closed (text : Text) : Prop :=
  ∀ depth access, (inside .fresh depth access).read text = inside .fresh depth access

/-- Text that ends whatever word or operator precedes it. -/
def Separates (text : Text) : Prop :=
  ∀ (mode : Mode) depth access, mode.Resting →
    (inside mode depth access).read text = inside .fresh depth access

/-- Text that ends whatever word precedes it. -/
def EndsWord (text : Text) : Prop :=
  ∀ word depth access, (inside (.code word) depth access).read text = inside .fresh depth access

/-- Settled text is neutral. -/
theorem Settled.neutral {text : Text} (settled : Settled text) : Neutral text := by
  -- Code is one of the modes that a separator ends.
  intro depth access
  obtain ⟨word, read⟩ := settled depth access
  exact ⟨.code word, trivial, read⟩

/-- Closed text is neutral. -/
theorem Closed.neutral {text : Text} (closed : Closed text) : Neutral text :=
  fun depth access => ⟨.fresh, trivial, closed depth access⟩

/-- A separator is closed by itself. -/
theorem Separates.closed {text : Text} (separates : Separates text) : Closed text :=
  fun depth access => separates .fresh depth access trivial

/-- No text at all is closed. -/
theorem closed_nil : Closed [] := fun _ _ => rfl

/-- Closed texts follow one another. -/
theorem Closed.append {first second : Text} (closed : Closed first) (after : Closed second) :
    Closed (first ++ second) := by
  -- The second text is read by the same reader as the first one.
  intro depth access
  rw [read_append, closed, after]

/-- Neutral text may follow closed text. -/
theorem Closed.append_neutral {first second : Text} (closed : Closed first)
    (after : Neutral second) : Neutral (first ++ second) := by
  -- After the closed text the reader is as at the start.
  intro depth access
  rw [read_append, closed]
  exact after depth access

/-- A separator closes the neutral text before it. -/
theorem Neutral.append_separator {first second : Text} (neutral : Neutral first)
    (after : Separates second) : Closed (first ++ second) := by
  -- Whatever the neutral text has begun, the separator ends it.
  intro depth access
  obtain ⟨mode, resting, stopped⟩ := neutral depth access
  rw [read_append, stopped]
  exact after mode depth access resting

/-- Text that ends words closes the settled text before it. -/
theorem Settled.append_closed {first second : Text} (settled : Settled first)
    (after : EndsWord second) : Closed (first ++ second) := by
  -- The settled text leaves a word at most.
  intro depth access
  obtain ⟨word, stopped⟩ := settled depth access
  rw [read_append, stopped]
  exact after word depth access

/-- A separator may open the closed text it precedes. -/
theorem Separates.append {first second : Text} (separates : Separates first)
    (after : Closed second) : Separates (first ++ second) := by
  -- After the separator the reader is fresh, and the closed text keeps it so.
  intro mode depth access resting
  rw [read_append, separates mode depth access resting, after]

/-- A character that ends any word or operator and opens nothing. -/
def isSeparator (c : Char) : Bool :=
  !isWordChar c && c ∉ ['{', '}', ':', '/', '*', '"', '\'']

/-- One separating character leaves any resting mode. -/
theorem separates_of_head {c : Char} {text : Text} (separator : isSeparator c = true)
    (closed : Closed text) : Separates (c :: text) := by
  -- All that matters is the first character; the rest is closed anyway.
  intro mode depth access resting
  simp only [isSeparator, Bool.and_eq_true, Bool.not_eq_true', List.mem_cons,
    List.not_mem_nil, or_false, decide_eq_true_eq, not_or] at separator
  obtain ⟨noWord, noOpen, noClose, noColon, noSlash, noStar, noQuote, noTick⟩ := separator
  -- Both resting modes read the character as a delimiter with no meaning of its own.
  have fresh : (inside mode depth access).step c = inside .fresh depth access := by
    cases mode <;> first
      | exact resting.elim
      | simp [Reader.step, Reader.advance, Reader.delimit, noWord, noOpen, noClose, noColon,
          noSlash, noStar, noQuote, noTick]
  rw [read_cons, fresh, closed]

/-- Reading the characters of a word only lengthens it, at any depth. -/
theorem read_word (word text : Text) (depth : Nat) (access : AccessSpecifier)
    (letters : text.all isWordChar = true) :
    Reader.read { mode := .code word, depth, access } text =
      { mode := .code (word ++ text), depth, access } := by
  -- The reader collects the characters and looks at none of them.
  induction text generalizing word with
  | nil => simp
  | cons c rest ih =>
    simp only [List.all_cons, Bool.and_eq_true] at letters
    simp [Reader.step, Reader.advance, letters.1, ih (word ++ [c]) letters.2]

/-- A word is settled. -/
theorem settled_word {text : Text} (letters : text.all isWordChar = true) : Settled text :=
  fun depth access => ⟨text, by simpa using read_word [] text (depth + 1) access letters⟩

/-- Characters that neither open nor close anything, wherever they stand. -/
def isPlainChar (c : Char) : Bool := isWordChar c || isSeparator c || c == '*'

/-- Plain characters keep a reader in code. -/
theorem settled_plain {text : Text} (plain : text.all isPlainChar = true) : Settled text := by
  -- The induction keeps the word read so far open, as any character may follow any other.
  have kept : ∀ (text word : Text) (depth : Nat) (access : AccessSpecifier),
      text.all isPlainChar = true →
      ∃ rest, (inside (.code word) depth access).read text = inside (.code rest) depth access := by
    intro text
    induction text with
    | nil => exact fun word depth access _ => ⟨word, rfl⟩
    | cons c rest ih =>
      intro word depth access plain
      simp only [List.all_cons, Bool.and_eq_true] at plain
      -- A word character lengthens the word, any other plain character drops it.
      have moved : ∃ after,
          (inside (.code word) depth access).step c = inside (.code after) depth access := by
        by_cases letter : isWordChar c = true
        · exact ⟨word ++ [c], by simp [Reader.step, Reader.advance, letter]⟩
        · refine ⟨[], ?_⟩
          have first := plain.1
          simp only [isPlainChar, isSeparator, letter, Bool.false_or, Bool.or_eq_true,
            Bool.and_eq_true, List.mem_cons, List.not_mem_nil, or_false, decide_eq_true_eq,
            not_or, beq_iff_eq] at first
          rcases first with separator | rfl
          · simp [Reader.step, Reader.advance, Reader.delimit, letter, separator]
          · rfl
      obtain ⟨after, stepped⟩ := moved
      rw [read_cons, stepped]
      exact ih after depth access plain.2
  exact fun depth access => kept text [] depth access plain

end Lexical

end SecretTyping
