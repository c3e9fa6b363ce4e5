import SecretTyping.Lib.Lexical

/-! Types and declarators of C++: how they are printed and what a declaration declares. -/

namespace SecretTyping.Declarators

open Lexical

/-- A word or a single character of punctuation. -/
inductive Token where
  | word (text : Text)
  | symbol (c : Char)
  deriving DecidableEq

section Lexer

/-- The word that has been read, if any. -/
def flush (word : Text) : List Token := if word.isEmpty then [] else [.word word]

/-- What a character that belongs to no word stands for. -/
def separator (c : Char) : List Token := if c.isWhitespace then [] else [.symbol c]

/-- The tokens of a text, after the beginning of a word. -/
def lexFrom (word : Text) : Text → List Token
  | [] => flush word
  | c :: rest =>
    if isWordChar c then lexFrom (word ++ [c]) rest
    else flush word ++ (separator c ++ lexFrom [] rest)

/-- The tokens of a text. -/
def lex (text : Text) : List Token := lexFrom [] text

/-- Text around a character that belongs to no word is read on its own. -/
theorem lex_append {c : Char} (apart : isWordChar c = false) (first second : Text) :
    lex (first ++ c :: second) = lex first ++ (separator c ++ lex second) := by
  -- By induction on the text before the character, with the word that it has begun.
  have general : ∀ word, lexFrom word (first ++ c :: second) =
      lexFrom word first ++ (separator c ++ lex second) := by
    induction first with
    | nil => simp [lexFrom, apart, lex]
    | cons d rest ih =>
      intro word
      simp only [List.cons_append, lexFrom]
      split
      · exact ih _
      · rw [ih, List.append_assoc, List.append_assoc]
  exact general []

/-- Text made of word characters is one word. -/
theorem lex_word {text : Text} (letters : text.all isWordChar = true) : lex text = flush text := by
  have general : ∀ word, lexFrom word text = flush (word ++ text) := by
    induction text with
    | nil => simp [lexFrom]
    | cons c rest ih =>
      intro word
      rw [List.all_cons, Bool.and_eq_true] at letters
      rw [lexFrom, if_pos letters.1, ih letters.2, List.append_assoc, List.singleton_append]
  exact general []

end Lexer

section Lists

/-- Sequences of tokens with a comma between neighbours. -/
def commas : List (List Token) → List Token
  | [] => []
  | [piece] => piece
  | piece :: next :: rest => piece ++ .symbol ',' :: commas (next :: rest)

/-- The pieces between commas are read on their own. -/
theorem lex_commaSeparated (texts : List Text) :
    lex (commaSeparated texts) = commas (texts.map lex) := by
  -- By induction on the texts, up to the last one, which no comma follows.
  induction texts with
  | nil => rfl
  | cons text rest ih =>
    cases rest with
    | nil => simp [commaSeparated, commas]
    | cons next others =>
      have split : commaSeparated (text :: next :: others) =
          text ++ ',' :: ([] ++ ' ' :: commaSeparated (next :: others)) := rfl
      rw [split, lex_append (by decide), lex_append (by decide), ih]
      rfl

/-- A last piece adds at least its own length. -/
theorem length_commas_append (pieces : List (List Token)) (last : List Token) :
    (commas pieces).length + last.length ≤ (commas (pieces ++ [last])).length := by
  -- By induction on the pieces before it.
  induction pieces with
  | nil => simp [commas]
  | cons piece rest ih =>
    cases rest with
    | nil => simp [commas]
    | cons next others =>
      have split : commas ((piece :: next :: others) ++ [last]) =
          piece ++ .symbol ',' :: commas ((next :: others) ++ [last]) := rfl
      rw [split, commas, List.length_append, List.length_append, List.length_cons,
        List.length_cons]
      omega

/-- Longer pieces are longer together, and as long only when they are the same pieces. -/
theorem commas_le {first second : List (List Token)}
    (longer : List.Forall₂ (fun piece other => piece.length ≤ other.length) first second) :
    (commas first).length ≤ (commas second).length ∧ (commas first = commas second →
      first = second) := by
  -- By induction along both lists; the first pieces end at the same comma.
  induction longer with
  | nil => exact ⟨Nat.le_refl _, fun _ => rfl⟩
  | @cons piece other rest others head tail ih =>
    cases tail with
    -- Both have one piece, which is all there is.
    | nil => exact ⟨by simpa [commas] using head, fun same => by simpa [commas] using same⟩
    | @cons next third rest others =>
      have longer : (commas (piece :: next :: rest)).length =
          piece.length + ((commas (next :: rest)).length + 1) := by simp [commas]
      have longest : (commas (other :: third :: others)).length =
          other.length + ((commas (third :: others)).length + 1) := by simp [commas]
      refine ⟨by omega, fun same => ?_⟩
      -- Where all is equal, both first pieces have the same length.
      have total := congrArg List.length same
      obtain ⟨equal, behind⟩ := List.append_inj same (by omega)
      rw [equal, ih.2 (List.cons.inj behind).2]

end Lists

section Types

/-- The qualifiers of a pointer. -/
structure CvQualifiers where
  isConst : Bool := false
  isVolatile : Bool := false
  isRestrict : Bool := false
  deriving DecidableEq

/-- Qualifiers as they are written. -/
def CvQualifiers.tokens (qualifiers : CvQualifiers) : List Token :=
  (if qualifiers.isConst then [.word "const".toList] else []) ++
    (if qualifiers.isVolatile then [.word "volatile".toList] else []) ++
    if qualifiers.isRestrict then [.word "__restrict".toList] else []

/-- The operators that may stand before a declarator. -/
inductive PtrOperator where
  | pointer (qualifiers : CvQualifiers)
  | lvalueReference
  | rvalueReference
  | memberPointer (className : List Token) (qualifiers : CvQualifiers)
  deriving DecidableEq

/-- An operator as it is written. -/
def PtrOperator.tokens : PtrOperator → List Token
  | pointer qualifiers => .symbol '*' :: qualifiers.tokens
  | lvalueReference => [.symbol '&']
  | rvalueReference => [.symbol '&', .symbol '&']
  | memberPointer className qualifiers =>
    className ++ [.symbol ':', .symbol ':', .symbol '*'] ++ qualifiers.tokens

/-- The words that may stand before the type of a function. -/
def functionSpecifiers : List Token :=
  [.word "virtual".toList, .word "static".toList, .word "inline".toList, .word "explicit".toList,
    .word "constexpr".toList]

/-- The word that begins the name of an overloaded operator or of a conversion. -/
def operatorWord : Token := .word "operator".toList

/-- The words that are followed by an operand in parentheses. -/
def operandWords : List Token :=
  [.word "decltype".toList, .word "typeof".toList, .word "__typeof__".toList,
    .word "_Atomic".toList, .word "__attribute__".toList]

/-- The brackets that are open outside of the one that is closed. -/
def closeTo (opening : Char) : List Char → List Char
  | [] => []
  | c :: rest => if c = opening then rest else closeTo opening rest

/-- The brackets that are open after a token. -/
def nest (stack : List Char) : Token → List Char
  | .word _ => stack
  | .symbol c =>
    if c = '(' ∨ c = '[' ∨ c = '\x7b' ∨ c = '<' then c :: stack
    else if c = ')' then closeTo '(' stack
    else if c = ']' then closeTo '[' stack
    else if c = '\x7d' then closeTo '\x7b' stack
    -- A comparison within parentheses closes no bracket.
    else if c = '>' ∧ stack.head? = some '<' then stack.tail
    else stack

/-- Whether a token may stand outside of all brackets in a sequence of specifiers. -/
def isOuter (afterOperand : Bool) : Token → Bool
  | .word _ => true
  | .symbol c => c = ':' || c = '<' || (afterOperand && c = '(')

/-- Whether the rest of a sequence of specifiers is well formed. -/
def areSpecifiersFrom (stack : List Char) (afterOperand : Bool) : List Token → Bool
  | [] => stack.isEmpty
  | token :: rest =>
    (!stack.isEmpty || isOuter afterOperand token) &&
      areSpecifiersFrom (nest stack token) (token ∈ operandWords) rest

/-- Whether tokens name a type without any declarator. -/
def areSpecifiers : List Token → Bool
  | [] => false
  | first :: rest =>
    first ∉ operatorWord :: functionSpecifiers && areSpecifiersFrom [] false (first :: rest)

/-- Tokens that name a type without any declarator. -/
structure Specifiers where
  tokens : List Token
  proper : areSpecifiers tokens = true
  deriving DecidableEq

/-- A type, from the outermost layer inwards; the bound of an array and the parameters of a function
are kept as their tokens. -/
inductive CppType where
  | base (specifiers : Specifiers)
  | pointer (operator : PtrOperator) (pointee : CppType)
  | array (bound : List Token) (element : CppType)
  | function (parameters qualifiers : List Token) (result : CppType)
  deriving DecidableEq

/-- Whether a part of the type follows the name that is declared, right behind it. -/
def CppType.isSuffixed : CppType → Bool
  | base _ | pointer _ _ => false
  | array _ _ | function _ _ _ => true

/-- What of a type is printed before the name. -/
def CppType.printBefore : CppType → List Token
  | base specifiers => specifiers.tokens
  | pointer operator pointee =>
    pointee.printBefore ++ (if pointee.isSuffixed then [.symbol '('] else []) ++ operator.tokens
  | array _ element => element.printBefore
  | function _ _ result => result.printBefore

/-- What of a type is printed after the name. -/
def CppType.printAfter : CppType → List Token
  | base _ => []
  | pointer _ pointee => (if pointee.isSuffixed then [.symbol ')'] else []) ++ pointee.printAfter
  | array bound element => .symbol '[' :: bound ++ [.symbol ']'] ++ element.printAfter
  | function parameters qualifiers result =>
    .symbol '(' :: parameters ++ .symbol ')' :: qualifiers ++ result.printAfter

/-- Whether a type is made of a plain one by pointers and references alone. -/
def CppType.isPlain : CppType → Bool
  | base _ => true
  | pointer _ pointee => pointee.isPlain
  | array _ _ | function _ _ _ => false

/-- A type as it is printed without a name. -/
def CppType.tokens (type : CppType) : List Token := type.printBefore ++ type.printAfter

end Types

section Grammar

/-- The tokens around the core of a declarator, which turn a type into the type of what the core
declares; direct declarators may be followed by brackets. -/
inductive Declarator (core : List Token) : Bool → List Token → CppType → CppType → Prop where
  | core (type : CppType) : Declarator core true core type type
  | parenthesized {direct : Bool} {tokens : List Token} {type declared : CppType}
      (inner : Declarator core direct tokens type declared) :
      Declarator core true (.symbol '(' :: tokens ++ [.symbol ')']) type declared
  | array {tokens bound : List Token} {element declared : CppType}
      (inner : Declarator core true tokens (.array bound element) declared) :
      Declarator core true (tokens ++ .symbol '[' :: bound ++ [.symbol ']']) element declared
  | function {tokens parameters qualifiers : List Token} {result declared : CppType}
      (inner : Declarator core true tokens (.function parameters qualifiers result) declared) :
      Declarator core true
        (tokens ++ .symbol '(' :: parameters ++ .symbol ')' :: qualifiers) result declared
  | pointer {direct : Bool} {tokens : List Token} {operator : PtrOperator}
      {pointee declared : CppType}
      (inner : Declarator core direct tokens (.pointer operator pointee) declared) :
      Declarator core false (operator.tokens ++ tokens) pointee declared

/-- A declaration gives its core a type: specifiers with a declarator around the core. -/
def Declaration (core tokens : List Token) (type : CppType) : Prop :=
  ∃ (specifiers : Specifiers) (direct : Bool) (rest : List Token),
    Declarator core direct rest (.base specifiers) type ∧ tokens = specifiers.tokens ++ rest

/-- A type with a core in the place of the name. -/
def declare (type : CppType) (core : List Token) : List Token :=
  type.printBefore ++ core ++ type.printAfter

/-- The tokens of a declarator, in parentheses where the type would reach for its core. -/
def protect (direct : Bool) (type : CppType) (tokens : List Token) : List Token :=
  if type.isSuffixed && !direct then .symbol '(' :: tokens ++ [.symbol ')'] else tokens

/-- An operator before the core is put into parentheses by the types that need it. -/
theorem declare_pointer (operator : PtrOperator) (pointee : CppType) (core : List Token) :
    declare (.pointer operator pointee) core =
      declare pointee (protect false pointee (operator.tokens ++ core)) := by
  unfold declare protect
  cases suffixed : pointee.isSuffixed <;>
    simp [CppType.printBefore, CppType.printAfter, suffixed]

/-- The bound of an array follows the core. -/
theorem declare_array (bound : List Token) (element : CppType) (core : List Token) :
    declare (.array bound element) core =
      declare element (core ++ .symbol '[' :: bound ++ [.symbol ']']) := by
  simp [declare, CppType.printBefore, CppType.printAfter]

/-- The parameters of a function follow the core. -/
theorem declare_function (parameters qualifiers : List Token) (result : CppType)
    (core : List Token) :
    declare (.function parameters qualifiers result) core =
      declare result (core ++ .symbol '(' :: parameters ++ .symbol ')' :: qualifiers) := by
  simp [declare, CppType.printBefore, CppType.printAfter]

/-- A declarator may stand before brackets once it is protected from them. -/
theorem Declarator.protected {core : List Token} {direct : Bool} {tokens : List Token}
    {type declared : CppType} (declarator : Declarator core direct tokens type declared)
    (suffixed : type.isSuffixed = true) :
    Declarator core true (protect direct type tokens) type declared := by
  cases direct with
  | false => simpa [protect, suffixed] using declarator.parenthesized
  | true => simpa [protect] using declarator

/-- A type printed around a declarator is a declaration of what the declarator is for. -/
theorem declaration_of_declarator {core : List Token} {direct : Bool} {tokens : List Token}
    {type declared : CppType} (declarator : Declarator core direct tokens type declared) :
    Declaration core (declare type (protect direct type tokens)) declared := by
  have whole : ∀ (type : CppType) (tokens : List Token), protect true type tokens = tokens := by
    simp [protect]
  -- By induction on the type, each layer of which becomes a part of the declarator.
  induction type generalizing direct tokens with
  -- The specifiers come before the declarator.
  | base specifiers =>
    refine ⟨specifiers, direct, tokens, declarator, ?_⟩
    simp [declare, protect, CppType.printBefore, CppType.printAfter, CppType.isSuffixed]
  -- A pointer stands in front of the declarator, and needs no parentheses.
  | pointer operator pointee ih =>
    have alone : protect direct (.pointer operator pointee) tokens = tokens := by
      simp [protect, CppType.isSuffixed]
    rw [alone, declare_pointer]
    exact ih declarator.pointer
  -- Dimensions stand behind it, so a pointer among them is put in parentheses.
  | array bound element ih =>
    have printed := ih (declarator.protected rfl).array
    rw [whole] at printed
    rw [declare_array]
    exact printed
  -- Parameters stand behind it in the same way.
  | function parameters qualifiers result ih =>
    have printed := ih (declarator.protected rfl).function
    rw [whole] at printed
    rw [declare_function]
    exact printed

/-- A type printed around a core declares the core to be of that type. -/
theorem declaration_declare (type : CppType) (core : List Token) :
    Declaration core (declare type core) type := by
  have printed := declaration_of_declarator (@Declarator.core core type)
  simpa [protect] using printed

/-- The length of a declaration is the one of its parts. -/
theorem length_declare (type : CppType) (core : List Token) :
    (declare type core).length =
      type.printBefore.length + core.length + type.printAfter.length := by
  rw [declare, List.length_append, List.length_append]

/-- Whatever declares a core is at least as long as the type printed around it, and as long only
when it is the same. -/
theorem Declarator.minimal {core : List Token} {direct : Bool} {tokens : List Token}
    {type declared : CppType} (declarator : Declarator core direct tokens type declared) :
    (declare declared core).length ≤ (declare type (protect direct type tokens)).length ∧
      ((declare declared core).length = (declare type (protect direct type tokens)).length →
        declare declared core = declare type (protect direct type tokens)) := by
  have whole : ∀ (type : CppType) (tokens : List Token), protect true type tokens = tokens := by
    simp [protect]
  -- By induction on the derivation; only parentheses can be superfluous.
  induction declarator with
  | core type => simp [whole]
  -- The parentheses are those that are needed, or are longer than none at all.
  | @parenthesized direct tokens type declared inner ih =>
    rw [whole]
    have shorter : protect direct type tokens = Token.symbol '(' :: tokens ++ [.symbol ')'] ∨
        (protect direct type tokens).length <
          (Token.symbol '(' :: tokens ++ [Token.symbol ')']).length := by
      unfold protect
      split
      · exact .inl rfl
      · rw [List.length_append, List.length_cons]
        exact .inr (by omega)
    rcases shorter with same | shorter
    · rw [same] at ih
      exact ih
    · rw [length_declare type] at ih ⊢
      exact ⟨by omega, fun same => by omega⟩
  -- A dimension is printed where it stands in the declarator.
  | array inner ih =>
    rw [whole, declare_array] at ih
    rw [whole]
    exact ih
  -- So are parameters.
  | function inner ih =>
    rw [whole, declare_function] at ih
    rw [whole]
    exact ih
  -- An operator of a pointer stands in front, where nothing has to be protected.
  | @pointer direct tokens operator pointee declared inner ih =>
    have alone : protect direct (.pointer operator pointee) tokens = tokens := by
      simp [protect, CppType.isSuffixed]
    rw [alone, declare_pointer] at ih
    exact ih

/-- A declaration is at least as long as its type printed around its core, and as long only when it
is the same. -/
theorem Declaration.minimal {core tokens : List Token} {type : CppType}
    (declaration : Declaration core tokens type) :
    (declare type core).length ≤ tokens.length ∧
      ((declare type core).length = tokens.length → declare type core = tokens) := by
  obtain ⟨specifiers, direct, rest, declarator, rfl⟩ := declaration
  have base : declare (.base specifiers) (protect direct (.base specifiers) rest) =
      specifiers.tokens ++ rest := by
    simp [declare, protect, CppType.printBefore, CppType.printAfter, CppType.isSuffixed]
  rw [← base]
  exact declarator.minimal

end Grammar

section Ends

/-- What is printed after the name begins with a bracket. -/
theorem printAfter_head (type : CppType) :
    type.printAfter = [] ∨ ∃ c rest, type.printAfter = .symbol c :: rest := by
  -- By induction on the type, through the layers that print nothing.
  induction type with
  | base specifiers => exact .inl rfl
  | pointer operator pointee ih =>
    cases suffixed : pointee.isSuffixed with
    | false => simpa [CppType.printAfter, suffixed] using ih
    | true => exact .inr ⟨')', pointee.printAfter, by simp [CppType.printAfter, suffixed]⟩
  | array bound element ih => exact .inr ⟨_, _, rfl⟩
  | function parameters qualifiers result ih => exact .inr ⟨_, _, rfl⟩

/-- Nothing is printed after the name when there is neither an array nor a function. -/
theorem printAfter_eq_nil {type : CppType} : type.printAfter = [] ↔ type.isPlain = true := by
  -- By induction on the type; a bracket behind a pointer stands for an array or a function.
  induction type with
  | base specifiers => simp [CppType.printAfter, CppType.isPlain]
  | pointer operator pointee ih =>
    cases pointee <;> simp_all [CppType.printAfter, CppType.isPlain, CppType.isSuffixed]
  | array bound element ih => simp [CppType.printAfter, CppType.isPlain]
  | function parameters qualifiers result ih => simp [CppType.printAfter, CppType.isPlain]

/-- A core that begins with a word stands behind the whole type exactly when the type is plain. -/
theorem declare_eq_append_iff (type : CppType) (text : Text) (rest others : List Token) :
    declare type (.word text :: rest) = type.tokens ++ others ↔
      type.isPlain = true ∧ others = .word text :: rest := by
  unfold declare CppType.tokens
  rw [← printAfter_eq_nil, List.append_assoc, List.append_assoc, List.append_right_inj]
  constructor
  · intro same
    rcases printAfter_head type with none | ⟨c, after, head⟩
    · rw [none, List.append_nil, List.nil_append] at same
      exact ⟨none, same.symm⟩
    · -- A word is no bracket.
      rw [head] at same
      cases same
  · rintro ⟨none, rfl⟩
    rw [none, List.append_nil, List.nil_append]

/-- The name of a type does not begin with a word that may stand before it. -/
theorem Specifiers.head (specifiers : Specifiers) : ∃ first rest,
    specifiers.tokens = first :: rest ∧ first ∉ operatorWord :: functionSpecifiers := by
  obtain ⟨tokens, proper⟩ := specifiers
  cases tokens with
  | nil => cases proper
  | cons first rest =>
    have head := (Bool.and_eq_true_iff.mp proper).1
    exact ⟨first, rest, rfl, by simpa using head⟩

/-- The first token of a type is no word that may stand before it. -/
theorem printBefore_head (type : CppType) : ∃ first rest,
    type.printBefore = first :: rest ∧ first ∉ operatorWord :: functionSpecifiers := by
  -- The innermost type comes first.
  induction type with
  | base specifiers => exact specifiers.head
  | pointer operator pointee ih =>
    obtain ⟨first, rest, before, head⟩ := ih
    exact ⟨first, _, by rw [CppType.printBefore, before, List.cons_append, List.cons_append], head⟩
  | array bound element ih => exact ih
  | function parameters qualifiers result ih => exact ih

/-- A declaration begins as the name of its innermost type. -/
theorem Declaration.head {core tokens : List Token} {type : CppType}
    (declaration : Declaration core tokens type) : ∃ first rest,
      tokens = first :: rest ∧ first ∉ operatorWord :: functionSpecifiers := by
  obtain ⟨specifiers, direct, rest, declarator, rfl⟩ := declaration
  obtain ⟨first, others, begins, head⟩ := specifiers.head
  exact ⟨first, others ++ rest, by rw [begins, List.cons_append], head⟩

/-- A specifier in front is one of the specifiers when no other token is. -/
theorem leading_specifier {specifier first : Token} {specifiers tokens rest : List Token}
    (keyword : specifier ∈ functionSpecifiers) (other : first ∉ functionSpecifiers)
    (same : specifier :: tokens = specifiers ++ first :: rest) :
    ∃ others, specifiers = specifier :: others ∧ tokens = others ++ first :: rest := by
  cases specifiers with
  | nil =>
    -- Otherwise what follows the specifiers would be one.
    rw [(List.cons.inj same).1] at keyword
    exact absurd keyword other
  | cons next others =>
    obtain ⟨rfl, rfl⟩ := List.cons.inj same
    exact ⟨others, rfl, rfl⟩

/-- Behind one specifier, a type with other tokens at its end declares a core that is no shorter
than these exactly as a plain type with the core at its end. -/
theorem Declaration.behind_specifier {specifier : Token} {specifiers tokens others : List Token}
    {text : Text} {rest : List Token} {type : CppType}
    (declaration : Declaration (.word text :: rest) tokens type)
    (keyword : specifier ∈ functionSpecifiers)
    (same : specifier :: (type.tokens ++ others) = specifiers ++ tokens)
    (shorter : others.length ≤ (Token.word text :: rest).length) :
    specifiers = [specifier] ∧ type.isPlain = true ∧ others = .word text :: rest := by
  -- The tokens of the declaration do not begin with the keyword, so that is one of the specifiers.
  obtain ⟨first, after, begins, head⟩ := declaration.head
  rw [begins] at same
  obtain ⟨further, rfl, behind⟩ :=
    leading_specifier keyword (fun named => head (List.mem_cons_of_mem _ named)) same
  rw [← begins] at behind
  -- Specifier, type and core are as short as they can be, so there is nothing else.
  have shortest := declaration.minimal.1
  have total := congrArg List.length behind
  rw [length_declare] at shortest
  rw [List.length_append, List.length_append, CppType.tokens, List.length_append] at total
  have alone : further = [] := List.length_eq_zero_iff.mp (by omega)
  subst alone
  have minimal := declaration.minimal.2 (by rw [length_declare]; omega)
  rw [List.nil_append, ← minimal, eq_comm, declare_eq_append_iff] at behind
  exact ⟨rfl, behind⟩

end Ends

end SecretTyping.Declarators
