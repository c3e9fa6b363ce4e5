import SecretTyping.Typer.Initializers

/-! The signatures of the constructors and methods that a generated class emits. -/

namespace SecretTyping

open Declarators Lexical Rewriter

section Meaning

/-- The token of a name, none when there is no name. -/
def Identifier.tokens (name : Identifier) : List Token := flush name.text

/-- A default argument as it follows its parameter. -/
def defaultTokens : Option Lexeme → List Token
  | some value => .symbol '=' :: lex value.text
  | none => []

/-- Tokens declare a parameter with its type, its name and its default argument. -/
def DeclaresParameter (param : ParmVarDecl) (tokens : List Token) : Prop :=
  ∃ type ∈ param.type.named, ∃ declared, Declaration param.name.tokens declared type ∧
    tokens = declared ++ defaultTokens param.defaultArg

/-- The ellipsis that ends the parameters of a variadic function. -/
def ellipsis : List Token := [.symbol '.', .symbol '.', .symbol '.']

/-- Tokens declare the parameters of a function in their order. -/
def DeclaresParameters (definition : FunctionDecl) (tokens : List Token) : Prop :=
  ∃ pieces, List.Forall₂ DeclaresParameter definition.params pieces ∧
    if definition.isVariadic then
      -- The comma before an ellipsis may be left out.
      tokens = commas (pieces ++ [ellipsis]) ∨ tokens = commas pieces ++ ellipsis
    else tokens = commas pieces

/-- A ref-qualifier as it is written. -/
def RefQualifierKind.tokens : RefQualifierKind → List Token
  | none => []
  | lvalue => [.symbol '&']
  | rvalue => [.symbol '&', .symbol '&']

/-- The qualifiers of a method as they follow its parameters. -/
def MethodQualifiers.tokens (qualifiers : MethodQualifiers) : List Token :=
  (if qualifiers.isConst then [.word "const".toList] else []) ++
    (if qualifiers.isVolatile then [.word "volatile".toList] else []) ++
    qualifiers.refQualifier.tokens

/-- Tokens declare a constructor of the generated class with the parameters of a definition. -/
def DeclaresConstructor (definition : FunctionDecl) (tokens : List Token) : Prop :=
  ∃ listed, DeclaresParameters definition listed ∧
    tokens = .word SECRET_TYPE :: .symbol '(' :: listed ++ [.symbol ')']

/-- A method with its parameters and its qualifiers, without its result. -/
def methodCore (method : CXXMethodDecl) (listed : List Token) : List Token :=
  lex method.name.text ++ .symbol '(' :: listed ++ .symbol ')' :: method.qualifiers.tokens

/-- Tokens declare a method with the parameters, the result and the qualifiers of the original. -/
def DeclaresMethod (method : CXXMethodDecl) (definition : FunctionDecl) (tokens : List Token) :
    Prop :=
  ∃ specifiers listed declaration,
    (∀ token ∈ specifiers, token ∈ functionSpecifiers) ∧
    (.word "static".toList ∈ specifiers ↔ method.isStatic = true) ∧
    DeclaresParameters definition listed ∧
    (∃ type ∈ definition.returnType.named,
      -- The name of a conversion function is all that says what it returns.
      if method.isConversion then declaration = methodCore method listed
      else Declaration (methodCore method listed) declaration type) ∧
    tokens = specifiers ++ declaration

/-- The head that is generated for a constructor or a method. -/
def secretSignature (method : CXXMethodDecl) : Except Fault Text :=
  if method.kind = .constructor then getSecretConstructorSignature method
  else getSecretMethodSignature method

/-- The first text of a copy begins with a head that declares the function as the original. -/
def KeepsSignature (definition : FunctionDecl) (copy : FunctionCopy) : Prop :=
  ∃ head rest others, secretSignature copy.method = .ok head ∧
    copy.texts = (head ++ rest) :: others ∧
    if copy.method.kind = .constructor then DeclaresConstructor definition (lex head)
    else DeclaresMethod copy.method definition (lex head)

/-- A parameter whose type can be named and stands before its name, without a default argument. -/
def ParmVarDecl.IsCopied (param : ParmVarDecl) : Prop :=
  param.defaultArg = none ∧
    ∃ type ∈ param.type.named, param.name.text = [] ∨ type.isPlain = true

/-- The parameters of a definition can be copied, and there is no ellipsis. -/
def ParametersCopied (definition : FunctionDecl) : Prop :=
  definition.isVariadic = false ∧ ∀ param ∈ definition.params, param.IsCopied

/-- The result of a method stands before its name, and no qualifier or specifier is needed. -/
def ResultCopied (method : CXXMethodDecl) (definition : FunctionDecl) : Prop :=
  method.isConversion = false ∧ method.isStatic = false ∧ method.qualifiers = {} ∧
    ∃ type ∈ definition.returnType.named, type.isPlain = true

/-- The signature of a constructor or method can be copied. -/
def SignatureCopied (method : CXXMethodDecl) (definition : FunctionDecl) : Prop :=
  ParametersCopied definition ∧ (method.kind = .constructor ∨ ResultCopied method definition)

end Meaning

section Parameters

/-- A parameter is printed as its type and then its name. -/
theorem lex_paramText (param : ParmVarDecl) :
    lex (paramText param) = lex param.type.text ++ param.name.tokens := by
  -- The blank ends the type.
  unfold paramText Identifier.tokens flush
  split
  · rw [List.append_nil, List.append_nil]
  · next named =>
    rw [lex_append (by decide), lex_word param.name.letters, flush, if_neg named]
    rfl

/-- A name is one word, or none. -/
theorem Identifier.tokens_cases (name : Identifier) :
    name.text = [] ∧ name.tokens = [] ∨ name.text ≠ [] ∧ name.tokens = [.word name.text] := by
  cases empty : name.text.isEmpty with
  | true => exact .inl ⟨List.isEmpty_iff.mp empty, by simp [Identifier.tokens, flush, empty]⟩
  | false =>
    exact .inr ⟨List.isEmpty_eq_false_iff.mp empty, by simp [Identifier.tokens, flush, empty]⟩

/-- A type is printed around a name as before it when there is no name or nothing behind it. -/
theorem declare_name_iff (type : CppType) (name : Identifier) :
    declare type name.tokens = type.tokens ++ name.tokens ↔
      name.text = [] ∨ type.isPlain = true := by
  -- Without a name there is nothing to stand behind; with one, the type must not go on behind it.
  rcases name.tokens_cases with ⟨empty, tokens⟩ | ⟨named, tokens⟩
  · simp [tokens, empty, declare, CppType.tokens]
  · rw [tokens, declare_eq_append_iff]
    simp [named]

/-- No declaration of a parameter is shorter than what is printed for it. -/
theorem DeclaresParameter.length_le {param : ParmVarDecl} {tokens : List Token}
    (declares : DeclaresParameter param tokens) :
    (lex (paramText param)).length + (defaultTokens param.defaultArg).length ≤ tokens.length := by
  -- The parts of the type take as much around the name as before it.
  obtain ⟨type, named, declared, declaration, rfl⟩ := declares
  have shortest := declaration.minimal.1
  have length : type.tokens.length = type.printBefore.length + type.printAfter.length :=
    List.length_append
  rw [length_declare] at shortest
  rw [lex_paramText, param.type.printed type named, List.length_append, List.length_append]
  omega

/-- What is printed for a parameter declares it exactly when it can be copied. -/
theorem declaresParameter_iff (param : ParmVarDecl) :
    DeclaresParameter param (lex (paramText param)) ↔ param.IsCopied := by
  constructor
  · intro declares
    -- No declaration is shorter than the type and the name, so that there is no default.
    have shorter := declares.length_le
    have none : defaultTokens param.defaultArg = [] := List.length_eq_zero_iff.mp (by omega)
    obtain ⟨type, named, declared, declaration, same⟩ := declares
    refine ⟨?_, type, named, (declare_name_iff type param.name).mp ?_⟩
    · cases default : param.defaultArg with
      | none => rfl
      | some value => simp [default, defaultTokens] at none
    · -- The printed tokens are as short as a declaration can be.
      rw [none, List.append_nil, lex_paramText, param.type.printed type named] at same
      rw [same]
      refine declaration.minimal.2 ?_
      rw [← same, length_declare, List.length_append, CppType.tokens, List.length_append]
      omega
  · rintro ⟨default, type, named, behind⟩
    -- The printed tokens are the declaration itself.
    refine ⟨type, named, _, declaration_declare type param.name.tokens, ?_⟩
    rw [default, defaultTokens, List.append_nil, (declare_name_iff type param.name).mpr behind,
      lex_paramText, param.type.printed type named]

/-- The printed parameters have commas between them. -/
theorem lex_paramsText (params : List ParmVarDecl) :
    lex (paramsText params) = commas (params.map fun param => lex (paramText param)) := by
  rw [paramsText, lex_commaSeparated, List.map_map]
  rfl

variable {definition : FunctionDecl}

/-- The pieces that declare parameters are no shorter than what is printed for them. -/
theorem printed_le_pieces {params : List ParmVarDecl} {pieces : List (List Token)}
    (declares : List.Forall₂ DeclaresParameter params pieces) :
    List.Forall₂ (fun piece other => piece.length ≤ other.length)
      (params.map fun param => lex (paramText param)) pieces := by
  rw [List.forall₂_map_left_iff]
  exact declares.imp fun param piece single => Nat.le_of_add_right_le single.length_le

/-- No declaration of parameters is shorter than what is printed for them. -/
theorem DeclaresParameters.length_le {tokens : List Token}
    (declares : DeclaresParameters definition tokens) :
    (lex (paramsText definition.params)).length +
      (if definition.isVariadic then ellipsis.length else 0) ≤ tokens.length := by
  obtain ⟨pieces, each, together⟩ := declares
  have shorter := (commas_le (printed_le_pieces each)).1
  have last := length_commas_append pieces ellipsis
  -- The commas between the parameters are the same in both.
  rw [lex_paramsText]
  cases variadic : definition.isVariadic with
  | false =>
    rw [variadic] at together
    rw [together]
    exact shorter
  | true =>
    -- There is more than the pieces, with or without a comma before the ellipsis.
    rw [variadic] at together
    rw [if_pos rfl]
    rcases together with rfl | rfl
    · omega
    · rw [List.length_append]
      omega

/-- What is printed for parameters declares them exactly when they can be copied. -/
theorem declaresParameters_iff (definition : FunctionDecl) :
    DeclaresParameters definition (lex (paramsText definition.params)) ↔
      ParametersCopied definition := by
  constructor
  · intro declares
    have shorter := declares.length_le
    -- With an ellipsis more would be needed than is printed.
    have fixed : definition.isVariadic = false := by
      cases variadic : definition.isVariadic with
      | false => rfl
      | true =>
        simp only [variadic, if_true, ellipsis, List.length_cons] at shorter
        omega
    obtain ⟨pieces, each, together⟩ := declares
    rw [fixed, lex_paramsText] at together
    -- Between the same commas stand the same pieces.
    have same := (commas_le (printed_le_pieces each)).2 (by simpa using together)
    rw [← same, List.forall₂_map_right_iff, List.forall₂_same] at each
    exact ⟨fixed, fun param member => (declaresParameter_iff param).mp (each param member)⟩
  · intro ⟨fixed, copied⟩
    -- Each parameter declares itself.
    refine ⟨definition.params.map fun param => lex (paramText param), ?_, ?_⟩
    · rw [List.forall₂_map_right_iff, List.forall₂_same]
      exact fun param member => (declaresParameter_iff param).mpr (copied param member)
    · rw [fixed, lex_paramsText]
      simp

end Parameters

section Heads

variable {method : CXXMethodDecl} {definition : FunctionDecl}

/-- The tokens of the head of a constructor. -/
theorem lex_constructorSignature {head : Text} (defined : method.definition = some definition)
    (signature : getSecretConstructorSignature method = .ok head) :
    lex head = .word SECRET_TYPE :: .symbol '(' ::
      lex (paramsText definition.params) ++ [.symbol ')'] := by
  have split : head =
      SECRET_TYPE ++ ' ' :: ([] ++ '(' :: (paramsText definition.params ++ ')' :: [])) := by
    unfold getSecretConstructorSignature at signature
    rw [defined] at signature
    exact (Except.ok.inj signature).symm
  -- Each part ends at a character of punctuation or at a blank.
  rw [split, lex_append (by decide), lex_append (by decide), lex_append (by decide),
    lex_word (by decide)]
  rfl

/-- The tokens of the head of a method. -/
theorem lex_methodSignature {head : Text} (defined : method.definition = some definition)
    (signature : getSecretMethodSignature method = .ok head) :
    lex head = .word "virtual".toList :: (lex definition.returnType.text ++
      (lex method.name.text ++ .symbol '(' ::
        (lex (paramsText definition.params) ++ [.symbol ')']))) := by
  -- Each part of the head ends where the next one begins.
  have split : head = "virtual".toList ++ ' ' :: (definition.returnType.text ++ ' ' ::
      (method.name.text ++ '(' :: (paramsText definition.params ++ ')' :: []))) := by
    unfold getSecretMethodSignature at signature
    rw [defined] at signature
    rw [← Except.ok.inj signature]
    simp only [List.append_assoc]
    rfl
  rw [split, lex_append (by decide), lex_append (by decide), lex_append (by decide),
    lex_append (by decide), lex_word (by decide)]
  rfl

/-- The head of a constructor declares its parameters exactly when they can be copied. -/
theorem declaresConstructor_iff (definition : FunctionDecl) :
    DeclaresConstructor definition (.word SECRET_TYPE :: .symbol '(' ::
        lex (paramsText definition.params) ++ [.symbol ')']) ↔ ParametersCopied definition := by
  rw [← declaresParameters_iff]
  -- Behind the name of the class and in the parentheses stand the parameters.
  constructor
  · intro ⟨listed, declares, same⟩
    rw [List.append_cancel_right (List.cons.inj (List.cons.inj same).2).2]
    exact declares
  · exact fun declares => ⟨_, declares, rfl⟩

/-- Qualifiers are written as nothing only when there are none. -/
theorem MethodQualifiers.tokens_eq_nil {qualifiers : MethodQualifiers} :
    qualifiers.tokens = [] ↔ qualifiers = {} := by
  obtain ⟨isConst, isVolatile, refQualifier⟩ := qualifiers
  cases isConst <;> cases isVolatile <;> cases refQualifier <;>
    simp [MethodQualifiers.tokens, RefQualifierKind.tokens]

/-- The name of a method begins with a word, that of a conversion function with a keyword. -/
theorem methodCore_head (plain : method.kind ≠ .destructor) (listed : List Token) :
    ∃ text rest, methodCore method listed = .word text :: rest ∧
      (method.isConversion = true → .word text = operatorWord) := by
  -- A function name begins with its first word.
  have proper := method.proper plain
  unfold methodCore
  unfold isFunctionName at proper
  split at proper
  · next text rest begins =>
    refine ⟨text, rest ++ .symbol '(' :: listed ++ .symbol ')' :: method.qualifiers.tokens,
      by rw [begins]; rfl, fun converts => ?_⟩
    simpa [converts] using proper
  · cases proper

/-- The head of a conversion function never declares it. -/
theorem not_declares_conversion (plain : method.kind ≠ .destructor)
    (converts : method.isConversion = true) (printed : List Token) :
    ¬ DeclaresMethod method definition
      (.word "virtual".toList :: (lex definition.returnType.text ++ printed)) := by
  -- The core of a conversion begins with the word for it, so that the type in front would have to
  -- be a specifier.
  rintro ⟨specifiers, listed, declaration, keywords, -, -, ⟨type, named, core⟩, same⟩
  rw [if_pos converts] at core
  obtain ⟨text, rest, begins, operator⟩ := methodCore_head plain listed
  rw [core, begins, operator converts] at same
  obtain ⟨others, rfl, behind⟩ := leading_specifier (by decide) (by decide) same
  -- The type that is printed in front is neither a specifier nor the name.
  obtain ⟨first, after, before, head⟩ := printBefore_head type
  rw [definition.returnType.printed type named, CppType.tokens, before] at behind
  cases others with
  | nil =>
    rw [(List.cons.inj behind).1] at head
    exact absurd head (by decide)
  | cons next others =>
    rw [(List.cons.inj behind).1] at head
    exact head (List.mem_cons_of_mem _ (keywords next (by simp)))

/-- The head of a method declares it exactly when its signature can be copied. -/
theorem declaresMethod_iff (plain : method.kind ≠ .destructor) :
    DeclaresMethod method definition
        (.word "virtual".toList :: (lex definition.returnType.text ++
          (lex method.name.text ++ .symbol '(' ::
            (lex (paramsText definition.params) ++ [.symbol ')'])))) ↔
      ParametersCopied definition ∧ ResultCopied method definition := by
  -- Without qualifiers the core is what is printed.
  have bare : method.qualifiers = {} → methodCore method (lex (paramsText definition.params)) =
      lex method.name.text ++ .symbol '(' ::
        (lex (paramsText definition.params) ++ [.symbol ')']) := by
    intro none
    rw [methodCore, none, MethodQualifiers.tokens_eq_nil.mpr rfl, List.append_assoc]
    rfl
  constructor
  · -- A conversion is never declared with its type in front.
    intro declares
    have fixed : method.isConversion = false := by
      cases converts : method.isConversion with
      | false => rfl
      | true => exact absurd declares (not_declares_conversion plain converts _)
    obtain ⟨specifiers, listed, declaration, keywords, static, parameters, ⟨type, named, result⟩,
      same⟩ := declares
    rw [if_neg (by simp [fixed])] at result
    obtain ⟨text, rest, core, -⟩ := methodCore_head plain listed
    rw [definition.returnType.printed type named] at same
    -- What is printed for the parameters is no longer than what declares them.
    have shorter := parameters.length_le
    -- The lengths leave no room for a qualifier or another specifier.
    have length : (methodCore method listed).length = (lex method.name.text).length +
        (listed.length + method.qualifiers.tokens.length + 2) := by
      simp only [methodCore, List.length_append, List.length_cons]
      omega
    rw [core] at result length
    obtain ⟨rfl, isPlain, cores⟩ := result.behind_specifier (by decide) same (by
      simp only [length, List.length_append, List.length_cons, List.length_nil]
      omega)
    have total := congrArg List.length cores
    simp only [length, List.length_append, List.length_cons, List.length_nil] at total
    have unqualified : method.qualifiers.tokens = [] := List.length_eq_zero_iff.mp (by omega)
    rw [← core, methodCore, unqualified, List.append_assoc] at cores
    have lists := List.append_cancel_right (List.cons.inj (List.append_cancel_left cores)).2
    rw [← lists] at parameters
    refine ⟨(declaresParameters_iff definition).mp parameters, fixed, ?_,
      MethodQualifiers.tokens_eq_nil.mp unqualified, type, named, isPlain⟩
    -- The only specifier is another one.
    cases isStatic : method.isStatic with
    | false => rfl
    | true => exact absurd (static.mpr isStatic) (by decide)
  · intro ⟨parameters, fixed, nonstatic, unqualified, type, named, isPlain⟩
    -- The only specifier is the one that is printed.
    refine ⟨[.word "virtual".toList], lex (paramsText definition.params),
      declare type (methodCore method (lex (paramsText definition.params))), by decide,
      by simp [nonstatic], (declaresParameters_iff definition).mpr parameters,
      ⟨type, named, ?_⟩, ?_⟩
    · rw [if_neg (by simp [fixed])]
      exact declaration_declare type _
    · obtain ⟨text, rest, core, -⟩ := methodCore_head plain (lex (paramsText definition.params))
      rw [core, (declare_eq_append_iff type text rest _).mpr ⟨isPlain, rfl⟩, ← core,
        bare unqualified, definition.returnType.printed type named]
      rfl

/-- A copy keeps the signature of its original exactly when the signature can be copied. -/
theorem keepsSignature_iff {copy : FunctionCopy} {definition : FunctionDecl}
    (plain : copy.method.kind ≠ .destructor) (defined : copy.method.definition = some definition)
    (printed : methodTexts copy.method = .ok copy.texts) :
    KeepsSignature definition copy ↔ SignatureCopied copy.method definition := by
  unfold KeepsSignature SignatureCopied secretSignature
  -- Constructors and methods have heads of different kinds.
  cases kind : copy.method.kind with
  | destructor => exact absurd kind plain
  | constructor =>
    -- The text of a constructor is its head alone.
    obtain ⟨head, signature, texts⟩ := texts_of_constructor kind printed
    have copied := declaresConstructor_iff definition
    rw [← lex_constructorSignature defined signature] at copied
    simp only [if_true, true_or, and_true, signature, Except.ok.injEq, ← copied]
    constructor
    · rintro ⟨_, -, -, rfl, -, declares⟩
      exact declares
    · exact fun declares => ⟨head, _, _, rfl, texts, declares⟩
  | method =>
    -- The text of a method is its head.
    obtain ⟨head, signature, texts⟩ := texts_of_method kind printed
    have copied := @declaresMethod_iff copy.method definition plain
    rw [← lex_methodSignature defined signature] at copied
    simp only [reduceCtorEq, if_false, false_or, signature, Except.ok.injEq, ← copied]
    constructor
    · rintro ⟨_, -, -, rfl, -, declares⟩
      exact declares
    · exact fun declares => ⟨head, [], _, rfl, by rw [texts, List.append_nil], declares⟩

end Heads

/-- A generated class emits a signature that keeps the one of a user-provided constructor or method
exactly when the function is public or private and its signature can be copied; and every copy of
the function that is emitted keeps the signature exactly in the latter case. -/
theorem generated_signature_iff {Cls : Type} [DecidableEq Cls] (context : ASTContext Cls)
    {depth : Nat} {varDecls : List (VarDecl Cls)} {state : TyperState Cls}
    (completed : start context depth varDecls = .ok state) {secretClass : Cls}
    (generated : secretClass ∈ generatedClasses state) {method : CXXMethodDecl}
    {definition : FunctionDecl} (member : method ∈ (context.decl secretClass).methods)
    (plain : method.kind ≠ .destructor) (provided : method.isUserProvided = true)
    (defined : method.definition = some definition) :
    ((∃ copy ∈ functionCopies (generatedBlock state secretClass), copy.method = method ∧
        KeepsSignature definition copy) ↔
      method.access.isWalked ∧ SignatureCopied method definition) ∧
    ∀ copy ∈ functionCopies (generatedBlock state secretClass), copy.method = method →
      (KeepsSignature definition copy ↔ SignatureCopied method definition) := by
  have copied : method.isCopied = true := by
    simp [CXXMethodDecl.isCopied, provided, defined]
  exact generated_copies_iff context completed generated member copied (by simp [defined])
    fun texts printed => keepsSignature_iff plain defined printed

section Callback

/-- The type of short numbers. -/
def shortType : CppType := .base ⟨[.word "short".toList], by decide⟩

/-- A parameter that points to a function. -/
def callbackParam (name : Identifier) : ParmVarDecl where
  type := printedType "void (*)(short)" (by decide)
    (.pointer (.pointer {}) (.function shortType.tokens [] voidType)) (by decide)
  name

/-- The definition of a method that takes a function and a number. -/
def callbackDefinition (name : Identifier) : FunctionDecl where
  params := [callbackParam name,
    ⟨printedType "short" (by decide) shortType (by decide), word "amount" (by decide), none⟩]
  returnType := printedType "short *" (by decide) (.pointer (.pointer {}) shortType) (by decide)
  inits := []
  initsValid := ⟨by decide, by decide, by simp⟩
  body := holderDefinition.body

/-- A public method that takes a function and a number. -/
def callbackMethod (name : Identifier) (qualifiers : MethodQualifiers) : CXXMethodDecl where
  kind := .method
  name := phrase "apply" (by decide)
  proper := fun _ => by decide
  qualifiers
  access := .asPublic
  isUserProvided := true
  isVirtual := false
  beginLoc := ⟨"input/Node.hpp".toList, 4⟩
  definedInClass := true
  definition := some (callbackDefinition name)

/-- The class is generated with any such method. -/
theorem callback_completes (name : Identifier) (qualifiers : MethodQualifiers) : ∃ state,
    start (holderContext [callbackMethod name qualifiers]) 1 [holderVariable] = .ok state ∧
      generatedClasses state = [0] :=
  completes_of_generates rfl

/-- A method keeps its signature when the function it takes has no name and it has no qualifier. -/
theorem generated_signature_unnamed : ∃ state,
    start (holderContext [callbackMethod (word "" (by decide)) {}]) 1 [holderVariable] =
        .ok state ∧
      ∃ copy ∈ functionCopies (generatedBlock state 0),
        copy.method = callbackMethod (word "" (by decide)) {} ∧
          KeepsSignature (callbackDefinition (word "" (by decide))) copy := by
  -- Both parameters keep their types, and nothing stands behind them.
  obtain ⟨state, completed, classes⟩ := callback_completes (word "" (by decide)) {}
  have generated : (0 : Fin 2) ∈ generatedClasses state := by simp [classes]
  refine ⟨state, completed, (generated_signature_iff _ completed generated
    (List.mem_singleton.mpr rfl) (by decide) rfl rfl).1.mpr ⟨.inl rfl, ⟨rfl, ?_⟩, .inr ?_⟩⟩
  · intro param member
    simp only [callbackDefinition, List.mem_cons, List.not_mem_nil, or_false] at member
    rcases member with rfl | rfl
    · exact ⟨rfl, _, rfl, .inl rfl⟩
    · exact ⟨rfl, _, rfl, .inr rfl⟩
  · exact ⟨rfl, rfl, rfl, _, rfl, rfl⟩

/-- A method is emitted with another signature when the function it takes has a name, and when it is
constant. -/
theorem not_keepsSignature_named : ∃ state constState,
    start (holderContext [callbackMethod (word "f" (by decide)) {}]) 1 [holderVariable] =
        .ok state ∧
      (∃ copy ∈ functionCopies (generatedBlock state 0),
        copy.method = callbackMethod (word "f" (by decide)) {} ∧
          ¬ KeepsSignature (callbackDefinition (word "f" (by decide))) copy) ∧
    start (holderContext [callbackMethod (word "" (by decide)) { isConst := true }]) 1
        [holderVariable] = .ok constState ∧
      ∃ copy ∈ functionCopies (generatedBlock constState 0),
        copy.method = callbackMethod (word "" (by decide)) { isConst := true } ∧
          ¬ KeepsSignature (callbackDefinition (word "" (by decide))) copy := by
  -- A copy that kept its signature would need its parameters copied and no qualifiers.
  have emitted : ∀ name qualifiers, ∃ state,
      start (holderContext [callbackMethod name qualifiers]) 1 [holderVariable] = .ok state ∧
        ∃ copy ∈ functionCopies (generatedBlock state 0),
          copy.method = callbackMethod name qualifiers ∧
            (KeepsSignature (callbackDefinition name) copy →
              ParametersCopied (callbackDefinition name) ∧ qualifiers = {}) := by
    intro name qualifiers
    obtain ⟨state, completed, classes⟩ := callback_completes name qualifiers
    have generated : (0 : Fin 2) ∈ generatedClasses state := by simp [classes]
    obtain ⟨texts, printed⟩ : ∃ texts, methodTexts (callbackMethod name qualifiers) = .ok texts :=
      ⟨_, rfl⟩
    refine ⟨state, completed, ⟨_, texts⟩, (mem_generatedCopies _ completed generated).mpr
      ⟨List.mem_singleton.mpr rfl, .inl rfl, rfl, printed⟩, rfl, fun kept => ?_⟩
    obtain ⟨parameters, constructs | ⟨-, -, none, -⟩⟩ :=
      (keepsSignature_iff (show _ ≠ _ by simp) rfl printed).mp kept
    · cases constructs
    · exact ⟨parameters, none⟩
  obtain ⟨state, completed, copy, found, same, needs⟩ := emitted (word "f" (by decide)) {}
  obtain ⟨constState, constCompleted, constCopy, constFound, constSame, constNeeds⟩ :=
    emitted (word "" (by decide)) { isConst := true }
  refine ⟨state, constState, completed, ⟨copy, found, same, fun kept => ?_⟩, constCompleted,
    constCopy, constFound, constSame, fun kept => ?_⟩
  · -- The name stands behind the parentheses of the type.
    obtain ⟨-, type, named, behind⟩ :=
      (needs kept).1.2 (callbackParam (word "f" (by decide))) (by simp [callbackDefinition])
    cases named
    rcases behind with none | isPlain
    · cases none
    · cases isPlain
  · cases (constNeeds kept).2

end Callback

end SecretTyping
