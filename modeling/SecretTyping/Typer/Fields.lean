import SecretTyping.Lib.TwoPasses
import SecretTyping.Typer.Initializers

/-! The data members of a generated class: how they are declared and in which order. -/

namespace SecretTyping

open Declarators Lexical Rewriter

variable {Cls : Type}

/-- A data member and the text of its copy. -/
structure FieldCopy (Cls : Type) where
  field : FieldDecl Cls
  text : Text
  deriving DecidableEq

/-- The data member that an insertion declares, with the text of the declaration. -/
def Output.fieldCopy? (output : Output Cls) : Option (FieldCopy Cls) :=
  match output.part with
  | .field field => some ⟨field, output.insertion.text⟩
  | _ => none

/-- The data members that a block declares, in order. -/
def fieldCopies (block : List (Output Cls)) : List (FieldCopy Cls) :=
  block.filterMap Output.fieldCopy?

/-- The public data members of a class. -/
def publicFields (decl : CXXRecordDecl Cls) : List (FieldDecl Cls) :=
  decl.fields.filter fun field => field.access = .asPublic

/-- The private data members of a class. -/
def privateFields (decl : CXXRecordDecl Cls) : List (FieldDecl Cls) :=
  decl.fields.filter fun field => field.access = .asPrivate

/-- The copy of a data member in the public section. -/
def publicFieldCopy (field : FieldDecl Cls) : FieldCopy Cls :=
  ⟨field, fieldText (wrapAs "secret".toList []) (wrapAs "secret".toList []) field⟩

/-- The copy of a data member in the private section. -/
def privateFieldCopy (field : FieldDecl Cls) : FieldCopy Cls :=
  ⟨field, fieldText (wrapAs "numa".toList []) (wrapAs "numa".toList "*".toList) field⟩

/-- Member functions declare no data member. -/
theorem fieldCopies_members (semiLoc : SourceLocation) (methods : List CXXMethodDecl) :
    -- None of the texts is that of a field.
    fieldCopies (methods.flatMap (memberOutputs semiLoc) : List (Output Cls)) = [] := by
  rw [fieldCopies, List.filterMap_eq_nil_iff]
  intro output member
  obtain ⟨method, -, member⟩ := List.mem_flatMap.mp member
  -- Each text of a member function is its signature or goes on with it.
  rw [memberOutputs] at member
  split at member
  · cases printed : methodTexts method with
    | error fault => simp [printed] at member
    | ok texts =>
      cases texts with
      | nil => simp [printed, methodOutputs] at member
      | cons first rest =>
        simp only [printed, methodOutputs, List.mem_cons, List.mem_map] at member
        rcases member with same | ⟨text, -, same⟩
        · rw [same]
          rfl
        · rw [← same]
          rfl
  · cases member

/-- A section declares the data members of its access. -/
theorem fieldCopies_copyOutputs (wrapBuiltin wrapPointer : Text → Text) (access : AccessSpecifier)
    (decl : CXXRecordDecl Cls) :
    fieldCopies (copyOutputs wrapBuiltin wrapPointer access decl) =
      (decl.fields.filter fun field => field.access = access).map fun field =>
        ⟨field, fieldText wrapBuiltin wrapPointer field⟩ := by
  -- Methods declare no data member.
  have fields : ∀ fields : List (FieldDecl Cls),
      fieldCopies (fields.map (fieldOutput wrapBuiltin wrapPointer decl.semiLoc)) =
        fields.map fun field => ⟨field, fieldText wrapBuiltin wrapPointer field⟩ := by
    intro fields
    -- By induction on the fields, each of which is one text.
    induction fields with
    | nil => rfl
    | cons field rest ih => exact congrArg _ ih
  -- The methods come behind the fields.
  have methods := @fieldCopies_members Cls decl.semiLoc
    (decl.methods.filter fun method => method.access = access)
  rw [fieldCopies] at methods
  rw [copyOutputs, fieldCopies, List.filterMap_append, methods, List.append_nil]
  exact fields _

/-- A block declares the public data members and then the private ones. -/
theorem fieldCopies_blockOutputs (decl : CXXRecordDecl Cls) :
    fieldCopies (blockOutputs decl) =
      (publicFields decl).map publicFieldCopy ++ (privateFields decl).map privateFieldCopy := by
  have publics : fieldCopies (publicCopies decl) = (publicFields decl).map publicFieldCopy :=
    fieldCopies_copyOutputs ..
  have privates : fieldCopies (privateCopies decl) = (privateFields decl).map privateFieldCopy :=
    fieldCopies_copyOutputs ..
  -- The opening, the second label and the end declare no data member.
  have opened : (openingOutputs decl).filterMap Output.fieldCopy? = [] := rfl
  have closed : [closingOutput decl].filterMap Output.fieldCopy? = [] := rfl
  unfold fieldCopies at publics privates ⊢
  rw [blockOutputs_eq, List.filterMap_append, List.filterMap_append, List.filterMap_cons_none rfl,
    List.filterMap_append, publics, privates, opened, closed, List.nil_append, List.append_nil]

/-- After a completed run, a generated class declares the public and then the private members. -/
theorem fieldCopies_generatedBlock [DecidableEq Cls] (context : ASTContext Cls) {depth : Nat}
    {varDecls : List (VarDecl Cls)} {state : TyperState Cls}
    (completed : start context depth varDecls = .ok state) {secretClass : Cls}
    (generated : secretClass ∈ generatedClasses state) :
    fieldCopies (generatedBlock state secretClass) =
      (publicFields (context.decl secretClass)).map publicFieldCopy ++
        (privateFields (context.decl secretClass)).map privateFieldCopy := by
  -- The block has the fields of both sections in order.
  rw [generatedBlock_eq context completed generated, fieldCopies_blockOutputs]

section Declarations

/-- The qualifiers of a pointer as they stand behind its star. -/
def Declarators.CvQualifiers.text (qualifiers : CvQualifiers) : Text :=
  (if qualifiers.isConst then " const".toList else []) ++
    (if qualifiers.isVolatile then " volatile".toList else []) ++
    if qualifiers.isRestrict then " __restrict".toList else []

/-- A type as it is written, a pointer as its pointee with a star and its qualifiers. -/
def QualType.ownText : QualType Cls → Text
  | .pointer _ pointee qualifiers => pointee.getAsString ++ "*".toList ++ qualifiers.text
  | type => type.getAsString

/-- The declaration of a member of the wrapper of a type. -/
def secretDeclaration (type : QualType Cls) (name : Identifier) : Text :=
  "secret<".toList ++ type.ownText ++ "> ".toList ++ name.text ++ ";\n".toList

/-- Some completed run declares a data member by a text. -/
def EmitsField [DecidableEq Cls] (field : FieldDecl Cls) (text : Text) : Prop :=
  ∃ (context : ASTContext Cls) (depth : Nat) (varDecls : List (VarDecl Cls))
    (state : TyperState Cls) (secretClass : Cls),
    start context depth varDecls = .ok state ∧ secretClass ∈ generatedClasses state ∧
      ⟨field, text⟩ ∈ fieldCopies (generatedBlock state secretClass)

/-- The text of a data member is the one of the section for its access. -/
theorem EmitsField.section [DecidableEq Cls] {field : FieldDecl Cls} {text : Text}
    (emits : EmitsField field text) :
    field.access = .asPublic ∧ text = (publicFieldCopy field).text ∨
      field.access = .asPrivate ∧ text = (privateFieldCopy field).text := by
  -- The run has declared it in one of the two sections.
  obtain ⟨context, depth, varDecls, state, secretClass, completed, generated, member⟩ := emits
  rw [fieldCopies_generatedBlock context completed generated] at member
  simp only [publicFields, privateFields, List.mem_append, List.mem_map, List.mem_filter,
    decide_eq_true_eq] at member
  rcases member with ⟨other, ⟨-, access⟩, same⟩ | ⟨other, ⟨-, access⟩, same⟩
  · -- A public field stands in the first section only.
    have own : other = field := congrArg FieldCopy.field same
    have printed : (publicFieldCopy other).text = text := congrArg FieldCopy.text same
    exact .inl ⟨own ▸ access, own ▸ printed.symm⟩
  · -- A private field stands in the second one.
    have own : other = field := congrArg FieldCopy.field same
    have printed : (privateFieldCopy other).text = text := congrArg FieldCopy.text same
    exact .inr ⟨own ▸ access, own ▸ printed.symm⟩

/-- A class, or a pointer to a class that has no qualifiers of its own. -/
def QualType.isClassOrPointer : QualType Cls → Bool
  | .record _ _ => true
  | .pointer _ (.record _ _) qualifiers => qualifiers = {}
  | _ => false

/-- Qualifiers are printed as nothing only when there are none. -/
theorem Declarators.CvQualifiers.text_eq_nil {qualifiers : CvQualifiers} :
    qualifiers.text = [] ↔ qualifiers = {} := by
  -- Each of the three has a text of its own.
  obtain ⟨isConst, isVolatile, isRestrict⟩ := qualifiers
  cases isConst <;> cases isVolatile <;> cases isRestrict <;> simp [CvQualifiers.text]

/-- A pointer to a class is declared without its qualifiers. -/
theorem pointerDeclaration_iff (spelling : TypeName) (pointee : QualType Cls)
    (qualifiers : CvQualifiers) (name : Identifier) :
    "secret<".toList ++ pointee.getAsString ++ "*> ".toList ++ name.text ++ ";\n".toList =
        secretDeclaration (.pointer spelling pointee qualifiers) name ↔
      qualifiers = {} := by
  have star : "*> ".toList = "*".toList ++ "> ".toList := by decide
  -- Everything around the qualifiers is the same text.
  unfold secretDeclaration QualType.ownText
  rw [star, List.append_left_inj, List.append_left_inj, ← List.append_assoc, List.append_left_inj,
    ← CvQualifiers.text_eq_nil, List.append_assoc, List.append_right_inj, List.self_eq_append_right]

/-- Both sections declare the wrapper of a type exactly for classes and plain pointers to them. -/
theorem fieldCopies_agree_iff {type : QualType Cls} (handled : type.isPlainKind = true)
    (name : Identifier) (access other : AccessSpecifier) :
    ((publicFieldCopy ⟨name, access, type⟩).text = secretDeclaration type name ∧
        (privateFieldCopy ⟨name, other, type⟩).text = secretDeclaration type name) ↔
      type.isClassOrPointer = true := by
  -- The declaration that is asked for begins with another letter than the other template.
  have begins : (secretDeclaration type name).head? = some 's' := by
    unfold secretDeclaration
    rw [List.append_assoc, List.append_assoc, List.append_assoc]
    rfl
  -- The private section writes another template around everything built in.
  have differs : ∀ text : Text, text.head? = some 'n' → text ≠ secretDeclaration type name := by
    rintro text head rfl
    rw [begins] at head
    exact absurd head (by decide)
  -- Only for a class or a pointer to one do both sections write the same template.
  cases type with
  | builtin spelling =>
    exact iff_of_false (fun both => differs _ rfl both.2) Bool.false_ne_true
  | record spelling decl =>
    unfold publicFieldCopy privateFieldCopy fieldText secretDeclaration
    exact iff_of_true ⟨rfl, rfl⟩ rfl
  | pointer spelling pointee qualifiers =>
    cases pointee with
    | builtin spelling =>
      exact iff_of_false (fun both => differs _ rfl both.2) Bool.false_ne_true
    | record inner decl =>
      have declared := pointerDeclaration_iff spelling (.record inner decl) qualifiers name
      rw [QualType.isClassOrPointer, decide_eq_true_iff, ← declared]
      exact and_self_iff
    | _ => cases handled
  | _ => cases handled

/-- The texts by which a public and a private data member of one handled type and name are declared
are both the wrapper of the type exactly when the type is a class, or a pointer to a class without
qualifiers of its own. -/
theorem emitted_declarations_agree_iff [DecidableEq Cls] {publicField privateField : FieldDecl Cls}
    (isPublic : publicField.access = .asPublic) (isPrivate : privateField.access = .asPrivate)
    (sameName : privateField.name = publicField.name)
    (sameType : privateField.type = publicField.type)
    (handled : publicField.type.isPlainKind = true) {publicText privateText : Text}
    (emitsPublic : EmitsField publicField publicText)
    (emitsPrivate : EmitsField privateField privateText) :
    (publicText = secretDeclaration publicField.type publicField.name ∧
        privateText = secretDeclaration publicField.type publicField.name) ↔
      publicField.type.isClassOrPointer = true := by
  obtain ⟨name, access, type⟩ := publicField
  obtain ⟨other, otherAccess, otherType⟩ := privateField
  subst sameName sameType isPublic isPrivate
  -- Each text is the one of the section that the member stands in.
  rcases emitsPublic.section with ⟨-, rfl⟩ | ⟨never, -⟩
  · rcases emitsPrivate.section with ⟨never, -⟩ | ⟨-, rfl⟩
    · cases never
    · exact fieldCopies_agree_iff handled _ _ _
  · cases never

/-- A class with a public member and one with a private member of the same name and type, the class
that they may point to, and the wrappers of the first two. -/
def pairContext (type : QualType (Fin 5)) : ASTContext (Fin 5) where
  decl
    | 0 => sampleClass (word "Open" (by decide)) 1
        [sampleField (word "entry" (by decide)) .asPublic type] none
    | 1 => sampleClass (word "Hidden" (by decide)) 2
        [sampleField (word "entry" (by decide)) .asPrivate type] none
    | 2 => sampleClass (word "Item" (by decide)) 3 [] none
    | 3 => sampleClass secretName 4 []
        (some (secretName, [.type (.record (plain "Open" (by decide)) 0)]))
    | 4 => sampleClass secretName 5 []
        (some (secretName, [.type (.record (plain "Hidden" (by decide)) 1)]))
  translationUnitDecls := []

/-- A variable of the wrapper of one of the two classes. -/
def pairVariable (spelling : TypeName) (wrapper : Fin 5) : VarDecl (Fin 5) where
  name := word "pair" (by decide)
  type := .record spelling wrapper
  filename := "input/main.cpp".toList
  isInSystemHeader := false
  isImplicit := false

/-- The variables of both wrappers. -/
def pairVariables : List (VarDecl (Fin 5)) :=
  [pairVariable (plain "secret<Open>" (by decide)) 3,
    pairVariable (plain "secret<Hidden>" (by decide)) 4]

/-- Once both classes are generated, each declares its member as its section does. -/
theorem pair_emits {type : QualType (Fin 5)} {classes : List (Fin 5)}
    (generates : (start (pairContext type) 2 pairVariables).map generatedClasses = .ok classes)
    (both : 0 ∈ classes ∧ 1 ∈ classes) :
    EmitsField (sampleField (word "entry" (by decide)) .asPublic type)
        (publicFieldCopy ⟨word "entry" (by decide), .asPublic, type⟩).text ∧
      EmitsField (sampleField (word "entry" (by decide)) .asPrivate type)
        (privateFieldCopy ⟨word "entry" (by decide), .asPrivate, type⟩).text := by
  obtain ⟨state, completed, rfl⟩ := completes_of_generates generates
  refine ⟨⟨_, _, _, _, 0, completed, both.1, ?_⟩, ⟨_, _, _, _, 1, completed, both.2, ?_⟩⟩
  · rw [fieldCopies_generatedBlock _ completed both.1]
    exact List.mem_singleton.mpr rfl
  · rw [fieldCopies_generatedBlock _ completed both.2]
    exact List.mem_singleton.mpr rfl

/-- A pointer to a class. -/
def itemPointer : QualType (Fin 5) :=
  .pointer (plain "Item *" (by decide)) (.record (plain "Item" (by decide)) 2)

/-- A member that points to a class is declared alike in both sections. -/
theorem emitted_declarations_agree_item : ∃ publicText privateText,
    EmitsField (sampleField (word "entry" (by decide)) .asPublic itemPointer) publicText ∧
      EmitsField (sampleField (word "entry" (by decide)) .asPrivate itemPointer) privateText ∧
      publicText = secretDeclaration itemPointer (word "entry" (by decide)) ∧
      privateText = secretDeclaration itemPointer (word "entry" (by decide)) := by
  obtain ⟨emitsPublic, emitsPrivate⟩ := @pair_emits itemPointer [0, 2, 1] (by decide) (by decide)
  have agree := fun isPublic isPrivate sameName sameType handled =>
    emitted_declarations_agree_iff isPublic isPrivate sameName sameType handled emitsPublic
      emitsPrivate
  exact ⟨_, _, emitsPublic, emitsPrivate, (agree rfl rfl rfl rfl rfl).mpr rfl⟩

/-- A character. -/
def charType : QualType (Fin 5) := .builtin (plain "char" (by decide))

/-- A character is declared under one wrapper when it is public and under another when private. -/
theorem emitted_declarations_differ_char : ∃ publicText privateText,
    EmitsField (sampleField (word "entry" (by decide)) .asPublic charType) publicText ∧
      EmitsField (sampleField (word "entry" (by decide)) .asPrivate charType) privateText ∧
      publicText = "secret<char> entry;\n".toList ∧ privateText = "numa<char> entry;\n".toList ∧
      ¬ (publicText = secretDeclaration charType (word "entry" (by decide)) ∧
        privateText = secretDeclaration charType (word "entry" (by decide))) := by
  obtain ⟨emitsPublic, emitsPrivate⟩ := @pair_emits charType [0, 1] (by decide) (by decide)
  exact ⟨_, _, emitsPublic, emitsPrivate, by decide, by decide, by decide⟩

end Declarations

section FieldOrder

open TwoPasses

/-- The data members that a block declares, in order. -/
def blockFields (block : List (Output Cls)) : List (FieldDecl Cls) :=
  (fieldCopies block).map FieldCopy.field

/-- Whether a data member is public. -/
def FieldDecl.isPublic (field : FieldDecl Cls) : Bool := field.access = .asPublic

/-- Whether a data member is private. -/
def FieldDecl.isPrivate (field : FieldDecl Cls) : Bool := field.access = .asPrivate

/-- Any two public or private data members of a class stand in a block as they do in the class. -/
def FieldOrderKept (decl : CXXRecordDecl Cls) (block : List (Output Cls)) : Prop :=
  ∀ first second : FieldDecl Cls, (first.isPublic = true ∨ first.isPrivate = true) →
    (second.isPublic = true ∨ second.isPrivate = true) →
    [first, second].Sublist decl.fields → [first, second].Sublist (blockFields block)

/-- No data member is both public and private. -/
theorem isPrivate_of_isPublic (field : FieldDecl Cls) (isPublic : field.isPublic = true) :
    field.isPrivate = false := by
  rw [FieldDecl.isPublic, decide_eq_true_iff] at isPublic
  simp [FieldDecl.isPrivate, isPublic]

section Runs

variable [DecidableEq Cls] (context : ASTContext Cls) {depth : Nat}
  {varDecls : List (VarDecl Cls)} {state : TyperState Cls}
  (completed : start context depth varDecls = .ok state) {secretClass : Cls}
  (generated : secretClass ∈ generatedClasses state)

include completed generated

/-- The data members of a class are passed over twice. -/
theorem blockFields_generatedBlock :
    blockFields (generatedBlock state secretClass) =
      twoPasses FieldDecl.isPublic FieldDecl.isPrivate (context.decl secretClass).fields := by
  have copies := fieldCopies_generatedBlock context completed generated
  have own : ∀ fields : List (FieldDecl Cls),
      (fields.map publicFieldCopy).map FieldCopy.field = fields ∧
        (fields.map privateFieldCopy).map FieldCopy.field = fields := fun fields => by
    simp [publicFieldCopy, privateFieldCopy, Function.comp_def]
  rw [blockFields, copies, List.map_append, (own _).1, (own _).2]
  rfl

/-- Data members of one access keep their order in a generated class, and all public ones come
before all private ones, so the order of all of them is kept exactly when no private one is
declared before a public one. -/
theorem generated_fieldOrder :
    (∀ first second : FieldDecl Cls, ((first.isPublic = true ∧ second.isPublic = true) ∨
        (first.isPrivate = true ∧ second.isPrivate = true)) →
      ([first, second].Sublist (blockFields (generatedBlock state secretClass)) ↔
        [first, second].Sublist (context.decl secretClass).fields)) ∧
    (∀ first second : FieldDecl Cls, first.isPublic = true → second.isPrivate = true →
      ([first, second].Sublist (blockFields (generatedBlock state secretClass)) ↔
        first ∈ (context.decl secretClass).fields ∧ second ∈ (context.decl secretClass).fields)) ∧
    (FieldOrderKept (context.decl secretClass) (generatedBlock state secretClass) ↔
      ∀ first second : FieldDecl Cls, first.isPrivate = true → second.isPublic = true →
        ¬ [first, second].Sublist (context.decl secretClass).fields) := by
  rw [FieldOrderKept, blockFields_generatedBlock context completed generated]
  exact ⟨fun first second => pair_sublist_same isPrivate_of_isPublic,
    fun first second => pair_sublist_passes, order_kept_iff isPrivate_of_isPublic⟩

end Runs

/-- A private member before a public one comes behind it. -/
theorem not_fieldOrderKept_leaf :
    ∃ state, start cyclicContext 7 [nodeVariable, innerVariable] = .ok state ∧
      (1 : Fin 7) ∈ generatedClasses state ∧
      ¬ FieldOrderKept (cyclicContext.decl 1) (generatedBlock state 1) := by
  obtain ⟨state, completed, classes⟩ := cyclic_completes
  have generated : (1 : Fin 7) ∈ generatedClasses state := by simp [classes]
  refine ⟨state, completed, generated, ?_⟩
  rw [FieldOrderKept, blockFields_generatedBlock _ completed generated,
    order_kept_iff isPrivate_of_isPublic]
  -- The first two members of the class.
  exact fun apart => apart _ _ rfl rfl (.cons_cons _ (.cons_cons _ (.cons _ .slnil)))

/-- The members of a class whose public one comes first keep their order. -/
theorem generated_fieldOrder_node :
    ∃ state, start cyclicContext 7 [nodeVariable, innerVariable] = .ok state ∧
      (0 : Fin 7) ∈ generatedClasses state ∧
      FieldOrderKept (cyclicContext.decl 0) (generatedBlock state 0) := by
  obtain ⟨state, completed, classes⟩ := cyclic_completes
  have generated : (0 : Fin 7) ∈ generatedClasses state := by simp [classes]
  refine ⟨state, completed, generated,
    (generated_fieldOrder _ completed generated).2.2.mpr fun first second isPrivate _ pair => ?_⟩
  -- Of the two members there are, the first one is public.
  have whole := pair.eq_of_length rfl
  rw [(List.cons.inj whole).1] at isPrivate
  cases isPrivate

end FieldOrder

end SecretTyping
