import SecretTyping.Typer.Blocks

/-! The member functions of a generated class, each with the texts that were inserted for it. -/

namespace SecretTyping

open Rewriter

variable {Cls : Type}

/-- A member function and the texts of its copy, in order. -/
structure FunctionCopy where
  method : CXXMethodDecl
  texts : List Text
  deriving DecidableEq

/-- Whether an insertion goes on with the member function before it. -/
def Output.isContinuation (output : Output Cls) : Bool :=
  match output.part with
  | .continuation _ => true
  | _ => false

/-- The texts at the start of a block that go on with what was before it. -/
def continuationTexts (outputs : List (Output Cls)) : List Text :=
  (outputs.takeWhile Output.isContinuation).map fun output => output.insertion.text

/-- The copies that a block holds, in order. -/
def functionCopies : List (Output Cls) → List FunctionCopy
  | [] => []
  | output :: rest =>
    match output.part with
    | .signature method =>
      ⟨method, output.insertion.text :: continuationTexts rest⟩ :: functionCopies rest
    | _ => functionCopies rest

/-- The copies that a list of member functions gives. -/
def copiesOf (methods : List CXXMethodDecl) : List FunctionCopy :=
  (methods.filter CXXMethodDecl.isCopied).filterMap fun method =>
    match methodTexts method with
    | .ok texts => some ⟨method, texts⟩
    | .error _ => none

/-- What follows a block does not go on with the last function of it. -/
def BeginsAnew (outputs : List (Output Cls)) : Prop :=
  ∀ output ∈ outputs.head?, output.isContinuation = false

section Blocks

variable {semiLoc : SourceLocation} {following : List (Output Cls)}

/-- Texts that go on with a function are neither copies nor the end of one. -/
theorem functionCopies_continued (method : CXXMethodDecl) (texts : List Text)
    (anew : BeginsAnew following) :
    functionCopies (texts.map (blockOutput semiLoc (.continuation method)) ++ following) =
        functionCopies following ∧
      continuationTexts (texts.map (blockOutput semiLoc (.continuation method)) ++ following) =
        texts := by
  -- By induction on the texts, up to the insertion that begins anew.
  induction texts with
  | nil =>
    refine ⟨rfl, ?_⟩
    cases following with
    | nil => rfl
    | cons next rest =>
      have stops : next.isContinuation = false := anew next rfl
      simp [continuationTexts, stops]
  | cons text rest ih =>
    refine ⟨ih.1, ?_⟩
    have others := ih.2
    simp only [continuationTexts] at others ⊢
    rw [List.map_cons, List.cons_append, List.takeWhile_cons_of_pos rfl, List.map_cons, others]
    rfl

/-- The texts of one member function are one copy of it. -/
theorem functionCopies_methodOutputs (method : CXXMethodDecl) {texts : List Text}
    (nonempty : texts ≠ []) (anew : BeginsAnew following) :
    functionCopies (methodOutputs semiLoc method texts ++ following) =
      ⟨method, texts⟩ :: functionCopies following := by
  cases texts with
  | nil => exact absurd rfl nonempty
  | cons first rest =>
    -- The first text opens the copy and the others go on with it.
    have continued := @functionCopies_continued _ semiLoc _ method rest anew
    simp only [methodOutputs, List.cons_append, functionCopies, blockOutput]
    exact congrArg₂ _ (congrArg _ (congrArg _ continued.2)) continued.1

/-- The outputs of member functions begin anew. -/
theorem beginsAnew_members (methods : List CXXMethodDecl) (anew : BeginsAnew following) :
    BeginsAnew (methods.flatMap (memberOutputs semiLoc) ++ following) := by
  -- By induction: the first method with a text begins with its signature.
  induction methods with
  | nil => exact anew
  | cons method rest ih =>
    rw [List.flatMap_cons, List.append_assoc, memberOutputs]
    split
    · cases methodTexts method with
      | error fault => exact ih
      | ok texts =>
        cases texts with
        | nil => exact ih
        | cons first others =>
          intro output found
          cases found
          rfl
    · exact ih

/-- The outputs of member functions are their copies. -/
theorem functionCopies_members (methods : List CXXMethodDecl) (anew : BeginsAnew following) :
    functionCopies (methods.flatMap (memberOutputs semiLoc) ++ following) =
      copiesOf methods ++ functionCopies following := by
  induction methods with
  | nil => rfl
  | cons method rest ih =>
    have others := @beginsAnew_members _ semiLoc _ rest anew
    rw [List.flatMap_cons, List.append_assoc, memberOutputs, copiesOf]
    -- A method is skipped, or its texts are followed by those of the other methods.
    split
    · next copied =>
      rw [List.filter_cons_of_pos copied]
      cases printed : methodTexts method with
      | error fault =>
        rw [List.filterMap_cons_none (by rw [printed])]
        exact ih
      | ok texts =>
        rw [List.filterMap_cons_some (by rw [printed]),
          functionCopies_methodOutputs method (methodTexts_ne_nil printed) others, ih]
        rfl
    · next skipped =>
      rw [List.filter_cons_of_neg skipped]
      exact ih

/-- The fields of a section are no copies of functions. -/
theorem functionCopies_fields (wrapBuiltin wrapPointer : Text → Text)
    (fields : List (FieldDecl Cls)) :
    functionCopies (fields.map (fieldOutput wrapBuiltin wrapPointer semiLoc) ++ following) =
      functionCopies following := by
  -- By induction on the fields, each of which is passed over.
  induction fields with
  | nil => rfl
  | cons field rest ih => exact ih

end Blocks

/-- The copies of a block are those of the public and then of the private member functions. -/
theorem functionCopies_blockOutputs (decl : CXXRecordDecl Cls) :
    functionCopies (blockOutputs decl) =
      copiesOf (decl.methods.filter fun method => method.access = .asPublic) ++
        copiesOf (decl.methods.filter fun method => method.access = .asPrivate) := by
  -- A label stands behind the public functions and the end of the class behind the private ones.
  have closes : BeginsAnew [closingOutput decl] := by
    intro output found
    cases found
    rfl
  have labelled :
      BeginsAnew (privateLabel decl :: (privateCopies decl ++ [closingOutput decl])) := by
    intro output found
    cases found
    rfl
  have opening : ∀ rest, functionCopies (openingOutputs decl ++ rest) = functionCopies rest :=
    fun rest => rfl
  have label : ∀ rest, functionCopies (privateLabel decl :: rest) = functionCopies rest :=
    fun rest => rfl
  have ending : functionCopies [closingOutput decl] = [] := rfl
  have privates : functionCopies (privateCopies decl ++ [closingOutput decl]) =
      copiesOf (decl.methods.filter fun method => method.access = .asPrivate) := by
    rw [privateCopies, copyOutputs, List.append_assoc, functionCopies_fields,
      functionCopies_members _ closes, ending, List.append_nil]
  rw [blockOutputs_eq, opening, publicCopies, copyOutputs, List.append_assoc,
    functionCopies_fields, functionCopies_members _ labelled, label, privates]

/-- Whether a method is copied and which texts its copy consists of. -/
theorem mem_copiesOf {methods : List CXXMethodDecl} {copy : FunctionCopy} :
    copy ∈ copiesOf methods ↔ copy.method ∈ methods ∧ copy.method.isCopied = true ∧
      methodTexts copy.method = .ok copy.texts := by
  -- A method whose texts cannot be made is left out.
  simp only [copiesOf, List.mem_filterMap, List.mem_filter]
  constructor
  · intro ⟨method, ⟨member, copied⟩, made⟩
    cases printed : methodTexts method with
    | error fault => simp [printed] at made
    | ok texts =>
      rw [printed] at made
      cases made
      exact ⟨member, copied, printed⟩
  · intro ⟨member, copied, printed⟩
    exact ⟨copy.method, ⟨member, copied⟩, by rw [printed]⟩

/-- The copies of a generated class are the copies of its public and private member functions. -/
theorem mem_generatedCopies [DecidableEq Cls] (context : ASTContext Cls) {depth : Nat}
    {varDecls : List (VarDecl Cls)} {state : TyperState Cls}
    (completed : start context depth varDecls = .ok state) {secretClass : Cls}
    (generated : secretClass ∈ generatedClasses state) {copy : FunctionCopy} :
    copy ∈ functionCopies (generatedBlock state secretClass) ↔
      copy.method ∈ (context.decl secretClass).methods ∧ copy.method.access.isWalked ∧
        copy.method.isCopied = true ∧ methodTexts copy.method = .ok copy.texts := by
  rw [generatedBlock_eq context completed generated, functionCopies_blockOutputs,
    List.mem_append, mem_copiesOf, mem_copiesOf]
  -- The two sections are told apart by the access of the function.
  simp only [List.mem_filter, decide_eq_true_eq, AccessSpecifier.isWalked]
  tauto

/-- When the copies of a function keep something under a condition alone, a generated class has a
copy that keeps it exactly when the function is public or private and the condition holds. -/
theorem generated_copies_iff [DecidableEq Cls] (context : ASTContext Cls) {depth : Nat}
    {varDecls : List (VarDecl Cls)} {state : TyperState Cls}
    (completed : start context depth varDecls = .ok state) {secretClass : Cls}
    (generated : secretClass ∈ generatedClasses state) {method : CXXMethodDecl}
    (member : method ∈ (context.decl secretClass).methods) (copied : method.isCopied = true)
    (defined : method.definition ≠ none) {keeps : FunctionCopy → Prop} {condition : Prop}
    (alike : ∀ texts, methodTexts method = .ok texts → (keeps ⟨method, texts⟩ ↔ condition)) :
    ((∃ copy ∈ functionCopies (generatedBlock state secretClass), copy.method = method ∧
        keeps copy) ↔ method.access.isWalked ∧ condition) ∧
    ∀ copy ∈ functionCopies (generatedBlock state secretClass), copy.method = method →
      (keeps copy ↔ condition) := by
  have copies : ∀ copy, copy ∈ functionCopies (generatedBlock state secretClass) ↔ _ := fun _ =>
    mem_generatedCopies context completed generated
  have each : ∀ copy ∈ functionCopies (generatedBlock state secretClass), copy.method = method →
      (keeps copy ↔ condition) := by
    rintro ⟨_, texts⟩ found rfl
    exact alike texts ((copies _).mp found).2.2.2
  refine ⟨⟨?_, ?_⟩, each⟩
  · intro ⟨copy, found, same, kept⟩
    have walked := ((copies copy).mp found).2.1
    exact ⟨same ▸ walked, (each copy found same).mp kept⟩
  · intro ⟨walked, holds⟩
    cases printed : methodTexts method with
    | error fault =>
      -- Only a definition that is missing stops the copy.
      exact absurd ((methodTexts_error copied).mp printed).2.2.2 defined
    | ok texts =>
      have found := (copies ⟨method, texts⟩).mpr ⟨member, walked, copied, printed⟩
      exact ⟨_, found, rfl, (alike texts printed).mpr holds⟩

end SecretTyping
