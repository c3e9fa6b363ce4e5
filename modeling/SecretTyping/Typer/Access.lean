import SecretTyping.Typer.Blocks

/-! In which section of a generated class its copied members stand. -/

namespace SecretTyping

open Lexical Rewriter Search

variable {Cls : Type}

/-- Every copied member stands in a section of the access it has in its own class. -/
def AccessPreserved (block : List (Output Cls)) : Prop :=
  -- The section of a member is decided by all the text before it.
  ∀ earlier output later, block = earlier ++ output :: later →
    ∀ member, output.member? = some member →
      sectionAfter (blockText earlier) = some member.access

/-- Reading on inside the private section leads back to it. -/
def KeepsPrivate (text : Text) : Prop :=
  (inside .fresh 0 .asPrivate).read text = inside .fresh 0 .asPrivate

/-- The opening of a generated class leaves its reader in the private section. -/
theorem read_openingOutputs (decl : CXXRecordDecl Cls) :
    Reader.start.read (blockText (openingOutputs decl)) = inside .fresh 0 .asPrivate := by
  -- The comment of the allocator runs to the end of its line, and the label is on that line.
  have head : Reader.start.read (headText decl.name.text) = inside .fresh 0 .asPrivate := by
    unfold headText
    rw [read_append, read_append]
    have opened : Reader.start.read "\ntemplate<>\nclass secret<".toList = Reader.start := rfl
    rw [opened, Reader.start, Mode.fresh, read_word [] _ 0 .asPrivate decl.name.letters]
    rfl
  have comment : (inside .fresh 0 .asPrivate).read
      (getSecretAllocatorCode ++ "public:\n".toList) = inside .fresh 0 .asPrivate := rfl
  simp only [blockText, openingOutputs, blockOutput, List.map_cons, List.map_nil,
    List.flatten_cons, List.flatten_nil, List.append_nil]
  rw [read_append, head, comment]

/-- Texts that lead back to the private section can follow one another. -/
theorem read_blockText {outputs : List (Output Cls)}
    (kept : ∀ output ∈ outputs, KeepsPrivate output.insertion.text) :
    (inside .fresh 0 .asPrivate).read (blockText outputs) = inside .fresh 0 .asPrivate := by
  -- By induction on the texts, each read from where the one before has led.
  induction outputs with
  | nil => rfl
  | cons output rest ih =>
    have own : KeepsPrivate output.insertion.text := kept output (by simp)
    have others := ih fun o member => kept o (List.mem_cons_of_mem _ member)
    unfold KeepsPrivate at own
    simp only [blockText, List.map_cons, List.flatten_cons, read_append, own]
    exact others

/-- Everything between the opening and the end of a block leads back to the private section. -/
theorem keepsPrivate_of_mem {decl : CXXRecordDecl Cls} {output : Output Cls}
    (member : output ∈ publicCopies decl ++ privateLabel decl :: privateCopies decl) :
    KeepsPrivate output.insertion.text := by
  -- Copies leave every section as it is, and the label selects the one already open.
  rcases List.mem_append.mp member with found | found
  · exact closed_of_mem_publicCopies found 0 .asPrivate
  · rcases List.mem_cons.mp found with same | found
    · rw [same]
      rfl
    · exact closed_of_mem_privateCopies found 0 .asPrivate

/-- A list split at an element of neither end is split inside its middle. -/
theorem split_inside {Item : Type} {opening middle earlier later : List Item} {ending item : Item}
    (split : opening ++ (middle ++ [ending]) = earlier ++ item :: later)
    (notOpening : item ∉ opening) (notEnding : item ≠ ending) :
    ∃ between, earlier = opening ++ between ∧ ∀ other ∈ between, other ∈ middle := by
  -- The element can neither lie in the opening nor be the end.
  rcases List.append_eq_append_iff.mp split with
    ⟨between, same, rest⟩ | ⟨overlap, same, rest⟩
  · -- The split is behind the opening, so only the end could lie before it.
    refine ⟨between, same, fun other member => ?_⟩
    rcases List.append_eq_append_iff.mp rest with ⟨extra, _, last⟩ | ⟨extra, whole, _⟩
    · have atEnd : item ∈ [ending] := by simp [last]
      exact absurd (List.mem_singleton.mp atEnd) notEnding
    · simp [whole, member]
  · cases overlap with
    | nil => exact ⟨[], by simpa using same.symm, by simp⟩
    | cons first overlap =>
      have found : item = first := (List.cons.inj rest).1
      exact absurd (by simp [same, found]) notOpening

/-- Whatever member a block copies, its copy stands in the private section. -/
theorem section_of_member {decl : CXXRecordDecl Cls} {earlier later : List (Output Cls)}
    {output : Output Cls} (split : blockOutputs decl = earlier ++ output :: later)
    {member : Member Cls} (copied : output.member? = some member) :
    sectionAfter (blockText earlier) = some .asPrivate := by
  -- A copy is neither part of the opening nor the end of the block.
  have notOpening : output ∉ openingOutputs decl := by
    intro found
    simp only [openingOutputs, List.mem_cons, List.not_mem_nil, or_false] at found
    rcases found with same | same | same <;> simp [same, Output.member?, blockOutput] at copied
  have notEnding : output ≠ closingOutput decl := by
    intro same
    simp [same, closingOutput, Output.member?, blockOutput] at copied
  have parts : openingOutputs decl ++ ((publicCopies decl ++
      privateLabel decl :: privateCopies decl) ++ [closingOutput decl]) =
        earlier ++ output :: later := by
    rw [← split, blockOutputs_eq]
    simp
  obtain ⟨between, same, inMiddle⟩ := split_inside parts notOpening notEnding
  have read : Reader.start.read (blockText earlier) = inside .fresh 0 .asPrivate := by
    rw [same, blockText, List.map_append, List.flatten_append, read_append]
    rw [← blockText, ← blockText, read_openingOutputs]
    exact read_blockText fun o found => keepsPrivate_of_mem (inMiddle o found)
  unfold sectionAfter
  rw [read]
  rfl

/-- A block preserves access exactly when it copies private members only. -/
theorem accessPreserved_blockOutputs (decl : CXXRecordDecl Cls) :
    AccessPreserved (blockOutputs decl) ↔
      ∀ member ∈ blockMembers (blockOutputs decl), member.access = .asPrivate := by
  -- Every copy stands in the private section, so its own access must be that.
  constructor
  · intro preserved member found
    obtain ⟨output, outputMember, copied⟩ := List.mem_filterMap.mp found
    obtain ⟨earlier, later, split⟩ := List.append_of_mem outputMember
    have stands := preserved earlier output later split member copied
    rw [section_of_member split copied] at stands
    exact (Option.some.inj stands).symm
  · intro privates earlier output later split member copied
    have found : member ∈ blockMembers (blockOutputs decl) :=
      List.mem_filterMap.mpr ⟨output, by simp [split], copied⟩
    rw [section_of_member split copied, privates member found]

/-- The members copied from a class are all private when it has no public ones to copy. -/
theorem copied_private_iff (decl : CXXRecordDecl Cls) :
    (∀ member ∈ copiedMembers .asPublic decl ++ copiedMembers .asPrivate decl,
        member.access = .asPrivate) ↔
      (∀ field ∈ decl.fields, field.access ≠ .asPublic) ∧
        ∀ method ∈ decl.methods, method.isCopied → method.access ≠ .asPublic := by
  -- What is copied from the private members is private in any case.
  simp only [copiedMembers, List.mem_append, List.mem_map, List.mem_filter, decide_eq_true_eq]
  constructor
  · intro privates
    refine ⟨fun field member isPublic => ?_, fun method member copied isPublic => ?_⟩
    · have isPrivate := privates (.field field) (.inl (.inl ⟨field, ⟨member, isPublic⟩, rfl⟩))
      simp [Member.access, isPublic] at isPrivate
    · have isPrivate := privates (.method method)
        (.inl (.inr ⟨method, ⟨⟨member, isPublic⟩, copied⟩, rfl⟩))
      simp [Member.access, isPublic] at isPrivate
  · intro given member found
    obtain ⟨noField, noMethod⟩ := given
    rcases found with (⟨field, ⟨fieldMember, isPublic⟩, _⟩ |
      ⟨method, ⟨⟨methodMember, isPublic⟩, copied⟩, _⟩) |
      (⟨field, ⟨_, isPrivate⟩, same⟩ | ⟨method, ⟨⟨_, isPrivate⟩, _⟩, same⟩)
    · exact absurd isPublic (noField field fieldMember)
    · exact absurd isPublic (noMethod method methodMember copied)
    · rw [← same]
      exact isPrivate
    · rw [← same]
      exact isPrivate

/-- A generated class keeps the access of its members exactly when none of them is public.

The label of the public section stands in the comment that the allocator code opens. -/
theorem generated_accessPreserved_iff [DecidableEq Cls] (context : ASTContext Cls) {depth : Nat}
    {varDecls : List (VarDecl Cls)} {state : TyperState Cls}
    (completed : start context depth varDecls = .ok state) {secretClass : Cls}
    (generated : secretClass ∈ generatedClasses state) :
    AccessPreserved (generatedBlock state secretClass) ↔
      (∀ field ∈ (context.decl secretClass).fields, field.access ≠ .asPublic) ∧
        ∀ method ∈ (context.decl secretClass).methods,
          method.isCopied → method.access ≠ .asPublic := by
  -- The block of a generated class and its members are known.
  have block := generatedBlock_eq context completed generated
  have members := blockMembers_generatedBlock context completed generated
  rw [block] at members ⊢
  rw [accessPreserved_blockOutputs, members, copied_private_iff]

/-- A class with a public field loses its access. -/
theorem accessPreserved_fails :
    ∃ state, start cyclicContext 7 [nodeVariable, innerVariable] = .ok state ∧
      (0 : Fin 7) ∈ generatedClasses state ∧ ¬ AccessPreserved (generatedBlock state 0) := by
  -- The first class of the sample has a public field.
  obtain ⟨state, completed, classes⟩ := cyclic_completes
  have generated : (0 : Fin 7) ∈ generatedClasses state := by simp [classes]
  refine ⟨state, completed, generated, fun preserved => ?_⟩
  have block := generatedBlock_eq cyclicContext completed generated
  rw [block, accessPreserved_blockOutputs] at preserved
  exact absurd preserved (by decide)

/-- A class with nothing but a private field keeps it private. -/
theorem generated_accessPreserved_inner :
    ∃ state, start cyclicContext 7 [nodeVariable, innerVariable] = .ok state ∧
      (3 : Fin 7) ∈ generatedClasses state ∧ AccessPreserved (generatedBlock state 3) := by
  -- The only field of the class is private.
  obtain ⟨state, completed, classes⟩ := cyclic_completes
  have generated : (3 : Fin 7) ∈ generatedClasses state := by simp [classes]
  refine ⟨state, completed, generated, ?_⟩
  refine (generated_accessPreserved_iff cyclicContext completed generated).mpr ⟨?_, ?_⟩
  · decide
  · decide

end SecretTyping
