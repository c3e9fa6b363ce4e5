import SecretTyping.Typer.Blocks

/-! Which members of a class its generated class holds. -/

namespace SecretTyping

open Rewriter Search

variable {Cls : Type}

/-- A member function that the user wrote and whose definition is visible. -/
def CXXMethodDecl.isOwn (method : CXXMethodDecl) : Bool :=
  method.isUserProvided && method.definition.isSome

/-- The members a faithful copy of a class holds: all its fields and all its own functions. -/
def ownMembers (decl : CXXRecordDecl Cls) : List (Member Cls) :=
  decl.fields.map .field ++ (decl.methods.filter CXXMethodDecl.isOwn).map .method

/-- A block copies exactly the members of a class, each as often as the class has it. -/
def CoversMembers (block : List (Output Cls)) (decl : CXXRecordDecl Cls) : Prop :=
  (blockMembers block).Perm (ownMembers decl)

/-- What a class must avoid for its copy to hold exactly its members. -/
structure FullyCopied (decl : CXXRecordDecl Cls) : Prop where
  fields : ∀ field ∈ decl.fields, field.access ≠ .asProtected
  methods : ∀ method ∈ decl.methods, method.isOwn → method.access ≠ .asProtected
  /-- Destructors are copied whether or not they are defined. -/
  destructors : ∀ method ∈ decl.methods, method.kind = .destructor →
    method.isUserProvided → method.access.isWalked → method.definition.isSome

/-- A member is copied with one of the two accesses whose members are walked. -/
theorem mem_copiedMembers {decl : CXXRecordDecl Cls} {member : Member Cls} :
    member ∈ copiedMembers .asPublic decl ++ copiedMembers .asPrivate decl ↔
      member.access.isWalked ∧
        ((∃ field ∈ decl.fields, member = .field field) ∨
          ∃ method ∈ decl.methods, method.isCopied ∧ member = .method method) := by
  -- A field is always copied, a member function only when it passes its test.
  simp only [copiedMembers, List.mem_append, List.mem_map, List.mem_filter, decide_eq_true_eq,
    AccessSpecifier.isWalked]
  constructor
  · intro found
    rcases found with (⟨field, ⟨own, access⟩, same⟩ | ⟨method, ⟨⟨own, access⟩, copied⟩, same⟩) |
      (⟨field, ⟨own, access⟩, same⟩ | ⟨method, ⟨⟨own, access⟩, copied⟩, same⟩)
    · exact ⟨.inl (same ▸ access), .inl ⟨field, own, same.symm⟩⟩
    · exact ⟨.inl (same ▸ access), .inr ⟨method, own, copied, same.symm⟩⟩
    · exact ⟨.inr (same ▸ access), .inl ⟨field, own, same.symm⟩⟩
    · exact ⟨.inr (same ▸ access), .inr ⟨method, own, copied, same.symm⟩⟩
  · intro given
    obtain ⟨walked, found⟩ := given
    rcases found with ⟨field, own, same⟩ | ⟨method, own, copied, same⟩
    · rw [same] at walked
      rcases walked with access | access
      · exact .inl (.inl ⟨field, ⟨own, access⟩, same.symm⟩)
      · exact .inr (.inl ⟨field, ⟨own, access⟩, same.symm⟩)
    · rw [same] at walked
      rcases walked with access | access
      · exact .inl (.inr ⟨method, ⟨⟨own, access⟩, copied⟩, same.symm⟩)
      · exact .inr (.inr ⟨method, ⟨⟨own, access⟩, copied⟩, same.symm⟩)

/-- Two sections that share out a list between them hold it together. -/
theorem filter_append_perm_of_split {Item : Type} (items : List Item) (first second : Item → Bool)
    (split : ∀ item ∈ items, second item = !first item) :
    (items.filter first ++ items.filter second).Perm items := by
  -- The second test is the negation of the first.
  have same : items.filter second = items.filter fun item => !first item :=
    List.filter_congr split
  rw [same]
  exact List.filter_append_perm first items

/-- A class whose copies are its members is fully copied. -/
theorem fullyCopied_of_perm {decl : CXXRecordDecl Cls}
    (perm : (copiedMembers .asPublic decl ++ copiedMembers .asPrivate decl).Perm
      (ownMembers decl)) : FullyCopied decl := by
  -- What the class has must be among the copies, and what is copied among its members.
  have copied : ∀ member ∈ ownMembers decl, member.access.isWalked := by
    intro member found
    exact (mem_copiedMembers.mp (perm.mem_iff.mpr found)).1
  refine ⟨fun field member isProtected => ?_, fun method member own isProtected => ?_,
    fun method member kind provided walked => ?_⟩
  · have walked := copied (.field field)
      (List.mem_append.mpr (.inl (List.mem_map.mpr ⟨field, member, rfl⟩)))
    simp [Member.access, AccessSpecifier.isWalked, isProtected] at walked
  · have walked := copied (.method method)
      (List.mem_append.mpr (.inr (List.mem_map.mpr
        ⟨method, List.mem_filter.mpr ⟨member, own⟩, rfl⟩)))
    simp [Member.access, AccessSpecifier.isWalked, isProtected] at walked
  · have isCopied : method.isCopied = true := by
      simp [CXXMethodDecl.isCopied, provided, kind]
    have copy : .method method ∈
        copiedMembers .asPublic decl ++ copiedMembers .asPrivate decl :=
      mem_copiedMembers.mpr ⟨walked, .inr ⟨method, member, isCopied, rfl⟩⟩
    have found := perm.mem_iff.mp copy
    simp only [ownMembers, List.mem_append, List.mem_map, List.mem_filter, reduceCtorEq,
      and_false, exists_false, false_or] at found
    obtain ⟨other, ⟨_, own⟩, same⟩ := found
    cases same
    simp only [CXXMethodDecl.isOwn, Bool.and_eq_true] at own
    exact own.2

/-- The fields of a fully copied class are shared out between the two sections. -/
theorem FullyCopied.fields_perm {decl : CXXRecordDecl Cls} (full : FullyCopied decl) :
    ((decl.fields.filter fun field => field.access = .asPublic) ++
      decl.fields.filter fun field => field.access = .asPrivate).Perm decl.fields := by
  refine filter_append_perm_of_split _ _ _ fun field member => ?_
  have unprotected := full.fields field member
  cases access : field.access <;> simp_all

/-- What is copied of the functions in a section are the class's own. -/
theorem FullyCopied.isCopied_eq_isOwn {decl : CXXRecordDecl Cls} (full : FullyCopied decl)
    {method : CXXMethodDecl} (member : method ∈ decl.methods) (walked : method.access.isWalked)
    (defined : ¬ method.lacksDefinition) : method.isCopied = method.isOwn := by
  -- Only a constructor or a destructor can be copied without its definition.
  have destructors := full.destructors method member
  unfold CXXMethodDecl.isCopied CXXMethodDecl.isOwn
  unfold CXXMethodDecl.lacksDefinition at defined
  cases kind : method.kind <;> cases provided : method.isUserProvided <;>
    cases definition : method.definition <;> simp_all

/-- The functions of a fully copied class are shared out between the two sections. -/
theorem FullyCopied.methods_perm {decl : CXXRecordDecl Cls} (full : FullyCopied decl)
    (defined : ∀ method ∈ decl.methods, method.access.isWalked → ¬ method.lacksDefinition) :
    (((decl.methods.filter fun method => method.access = .asPublic).filter
        CXXMethodDecl.isCopied) ++
      (decl.methods.filter fun method => method.access = .asPrivate).filter
        CXXMethodDecl.isCopied).Perm (decl.methods.filter CXXMethodDecl.isOwn) := by
  -- Of the functions in a section, those copied are the class's own.
  have sections : ∀ access, AccessSpecifier.isWalked access →
      (decl.methods.filter fun method => method.access = access).filter
          CXXMethodDecl.isCopied =
        (decl.methods.filter CXXMethodDecl.isOwn).filter fun method =>
          method.access = access := by
    intro access walked
    rw [List.filter_filter, List.filter_filter]
    refine List.filter_congr fun method member => ?_
    by_cases same : method.access = access
    · have own := full.isCopied_eq_isOwn member (same ▸ walked)
        (defined method member (same ▸ walked))
      simp [same, own]
    · simp [same]
  rw [sections _ (.inl rfl), sections _ (.inr rfl)]
  refine filter_append_perm_of_split _ _ _ fun method member => ?_
  have member := List.mem_filter.mp member
  have unprotected := full.methods method member.1 member.2
  cases access : method.access <;> simp_all

/-- Where every constructor has its definition, a block copies all members exactly when the class
is fully copied. -/
theorem copiedMembers_perm_iff (decl : CXXRecordDecl Cls)
    (defined : ∀ method ∈ decl.methods, method.access.isWalked → ¬ method.lacksDefinition) :
    (copiedMembers .asPublic decl ++ copiedMembers .asPrivate decl).Perm (ownMembers decl) ↔
      FullyCopied decl := by
  refine ⟨fullyCopied_of_perm, fun full => ?_⟩
  -- Bringing the fields of both sections together leaves the methods of both.
  have joined := (full.fields_perm.map Member.field).append
    ((full.methods_perm defined).map (Member.method : CXXMethodDecl → Member Cls))
  rw [List.map_append, List.map_append] at joined
  refine List.Perm.trans ?_ joined
  simp only [copiedMembers, List.append_assoc]
  refine List.Perm.append_left _ ?_
  exact List.perm_append_comm_assoc _ _ _

/-- A generated class holds all members of its class and nothing else exactly when the class has
no protected field or function to copy and no destructor without a visible definition. -/
theorem generated_coversMembers_iff [DecidableEq Cls] (context : ASTContext Cls) {depth : Nat}
    {varDecls : List (VarDecl Cls)} {state : TyperState Cls}
    (completed : start context depth varDecls = .ok state) {secretClass : Cls}
    (generated : secretClass ∈ generatedClasses state) :
    CoversMembers (generatedBlock state secretClass) (context.decl secretClass) ↔
      FullyCopied (context.decl secretClass) := by
  -- The run has completed, so every constructor it copied has its definition.
  rw [CoversMembers, blockMembers_generatedBlock context completed generated]
  exact copiedMembers_perm_iff _ (generated_defined context completed generated)

/-- The first class of the sample is copied in full. -/
theorem generated_coversMembers_node :
    ∃ state, start cyclicContext 7 [nodeVariable, innerVariable] = .ok state ∧
      (0 : Fin 7) ∈ generatedClasses state ∧
      CoversMembers (generatedBlock state 0) (cyclicContext.decl 0) := by
  -- The class has one public and one private field and no functions.
  obtain ⟨state, completed, classes⟩ := cyclic_completes
  have generated : (0 : Fin 7) ∈ generatedClasses state := by simp [classes]
  refine ⟨state, completed, generated, ?_⟩
  refine (generated_coversMembers_iff cyclicContext completed generated).mpr ⟨?_, ?_, ?_⟩
  · decide
  · decide
  · simp [cyclicContext, sampleClass]

/-- The second class of the sample loses its protected field. -/
theorem coversMembers_fails :
    ∃ state, start cyclicContext 7 [nodeVariable, innerVariable] = .ok state ∧
      (1 : Fin 7) ∈ generatedClasses state ∧
      ¬ CoversMembers (generatedBlock state 1) (cyclicContext.decl 1) := by
  obtain ⟨state, completed, classes⟩ := cyclic_completes
  have generated : (1 : Fin 7) ∈ generatedClasses state := by simp [classes]
  refine ⟨state, completed, generated, fun covered => ?_⟩
  rw [CoversMembers, generatedBlock_eq cyclicContext completed generated] at covered
  -- The class has three fields, and its block holds two.
  have lengths := covered.length_eq
  exact absurd lengths (by decide)

end SecretTyping
