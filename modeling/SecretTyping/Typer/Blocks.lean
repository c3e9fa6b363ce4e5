import SecretTyping.Typer.Worklist

/-! The block of a generated class, piece by piece, and what each piece does to its reader. -/

namespace SecretTyping

open Lexical Rewriter Search

variable {Cls : Type}

/-- A member of a class, as a generated class may copy it. -/
inductive Member (Cls : Type) where
  | field (decl : FieldDecl Cls)
  | method (decl : CXXMethodDecl)
  deriving DecidableEq

/-- The access a member has in its own class. -/
def Member.access : Member Cls → AccessSpecifier
  | .field decl => decl.access
  | .method decl => decl.access

/-- The member whose copy an insertion begins. -/
def Output.member? (output : Output Cls) : Option (Member Cls) :=
  -- The further texts of a member function belong to the copy its signature began.
  match output.part with
  | .field field => some (.field field)
  | .signature method => some (.method method)
  | _ => none

/-- The text that insertions at one place make up. -/
def blockText (outputs : List (Output Cls)) : Text :=
  (outputs.map fun output => output.insertion.text).flatten

/-- What a run has inserted after the definition of a class. -/
def generatedBlock [DecidableEq Cls] (state : TyperState Cls) (secretClass : Cls) :
    List (Output Cls) :=
  -- The keywords of its methods stand before them, everything else is the generated class.
  (written state.insertions secretClass).filter fun output => output.insertion.side = .after

/-- The insertions that open a generated class, up to its first label. -/
def openingOutputs (decl : CXXRecordDecl Cls) : List (Output Cls) :=
  [blockOutput decl.semiLoc .head (headText decl.name.text),
    blockOutput decl.semiLoc .allocatorCode getSecretAllocatorCode,
    blockOutput decl.semiLoc .accessLabel "public:\n".toList]

/-- The insertions that copy the members of one access. -/
def copyOutputs (wrapBuiltin wrapPointer : Text → Text) (access : AccessSpecifier)
    (decl : CXXRecordDecl Cls) : List (Output Cls) :=
  (decl.fields.filter fun field => field.access = access).map
      (fieldOutput wrapBuiltin wrapPointer decl.semiLoc) ++
    (decl.methods.filter fun method => method.access = access).flatMap (memberOutputs decl.semiLoc)

/-- The insertions that copy the public members. -/
def publicCopies (decl : CXXRecordDecl Cls) : List (Output Cls) :=
  copyOutputs (wrapAs "secret".toList []) (wrapAs "secret".toList []) .asPublic decl

/-- The insertions that copy the private members. -/
def privateCopies (decl : CXXRecordDecl Cls) : List (Output Cls) :=
  copyOutputs (wrapAs "numa".toList []) (wrapAs "numa".toList "*".toList) .asPrivate decl

/-- The label between the public and the private members. -/
def privateLabel (decl : CXXRecordDecl Cls) : Output Cls :=
  blockOutput decl.semiLoc .accessLabel "private:\n".toList

/-- The insertion that closes a generated class. -/
def closingOutput (decl : CXXRecordDecl Cls) : Output Cls :=
  blockOutput decl.semiLoc .closing "\x7d;\n".toList

/-- A block is its opening, the copies of the two sections around a label, and its end. -/
theorem blockOutputs_eq (decl : CXXRecordDecl Cls) :
    blockOutputs decl =
      openingOutputs decl ++
        (publicCopies decl ++ privateLabel decl :: (privateCopies decl ++ [closingOutput decl])) :=
  -- The parts are the same, only bracketed in another way.
  rfl

/-- The members whose copies a block holds, in order. -/
def blockMembers (block : List (Output Cls)) : List (Member Cls) :=
  block.filterMap Output.member?

/-- The members of one access that are copied. -/
def copiedMembers (access : AccessSpecifier) (decl : CXXRecordDecl Cls) : List (Member Cls) :=
  -- Fields are copied without a condition, member functions under one.
  (decl.fields.filter fun field => field.access = access).map .field ++
    ((decl.methods.filter fun method => method.access = access).filter
      CXXMethodDecl.isCopied).map .method

section Texts

variable {method : CXXMethodDecl} {texts : List Text}

/-- The copy of a constructor is its head with the initializers, and a body. -/
theorem texts_of_constructor (constructs : method.kind = .constructor)
    (printed : methodTexts method = .ok texts) :
    ∃ head, getSecretConstructorSignature method = .ok head ∧
      texts = [head ++ ctorInitText method, bodyText method] := by
  unfold methodTexts secretConstructors at printed
  rw [constructs] at printed
  cases signature : getSecretConstructorSignature method with
  | error fault => simp [signature, Bind.bind, Except.bind] at printed
  | ok head =>
    simp only [signature, Bind.bind, Except.bind, pure, Except.pure, Except.ok.injEq] at printed
    exact ⟨head, rfl, printed.symm⟩

/-- The copy of a destructor is its head in two texts, and its body where one is visible. -/
theorem texts_of_destructor (destroys : method.kind = .destructor)
    (printed : methodTexts method = .ok texts) :
    texts = ["virtual ~secret(".toList, ")\n".toList] ++
      match method.getBody with
      | some body => [body.text, "\n".toList]
      | none => [] := by
  unfold methodTexts secretDestructors at printed
  rw [destroys] at printed
  exact (Except.ok.inj printed).symm

/-- The copy of a method is its head and a body. -/
theorem texts_of_method (plain : method.kind = .method)
    (printed : methodTexts method = .ok texts) :
    ∃ head, getSecretMethodSignature method = .ok head ∧ texts = [head, bodyText method] := by
  unfold methodTexts secretMethods at printed
  rw [plain] at printed
  cases signature : getSecretMethodSignature method with
  | error fault => simp [signature, Bind.bind, Except.bind] at printed
  | ok head =>
    simp only [signature, Bind.bind, Except.bind, pure, Except.pure, Except.ok.injEq] at printed
    exact ⟨head, rfl, printed.symm⟩

/-- No member function is printed as nothing at all. -/
theorem methodTexts_ne_nil (printed : methodTexts method = .ok texts) : texts ≠ [] := by
  -- Each kind begins with a signature.
  cases kind : method.kind with
  | constructor =>
    obtain ⟨head, -, rfl⟩ := texts_of_constructor kind printed
    exact List.cons_ne_nil _ _
  | destructor =>
    rw [texts_of_destructor kind printed]
    exact List.cons_ne_nil _ _
  | method =>
    obtain ⟨head, -, rfl⟩ := texts_of_method kind printed
    exact List.cons_ne_nil _ _

end Texts

/-- The texts of a copied member function begin one copy of it and no other. -/
theorem blockMembers_methodOutputs (semiLoc : SourceLocation) {method : CXXMethodDecl}
    {texts : List Text} (printed : methodTexts method = .ok texts) :
    blockMembers (methodOutputs semiLoc method texts : List (Output Cls)) = [.method method] := by
  -- Only the first text of a copy names the member.
  cases texts with
  | nil => exact absurd rfl (methodTexts_ne_nil printed)
  | cons first rest =>
    have continued : rest.filterMap
        (Output.member? ∘ blockOutput semiLoc (.continuation method : BlockPart Cls)) = [] := by
      simp [List.filterMap_eq_nil_iff, Output.member?, blockOutput]
    simp [blockMembers, methodOutputs, Output.member?, blockOutput, List.filterMap_map]

/-- The copies of one access are those of its copied members. -/
theorem blockMembers_copyOutputs {wrapBuiltin wrapPointer : Text → Text}
    {access : AccessSpecifier} {decl : CXXRecordDecl Cls}
    (defined : ∀ method ∈ decl.methods, method.access = access → ¬ method.lacksDefinition) :
    blockMembers (copyOutputs wrapBuiltin wrapPointer access decl) =
      copiedMembers access decl := by
  have fields : ∀ fields : List (FieldDecl Cls),
      blockMembers (fields.map (fieldOutput wrapBuiltin wrapPointer decl.semiLoc)) =
        fields.map .field := by
    intro fields
    induction fields with
    | nil => rfl
    | cons field rest ih => simpa [blockMembers, fieldOutput, blockOutput, Output.member?] using ih
  have methods : ∀ methods : List CXXMethodDecl, (∀ method ∈ methods, ¬ method.lacksDefinition) →
      blockMembers (methods.flatMap (memberOutputs decl.semiLoc) : List (Output Cls)) =
        (methods.filter CXXMethodDecl.isCopied).map .method := by
    intro methods defined
    induction methods with
    | nil => rfl
    | cons method rest ih =>
      have others := ih fun m member => defined m (List.mem_cons_of_mem _ member)
      have own : blockMembers (memberOutputs decl.semiLoc method : List (Output Cls)) =
          if method.isCopied then [.method method] else [] := by
        unfold memberOutputs
        split
        · rename_i copied
          cases printed : methodTexts method with
          | error fault =>
            -- Only a constructor without definition fails to print.
            exact absurd ((methodTexts_error copied).mp printed).2 (defined method (by simp))
          | ok texts => exact blockMembers_methodOutputs decl.semiLoc printed
        · rfl
      unfold blockMembers at own others ⊢
      rw [List.flatMap_cons, List.filterMap_append, own, others]
      by_cases copied : method.isCopied = true <;> simp [copied]
  have both := methods (decl.methods.filter fun method => method.access = access) (by
    intro method member
    simp only [List.mem_filter, decide_eq_true_eq] at member
    exact defined method member.1 member.2)
  unfold blockMembers at fields both ⊢
  rw [copyOutputs, List.filterMap_append, fields, both, copiedMembers]

/-- A complete block copies the public members and then the private ones. -/
theorem blockMembers_blockOutputs {decl : CXXRecordDecl Cls}
    (defined : ∀ method ∈ decl.methods, method.access.isWalked → ¬ method.lacksDefinition) :
    blockMembers (blockOutputs decl) =
      copiedMembers .asPublic decl ++ copiedMembers .asPrivate decl := by
  -- The opening, the second label and the end copy no member.
  have publics : blockMembers (publicCopies decl) = copiedMembers .asPublic decl :=
    blockMembers_copyOutputs fun method member same => defined method member (.inl same)
  have privates : blockMembers (privateCopies decl) = copiedMembers .asPrivate decl :=
    blockMembers_copyOutputs fun method member same => defined method member (.inr same)
  have opened : (openingOutputs decl).filterMap Output.member? = [] := rfl
  have closed : [closingOutput decl].filterMap Output.member? = [] := rfl
  unfold blockMembers at publics privates ⊢
  rw [blockOutputs_eq, List.filterMap_append, List.filterMap_append, List.filterMap_cons_none rfl,
    List.filterMap_append, publics, privates, opened, closed, List.nil_append, List.append_nil]

/-- Every insertion of a block stands after the class definition. -/
theorem insertion_of_mem_blockOutputs {decl : CXXRecordDecl Cls} {output : Output Cls}
    (member : output ∈ blockOutputs decl) :
    output.insertion.side = .after ∧ output.insertion.location = decl.semiLoc := by
  -- Each of the parts is made by one and the same function.
  have made : ∃ part text, output = blockOutput decl.semiLoc part text := by
    have methods : ∀ method, output ∈ memberOutputs decl.semiLoc method →
        ∃ part text, output = blockOutput decl.semiLoc part text := by
      intro method found
      unfold memberOutputs at found
      split at found
      · cases texts : methodTexts method with
        | error fault => simp [texts] at found
        | ok texts' =>
          rw [texts] at found
          cases texts' with
          | nil => simp [methodOutputs] at found
          | cons first rest =>
            simp only [methodOutputs, List.mem_cons, List.mem_map] at found
            rcases found with same | ⟨text, _, same⟩
            · exact ⟨_, _, same⟩
            · exact ⟨_, _, same.symm⟩
      · simp at found
    have copies : ∀ wrapBuiltin wrapPointer access,
        output ∈ copyOutputs wrapBuiltin wrapPointer access decl →
          ∃ part text, output = blockOutput decl.semiLoc part text := by
      intro wrapBuiltin wrapPointer access found
      simp only [copyOutputs, List.mem_append, List.mem_map, List.mem_flatMap] at found
      rcases found with ⟨field, _, same⟩ | ⟨method, _, found⟩
      · exact ⟨_, _, same.symm⟩
      · exact methods method found
    simp only [blockOutputs_eq, openingOutputs, List.mem_append, List.mem_cons,
      List.not_mem_nil, or_false] at member
    rcases member with (same | same | same) | found | same | found | same
    · exact ⟨_, _, same⟩
    · exact ⟨_, _, same⟩
    · exact ⟨_, _, same⟩
    · exact copies _ _ _ found
    · exact ⟨_, _, same⟩
    · exact copies _ _ _ found
    · exact ⟨_, _, same⟩
  obtain ⟨part, text, same⟩ := made
  rw [same]
  exact ⟨rfl, rfl⟩

/-- Of what a class writes, its block is what does not stand before a method. -/
theorem block_of_outputs_script (context : ASTContext Cls) (secretClass : Cls) :
    ((outputs (script context secretClass)).filter fun output => output.insertion.side = .after) =
      blockOutputs (context.decl secretClass) := by
  -- Keywords are inserted before their location and the block after it.
  rw [outputs_script, List.filter_append]
  have keywords : ((virtualOutputs (context.decl secretClass)).filter
      fun output => output.insertion.side = .after) = [] := by
    simp only [virtualOutputs, List.filter_eq_nil_iff, List.mem_map]
    rintro output ⟨method, _, same⟩
    simp [← same, virtualOutput]
  rw [keywords, List.nil_append, List.filter_eq_self]
  intro output member
  simp [(insertion_of_mem_blockOutputs member).1]

section Runs

variable [DecidableEq Cls] (context : ASTContext Cls) {depth : Nat}
  {varDecls : List (VarDecl Cls)} {state : TyperState Cls}
  (completed : start context depth varDecls = .ok state) {secretClass : Cls}
  (generated : secretClass ∈ generatedClasses state)

include completed generated

/-- After a completed run, a generated class has its whole block. -/
theorem generatedBlock_eq :
    generatedBlock state secretClass = blockOutputs (context.decl secretClass) := by
  -- A generated class has written exactly the insertions of its script.
  obtain ⟨fresh, _, wrote, _⟩ := start_ok context completed
  have member := ((generatedClasses_of_written context wrote).2 secretClass).mp generated
  rw [generatedBlock, wrote, if_pos member, block_of_outputs_script]

/-- A completed run has met the definitions of all constructors it copied. -/
theorem generated_defined : ∀ method ∈ (context.decl secretClass).methods,
    method.access.isWalked → ¬ method.lacksDefinition := by
  -- A constructor without definition would have stopped the run.
  intro method methodMember walked lacks
  obtain ⟨fresh, explored, wrote, _⟩ := start_ok context completed
  have member := ((generatedClasses_of_written context wrote).2 secretClass).mp generated
  refine explored.clean secretClass member .missingDefinition ?_
  exact (fail_mem_script context).mpr (.inr ⟨rfl, method, methodMember, walked, lacks⟩)

/-- The members of a generated class are the copied ones of its original. -/
theorem blockMembers_generatedBlock :
    blockMembers (generatedBlock state secretClass) =
      copiedMembers .asPublic (context.decl secretClass) ++
        copiedMembers .asPrivate (context.decl secretClass) := by
  -- The members of a block are those of its two sections.
  rw [generatedBlock_eq context completed generated]
  exact blockMembers_blockOutputs (generated_defined context completed generated)

end Runs

section Closedness

/-- Neutral texts with commas between them are neutral. -/
theorem neutral_commaSeparated {texts : List Text} (neutral : ∀ text ∈ texts, Neutral text) :
    Neutral (commaSeparated texts) := by
  -- A comma closes every text but the last.
  induction texts with
  | nil => exact closed_nil.neutral
  | cons text rest ih =>
    have first := neutral text (by simp)
    cases rest with
    | nil => simpa [commaSeparated] using first
    | cons next rest =>
      have comma : Separates ", ".toList := separates_of_head (by decide) (fun _ _ => rfl)
      have others := ih fun t member => neutral t (List.mem_cons_of_mem _ member)
      have joined := (first.append_separator comma).append_neutral others
      simpa [commaSeparated, List.intersperse, List.append_assoc] using joined

/-- A closing parenthesis separates. -/
theorem separates_parenthesis : Separates ")".toList :=
  separates_of_head (by decide) fun _ _ => rfl

/-- Parameter lists are neutral. -/
theorem neutral_paramsText (params : List ParmVarDecl) : Neutral (paramsText params) := by
  refine neutral_commaSeparated fun text member => ?_
  obtain ⟨param, _, same⟩ := List.mem_map.mp member
  rw [← same, paramText]
  -- A name is set off from its type by a space.
  split
  · simpa using param.type.neutral
  · have space : Separates " ".toList := separates_of_head (by decide) closed_nil
    have named := (param.type.neutral.append_separator space).append_neutral
      (settled_word param.name.letters).neutral
    simpa using named

/-- A parenthesized list is closed when what opens it is. -/
theorem closed_parenthesized {opening : Text} (opened : Closed opening) {listed : Text}
    (neutral : Neutral listed) : Closed (opening ++ listed ++ ")".toList) :=
  (opened.append_neutral neutral).append_separator separates_parenthesis

/-- A colon that begins an initializer list selects no section. -/
theorem closed_initColon : Closed ": ".toList := by
  intro depth access
  cases depth <;> rfl

/-- Every entry of the map of initializers is neutral text. -/
def InitsNeutral (initMembers : List (Text × Text)) : Prop :=
  ∀ entry ∈ initMembers, Neutral entry.1 ∧ Neutral entry.2

/-- Storing neutral text under neutral text keeps the map neutral. -/
theorem setMember_neutral {key value : Text} {initMembers : List (Text × Text)}
    (keyNeutral : Neutral key) (valueNeutral : Neutral value)
    (neutral : InitsNeutral initMembers) : InitsNeutral (setMember key value initMembers) := by
  induction initMembers with
  | nil => simpa [InitsNeutral, setMember] using ⟨keyNeutral, valueNeutral⟩
  | cons entry rest ih =>
    have first := neutral entry (by simp)
    have others : InitsNeutral rest := fun e member => neutral e (List.mem_cons_of_mem _ member)
    have kept := ih others
    unfold setMember
    -- The new entry replaces the first, precedes it, or goes further down.
    split
    · intro e member
      rcases List.mem_cons.mp member with same | member
      · exact same ▸ ⟨keyNeutral, valueNeutral⟩
      · exact others e member
    · split
      · intro e member
        rcases List.mem_cons.mp member with same | member
        · exact same ▸ ⟨keyNeutral, valueNeutral⟩
        · exact neutral e member
      · intro e member
        rcases List.mem_cons.mp member with same | member
        · exact same ▸ first
        · exact kept e member

/-- Closed texts with commas between them are closed. -/
theorem closed_commaSeparated {texts : List Text} (closed : ∀ text ∈ texts, Closed text) :
    Closed (commaSeparated texts) := by
  -- The commas are closed as well.
  induction texts with
  | nil => exact closed_nil
  | cons text rest ih =>
    have first := closed text (by simp)
    cases rest with
    | nil => simpa [commaSeparated] using first
    | cons next rest =>
      have comma : Closed ", ".toList := fun _ _ => rfl
      have others := ih fun t member => closed t (List.mem_cons_of_mem _ member)
      have joined := (first.append comma).append others
      simpa [commaSeparated, List.intersperse, List.append_assoc] using joined

/-- A member initializer list is closed. -/
theorem closed_getMemberInitString {initMembers : List (Text × Text)}
    (neutral : InitsNeutral initMembers) : Closed (getMemberInitString initMembers) := by
  -- Each entry is closed by its own parentheses.
  have opens : Separates "(".toList := separates_of_head (by decide) closed_nil
  refine closed_initColon.append (closed_commaSeparated fun text member => ?_)
  obtain ⟨entry, entryMember, same⟩ := List.mem_map.mp member
  rw [← same]
  exact closed_parenthesized ((neutral entry entryMember).1.append_separator opens)
    (neutral entry entryMember).2

/-- The walk over the initializers collects neutral entries and prints them closed. -/
theorem ctorInits_closed (written : List CXXCtorInitializer) (inits : CtorInits)
    (neutral : InitsNeutral inits.initMembers) (closed : Closed inits.initMembersString) :
    Closed (written.foldl CtorInits.add inits).initMembersString := by
  -- By induction on the initializers, with the printed text always that of the entries so far.
  induction written generalizing inits with
  | nil => exact closed
  | cons init rest ih =>
    rw [List.foldl_cons]
    unfold CtorInits.add
    split
    · cases init.target with
      | member initializedField initExpr =>
        cases initExpr with
        | none => exact ih _ neutral (closed_getMemberInitString neutral)
        | some value =>
          have stored := setMember_neutral (settled_word initializedField.letters).neutral
            value.neutral neutral
          exact ih _ stored (closed_getMemberInitString stored)
      | indirectMember initializedField initExpr => exact ih _ neutral closed
      | delegating arguments => exact ih _ neutral closed
      | base => exact ih _ neutral closed
    · exact ih _ neutral closed

/-- A delegating initializer is closed. -/
theorem closed_getDelegatingInitString (inits : List CXXCtorInitializer) :
    Closed (getDelegatingInitString inits) := by
  -- By induction, the first delegating initializer ends the walk.
  induction inits with
  | nil => exact fun _ _ => rfl
  | cons init rest ih =>
    unfold getDelegatingInitString
    split
    · have opened : Closed ": numa(".toList := by
        intro depth access
        cases depth <;> rfl
      refine closed_parenthesized opened (neutral_commaSeparated fun text member => ?_)
      obtain ⟨argument, _, same⟩ := List.mem_map.mp member
      exact same ▸ argument.neutral
    · exact ih

/-- Everything printed between the head and the body of a constructor is closed. -/
theorem closed_ctorInitText (constructor : CXXMethodDecl) : Closed (ctorInitText constructor) := by
  -- Each of the two parts is printed in full or left out.
  have members := ctorInits_closed constructor.inits {} (by simp [InitsNeutral]) closed_nil
  unfold ctorInitText
  refine Closed.append ?_ ?_
  · split
    · exact members
    · exact closed_nil
  · split
    · exact closed_getDelegatingInitString _
    · exact closed_nil

/-- A printed body is closed, and so is the empty one printed for want of a body. -/
theorem closed_bodyText (method : CXXMethodDecl) : Closed (bodyText method) := by
  -- The empty body is closed by computation.
  unfold bodyText
  split
  · rename_i body _
    exact body.closed
  · exact fun _ _ => rfl

/-- The head of a constructor is closed by its parenthesis. -/
theorem closed_constructorSignature {method : CXXMethodDecl} {head : Text}
    (signature : getSecretConstructorSignature method = .ok head) : Closed head := by
  -- Without a definition there is no head.
  have opened : Closed "secret (".toList := fun _ _ => rfl
  unfold getSecretConstructorSignature at signature
  cases defined : method.definition with
  | none =>
    rw [defined] at signature
    cases signature
  | some definition =>
    rw [defined] at signature
    rw [← Except.ok.inj signature]
    exact closed_parenthesized opened (neutral_paramsText _)

/-- The head of a method is closed by its parenthesis. -/
theorem closed_methodSignature {method : CXXMethodDecl} {head : Text}
    (signature : getSecretMethodSignature method = .ok head) : Closed head := by
  have keyword : Closed "virtual ".toList := fun _ _ => rfl
  have space : Separates " ".toList := separates_of_head (by decide) closed_nil
  have parenthesis : Separates "(".toList := separates_of_head (by decide) closed_nil
  unfold getSecretMethodSignature at signature
  cases defined : method.definition with
  | none =>
    rw [defined] at signature
    cases signature
  | some definition =>
    rw [defined] at signature
    rw [← Except.ok.inj signature]
    -- The return type ends at the space, the name at the parenthesis.
    have typed := (keyword.append_neutral definition.returnType.neutral).append_separator space
    have named := (typed.append_neutral method.name.neutral).append_separator parenthesis
    exact closed_parenthesized named (neutral_paramsText _)

/-- Each text of a copied member function is closed. -/
theorem closed_methodTexts {method : CXXMethodDecl} {texts : List Text}
    (printed : methodTexts method = .ok texts) : ∀ text ∈ texts, Closed text := by
  intro text member
  cases kind : method.kind with
  | constructor =>
    obtain ⟨head, signature, rfl⟩ := texts_of_constructor kind printed
    simp only [List.mem_cons, List.not_mem_nil, or_false] at member
    rcases member with same | same
    · -- The head of a constructor runs on into its initializers.
      rw [same]
      exact (closed_constructorSignature signature).append (closed_ctorInitText _)
    · exact same ▸ closed_bodyText method
  | destructor =>
    rw [texts_of_destructor kind printed] at member
    have opened : Closed "virtual ~secret(".toList := fun _ _ => rfl
    have parenthesis : Closed ")\n".toList := fun _ _ => rfl
    cases found : method.getBody with
    | none =>
      simp only [found, List.append_nil, List.mem_cons, List.not_mem_nil, or_false] at member
      rcases member with same | same
      · exact same ▸ opened
      · exact same ▸ parenthesis
    | some body =>
      have newline : Closed "\n".toList := fun _ _ => rfl
      simp only [found, List.cons_append, List.nil_append, List.mem_cons, List.not_mem_nil,
        or_false] at member
      rcases member with same | same | same | same
      · exact same ▸ opened
      · exact same ▸ parenthesis
      · exact same ▸ body.closed
      · exact same ▸ newline
  | method =>
    obtain ⟨head, signature, rfl⟩ := texts_of_method kind printed
    simp only [List.mem_cons, List.not_mem_nil, or_false] at member
    rcases member with same | same
    · exact same ▸ closed_methodSignature signature
    · exact same ▸ closed_bodyText method

/-- A type is closed by the template that wraps it. -/
theorem closed_wrapped {opening ending : Text} (type : TypeName) (opened : Closed opening)
    (ends : EndsWord ending) : Closed (opening ++ type.text ++ ending) := by
  rw [List.append_assoc]
  exact opened.append (type.settled.append_closed ends)

/-- The declaration of a field is closed when its section wraps built-in types closed. -/
theorem closed_fieldText {wrapBuiltin wrapPointer : Text → Text} (field : FieldDecl Cls)
    (builtin : ∀ type : TypeName, Closed (wrapBuiltin type.text))
    (pointer : ∀ type : TypeName, Closed (wrapPointer type.text)) :
    Closed (fieldText wrapBuiltin wrapPointer field) := by
  have wrapper : Closed "secret<".toList := fun _ _ => rfl
  have bracket : EndsWord "> ".toList := fun _ _ _ => rfl
  have starred : EndsWord "*> ".toList := fun _ _ _ => rfl
  have typed : Closed (wrappedType wrapBuiltin wrapPointer field.type) := by
    unfold wrappedType
    -- The cases are those of the chain over the type of the field.
    split
    · exact builtin _
    · split
      · exact pointer _
      · exact closed_wrapped _ wrapper starred
    · exact closed_wrapped _ wrapper bracket
  have semicolon : Separates ";\n".toList := separates_of_head (by decide) fun _ _ => rfl
  unfold fieldText
  rw [List.append_assoc]
  exact typed.append ((settled_word field.name.letters).neutral.append_separator semicolon)

/-- The copies of one access are closed when their section wraps built-in types closed. -/
theorem closed_of_mem_copyOutputs {wrapBuiltin wrapPointer : Text → Text}
    (builtin : ∀ type : TypeName, Closed (wrapBuiltin type.text))
    (pointer : ∀ type : TypeName, Closed (wrapPointer type.text)) {access : AccessSpecifier}
    {decl : CXXRecordDecl Cls} {output : Output Cls}
    (member : output ∈ copyOutputs wrapBuiltin wrapPointer access decl) :
    Closed output.insertion.text := by
  -- A copy is a field with one text, or a member function with several.
  simp only [copyOutputs, List.mem_append, List.mem_map, List.mem_flatMap] at member
  rcases member with ⟨field, _, same⟩ | ⟨method, _, found⟩
  · rw [← same]
    exact closed_fieldText field builtin pointer
  · unfold memberOutputs at found
    split at found
    · cases printed : methodTexts method with
      | error fault => simp [printed] at found
      | ok texts =>
        rw [printed] at found
        have closed := closed_methodTexts printed
        cases texts with
        | nil => simp [methodOutputs] at found
        | cons first rest =>
          simp only [methodOutputs, List.mem_cons, List.mem_map] at found
          rcases found with same | ⟨text, textMember, same⟩
          · rw [same]
            exact closed first (by simp)
          · rw [← same]
            exact closed text (by simp [textMember])
    · simp at found

/-- The copies of the public members are closed. -/
theorem closed_of_mem_publicCopies {decl : CXXRecordDecl Cls} {output : Output Cls}
    (member : output ∈ publicCopies decl) : Closed output.insertion.text := by
  -- The public section wraps built-in types and pointers to them alike.
  have opened : Closed "secret<".toList := fun _ _ => rfl
  have bracket : EndsWord ([] ++ "> ".toList) := fun _ _ _ => rfl
  have wrapped : ∀ type : TypeName, Closed (wrapAs "secret".toList [] type.text) := by
    intro type
    simpa [wrapAs] using closed_wrapped type opened bracket
  exact closed_of_mem_copyOutputs wrapped wrapped member

/-- The copies of the private members are closed. -/
theorem closed_of_mem_privateCopies {decl : CXXRecordDecl Cls} {output : Output Cls}
    (member : output ∈ privateCopies decl) : Closed output.insertion.text := by
  -- The private section keeps the star of a pointer to a built-in type.
  have opened : Closed "numa<".toList := fun _ _ => rfl
  have bracket : EndsWord "> ".toList := fun _ _ _ => rfl
  have starred : EndsWord "*> ".toList := fun _ _ _ => rfl
  refine closed_of_mem_copyOutputs (fun type => ?_) (fun type => ?_) member
  · simpa [wrapAs] using closed_wrapped type opened bracket
  · simpa [wrapAs] using closed_wrapped type opened starred

end Closedness

end SecretTyping
