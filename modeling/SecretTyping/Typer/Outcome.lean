import SecretTyping.Typer.Runs

/-! What a run of the typer leaves behind, and how it can stop early. -/

namespace SecretTyping

open Rewriter Search

variable {Cls : Type} (context : ASTContext Cls)

/-- The insertions of a field. -/
def fieldOutput (wrapBuiltin wrapPointer : Text → Text) (semiLoc : SourceLocation)
    (field : FieldDecl Cls) : Output Cls :=
  blockOutput semiLoc (.field field) (fieldText wrapBuiltin wrapPointer field)

/-- The insertions of a member function, none when it is not copied. -/
def memberOutputs (semiLoc : SourceLocation) (method : CXXMethodDecl) : List (Output Cls) :=
  -- A copy that stops the run leaves no insertion of its own.
  if method.isCopied then
    match methodTexts method with
    | .ok texts => methodOutputs semiLoc method texts
    | .error _ => []
  else []

/-- The insertions of the section of one access. -/
def sectionOutputs (label : Text) (wrapBuiltin wrapPointer : Text → Text)
    (access : AccessSpecifier) (decl : CXXRecordDecl Cls) : List (Output Cls) :=
  -- These are the insertions of the tasks of a section, in the same order.
  blockOutput decl.semiLoc .accessLabel label ::
    ((decl.fields.filter fun field => field.access = access).map
        (fieldOutput wrapBuiltin wrapPointer decl.semiLoc) ++
      (decl.methods.filter fun method => method.access = access).flatMap
        (memberOutputs decl.semiLoc))

/-- The insertions of the public section. -/
def publicOutputs (decl : CXXRecordDecl Cls) : List (Output Cls) :=
  sectionOutputs "public:\n".toList (wrapAs "secret".toList []) (wrapAs "secret".toList [])
    .asPublic decl

/-- The insertions of the private section. -/
def privateOutputs (decl : CXXRecordDecl Cls) : List (Output Cls) :=
  sectionOutputs "private:\n".toList (wrapAs "numa".toList []) (wrapAs "numa".toList "*".toList)
    .asPrivate decl

/-- The insertions that make up the generated class. -/
def blockOutputs (decl : CXXRecordDecl Cls) : List (Output Cls) :=
  -- Everything the script inserts behind the class, without its visits.
  [blockOutput decl.semiLoc .head (headText decl.name.text),
    blockOutput decl.semiLoc .allocatorCode getSecretAllocatorCode] ++
    (publicOutputs decl ++ (privateOutputs decl ++
      [blockOutput decl.semiLoc .closing "\x7d;\n".toList]))

/-- Fields insert one text each. -/
theorem outputs_fieldTasks (wrapBuiltin wrapPointer : Text → Text) (semiLoc : SourceLocation)
    (fields : List (FieldDecl Cls)) :
    outputs (fields.flatMap (fieldTasks wrapBuiltin wrapPointer semiLoc)) =
      fields.map (fieldOutput wrapBuiltin wrapPointer semiLoc) := by
  induction fields with
  | nil => rfl
  | cons field rest ih =>
    rw [List.flatMap_cons, outputs_append, ih, List.map_cons, fieldTasks]
    -- Whatever the field makes the typer visit, it writes nothing else.
    cases field.type.specializes with
    | none => rfl
    | some target => cases target <;> rfl

/-- Member functions insert their texts. -/
theorem outputs_methodTasks (semiLoc : SourceLocation) (methods : List CXXMethodDecl) :
    outputs (methods.flatMap (methodTasks semiLoc : _ → List (Task Cls (Output Cls) Fault))) =
      methods.flatMap (memberOutputs semiLoc) := by
  -- By induction on the methods, each of which writes all its texts or none.
  induction methods with
  | nil => rfl
  | cons method rest ih =>
    rw [List.flatMap_cons, outputs_append, ih, List.flatMap_cons, methodTasks, memberOutputs]
    split
    · cases methodTexts method with
      | ok texts => simp only [outputs_emits]
      | error fault => rfl
    · rfl

/-- A class writes the keywords of its methods and then its block. -/
theorem outputs_script (secretClass : Cls) :
    outputs (script context secretClass) =
      virtualOutputs (context.decl secretClass) ++ blockOutputs (context.decl secretClass) := by
  -- Both sections have the same shape, so one fact covers them.
  have sections : ∀ (label : Text) (wrapBuiltin wrapPointer : Text → Text) access,
      outputs (sectionTasks label wrapBuiltin wrapPointer access (context.decl secretClass)) =
        sectionOutputs label wrapBuiltin wrapPointer access (context.decl secretClass) := by
    intro label wrapBuiltin wrapPointer access
    rw [sectionTasks, sectionOutputs, ← outputs_fieldTasks, ← outputs_methodTasks,
      ← outputs_append]
    rfl
  rw [script, classTasks, outputs_append, outputs_emits, outputs_append, outputs_append,
    publicTasks, privateTasks, sections, sections, blockOutputs, List.append_assoc]
  rfl

/-- Whether an access is one of the two the typer copies members of. -/
def AccessSpecifier.isWalked (access : AccessSpecifier) : Prop :=
  access = .asPublic ∨ access = .asPrivate

/-- A copied constructor whose definition the translation unit does not contain. -/
def CXXMethodDecl.lacksDefinition (method : CXXMethodDecl) : Prop :=
  method.kind = .constructor ∧ method.isUserProvided = true ∧ method.definition = none

/-- The only fault of a field is a null class. -/
theorem fail_mem_fieldTasks {wrapBuiltin wrapPointer : Text → Text} {semiLoc : SourceLocation}
    {field : FieldDecl Cls} {fault : Fault} :
    Task.fail fault ∈ fieldTasks wrapBuiltin wrapPointer semiLoc field ↔
      fault = .nullClass ∧ field.type.specializes = some none := by
  -- The declaration comes first and cannot fail.
  unfold fieldTasks
  cases field.type.specializes with
  | none => simp
  | some target => cases target <;> simp

/-- The only visit of a field is the class it specializes. -/
theorem mem_targets_fieldTasks {wrapBuiltin wrapPointer : Text → Text} {semiLoc : SourceLocation}
    {field : FieldDecl Cls} {decl : Cls} :
    decl ∈ targets (fieldTasks wrapBuiltin wrapPointer semiLoc field) ↔
      field.type.specializes = some (some decl) := by
  -- The declaration visits nothing, and at most one visit follows it.
  unfold fieldTasks targets
  cases field.type.specializes with
  | none => simp
  | some target => cases target <;> simp [eq_comm]

/-- Constructors need their definition, the other member functions never lack it. -/
theorem methodTexts_error {method : CXXMethodDecl} {fault : Fault}
    (copied : method.isCopied = true) :
    methodTexts method = .error fault ↔ fault = .missingDefinition ∧ method.lacksDefinition := by
  -- Methods without a definition are not copied, destructors do not need one.
  simp only [CXXMethodDecl.isCopied, Bool.and_eq_true] at copied
  unfold methodTexts CXXMethodDecl.lacksDefinition
  cases kind : method.kind with
  | constructor =>
    unfold secretConstructors getSecretConstructorSignature
    cases method.definition <;> simp [copied.1, Bind.bind, Except.bind, pure, Except.pure, eq_comm]
  | destructor => simp [secretDestructors]
  | method =>
    unfold secretMethods getSecretMethodSignature
    cases defined : method.definition <;>
      simp_all [Bind.bind, Except.bind, pure, Except.pure]

/-- The only fault of a member function is a constructor without definition. -/
theorem fail_mem_methodTasks {semiLoc : SourceLocation} {method : CXXMethodDecl} {fault : Fault} :
    Task.fail fault ∈ (methodTasks semiLoc method : List (Task Cls (Output Cls) Fault)) ↔
      fault = .missingDefinition ∧ method.lacksDefinition := by
  unfold methodTasks
  by_cases copied : method.isCopied = true
  · rw [if_pos copied, ← methodTexts_error copied]
    cases methodTexts method with
    | ok texts => simp
    | error raised => simp [eq_comm]
  · rw [if_neg copied]
    simp only [List.not_mem_nil, false_iff]
    -- A user-provided constructor is always copied.
    intro ⟨_, constructor, provided, _⟩
    exact copied (by simp [CXXMethodDecl.isCopied, constructor, provided])

/-- Member functions visit no class. -/
theorem targets_methodTasks (semiLoc : SourceLocation) (method : CXXMethodDecl) :
    targets (methodTasks semiLoc method : List (Task Cls (Output Cls) Fault)) = [] := by
  -- Whatever a member function does is an insertion or a fault.
  unfold methodTasks
  split
  · cases methodTexts method with
    | ok texts => simp only [targets_emits]
    | error fault => rfl
  · rfl

/-- The faults of a script are those of the public and private members of its class. -/
theorem fail_mem_script {secretClass : Cls} {fault : Fault} :
    Task.fail fault ∈ script context secretClass ↔
      (fault = .nullClass ∧ ∃ field ∈ (context.decl secretClass).fields,
        field.access.isWalked ∧ field.type.specializes = some none) ∨
      (fault = .missingDefinition ∧ ∃ method ∈ (context.decl secretClass).methods,
        method.access.isWalked ∧ method.lacksDefinition) := by
  -- The faults of the two sections are united, each with its own access.
  simp only [script, classTasks, publicTasks, privateTasks, sectionTasks, List.mem_append,
    List.mem_map, List.mem_cons, List.mem_flatMap, List.mem_filter, List.not_mem_nil,
    fail_mem_fieldTasks, fail_mem_methodTasks, AccessSpecifier.isWalked, decide_eq_true_eq,
    reduceCtorEq, false_or, or_false, and_false, exists_false]
  constructor
  · rintro ((⟨field, ⟨member, access⟩, same, null⟩ | ⟨method, ⟨member, access⟩, same, lacks⟩) |
      (⟨field, ⟨member, access⟩, same, null⟩ | ⟨method, ⟨member, access⟩, same, lacks⟩))
    · exact .inl ⟨same, field, member, .inl access, null⟩
    · exact .inr ⟨same, method, member, .inl access, lacks⟩
    · exact .inl ⟨same, field, member, .inr access, null⟩
    · exact .inr ⟨same, method, member, .inr access, lacks⟩
  · rintro (⟨same, field, member, access | access, null⟩ |
      ⟨same, method, member, access | access, lacks⟩)
    · exact .inl (.inl ⟨field, ⟨member, access⟩, same, null⟩)
    · exact .inr (.inl ⟨field, ⟨member, access⟩, same, null⟩)
    · exact .inl (.inr ⟨method, ⟨member, access⟩, same, lacks⟩)
    · exact .inr (.inr ⟨method, ⟨member, access⟩, same, lacks⟩)

/-- The classes a script visits are those of the public and private fields of its class. -/
theorem mem_successors_script {secretClass decl : Cls} :
    decl ∈ successors (script context) secretClass ↔
      ∃ field ∈ (context.decl secretClass).fields,
        field.access.isWalked ∧ field.type.specializes = some (some decl) := by
  -- Only the fields of the two sections visit anything.
  have flat : ∀ (fields : List (FieldDecl Cls)) wrapBuiltin wrapPointer semiLoc,
      decl ∈ targets (fields.flatMap (fieldTasks wrapBuiltin wrapPointer semiLoc)) ↔
        ∃ field ∈ fields, field.type.specializes = some (some decl) := by
    intro fields wrapBuiltin wrapPointer semiLoc
    simp only [targets, List.filterMap_flatMap, List.mem_flatMap]
    exact exists_congr fun field => and_congr_right fun _ => mem_targets_fieldTasks
  have silent : ∀ (methods : List CXXMethodDecl) semiLoc,
      targets (methods.flatMap
        (methodTasks semiLoc : _ → List (Task Cls (Output Cls) Fault))) = [] := by
    intro methods semiLoc
    simp only [targets, List.filterMap_flatMap, List.flatMap_eq_nil_iff]
    exact fun method _ => targets_methodTasks semiLoc method
  have sections : ∀ label wrapBuiltin wrapPointer access,
      decl ∈ targets (sectionTasks label wrapBuiltin wrapPointer access
        (context.decl secretClass)) ↔
        ∃ field ∈ (context.decl secretClass).fields,
          field.access = access ∧ field.type.specializes = some (some decl) := by
    intro label wrapBuiltin wrapPointer access
    rw [sectionTasks, ← List.singleton_append, targets_append, targets_append, silent,
      List.append_nil]
    rw [show targets [Task.emit _] = ([] : List Cls) from rfl, List.nil_append, flat]
    simp only [List.mem_filter, decide_eq_true_eq, and_assoc]
  rw [successors, script, classTasks, targets_append, targets_emits, List.nil_append,
    targets_append, targets_append, List.mem_append, List.mem_append, publicTasks, privateTasks,
    sections, sections]
  simp only [targets, List.filterMap_cons, List.filterMap_nil, List.not_mem_nil, or_false,
    AccessSpecifier.isWalked]
  constructor
  · rintro (⟨field, member, access, found⟩ | ⟨field, member, access, found⟩)
    · exact ⟨field, member, .inl access, found⟩
    · exact ⟨field, member, .inr access, found⟩
  · rintro ⟨field, member, access | access, found⟩
    · exact .inl ⟨field, member, access, found⟩
    · exact .inr ⟨field, member, access, found⟩

/-- The only fault of a variable is a wrapped type that is no class. -/
theorem fail_mem_unitTasks {varDecls : List (VarDecl Cls)} {fault : Fault}
    (found : Task.fail fault ∈ unitTasks context varDecls) :
    fault = .nullClass ∧ ∃ varDecl ∈ varDecls, varDecl.triggers = true ∧
      ∃ argType, .type argType ∈ varDecl.arguments context ∧
        argType.getAsCXXRecordDecl = none := by
  -- A variable fails through one of its arguments, and that one is a type.
  simp only [unitTasks, List.mem_flatMap] at found
  obtain ⟨varDecl, member, found⟩ := found
  unfold varTasks at found
  split at found
  · rename_i triggered
    obtain ⟨argument, argumentMember, fails⟩ := List.mem_flatMap.mp found
    cases argument with
    | other => simp [argumentTasks] at fails
    | type argType =>
      simp only [argumentTasks] at fails
      cases none : argType.getAsCXXRecordDecl with
      | none =>
        rw [none] at fails
        simp only [List.mem_singleton, Task.fail.injEq] at fails
        exact ⟨fails, varDecl, member, triggered, argType, argumentMember, none⟩
      | some decl => simp [none] at fails
  · simp at found

section Runs

variable [DecidableEq Cls]

/-- Without classes no variable stops the typer. -/
theorem start_of_isEmpty [IsEmpty Cls] (depth : Nat) (varDecls : List (VarDecl Cls))
    (state : TyperState Cls) :
    ∃ result, varDecls.foldlM (run context depth) state = .ok result := by
  -- By induction on the variables, of which none has an argument to handle.
  induction varDecls generalizing state with
  | nil => exact ⟨state, rfl⟩
  | cons varDecl rest ih =>
    rw [List.foldlM_cons]
    by_cases triggered : varDecl.triggers = true
    · have none : varDecl.arguments context = [] := by
        unfold VarDecl.arguments
        cases varDecl.type.stripPointers with
        | record spelling decl => exact isEmptyElim decl
        | _ => rfl
      rw [run_triggered context depth state triggered, none]
      exact ih _
    · rw [run_passed context depth state triggered]
      exact ih _

/-- A run that completes has explored the classes around the covered ones, and every class it
has explored has written its insertions once. -/
theorem start_ok {depth : Nat} {varDecls : List (VarDecl Cls)} {state : TyperState Cls}
    (completed : start context depth varDecls = .ok state) :
    ∃ fresh, Explores (script context) (explicitlySpecialized context)
        (secretRoots context varDecls) fresh ∧
      (∀ secretClass, written state.insertions secretClass =
        if secretClass ∈ fresh then outputs (script context secretClass) else []) ∧
      ∀ fault, Task.fail fault ∉ unitTasks context varDecls := by
  -- The search needs an owner for the tasks of the variables, so some class must exist.
  by_cases triggered : varDecls.any VarDecl.triggers = true
  · rcases isEmpty_or_nonempty Cls with noClass | ⟨⟨owner⟩⟩
    · have nothing : unitTasks context varDecls = [] := by
        by_contra some
        exact not_nonempty_iff.mpr noClass (exists_class_of_unitTasks context some)
      refine ⟨[], ?_, fun secretClass => isEmptyElim secretClass, by simp [nothing]⟩
      rw [secretRoots, nothing]
      exact .nil _
    · have simulated := simulates_start context depth owner triggered
      rw [completed] at simulated
      obtain ⟨fresh, ⟨_, explored⟩, clean, wrote⟩ := runTasks_explores
        (visit_enters Fault.outOfFuel depth) owner _ _ _
        (.inr (outputs_unitTasks context varDecls)) simulated.ok
      refine ⟨fresh, explored.congr fun decl => ?_, fun secretClass => ?_, clean⟩
      · simp only [TyperState.trace, addAllSpecializations_eq]
        exact (mem_foldl_listClass _ _ _).trans (by simp)
      · have wrote := wrote secretClass
        rw [outputs_unitTasks] at wrote
        simpa [TyperState.trace, addAllSpecializations_eq] using wrote
  · rw [start_eq, if_neg triggered] at completed
    have nothing := unitTasks_passed context triggered
    refine ⟨[], ?_, fun secretClass => ?_, by simp [nothing]⟩
    · rw [secretRoots, nothing]
      exact .nil _
    · cases completed
      rfl

/-- A run that stops does so at a fault of a variable, at a fault of a class explored from one,
or for lack of depth. -/
theorem start_error {depth : Nat} {varDecls : List (VarDecl Cls)} {fault : Fault}
    (stopped : start context depth varDecls = .error fault) :
    Task.fail fault ∈ unitTasks context varDecls ∨
      Raised (script context) .outOfFuel (explicitlySpecialized context)
        (secretRoots context varDecls) fault := by
  -- The search tells which of its scripts has failed, or that its depth ran out.
  by_cases triggered : varDecls.any VarDecl.triggers = true
  · rcases isEmpty_or_nonempty Cls with noClass | ⟨⟨owner⟩⟩
    · rw [start_eq, if_pos triggered] at stopped
      obtain ⟨result, completed⟩ := start_of_isEmpty context depth varDecls
        (addAllSpecializations context {})
      rw [completed] at stopped
      cases stopped
    · have simulated := simulates_start context depth owner triggered
      rw [stopped] at simulated
      refine (runTasks_fault (visit_enters Fault.outOfFuel depth)
        (visit_fault Fault.outOfFuel depth) owner _ _ simulated.error).imp_right ?_
      rintro (lack | ⟨root, member, node, reached, fails⟩)
      · exact .inl lack
      · refine .inr ⟨root, member, node, reached.mono fun decl covered => ?_, fails⟩
        simp only [TyperState.trace, addAllSpecializations_eq]
        exact (mem_foldl_listClass _ _ _).mpr (.inr covered)
  · rw [start_eq, if_neg triggered] at stopped
    cases stopped

/-- A depth of one level for each class is enough. -/
theorem start_not_exhausted [Fintype Cls] {depth : Nat} (enough : Fintype.card Cls ≤ depth)
    (varDecls : List (VarDecl Cls)) : start context depth varDecls ≠ .error .outOfFuel := by
  -- A depth of one level for each class is more than any path needs.
  intro stopped
  have silent : Task.fail Fault.outOfFuel ∉ unitTasks context varDecls := fun found =>
    Fault.noConfusion (fail_mem_unitTasks context found).1
  have scriptSilent : ∀ secretClass, Task.fail Fault.outOfFuel ∉ script context secretClass := by
    intro secretClass found
    rcases (fail_mem_script context).mp found with ⟨same, _⟩ | ⟨same, _⟩ <;> cases same
  by_cases triggered : varDecls.any VarDecl.triggers = true
  · rcases isEmpty_or_nonempty Cls with noClass | ⟨⟨owner⟩⟩
    · rw [start_eq, if_pos triggered] at stopped
      obtain ⟨result, completed⟩ := start_of_isEmpty context depth varDecls
        (addAllSpecializations context {})
      rw [completed] at stopped
      cases stopped
    · have simulated := simulates_start context depth owner triggered
      rw [stopped] at simulated
      refine runTasks_not_exhausted (visit_enters Fault.outOfFuel depth)
        (visit_not_exhausted scriptSilent depth) owner _ silent _ ?_ simulated.error
      exact Nat.le_trans (Finset.card_le_univ _) enough
  · rw [start_eq, if_neg triggered] at stopped
    cases stopped

end Runs

end SecretTyping
