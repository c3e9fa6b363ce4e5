import SecretTyping.Typer.Outcome

/-! The typer generates a specialization for exactly the classes its variables reach. -/

namespace SecretTyping

open Lexical Rewriter Search

variable {Cls : Type} (context : ASTContext Cls)

/-- Whether an insertion opens the block of a class. -/
def Output.isHead (output : Output Cls) : Bool :=
  match output.part with
  | .head => true
  | _ => false

/-- The classes whose blocks have been opened, in order. -/
def generatedClasses (state : TyperState Cls) : List Cls :=
  state.insertions.filterMap fun (secretClass, output) =>
    if output.isHead then some secretClass else none

/-- A built-in type, a class, or a pointer to either. -/
def QualType.isPlainKind : QualType Cls → Bool
  | .builtin _ | .record _ _ | .pointer _ (.builtin _) _ | .pointer _ (.record _ _) _ => true
  | _ => false

/-- The class a field of a plain kind holds or points to. -/
def QualType.fieldClass : QualType Cls → Option Cls
  | .record _ decl | .pointer _ (.record _ decl) _ => some decl
  | _ => none

/-- The classes that the public and private fields of a class hold or point to. -/
def fieldClasses (secretClass : Cls) : List Cls :=
  ((context.decl secretClass).fields.filter fun field =>
    field.access = .asPublic ∨ field.access = .asPrivate).filterMap fun field =>
      field.type.fieldClass

/-- A class is reached from another through fields, around the explicitly specialized ones. -/
def FieldReaches (root secretClass : Cls) : Prop :=
  ReachesAvoiding (fieldClasses context) (· ∈ explicitlySpecialized context) root secretClass

/-- A class that the matched variables lead to. -/
def Generates (context : ASTContext Cls) (varDecls : List (VarDecl Cls)) (secretClass : Cls) :
    Prop :=
  ∃ root ∈ secretRoots context varDecls, FieldReaches context root secretClass

/-- A variable the callback considers, of the wrapper's type for a class or of pointers to it. -/
structure DeclaresSecret (varDecl : VarDecl Cls) (secretClass : Cls) : Prop where
  considered : varDecl.isConsidered = true
  /-- The type is printed under the name of the wrapper. -/
  spelled : varDecl.type.getAsString.take 6 = SECRET_TYPE
  wraps : ∃ spelling decl templateName argSpelling,
    varDecl.type.stripPointers = .record spelling decl ∧
    (context.decl decl).specialization =
      some (templateName, [.type (.record argSpelling secretClass)]) ∧
    templateName.text = SECRET_TYPE

/-- A variable of the wrapper's type triggers the typer. -/
theorem DeclaresSecret.triggers {varDecl : VarDecl Cls} {secretClass : Cls}
    (declares : DeclaresSecret context varDecl secretClass) : varDecl.triggers = true := by
  simp [VarDecl.triggers, declares.considered, declares.spelled]

/-- A variable of the wrapper's type makes the typer visit the class it wraps. -/
theorem DeclaresSecret.tasks {varDecl : VarDecl Cls} {secretClass : Cls}
    (declares : DeclaresSecret context varDecl secretClass) :
    varTasks context varDecl = [.visit secretClass] := by
  -- The variable triggers, and its template has the class for its one argument.
  obtain ⟨spelling, decl, templateName, argSpelling, stripped, specialized, _⟩ := declares.wraps
  simp [varTasks, declares.triggers, VarDecl.arguments, stripped, specialized, argumentTasks,
    QualType.getAsCXXRecordDecl]

/-- A variable wraps one class only. -/
theorem DeclaresSecret.unique {varDecl : VarDecl Cls} {first second : Cls}
    (declares : DeclaresSecret context varDecl first)
    (again : DeclaresSecret context varDecl second) : first = second := by
  -- Both classes are the one the tasks of the variable visit.
  have same := declares.tasks.symm.trans again.tasks
  simpa using same

/-- Every variable the typer takes for one of the wrapper's type wraps a class. -/
def WrapsClasses (varDecls : List (VarDecl Cls)) : Prop :=
  -- The callback passes over the other variables, such as those without a name.
  ∀ varDecl ∈ varDecls, varDecl.triggers = true →
    ∃ secretClass, DeclaresSecret context varDecl secretClass

/-- When the variables wrap classes, the roots of the search are the wrapped classes. -/
theorem mem_secretRoots {varDecls : List (VarDecl Cls)}
    (secret : WrapsClasses context varDecls) (root : Cls) :
    root ∈ secretRoots context varDecls ↔
      ∃ varDecl ∈ varDecls, DeclaresSecret context varDecl root := by
  -- Each variable is treated on its own.
  simp only [secretRoots, unitTasks, targets, List.filterMap_flatMap, List.mem_flatMap]
  refine exists_congr fun varDecl => and_congr_right fun member => ?_
  by_cases triggered : varDecl.triggers = true
  · obtain ⟨secretClass, declares⟩ := secret varDecl member triggered
    rw [declares.tasks]
    constructor
    · intro found
      have same : root = secretClass := by simpa using found
      exact same ▸ declares
    · intro again
      simp [declares.unique context again]
  · -- A variable passed over has no tasks and wraps nothing.
    rw [varTasks, if_neg triggered]
    constructor
    · intro found
      simp at found
    · intro declares
      exact absurd (declares.triggers context) triggered

/-- A field specializes exactly the class it holds or points to. -/
theorem QualType.specializes_class {type : QualType Cls} {decl : Cls} :
    type.specializes = some (some decl) ↔ type.fieldClass = some decl := by
  -- Behind a pointer only the pointee matters.
  cases type with
  | pointer spelling pointee qualifiers =>
    cases pointee <;> simp [QualType.specializes, QualType.fieldClass, QualType.isBuiltinType,
      QualType.getAsCXXRecordDecl]
  | _ => simp [QualType.specializes, QualType.fieldClass, QualType.getAsCXXRecordDecl]

/-- A field specializes a null class exactly when its type is of no plain kind. -/
theorem QualType.specializes_null {type : QualType Cls} :
    type.specializes = some none ↔ type.isPlainKind ≠ true := by
  -- Behind a pointer only the pointee matters.
  cases type with
  | pointer spelling pointee qualifiers =>
    cases pointee <;> simp [QualType.specializes, QualType.isPlainKind, QualType.isBuiltinType,
      QualType.getAsCXXRecordDecl]
  | _ => simp [QualType.specializes, QualType.isPlainKind, QualType.getAsCXXRecordDecl]

/-- The search follows exactly the public and private fields. -/
theorem reaches_iff_fieldReaches (root secretClass : Cls) :
    ReachesAvoiding (successors (script context)) (· ∈ explicitlySpecialized context) root
      secretClass ↔ FieldReaches context root secretClass := by
  -- The two searches have the same successors.
  refine ReachesAvoiding.congr fun owner decl => ?_
  rw [mem_successors_script]
  simp only [fieldClasses, List.mem_filterMap, List.mem_filter, decide_eq_true_eq, and_assoc,
    QualType.specializes_class, AccessSpecifier.isWalked]

/-- Each class opens its block once in its own script. -/
theorem countP_isHead_script (secretClass : Cls) :
    (outputs (script context secretClass)).countP Output.isHead = 1 := by
  have noHead : ∀ label wrapBuiltin wrapPointer access (decl : CXXRecordDecl Cls),
      (sectionOutputs label wrapBuiltin wrapPointer access decl).countP Output.isHead = 0 := by
    intro label wrapBuiltin wrapPointer access decl
    simp only [List.countP_eq_zero, sectionOutputs, List.mem_cons, List.mem_append, List.mem_map,
      List.mem_flatMap]
    rintro output (rfl | ⟨field, _, rfl⟩ | ⟨method, _, member⟩)
    · simp [blockOutput, Output.isHead]
    · simp [fieldOutput, blockOutput, Output.isHead]
    · unfold memberOutputs at member
      split at member
      · cases texts : methodTexts method with
        | error fault => simp [texts] at member
        | ok texts' =>
          rw [texts] at member
          -- Member functions write signatures and continuations only.
          cases texts' with
          | nil => simp [methodOutputs] at member
          | cons first rest =>
            simp only [methodOutputs, List.mem_cons, List.mem_map] at member
            rcases member with rfl | ⟨text, _, rfl⟩ <;> simp [blockOutput, Output.isHead]
      · simp at member
  have noKeyword : (virtualOutputs (context.decl secretClass)).countP Output.isHead = 0 := by
    simp only [List.countP_eq_zero, virtualOutputs, List.mem_map]
    rintro output ⟨method, _, rfl⟩
    simp [virtualOutput, Output.isHead]
  rw [outputs_script, List.countP_append, noKeyword, blockOutputs, List.countP_append,
    List.countP_append, List.countP_append, publicOutputs, privateOutputs, noHead, noHead]
  rfl

section Runs

variable [DecidableEq Cls]

/-- A class occurs among the generated ones as often as it has opened its block. -/
theorem count_generatedClasses (state : TyperState Cls) (secretClass : Cls) :
    (generatedClasses state).count secretClass =
      (written state.insertions secretClass).countP Output.isHead := by
  -- By induction on the insertions, of which each opens at most one block.
  unfold generatedClasses written
  induction state.insertions with
  | nil => rfl
  | cons entry rest ih =>
    obtain ⟨owner, output⟩ := entry
    by_cases head : output.isHead = true <;> by_cases same : owner = secretClass <;>
      simp_all

/-- The classes generated by a completed run are the fresh ones of its search. -/
theorem generatedClasses_of_written {state : TyperState Cls} {fresh : List Cls}
    (wrote : ∀ secretClass, written state.insertions secretClass =
      if secretClass ∈ fresh then outputs (script context secretClass) else []) :
    (generatedClasses state).Nodup ∧
      ∀ secretClass, secretClass ∈ generatedClasses state ↔ secretClass ∈ fresh := by
  -- A class is counted once when it is fresh and not at all otherwise.
  have counts : ∀ secretClass, (generatedClasses state).count secretClass =
      if secretClass ∈ fresh then 1 else 0 := by
    intro secretClass
    rw [count_generatedClasses, wrote]
    split
    · exact countP_isHead_script context secretClass
    · rfl
  constructor
  · refine List.nodup_iff_count_le_one.mpr fun secretClass => ?_
    rw [counts]
    split <;> omega
  · intro secretClass
    rw [← List.count_pos_iff, counts]
    split <;> simp_all

/-- A completed run has generated the classes that its variables lead to. -/
theorem mem_generatedClasses_iff {depth : Nat} {varDecls : List (VarDecl Cls)}
    {state : TyperState Cls} (completed : start context depth varDecls = .ok state)
    (secretClass : Cls) :
    secretClass ∈ generatedClasses state ↔
      ∃ root ∈ secretRoots context varDecls, FieldReaches context root secretClass := by
  obtain ⟨fresh, explored, wrote, _⟩ := start_ok context completed
  rw [(generatedClasses_of_written context wrote).2, explored.mem_iff]
  simp only [reaches_iff_fieldReaches context]

/-- Over plain fields and wrapped classes only a constructor without definition stops a run. -/
theorem start_error_plain [Fintype Cls]
    (plain : ∀ secretClass, ∀ field ∈ (context.decl secretClass).fields,
      field.type.isPlainKind = true)
    {varDecls : List (VarDecl Cls)} (secret : WrapsClasses context varDecls)
    {depth : Nat} (enough : Fintype.card Cls ≤ depth) {fault : Fault}
    (stopped : start context depth varDecls = .error fault) :
    fault = .missingDefinition ∧
      ∃ varDecl ∈ varDecls, ∃ root secretClass, DeclaresSecret context varDecl root ∧
        FieldReaches context root secretClass ∧
        ∃ method ∈ (context.decl secretClass).methods,
          method.access.isWalked ∧ method.lacksDefinition := by
  -- Each way to stop is excluded but one: plain fields lead to classes, and the depth suffices.
  rcases start_error context stopped with own | lack | ⟨root, rootMember, node, reached, fails⟩
  · -- Variables that wrap classes raise no fault themselves.
    simp only [unitTasks, List.mem_flatMap] at own
    obtain ⟨varDecl, member, fails⟩ := own
    by_cases triggered : varDecl.triggers = true
    · obtain ⟨secretClass, declares⟩ := secret varDecl member triggered
      rw [declares.tasks] at fails
      simp at fails
    · rw [varTasks, if_neg triggered] at fails
      simp at fails
  · exact (start_not_exhausted context enough varDecls (lack ▸ stopped)).elim
  · rcases (fail_mem_script context).mp fails with
      ⟨_, field, member, _, null⟩ | ⟨same, method, member, walked, lacks⟩
    · exact absurd (plain node field member) (QualType.specializes_null.mp null)
    · obtain ⟨varDecl, varMember, declares⟩ := (mem_secretRoots context secret root).mp rootMember
      exact ⟨same, varDecl, varMember, root, node, declares,
        (reaches_iff_fieldReaches context root node).mp reached, method, member, walked, lacks⟩

/-- The search from the variables ends, and generates once each exactly the classes reached
through public and private fields around the explicitly specialized ones.

It can stop early only at a reached class with a copied constructor that is nowhere defined. -/
theorem start_generates_reachable [Fintype Cls]
    (plain : ∀ secretClass, ∀ field ∈ (context.decl secretClass).fields,
      field.type.isPlainKind = true)
    (varDecls : List (VarDecl Cls)) (secret : WrapsClasses context varDecls)
    (depth : Nat) (enough : Fintype.card Cls ≤ depth) :
    match start context depth varDecls with
    | .ok state =>
      (generatedClasses state).Nodup ∧
        (∀ secretClass ∈ generatedClasses state, secretClass ∉ explicitlySpecialized context) ∧
        ∀ secretClass, secretClass ∈ generatedClasses state ↔
          ∃ varDecl ∈ varDecls, ∃ root, DeclaresSecret context varDecl root ∧
            FieldReaches context root secretClass
    | .error fault =>
      fault = .missingDefinition ∧
        ∃ varDecl ∈ varDecls, ∃ root secretClass, DeclaresSecret context varDecl root ∧
          FieldReaches context root secretClass ∧
          ∃ method ∈ (context.decl secretClass).methods,
            method.access.isWalked ∧ method.lacksDefinition := by
  cases result : start context depth varDecls with
  | ok state =>
    obtain ⟨fresh, explored, wrote, _⟩ := start_ok context result
    obtain ⟨nodup, generated⟩ := generatedClasses_of_written context wrote
    refine ⟨nodup, fun secretClass member => ?_, fun secretClass => ?_⟩
    · exact explored.unvisited _ ((generated _).mp member)
    · rw [mem_generatedClasses_iff context result]
      simp only [mem_secretRoots context secret]
      -- Both sides name a variable and the class it wraps.
      constructor
      · intro ⟨root, ⟨varDecl, member, declares⟩, reached⟩
        exact ⟨varDecl, member, root, declares, reached⟩
      · intro ⟨varDecl, member, root, declares, reached⟩
        exact ⟨root, ⟨varDecl, member, declares⟩, reached⟩
  | error fault => exact start_error_plain context plain secret enough result

end Runs

section Cycle

/-- A field of the sample. -/
def sampleField (name : Identifier) (access : AccessSpecifier) (type : QualType Cls) :
    FieldDecl Cls := { name, access, type }

/-- A class of the sample at its own line. -/
def sampleClass (name : Identifier) (line : Nat) (fields : List (FieldDecl Cls))
    (specialization : Option (Identifier × List (TemplateArgument Cls))) :
    CXXRecordDecl Cls :=
  { name, fields, methods := [], specialization
    endLoc := ⟨"input/Node.hpp".toList, 10 * line⟩
    semiLoc := ⟨"input/Node.hpp".toList, 10 * line + 1⟩ }

/-- An identifier spelled with word characters. -/
def word (spelling : String) (letters : spelling.toList.all isWordChar = true) : Identifier :=
  ⟨spelling.toList, letters⟩

/-- A type printed with plain characters. -/
def plain (spelling : String) (letters : spelling.toList.all isPlainChar = true) : TypeName :=
  ⟨spelling.toList, settled_plain letters⟩

/-- The name of the wrapper template. -/
def secretName : Identifier := word "secret" (by decide)

/-- Two classes that lead to each other, and a third behind a class already specialized. -/
def cyclicContext : ASTContext (Fin 7) where
  decl
    | 0 => sampleClass (word "Node" (by decide)) 1
        [sampleField (word "link" (by decide)) .asPublic
            (.pointer (plain "Node *" (by decide)) (.record (plain "Node" (by decide)) 0)),
          sampleField (word "leaf" (by decide)) .asPrivate
            (.record (plain "Leaf" (by decide)) 1)] none
    | 1 => sampleClass (word "Leaf" (by decide)) 2
        [sampleField (word "owner" (by decide)) .asPrivate
            (.pointer (plain "Node *" (by decide)) (.record (plain "Node" (by decide)) 0)),
          sampleField (word "done" (by decide)) .asPublic
            (.record (plain "Done" (by decide)) 2),
          sampleField (word "count" (by decide)) .asProtected
            (.builtin (plain "int" (by decide)))] none
    | 2 => sampleClass (word "Done" (by decide)) 3
        [sampleField (word "inner" (by decide)) .asPublic
            (.record (plain "Inner" (by decide)) 3)] none
    | 3 => sampleClass (word "Inner" (by decide)) 4
        [sampleField (word "data" (by decide)) .asPrivate
            (.builtin (plain "int" (by decide)))] none
    -- The specializations of the wrapper that the variables and the header name.
    | 4 => sampleClass secretName 5 []
        (some (secretName, [.type (.record (plain "Node" (by decide)) 0)]))
    | 5 => sampleClass secretName 6 []
        (some (secretName, [.type (.record (plain "Done" (by decide)) 2)]))
    | 6 => sampleClass secretName 7 []
        (some (secretName, [.type (.record (plain "Inner" (by decide)) 3)]))
  translationUnitDecls := [5]

/-- A variable that points to the wrapper of the first class. -/
def nodeVariable : VarDecl (Fin 7) where
  name := word "node" (by decide)
  type := .pointer (plain "secret<Node> *" (by decide))
    (.record (plain "secret<Node>" (by decide)) 4)
  filename := "input/main.cpp".toList
  isInSystemHeader := false
  isImplicit := false

/-- A variable of the wrapper of the last class. -/
def innerVariable : VarDecl (Fin 7) where
  name := word "inner" (by decide)
  type := .record (plain "secret<Inner>" (by decide)) 6
  filename := "input/main.cpp".toList
  isInSystemHeader := false
  isImplicit := false

/-- The first variable wraps the first class. -/
theorem nodeVariable_declares : DeclaresSecret cyclicContext nodeVariable 0 where
  considered := by decide
  spelled := by decide
  wraps := ⟨_, _, _, _, rfl, rfl, rfl⟩

/-- The second variable wraps the last class. -/
theorem innerVariable_declares : DeclaresSecret cyclicContext innerVariable 3 where
  considered := by decide
  spelled := by decide
  wraps := ⟨_, _, _, _, rfl, rfl, rfl⟩

/-- A run is known to complete when the classes it generates are known. -/
theorem completes_of_generates [DecidableEq Cls] {context : ASTContext Cls} {depth : Nat}
    {varDecls : List (VarDecl Cls)} {classes : List Cls}
    (generates : (start context depth varDecls).map generatedClasses = .ok classes) :
    ∃ state, start context depth varDecls = .ok state ∧ generatedClasses state = classes := by
  -- A run that stops generates no list of classes at all.
  cases result : start context depth varDecls with
  | error fault => simp [result, Except.map] at generates
  | ok state => exact ⟨state, rfl, by simpa [result, Except.map] using generates⟩

/-- Both variables wrap a class. -/
theorem cyclic_wrapsClasses : WrapsClasses cyclicContext [nodeVariable, innerVariable] := by
  intro varDecl member _
  simp only [List.mem_cons, List.not_mem_nil, or_false] at member
  rcases member with rfl | rfl
  · exact ⟨0, nodeVariable_declares⟩
  · exact ⟨3, innerVariable_declares⟩

/-- From both variables the cycle and the last class are generated. -/
theorem cyclic_completes :
    ∃ state, start cyclicContext 7 [nodeVariable, innerVariable] = .ok state ∧
      generatedClasses state = [0, 1, 3] :=
  completes_of_generates (by decide)

/-- On the sample exactly the classes of the cycle and the last class are generated. -/
theorem start_generates_reachable_cycle :
    match start cyclicContext 7 [nodeVariable, innerVariable] with
    | .ok state => generatedClasses state = [0, 1, 3] ∧
        ∀ secretClass, secretClass ∈ generatedClasses state ↔
          ∃ varDecl ∈ [nodeVariable, innerVariable], ∃ root,
            DeclaresSecret cyclicContext varDecl root ∧
              FieldReaches cyclicContext root secretClass
    | .error _ => False := by
  -- The run is known to complete, so the first case of the theorem applies.
  have generates := start_generates_reachable cyclicContext (by decide)
    [nodeVariable, innerVariable] cyclic_wrapsClasses 7 (by decide)
  obtain ⟨state, completed, classes⟩ := cyclic_completes
  rw [completed] at generates ⊢
  exact ⟨classes, generates.2.2⟩

end Cycle

end SecretTyping
