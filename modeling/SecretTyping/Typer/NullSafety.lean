import SecretTyping.Typer.Worklist

/-! When the typer is led to a class that is null. -/

namespace SecretTyping

open Rewriter Search

variable {Cls : Type} (context : ASTContext Cls)

/-- No variable wraps, and no class explored from one holds, a type that leads to no class. -/
structure NullFree (varDecls : List (VarDecl Cls)) : Prop where
  /-- Every type a variable's template is applied to is a class. -/
  arguments : ∀ varDecl ∈ varDecls, varDecl.triggers = true →
    ∀ argType, .type argType ∈ varDecl.arguments context → argType.getAsCXXRecordDecl ≠ none
  /-- Every public or private field reached is built-in, a class, or a pointer to either. -/
  fields : ∀ root ∈ secretRoots context varDecls, ∀ secretClass,
    FieldReaches context root secretClass → ∀ field ∈ (context.decl secretClass).fields,
      field.access.isWalked → field.type.isPlainKind = true

/-- Every constructor copied from a class explored from a variable has a visible definition. -/
def ConstructorsDefined (varDecls : List (VarDecl Cls)) : Prop :=
  ∀ root ∈ secretRoots context varDecls, ∀ secretClass,
    FieldReaches context root secretClass → ∀ method ∈ (context.decl secretClass).methods,
      method.access.isWalked → ¬ method.lacksDefinition

/-- A wrapped type that is no class is a fault of its variable. -/
theorem fail_mem_unitTasks_of_argument {varDecls : List (VarDecl Cls)} {varDecl : VarDecl Cls}
    (member : varDecl ∈ varDecls) (triggered : varDecl.triggers = true)
    {argType : QualType Cls} (argument : .type argType ∈ varDecl.arguments context)
    (null : argType.getAsCXXRecordDecl = none) :
    Task.fail .nullClass ∈ unitTasks context varDecls := by
  -- The variable, then its argument, is found among the tasks of the unit.
  refine List.mem_flatMap.mpr ⟨varDecl, member, ?_⟩
  rw [varTasks, if_pos triggered]
  refine List.mem_flatMap.mpr ⟨.type argType, argument, ?_⟩
  simp [argumentTasks, null]

section Runs

variable [DecidableEq Cls]

/-- A run that completes has met no null class. -/
theorem nullFree_of_completed {depth : Nat} {varDecls : List (VarDecl Cls)}
    {state : TyperState Cls} (completed : start context depth varDecls = .ok state) :
    NullFree context varDecls := by
  obtain ⟨fresh, explored, _, clean⟩ := start_ok context completed
  constructor
  · intro varDecl member triggered argType argument null
    exact clean _ (fail_mem_unitTasks_of_argument context member triggered argument null)
  · intro root rootMember secretClass reached field member walked
    -- Every class reached has been explored, and its script holds no fault.
    have found := (explored.mem_iff secretClass).mpr
      ⟨root, rootMember, (reaches_iff_fieldReaches context root secretClass).mpr reached⟩
    by_contra other
    refine explored.clean secretClass found .nullClass ?_
    exact (fail_mem_script context).mpr
      (.inl ⟨rfl, field, member, walked, QualType.specializes_null.mpr other⟩)

/-- A run stopped by a null class was led to it by a variable or by a field. -/
theorem not_nullFree_of_nullClass {depth : Nat} {varDecls : List (VarDecl Cls)}
    (stopped : start context depth varDecls = .error .nullClass) :
    ¬ NullFree context varDecls := by
  -- The fault is one of the variables or one of a class reached from them.
  intro free
  rcases start_error context stopped with own | lack | ⟨root, rootMember, node, reached, fails⟩
  · obtain ⟨_, varDecl, member, triggered, argType, argument, null⟩ :=
      fail_mem_unitTasks context own
    exact free.arguments varDecl member triggered argType argument null
  · cases lack
  · rcases (fail_mem_script context).mp fails with
      ⟨_, field, member, walked, null⟩ | ⟨same, _⟩
    · have reached := (reaches_iff_fieldReaches context root node).mp reached
      exact QualType.specializes_null.mp null
        (free.fields root rootMember node reached field member walked)
    · cases same

/-- A run stopped for want of a definition has reached the constructor that lacks it. -/
theorem not_constructorsDefined_of_missingDefinition {depth : Nat}
    {varDecls : List (VarDecl Cls)}
    (stopped : start context depth varDecls = .error .missingDefinition) :
    ¬ ConstructorsDefined context varDecls := by
  -- Variables never lack a definition, so a class reached from them does.
  intro defined
  rcases start_error context stopped with own | lack | ⟨root, rootMember, node, reached, fails⟩
  · cases (fail_mem_unitTasks context own).1
  · cases lack
  · rcases (fail_mem_script context).mp fails with ⟨same, _⟩ | ⟨_, method, member, walked, lacks⟩
    · cases same
    · have reached := (reaches_iff_fieldReaches context root node).mp reached
      exact defined root rootMember node reached method member walked lacks

/-- Without types that lead to no class no null class is met, and with one it is met, unless a
constructor without definition stops the run before. -/
theorem start_nullSafe_iff [Fintype Cls] (varDecls : List (VarDecl Cls)) (depth : Nat)
    (enough : Fintype.card Cls ≤ depth) :
    (NullFree context varDecls → start context depth varDecls ≠ .error .nullClass) ∧
      (ConstructorsDefined context varDecls →
        (start context depth varDecls ≠ .error .nullClass ↔ NullFree context varDecls)) := by
  -- Only a constructor without definition could stop the run before a null class does.
  have safe : NullFree context varDecls → start context depth varDecls ≠ .error .nullClass :=
    fun free stopped => not_nullFree_of_nullClass context stopped free
  refine ⟨safe, fun defined => ⟨fun noNull => ?_, safe⟩⟩
  cases result : start context depth varDecls with
  | ok state => exact nullFree_of_completed context result
  | error fault =>
    cases fault with
    | nullClass => exact absurd result noNull
    | missingDefinition =>
      exact absurd defined (not_constructorsDefined_of_missingDefinition context result)
    | outOfFuel => exact absurd result (start_not_exhausted context enough varDecls)

end Runs

/-- The variables of the sample lead to classes only. -/
theorem cyclic_nullFree : NullFree cyclicContext [nodeVariable, innerVariable] where
  -- The fields of the sample are all of a plain kind, reached or not.
  arguments := by
    intro varDecl member _ argType argument
    have first : nodeVariable.arguments cyclicContext =
        [.type (.record (plain "Node" (by decide)) 0)] := rfl
    have second : innerVariable.arguments cyclicContext =
        [.type (.record (plain "Inner" (by decide)) 3)] := rfl
    simp only [List.mem_cons, List.not_mem_nil, or_false] at member
    rcases member with same | same
    · rw [same, first, List.mem_singleton] at argument
      cases argument
      simp [QualType.getAsCXXRecordDecl]
    · rw [same, second, List.mem_singleton] at argument
      cases argument
      simp [QualType.getAsCXXRecordDecl]
  fields := by
    have kinds : ∀ secretClass, ∀ field ∈ (cyclicContext.decl secretClass).fields,
        field.type.isPlainKind = true := by decide
    exact fun _ _ secretClass _ field member _ => kinds secretClass field member

/-- The run over the sample meets no null class. -/
theorem start_nullSafe_cycle :
    start cyclicContext 7 [nodeVariable, innerVariable] ≠ .error .nullClass :=
  (start_nullSafe_iff cyclicContext [nodeVariable, innerVariable] 7 (by decide)).1 cyclic_nullFree

/-- A class with a field of an enumeration, and the wrapper of that class. -/
inductive LightClass where
  | light
  | wrapper
  deriving DecidableEq

/-- How the two classes are declared. -/
def enumerationContext : ASTContext LightClass where
  decl
    | .light => sampleClass (word "Light" (by decide)) 1
        [sampleField (word "colour" (by decide)) .asPublic
          (.enumeration (plain "Colour" (by decide)))] none
    | .wrapper => sampleClass secretName 2 []
        (some (secretName, [.type (.record (plain "Light" (by decide)) .light)]))
  translationUnitDecls := []

/-- A variable of the wrapper. -/
def lightVariable : VarDecl LightClass where
  name := word "light" (by decide)
  type := .record (plain "secret<Light>" (by decide)) .wrapper
  filename := "input/main.cpp".toList
  isInSystemHeader := false
  isImplicit := false

/-- A field of an enumeration hands a null class to the recursion. -/
theorem nullSafe_fails :
    DeclaresSecret enumerationContext lightVariable .light ∧
      start enumerationContext 2 [lightVariable] = .error .nullClass := by
  -- The run is short enough to be computed.
  refine ⟨⟨by decide, by decide, ⟨_, _, _, _, rfl, rfl, rfl⟩⟩, ?_⟩
  rfl

end SecretTyping
