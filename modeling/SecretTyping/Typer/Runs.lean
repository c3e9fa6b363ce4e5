import SecretTyping.Typer.Refinement

/-! Whole runs of the typer over the variables of a translation unit. -/

namespace SecretTyping

open Rewriter Search

variable {Cls : Type} (context : ASTContext Cls)

/-- The classes among the arguments of a specialization of the wrapper. -/
def coveredArguments (arguments : List (TemplateArgument Cls)) : List Cls :=
  arguments.filterMap fun
    | .type argument => argument.getAsCXXRecordDecl
    | .other => none

/-- The classes that the top-level specializations of the wrapper already cover. -/
def explicitlySpecialized : List Cls :=
  -- The collection looks at top-level declarations only.
  context.translationUnitDecls.flatMap fun specDecl =>
    match (context.decl specDecl).specialization with
    | some (templateName, arguments) =>
      if templateName.text = SECRET_TYPE then coveredArguments arguments else []
    | none => []

/-- Whether the callback takes a variable for one of the wrapper's type. -/
def VarDecl.triggers (varDecl : VarDecl Cls) : Bool :=
  varDecl.isConsidered && varDecl.type.getAsString.take 6 = SECRET_TYPE

/-- What an argument of the wrapper makes the typer do. -/
def argumentTasks : TemplateArgument Cls → List (Task Cls (Output Cls) Fault)
  | .type argType =>
    match argType.getAsCXXRecordDecl with
    | none => [.fail .nullClass]
    | some secretClass => [.visit secretClass]
  | .other => []

/-- The template arguments that the callback reads off the type of a variable. -/
def VarDecl.arguments (varDecl : VarDecl Cls) : List (TemplateArgument Cls) :=
  -- Pointers to the wrapper count as the wrapper itself.
  match varDecl.type.stripPointers with
  | .record _ decl =>
    match (context.decl decl).specialization with
    | some (_, arguments) => arguments
    | none => []
  | _ => []

/-- What a matched variable makes the typer do. -/
def varTasks (varDecl : VarDecl Cls) : List (Task Cls (Output Cls) Fault) :=
  if varDecl.triggers then (varDecl.arguments context).flatMap argumentTasks else []

/-- What all matched variables make the typer do. -/
def unitTasks (varDecls : List (VarDecl Cls)) : List (Task Cls (Output Cls) Fault) :=
  varDecls.flatMap (varTasks context)

/-- The classes from which the matched variables start a specialization. -/
def secretRoots (varDecls : List (VarDecl Cls)) : List Cls := targets (unitTasks context varDecls)

/-- Arguments insert no text themselves. -/
theorem outputs_argumentTasks (arguments : List (TemplateArgument Cls)) :
    outputs (arguments.flatMap argumentTasks) = [] := by
  -- By induction on the arguments, of which each only visits or fails.
  induction arguments with
  | nil => rfl
  | cons argument rest ih =>
    rw [List.flatMap_cons, outputs_append, ih, List.append_nil]
    cases argument with
    | other => rfl
    | type argType =>
      rw [argumentTasks]
      cases argType.getAsCXXRecordDecl <;> rfl

/-- Variables insert no text themselves. -/
theorem outputs_unitTasks (varDecls : List (VarDecl Cls)) :
    outputs (unitTasks context varDecls) = [] := by
  -- By induction on the variables, of which each only handles its arguments.
  induction varDecls with
  | nil => rfl
  | cons varDecl rest ih =>
    rw [unitTasks, List.flatMap_cons, outputs_append]
    rw [unitTasks] at ih
    rw [ih, List.append_nil, varTasks]
    split
    · exact outputs_argumentTasks _
    · rfl

/-- Variables that do not trigger give the typer nothing to do. -/
theorem unitTasks_passed {varDecls : List (VarDecl Cls)}
    (passed : varDecls.any VarDecl.triggers ≠ true) : unitTasks context varDecls = [] := by
  -- Without a variable that triggers every summand of the tasks is empty.
  simp only [unitTasks, List.flatMap_eq_nil_iff]
  intro varDecl member
  rw [varTasks, if_neg]
  exact fun triggered => passed (List.any_eq_true.mpr ⟨varDecl, member, triggered⟩)

/-- A variable that triggers on anything names a class. -/
theorem exists_class_of_unitTasks {varDecls : List (VarDecl Cls)}
    (some : unitTasks context varDecls ≠ []) : Nonempty Cls := by
  -- Arguments are read off a class, so without classes there are none.
  by_contra none
  have noClass : IsEmpty Cls := not_nonempty_iff.mp none
  refine some ?_
  simp only [unitTasks, List.flatMap_eq_nil_iff]
  intro varDecl _
  simp only [varTasks, ite_eq_right_iff, List.flatMap_eq_nil_iff, VarDecl.arguments]
  intro _ argument member
  cases stripped : varDecl.type.stripPointers with
  | record spelling decl => exact noClass.elim decl
  | _ => simp [stripped] at member

section Runs

variable [DecidableEq Cls]

/-- Append a class to a list that lacks it. -/
def listClass (listed : List Cls) (decl : Cls) : List Cls :=
  if decl ∈ listed then listed else listed ++ [decl]

/-- Listing the covered arguments of one specialization. -/
theorem foldl_addArgument (arguments : List (TemplateArgument Cls)) (state : TyperState Cls) :
    arguments.foldl addArgument state =
      { state with
        specializedSecretClasses :=
          (coveredArguments arguments).foldl listClass state.specializedSecretClasses } := by
  induction arguments generalizing state with
  | nil => rfl
  | cons argument rest ih =>
    rw [List.foldl_cons, ih]
    cases argument with
    | other => rfl
    | type argument =>
      cases argument with
      | record spelling decl =>
        -- Only a class argument changes the list.
        by_cases listed : decl ∈ state.specializedSecretClasses <;>
          simp [coveredArguments, QualType.getAsCXXRecordDecl, listClass, addArgument, listed]
      | _ => rfl

/-- Collecting the specializations of a translation unit lists the classes they cover. -/
theorem addAllSpecializations_eq (state : TyperState Cls) :
    addAllSpecializations context state =
      { state with
        specializedSecretClasses :=
  -- By induction on the top-level declarations, each with its own arguments to list.
          (explicitlySpecialized context).foldl listClass state.specializedSecretClasses } := by
  unfold addAllSpecializations explicitlySpecialized
  induction context.translationUnitDecls generalizing state with
  | nil => rfl
  | cons specDecl rest ih =>
    rw [List.foldl_cons, ih, List.flatMap_cons, List.foldl_append, addSpecialization]
    cases (context.decl specDecl).specialization with
    | none => rfl
    | some specialization =>
      obtain ⟨templateName, arguments⟩ := specialization
      by_cases wrapper : templateName.text = SECRET_TYPE
      · simp only [wrapper, if_true, foldl_addArgument]
      · simp only [wrapper, if_false, List.foldl_nil]

/-- Listing classes keeps those listed and adds the others. -/
theorem mem_foldl_listClass (classes listed : List Cls) (decl : Cls) :
    decl ∈ classes.foldl listClass listed ↔ decl ∈ listed ∨ decl ∈ classes := by
  -- By induction on the classes to list, the first of which may be listed already.
  induction classes generalizing listed with
  | nil => simp
  | cons first rest ih =>
    rw [List.foldl_cons, ih]
    by_cases held : first ∈ listed
    · simp only [listClass, if_pos held, List.mem_cons]
      constructor
      · rintro (found | found)
        · exact .inl found
        · exact .inr (.inr found)
      · rintro (found | rfl | found)
        · exact .inl found
        · exact .inl held
        · exact .inr found
    · simp [listClass, held, or_assoc]

/-- Listing classes that are listed changes nothing. -/
theorem foldl_listClass_listed (classes listed : List Cls)
    (held : ∀ decl ∈ classes, decl ∈ listed) : classes.foldl listClass listed = listed := by
  -- By induction, each class is met in the list that has not changed yet.
  induction classes with
  | nil => rfl
  | cons first rest ih =>
    rw [List.foldl_cons, listClass, if_pos (held first (by simp))]
    exact ih fun decl member => held decl (List.mem_cons_of_mem _ member)

/-- Whether the explicitly specialized classes are all listed. -/
def CoveredListed (state : TyperState Cls) : Prop :=
  ∀ decl ∈ explicitlySpecialized context, decl ∈ state.specializedSecretClasses

/-- Once collected, the specializations are not collected again. -/
theorem addAllSpecializations_idle {state : TyperState Cls}
    (covered : CoveredListed context state) : addAllSpecializations context state = state := by
  rw [addAllSpecializations_eq, foldl_listClass_listed _ _ covered]

/-- Collecting the specializations lists the classes they cover. -/
theorem addAllSpecializations_covered (state : TyperState Cls) :
    CoveredListed context (addAllSpecializations context state) := by
  -- Collecting lists exactly the explicitly specialized classes.
  intro decl member
  rw [addAllSpecializations_eq]
  exact (mem_foldl_listClass _ _ _).mpr (.inr member)

/-- A triggering variable collects the specializations and handles its arguments in order. -/
theorem run_triggered (depth : Nat) (state : TyperState Cls) {varDecl : VarDecl Cls}
    (triggered : varDecl.triggers = true) :
    run context depth state varDecl =
      (varDecl.arguments context).foldlM (runArgument context depth)
        (addAllSpecializations context state) := by
  -- Both tests of the callback pass, and what is left looks at the canonical type.
  simp only [VarDecl.triggers, Bool.and_eq_true, decide_eq_true_eq] at triggered
  unfold run VarDecl.arguments
  rw [if_pos triggered.1, if_pos triggered.2]
  cases varDecl.type.stripPointers with
  | record spelling decl =>
    dsimp only
    cases (context.decl decl).specialization <;> rfl
  | _ => rfl

/-- Any other variable is passed over. -/
theorem run_passed (depth : Nat) (state : TyperState Cls) {varDecl : VarDecl Cls}
    (passed : varDecl.triggers ≠ true) : run context depth state varDecl = .ok state := by
  -- One of the two tests of the callback fails.
  unfold run
  by_cases considered : varDecl.isConsidered = true
  · have other : varDecl.type.getAsString.take 6 ≠ SECRET_TYPE := fun named =>
      passed (by simp [VarDecl.triggers, considered, named])
    rw [if_pos considered, if_neg other]
  · rw [if_neg considered]

/-- An argument runs its task. -/
theorem simulates_runArgument (depth : Nat) (owner : Cls) (argument : TemplateArgument Cls)
    (state : TyperState Cls) (marks : MarksListed state) :
    Simulates (runArgument context depth state argument)
      (runTasks (visit (script context) .outOfFuel depth) owner (argumentTasks argument)
        state.trace) := by
  cases argument with
  | other => exact ⟨rfl, marks⟩
  | type argType =>
    simp only [runArgument, argumentTasks]
    cases found : argType.getAsCXXRecordDecl with
    | none => rfl
    | some secretClass =>
      -- This is the recursion's own search of the list, with the class known not to be null.
      have visited := simulates_specializeUnlisted (constructSpecialization_follows context depth)
        owner secretClass state marks
      simpa [specializeUnlisted, specializeClass] using visited

/-- Running tasks that insert no text keeps every listed class. -/
theorem runTasks_listed {depth : Nat} {owner : Cls}
    {tasks : List (Task Cls (Output Cls) Fault)} {state after : TyperState Cls}
    (silent : outputs tasks = [])
    (ended : runTasks (visit (script context) .outOfFuel depth) owner tasks state.trace =
      .ok after.trace) :
    ∀ decl ∈ state.specializedSecretClasses, decl ∈ after.specializedSecretClasses := by
  -- The search only ever appends to the list of visited classes.
  obtain ⟨fresh, ⟨visited, _⟩, _⟩ := runTasks_explores
    (visit_enters Fault.outOfFuel depth) owner _ _ _ (.inr silent) ended
  have held : after.specializedSecretClasses = state.specializedSecretClasses ++ fresh := visited
  intro decl member
  rw [held]
  exact List.mem_append.mpr (.inl member)

/-- With the specializations collected, the variables run their tasks. -/
theorem simulates_run (depth : Nat) (owner : Cls) (varDecls : List (VarDecl Cls))
    (state : TyperState Cls) (marks : MarksListed state) (covered : CoveredListed context state) :
    Simulates (varDecls.foldlM (run context depth) state)
      (runTasks (visit (script context) .outOfFuel depth) owner (unitTasks context varDecls)
        state.trace) := by
  induction varDecls generalizing state with
  | nil => exact ⟨rfl, marks⟩
  | cons varDecl rest ih =>
    rw [List.foldlM_cons, unitTasks, List.flatMap_cons, runTasks_append]
    by_cases triggered : varDecl.triggers = true
    · rw [run_triggered context depth state triggered, addAllSpecializations_idle context covered,
        varTasks, if_pos triggered]
      have step := simulates_foldlM (visit (script context) .outOfFuel depth) owner
        (runArgument context depth) argumentTasks
        (fun argument state marks => simulates_runArgument context depth owner argument state marks)
        (varDecl.arguments context) state marks
      cases ended : (varDecl.arguments context).foldlM (runArgument context depth) state with
      | error fault =>
        rw [ended] at step
        rw [step.error]
        rfl
      | ok after =>
        -- The classes listed before the arguments stay listed after them.
        rw [ended] at step
        have kept := runTasks_listed context (outputs_argumentTasks _) step.ok
        have marksAfter : MarksListed after := by
          rw [step.ok] at step
          exact step.2
        rw [step.ok]
        exact ih after marksAfter fun decl member => kept decl (covered decl member)
    · rw [run_passed context depth state triggered, varTasks, if_neg triggered]
      exact ih state marks covered

/-- The first triggering variable collects the specializations before anything else happens. -/
theorem start_eq (depth : Nat) (varDecls : List (VarDecl Cls)) :
    start context depth varDecls =
      if varDecls.any VarDecl.triggers then
        varDecls.foldlM (run context depth) (addAllSpecializations context {})
      else .ok {} := by
  -- Until a variable triggers the state stays the initial one.
  unfold start
  induction varDecls with
  | nil => rfl
  | cons varDecl rest ih =>
    rw [List.foldlM_cons, List.foldlM_cons, List.any_cons]
    by_cases triggered : varDecl.triggers = true
    · rw [run_triggered context depth _ triggered, run_triggered context depth _ triggered,
        addAllSpecializations_idle context (addAllSpecializations_covered context {}),
        triggered, Bool.true_or, if_pos rfl]
    · rw [run_passed context depth _ triggered, run_passed context depth _ triggered]
      simp only [Bool.not_eq_true] at triggered
      rw [triggered, Bool.false_or]
      exact ih

/-- A translation unit whose variables trigger is a search from the covered classes. -/
theorem simulates_start (depth : Nat) (owner : Cls) {varDecls : List (VarDecl Cls)}
    (triggered : varDecls.any VarDecl.triggers = true) :
    Simulates (start context depth varDecls)
      (runTasks (visit (script context) .outOfFuel depth) owner (unitTasks context varDecls)
        (addAllSpecializations context {}).trace) := by
  -- Collecting marks nothing, so the marks are those of the initial state.
  rw [start_eq, if_pos triggered]
  refine simulates_run context depth owner varDecls _ ?_ (addAllSpecializations_covered context {})
  rw [addAllSpecializations_eq]
  intro mark member
  simp at member

end Runs

end SecretTyping
