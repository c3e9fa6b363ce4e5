import SecretTyping.Typer.Worklist

/-! Which variables make the typer look up a class. -/

namespace SecretTyping

open Lexical Rewriter

variable {Cls : Type} (context : ASTContext Cls)

/-- The classes among template arguments, up to the first type that is no class. -/
def lookedUpArguments : List (TemplateArgument Cls) → List Cls
  | [] => []
  | .other :: rest => lookedUpArguments rest
  | .type argType :: rest =>
    -- A type that is no class has no name to be printed, and the callback goes no further.
    match argType.getAsCXXRecordDecl with
    | none => []
    | some secretClass => secretClass :: lookedUpArguments rest

/-- Whether some template argument is a type that is no class. -/
def meetsNull (arguments : List (TemplateArgument Cls)) : Bool :=
  arguments.any fun argument =>
    match argument with
    | .type argType => argType.getAsCXXRecordDecl.isNone
    | .other => false

/-- The classes that the callback looks up for a variable, in order. -/
def VarDecl.lookedUp (varDecl : VarDecl Cls) : List Cls :=
  if varDecl.triggers then lookedUpArguments (varDecl.arguments context) else []

/-- The canonical type of a variable, without its pointers, is the wrapper of a class. -/
def WrapsClass (varDecl : VarDecl Cls) (secretClass : Cls) : Prop :=
  ∃ spelling decl templateName argSpelling,
    varDecl.type.stripPointers = .record spelling decl ∧
    (context.decl decl).specialization =
      some (templateName, [.type (.record argSpelling secretClass)]) ∧
    templateName.text = SECRET_TYPE

/-- The classes looked up are exactly the one that the variable's type is the wrapper of. -/
def TriggersExactly (varDecl : VarDecl Cls) : Prop :=
  ∀ secretClass, secretClass ∈ varDecl.lookedUp context ↔ WrapsClass context varDecl secretClass

/-- The first type among template arguments. -/
def firstType (arguments : List (TemplateArgument Cls)) : Option (QualType Cls) :=
  arguments.findSome? fun argument =>
    match argument with
    | .type argType => some argType
    | .other => none

/-- The printed type of a variable begins with the name of the wrapper. -/
def VarDecl.beginsSecret (varDecl : VarDecl Cls) : Prop :=
  varDecl.type.getAsString.take 6 = SECRET_TYPE

/-- The printed type begins with the name of the wrapper where the canonical one is a wrapper, and
elsewhere only in front of no template or one whose first type argument is no class. -/
def SpelledAsWrapped (varDecl : VarDecl Cls) : Prop :=
  ((∃ secretClass, WrapsClass context varDecl secretClass) → varDecl.beginsSecret) ∧
    ((¬ ∃ secretClass, WrapsClass context varDecl secretClass) → varDecl.beginsSecret →
      ∀ argType ∈ firstType (varDecl.arguments context), argType.getAsCXXRecordDecl = none)

/-- No class is looked up when the first type argument is no class. -/
theorem lookedUpArguments_eq_nil (arguments : List (TemplateArgument Cls)) :
    lookedUpArguments arguments = [] ↔
      ∀ argType ∈ firstType arguments, argType.getAsCXXRecordDecl = none := by
  -- By induction, up to the first argument that is a type.
  induction arguments with
  | nil => simp [lookedUpArguments, firstType]
  | cons argument rest ih =>
    cases argument with
    | other => exact ih
    | type argType =>
      cases null : argType.getAsCXXRecordDecl <;> simp [lookedUpArguments, firstType, null]

/-- The wrapper of a class has that class for its only argument. -/
theorem WrapsClass.lookedUpArguments {varDecl : VarDecl Cls} {secretClass : Cls}
    (wraps : WrapsClass context varDecl secretClass) :
    SecretTyping.lookedUpArguments (varDecl.arguments context) = [secretClass] := by
  -- The canonical type is that of the wrapper, with the class as its only argument.
  obtain ⟨spelling, decl, templateName, argSpelling, canonical, specialized, -⟩ := wraps
  unfold VarDecl.arguments
  rw [canonical]
  simp only [specialized]
  rfl

/-- A considered variable triggers when its printed type begins with the name of the wrapper. -/
theorem VarDecl.triggers_iff {varDecl : VarDecl Cls} (considered : varDecl.isConsidered = true) :
    varDecl.triggers = true ↔ varDecl.beginsSecret := by
  simp [VarDecl.triggers, VarDecl.beginsSecret, considered]

/-- The right classes are looked up exactly for types that are spelled as they are wrapped. -/
theorem triggersExactly_iff {varDecl : VarDecl Cls} (considered : varDecl.isConsidered = true) :
    TriggersExactly context varDecl ↔ SpelledAsWrapped context varDecl := by
  -- A wrapper is looked up when it triggers; anything else must look up nothing.
  have triggers := VarDecl.triggers_iff considered
  by_cases wraps : ∃ secretClass, WrapsClass context varDecl secretClass
  · obtain ⟨secretClass, wrapped⟩ := wraps
    have only := wrapped.lookedUpArguments
    constructor
    · intro exactly
      refine ⟨fun _ => ?_, fun none => absurd ⟨secretClass, wrapped⟩ none⟩
      -- The class could not be looked up without a trigger.
      by_contra silent
      have found := (exactly secretClass).mpr wrapped
      rw [VarDecl.lookedUp, if_neg (mt triggers.mp silent)] at found
      cases found
    · -- A trigger looks up the class and nothing else.
      rintro ⟨spelled, -⟩ other
      rw [VarDecl.lookedUp, if_pos (triggers.mpr (spelled ⟨secretClass, wrapped⟩)), only,
        List.mem_singleton]
      constructor
      · rintro rfl
        exact wrapped
      · intro again
        exact (List.cons.inj (again.lookedUpArguments.symm.trans only)).1
  · have nothing : TriggersExactly context varDecl ↔ varDecl.lookedUp context = [] := by
      rw [List.eq_nil_iff_forall_not_mem]
      exact forall_congr' fun secretClass =>
        ⟨fun exactly found => wraps ⟨secretClass, exactly.mp found⟩,
          fun none => ⟨fun found => absurd found none, fun found => absurd ⟨_, found⟩ wraps⟩⟩
    -- What does not trigger looks up nothing.
    rw [nothing, VarDecl.lookedUp]
    constructor
    · intro none
      refine ⟨fun some => absurd some wraps, fun _ begins => ?_⟩
      rw [if_pos (triggers.mpr begins)] at none
      exact (lookedUpArguments_eq_nil _).mp none
    · rintro ⟨-, silent⟩
      split
      · next triggered =>
        exact (lookedUpArguments_eq_nil _).mpr (silent wraps (triggers.mp triggered))
      · rfl

section Runs

variable [DecidableEq Cls]

/-- Look up classes one after another and specialize those that are not listed. -/
def runLookups (depth : Nat) (lookups : List Cls) (state : TyperState Cls) :
    Except Fault (TyperState Cls) :=
  lookups.foldlM (fun state secretClass =>
    specializeUnlisted (specializeClass context depth) (some secretClass) (some secretClass) state)
    state

/-- The arguments of a template are looked up until one is met that is no class. -/
theorem foldlM_runArgument (depth : Nat) (arguments : List (TemplateArgument Cls))
    (state : TyperState Cls) :
    arguments.foldlM (runArgument context depth) state =
      runLookups context depth (lookedUpArguments arguments) state >>= fun state =>
        if meetsNull arguments then .error .nullClass else .ok state := by
  -- By induction on the arguments, from the state that the first lookup leaves.
  induction arguments generalizing state with
  | nil => rfl
  | cons argument rest ih =>
    cases argument with
    | other => exact ih state
    | type argType =>
      cases null : argType.getAsCXXRecordDecl with
      | none =>
        -- The name of a null class is printed.
        simp [runArgument, lookedUpArguments, meetsNull, null, runLookups, Bind.bind, Except.bind,
          pure, Except.pure]
      | some secretClass =>
        have first : runArgument context depth state (.type argType) =
            specializeUnlisted (specializeClass context depth) (some secretClass)
              (some secretClass) state := by
          simp [runArgument, null, specializeUnlisted]
        have others : meetsNull (.type argType :: rest) = meetsNull rest := by
          simp [meetsNull, null]
        have lookups : lookedUpArguments (.type argType :: rest) =
            secretClass :: lookedUpArguments rest := by
          simp [lookedUpArguments, null]
        rw [List.foldlM_cons, first, lookups, others, runLookups, List.foldlM_cons, bind_assoc]
        exact congrArg _ (funext ih)

/-- The callback carries out its lookups, and looks up exactly the class that the canonical type of
a considered variable is the wrapper of when the printed type is spelled accordingly, and only
then. -/
theorem run_trigger_iff {varDecl : VarDecl Cls} (considered : varDecl.isConsidered = true) :
    (∀ depth state, run context depth state varDecl =
      if varDecl.triggers then
        runLookups context depth (varDecl.lookedUp context)
            (addAllSpecializations context state) >>= fun state =>
          if meetsNull (varDecl.arguments context) then .error .nullClass else .ok state
      else .ok state) ∧
    (TriggersExactly context varDecl ↔ SpelledAsWrapped context varDecl) := by
  refine ⟨fun depth state => ?_, triggersExactly_iff context considered⟩
  -- Only a triggered run walks over the arguments.
  split
  · next triggered =>
    rw [run_triggered context depth state triggered, foldlM_runArgument, VarDecl.lookedUp,
      if_pos triggered]
  · next silent => exact run_passed context depth state silent

end Runs

/-- A class, its wrapper, and another template whose name begins like the one of the wrapper. -/
def boxContext : ASTContext (Fin 3) where
  decl
    | 0 => sampleClass (word "Crate" (by decide)) 1 [] none
    | 1 => sampleClass secretName 2 []
        (some (secretName, [.type (.record (plain "Crate" (by decide)) 0)]))
    | 2 => sampleClass (word "secretBox" (by decide)) 3 []
        (some (word "secretBox" (by decide), [.type (.record (plain "Crate" (by decide)) 0)]))
  translationUnitDecls := []

/-- A variable of one of the two templates. -/
def boxVariable (spelling : TypeName) (decl : Fin 3) : VarDecl (Fin 3) where
  name := word "box" (by decide)
  type := .record spelling decl
  filename := "input/main.cpp".toList
  isInSystemHeader := false
  isImplicit := false

/-- A variable of the wrapper that is spelled without qualifiers looks up the class it wraps. -/
theorem run_trigger_plain :
    TriggersExactly boxContext (boxVariable (plain "secret<Crate>" (by decide)) 1) := by
  refine (run_trigger_iff boxContext (by decide)).2.mpr ⟨fun _ => ?_, fun none => ?_⟩
  · exact show List.take 6 "secret<Crate>".toList = SECRET_TYPE by decide
  · exact absurd ⟨0, _, _, _, _, rfl, rfl, rfl⟩ none

/-- A constant of the wrapper is missed, and a variable of the other template is not. -/
theorem not_triggersExactly_qualified :
    ¬ TriggersExactly boxContext (boxVariable (plain "const secret<Crate>" (by decide)) 1) ∧
      ¬ TriggersExactly boxContext (boxVariable (plain "secretBox<Crate>" (by decide)) 2) := by
  constructor
  · intro exactly
    exact absurd ((exactly 0).mpr ⟨_, _, _, _, rfl, rfl, rfl⟩) (by decide)
  · intro exactly
    obtain ⟨spelling, decl, templateName, argSpelling, canonical, specialized, named⟩ :=
      (exactly 0).mp (by decide)
    -- The template has the name of the box.
    cases canonical
    cases specialized
    exact absurd named (by decide)

end SecretTyping
