import SecretTyping.Typer.Initializers
import SecretTyping.Typer.NullSafety

/-! Which member functions of a generated class are complete definitions. -/

namespace SecretTyping

open Lexical Rewriter

/-- Everything that stands before the body of a copied member function. -/
def functionHead (method : CXXMethodDecl) : Except Fault Text :=
  match method.kind with
  | .constructor => do
    let signature ← getSecretConstructorSignature method
    return signature ++ ctorInitText method
  | .destructor => .ok "virtual ~secret()\n".toList
  | .method => getSecretMethodSignature method

/-- A copy is the head of its function, one body, and at most an end of line; the body is the
function's own where one is visible. -/
def FunctionCopy.IsComplete (copy : FunctionCopy) : Prop :=
  ∃ head, ∃ body : Body, ∃ ending : Text, functionHead copy.method = .ok head ∧
    (∀ own ∈ copy.method.getBody, body = own) ∧ (∀ c ∈ ending, c = '\n') ∧
    copy.texts.flatten = head ++ body.text ++ ending

/-- A destructor that is copied although its body is not visible. -/
def CXXMethodDecl.lacksBody (method : CXXMethodDecl) : Prop :=
  method.kind = .destructor ∧ method.isUserProvided = true ∧ method.getBody = none

/-- The body that is written where none is visible. -/
def emptyBody : Body := ⟨"\x7b\x7d\n".toList, fun _ _ => rfl, by decide⟩

/-- The text of a body is a body, the function's own where there is one. -/
theorem bodyText_eq (method : CXXMethodDecl) :
    ∃ body : Body, (∀ own ∈ method.getBody, body = own) ∧ bodyText method = body.text := by
  rw [bodyText]
  cases method.getBody with
  | none => exact ⟨emptyBody, by simp, rfl⟩
  | some body => exact ⟨body, by simp, rfl⟩

/-- A head and the text of a body are a complete copy. -/
theorem isComplete_of_texts {copy : FunctionCopy} {head : Text}
    (found : functionHead copy.method = .ok head)
    (texts : copy.texts = [head, bodyText copy.method]) : copy.IsComplete := by
  obtain ⟨body, own, text⟩ := bodyText_eq copy.method
  refine ⟨head, body, [], found, own, by simp, ?_⟩
  simp [texts, text]

/-- A destructor is complete exactly when it has a body. -/
theorem destructor_isComplete_iff {copy : FunctionCopy} (destroys : copy.method.kind = .destructor)
    (printed : methodTexts copy.method = .ok copy.texts) :
    copy.IsComplete ↔ copy.method.getBody ≠ none := by
  obtain ⟨method, texts⟩ := copy
  simp only at destroys printed ⊢
  -- The two texts of the head are one.
  have opened : "virtual ~secret(".toList ++ ")\n".toList = "virtual ~secret()\n".toList := by
    decide
  have head : functionHead method = .ok "virtual ~secret()\n".toList := by
    unfold functionHead
    rw [destroys]
  have texts' := texts_of_destructor destroys printed
  cases visible : method.getBody with
  | none =>
    -- Neither a body nor anything else follows the head.
    rw [visible] at texts'
    refine iff_of_false ?_ (not_not.mpr rfl)
    rintro ⟨other, body, ending, found, -, -, text⟩
    cases head.symm.trans found
    rw [texts', List.append_nil, List.flatten_cons, List.flatten_cons, List.flatten_nil,
      List.append_nil, opened, List.append_assoc, List.self_eq_append_right] at text
    have none := (List.append_eq_nil_iff.mp text).1
    have braced := body.braced
    rw [none] at braced
    cases braced
  | some body =>
    -- The body is behind the head, and a new line ends it.
    rw [visible] at texts'
    have newline : ∀ c ∈ "\n".toList, c = '\n' := fun c member => List.mem_singleton.mp member
    refine iff_of_true ⟨_, body, "\n".toList, head, by simp [visible], newline, ?_⟩ (by simp)
    rw [texts', ← opened]
    simp only [List.flatten_append, List.flatten_cons, List.flatten_nil, List.append_nil,
      List.append_assoc]

/-- Copies of constructors and methods are complete, those of destructors exactly when they have a
body. -/
theorem isComplete_iff {copy : FunctionCopy} (provided : copy.method.isUserProvided = true)
    (printed : methodTexts copy.method = .ok copy.texts) :
    copy.IsComplete ↔ ¬ copy.method.lacksBody := by
  -- The text of a constructor or method ends with that of a body, which is never missing.
  cases kind : copy.method.kind with
  | constructor =>
    -- Only a destructor can be without a body.
    refine iff_of_true ?_ fun lacks => by rw [lacks.1] at kind; cases kind
    obtain ⟨head, signature, texts⟩ := texts_of_constructor kind printed
    refine isComplete_of_texts ?_ texts
    unfold functionHead
    rw [kind, signature]
    rfl
  | method =>
    refine iff_of_true ?_ fun lacks => by rw [lacks.1] at kind; cases kind
    obtain ⟨head, signature, texts⟩ := texts_of_method kind printed
    refine isComplete_of_texts ?_ texts
    unfold functionHead
    rw [kind, signature]
  | destructor =>
    rw [destructor_isComplete_iff kind printed, CXXMethodDecl.lacksBody]
    simp [kind, provided]

section Runs

variable {Cls : Type} [DecidableEq Cls] (context : ASTContext Cls)

/-- Every class explored from a variable has definitions for the constructors that are copied and
bodies for the destructors that are copied. -/
def FunctionsVisible (varDecls : List (VarDecl Cls)) : Prop :=
  ∀ root ∈ secretRoots context varDecls, ∀ secretClass, FieldReaches context root secretClass →
    ∀ method ∈ (context.decl secretClass).methods, method.access.isWalked →
      ¬ method.lacksDefinition ∧ ¬ method.lacksBody

/-- A run dereferences no missing definition, and all functions that it emits are complete. -/
def EmitsComplete (depth : Nat) (varDecls : List (VarDecl Cls)) : Prop :=
  start context depth varDecls ≠ .error .missingDefinition ∧
    ∀ state, start context depth varDecls = .ok state → ∀ secretClass ∈ generatedClasses state,
      ∀ copy ∈ functionCopies (generatedBlock state secretClass), copy.IsComplete

/-- Where all definitions and bodies that are read are visible, what is emitted is complete. -/
theorem emitsComplete_of_visible {varDecls : List (VarDecl Cls)} (depth : Nat)
    (visible : FunctionsVisible context varDecls) : EmitsComplete context depth varDecls := by
  constructor
  · -- A run that meets all the definitions is not stopped by a missing one.
    intro stopped
    refine not_constructorsDefined_of_missingDefinition context stopped ?_
    intro root rootMember secretClass reached method member walked
    exact (visible root rootMember secretClass reached method member walked).1
  · intro state completed secretClass generated copy found
    -- The class has been reached, so its destructors have bodies.
    obtain ⟨root, rootMember, reached⟩ :=
      (mem_generatedClasses_iff context completed secretClass).mp generated
    obtain ⟨member, walked, copied, printed⟩ :=
      (mem_generatedCopies context completed generated).mp found
    refine (isComplete_iff (Bool.and_eq_true_iff.mp copied).1 printed).mpr ?_
    exact (visible root rootMember secretClass reached _ member walked).2

/-- What is emitted is complete where all definitions and bodies that are read are visible, and
only there, unless the run stops at a null class. -/
theorem start_emitsComplete_iff [Fintype Cls] (varDecls : List (VarDecl Cls)) (depth : Nat)
    (enough : Fintype.card Cls ≤ depth) :
    (FunctionsVisible context varDecls → EmitsComplete context depth varDecls) ∧
      (NullFree context varDecls →
        (EmitsComplete context depth varDecls ↔ FunctionsVisible context varDecls)) := by
  have sufficient := fun visible =>
    @emitsComplete_of_visible _ _ context varDecls depth visible
  -- The other way round, a run that does not stop has generated every class that is reached.
  refine ⟨sufficient, fun free => ⟨?_, sufficient⟩⟩
  intro ⟨noMissing, complete⟩
  -- A run that is stopped is so for one of three reasons.
  cases result : start context depth varDecls with
  | error fault =>
    cases fault with
    | nullClass => exact absurd free (not_nullFree_of_nullClass context result)
    | missingDefinition => exact absurd result noMissing
    | outOfFuel => exact absurd result (start_not_exhausted context enough varDecls)
  | ok state =>
    intro root rootMember secretClass reached method member walked
    have generated := (mem_generatedClasses_iff context result secretClass).mpr
      ⟨root, rootMember, reached⟩
    refine ⟨generated_defined context result generated method member walked, fun lacks => ?_⟩
    -- A destructor is copied in any case, so its copy would be complete.
    have copied : method.isCopied = true := by
      simp [CXXMethodDecl.isCopied, lacks.1, lacks.2.1]
    obtain ⟨texts, printed⟩ : ∃ texts, methodTexts method = .ok texts := by
      unfold methodTexts
      rw [lacks.1]
      exact ⟨_, rfl⟩
    have found : ⟨method, texts⟩ ∈ functionCopies (generatedBlock state secretClass) :=
      (mem_generatedCopies context result generated).mpr ⟨member, walked, copied, printed⟩
    have whole := complete state result secretClass generated _ found
    exact (isComplete_iff lacks.2.1 printed).mp whole lacks

end Runs

/-- A public member function of the sample without a visible definition. -/
def declaredFunction (kind : MethodKind) : CXXMethodDecl :=
  { holderConstructor false with kind, definition := none, proper := fun _ => by decide }

/-- A constructor that is defined is emitted as a complete function. -/
theorem start_emitsComplete_constructor :
    EmitsComplete (holderContext [holderConstructor true]) 2 [holderVariable] := by
  refine (start_emitsComplete_iff _ _ 2 (by decide)).1 ?_
  intro root _ secretClass _ method member _
  -- Only the first class has a member function.
  match secretClass with
  | 0 =>
    cases List.mem_singleton.mp member
    exact ⟨by simp [CXXMethodDecl.lacksDefinition, holderConstructor],
      by simp [CXXMethodDecl.lacksBody, holderConstructor]⟩
  | 1 => cases member

/-- A constructor without a definition is dereferenced, and a destructor without one is emitted
without a body. -/
theorem not_emitsComplete_declared :
    start (holderContext [declaredFunction .constructor]) 2 [holderVariable] =
        .error .missingDefinition ∧
      ¬ EmitsComplete (holderContext [declaredFunction .constructor]) 2 [holderVariable] ∧
      ¬ EmitsComplete (holderContext [declaredFunction .destructor]) 2 [holderVariable] := by
  have stopped : start (holderContext [declaredFunction .constructor]) 2 [holderVariable] =
      .error .missingDefinition := rfl
  refine ⟨stopped, fun complete => complete.1 stopped, fun complete => ?_⟩
  -- The destructor is emitted, but without the body it does not have.
  have generates : (start (holderContext [declaredFunction .destructor]) 2 [holderVariable]).map
      generatedClasses = .ok [0] := by decide
  obtain ⟨state, completed, classes⟩ := completes_of_generates generates
  have generated : (0 : Fin 2) ∈ generatedClasses state := by simp [classes]
  obtain ⟨texts, printed⟩ : ∃ texts, methodTexts (declaredFunction .destructor) = .ok texts :=
    ⟨_, rfl⟩
  have found : ⟨declaredFunction .destructor, texts⟩ ∈ functionCopies (generatedBlock state 0) :=
    (mem_generatedCopies _ completed generated).mpr
      ⟨List.mem_singleton.mpr rfl, .inl rfl, rfl, printed⟩
  exact (isComplete_iff rfl printed).mp (complete.2 state completed 0 generated _ found)
    ⟨rfl, rfl, rfl⟩

end SecretTyping
