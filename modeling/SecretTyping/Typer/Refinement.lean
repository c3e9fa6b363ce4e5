import SecretTyping.Typer.Script

/-! Every run of the typer is a run of the search over the class scripts. -/

namespace SecretTyping

open Rewriter Search

variable {Cls : Type} [DecidableEq Cls] (context : ASTContext Cls)

/-- Marking the methods from one index on inserts one keyword for each that becomes virtual. -/
theorem makeMethodVirtual_foldl (secretClass : Cls) (methods : List CXXMethodDecl) (start : Nat)
    (state : TyperState Cls)
    (earlier : ∀ index, (secretClass, index) ∈ state.virtualAsWritten → index < start) :
    let result := (methods.zipIdx start).foldl (makeMethodVirtual context secretClass) state
    result.specializedSecretClasses = state.specializedSecretClasses ∧
      result.insertions = state.insertions ++
        ((methods.filter (becomesVirtual (context.decl secretClass).name.text)).map
          virtualOutput).map (secretClass, ·) ∧
      ∀ mark ∈ result.virtualAsWritten, mark ∈ state.virtualAsWritten ∨ mark.1 = secretClass := by
  -- Each method is looked at once, so a mark found for it would be older than the loop.
  induction methods generalizing start state with
  | nil => exact ⟨rfl, by simp, fun mark member => .inl member⟩
  | cons method rest ih =>
    have unmarked : (secretClass, start) ∉ state.virtualAsWritten :=
      fun marked => Nat.lt_irrefl _ (earlier start marked)
    simp only [List.zipIdx_cons, List.foldl_cons]
    by_cases virtual : becomesVirtual (context.decl secretClass).name.text method = true
    · -- The method is marked now, and the keyword is inserted.
      have marked : makeMethodVirtual context secretClass state (method, start) =
          { state with
            virtualAsWritten := state.virtualAsWritten ++ [(secretClass, start)]
            rewriteLocation := some method.beginLoc
            insertions := state.insertions ++ [(secretClass, virtualOutput method)]
            fileIDs := state.fileIDs ++ [some method.beginLoc.file] } := by
        simp only [becomesVirtual, Bool.and_eq_true, Bool.not_eq_true', decide_eq_true_eq]
          at virtual
        simp [makeMethodVirtual, virtual, unmarked, TyperState.setLocation,
          TyperState.insertTextBefore, TyperState.pushFileID, virtualOutput]
      rw [marked]
      obtain ⟨listed, inserted, marks⟩ := ih (start + 1)
        { state with
          virtualAsWritten := state.virtualAsWritten ++ [(secretClass, start)]
          rewriteLocation := some method.beginLoc
          insertions := state.insertions ++ [(secretClass, virtualOutput method)]
          fileIDs := state.fileIDs ++ [some method.beginLoc.file] } (by
        intro index member
        simp only [List.mem_append, List.mem_singleton, Prod.mk.injEq, true_and] at member
        rcases member with member | rfl
        · exact Nat.lt_succ_of_lt (earlier index member)
        · exact Nat.lt_succ_self _)
      refine ⟨listed, ?_, ?_⟩
      · rw [inserted]
        simp [virtual]
      · -- A mark is an old one, or the one of this method.
        intro mark member
        rcases marks mark member with old | same
        · simp only [List.mem_append, List.mem_singleton] at old
          exact old.imp_right fun same => by rw [same]
        · exact .inr same
    · -- The method is left as it is.
      have kept : makeMethodVirtual context secretClass state (method, start) = state := by
        simp only [becomesVirtual, Bool.and_eq_true, Bool.not_eq_true', decide_eq_true_eq,
          not_and, Decidable.not_not] at virtual
        by_cases provided : method.isUserProvided
        · by_cases already : method.isVirtual
          · simp [makeMethodVirtual, already]
          · have named := virtual (by simp [provided, already])
            simp [makeMethodVirtual, named]
        · simp [makeMethodVirtual, provided]
      rw [kept]
      obtain ⟨listed, inserted, marks⟩ := ih (start + 1) state
        fun index member => Nat.lt_succ_of_lt (earlier index member)
      exact ⟨listed, by rw [inserted]; simp [virtual], marks⟩

/-- Making the methods of an unmarked class virtual inserts exactly its keywords. -/
theorem makeVirtual_spec (secretClass : Cls) (state : TyperState Cls)
    (unmarked : ∀ mark ∈ state.virtualAsWritten, mark.1 ≠ secretClass) :
    let result := makeVirtual context secretClass state
    result.trace = { state.trace with
      log := state.insertions ++
        (virtualOutputs (context.decl secretClass)).map (secretClass, ·) } ∧
      ∀ mark ∈ result.virtualAsWritten, mark ∈ state.virtualAsWritten ∨ mark.1 = secretClass := by
  -- The loop starts at the first method, so no earlier one can be marked.
  obtain ⟨listed, inserted, marks⟩ := makeMethodVirtual_foldl context secretClass
    (context.decl secretClass).methods 0 state
    fun index marked => (unmarked _ marked rfl).elim
  exact ⟨by simp only [TyperState.trace, makeVirtual, listed, inserted]; rfl, marks⟩

/-- A section runs its tasks. -/
theorem simulates_secretMembers {construct : Construct Cls}
    {enter : Cls → Trace Cls (Output Cls) → Except Fault (Trace Cls (Output Cls))}
    (follows : Follows construct enter) (label : Text) (wrapBuiltin wrapPointer : Text → Text)
    (access : AccessSpecifier) (secretClass : Cls) (decl : CXXRecordDecl Cls)
    (state : TyperState Cls) (marks : MarksListed state) :
    Simulates
      (secretMembers label (secretField wrapBuiltin wrapPointer construct) secretClass decl.semiLoc
        (decl.fields.filter fun field => field.access = access)
        (decl.methods.filter fun method => method.access = access) state)
      (runTasks enter secretClass (sectionTasks label wrapBuiltin wrapPointer access decl)
        state.trace) := by
  -- The label comes first, then the loop over the fields, then the loop over the methods.
  simp only [secretMembers, sectionTasks, runTasks, runTasks_append]
  have fields := simulates_foldlM enter secretClass
    (fun state field =>
      secretField wrapBuiltin wrapPointer construct secretClass decl.semiLoc field state)
    (fieldTasks wrapBuiltin wrapPointer decl.semiLoc)
    (fun field state marks =>
      simulates_secretField follows wrapBuiltin wrapPointer secretClass decl.semiLoc field state
        marks)
    (decl.fields.filter fun field => field.access = access)
    (state.insertTextAfter secretClass .accessLabel decl.semiLoc label) marks
  exact fields.bind fun state marks => simulates_foldlM enter secretClass
    (fun state method => secretMethod secretClass decl.semiLoc method state)
    (methodTasks decl.semiLoc)
    (fun method state marks => simulates_secretMethod enter secretClass decl.semiLoc method state
      marks) _ state marks

/-- At every depth the recursion of the typer is the search over the scripts. -/
theorem constructSpecialization_follows (depth : Nat) :
    Follows (constructSpecialization context depth)
      (visit (script context) .outOfFuel depth) := by
  -- By induction on the depth, which every construction lowers by one.
  induction depth with
  | zero =>
    refine ⟨fun secretClass state _ _ => ?_, fun state => ?_⟩ <;>
      simp [constructSpecialization, visit, Simulates]
  | succ depth ih =>
    refine ⟨fun secretClass state unlisted marks => ?_, fun state => ?_⟩
    · -- The class is listed first, so the marks made for it are marks of a listed class.
      have unmarked : ∀ mark ∈ state.virtualAsWritten, mark.1 ≠ secretClass :=
        fun mark marked same => unlisted (same ▸ marks mark marked)
      obtain ⟨traced, marked⟩ := makeVirtual_spec context secretClass
        { state with
          specializedSecretClasses := state.specializedSecretClasses ++ [secretClass] } unmarked
      simp only [TyperState.trace, Trace.mk.injEq] at traced
      let opened := (((makeVirtual context secretClass
        { state with
          specializedSecretClasses := state.specializedSecretClasses ++ [secretClass]
          }).setLocation (context.decl secretClass).endLoc).insertTextAfter secretClass .head
            (context.decl secretClass).semiLoc
            (headText (context.decl secretClass).name.text)).insertTextAfter secretClass
              .allocatorCode (context.decl secretClass).semiLoc getSecretAllocatorCode
      have openedMarks : MarksListed opened := by
        intro mark member
        simp only [opened, TyperState.insertTextAfter, TyperState.setLocation, traced.1,
          List.mem_append, List.mem_singleton]
        exact (marked mark member).imp_left (marks mark)
      have openedTrace : opened.trace =
          { visited := state.specializedSecretClasses ++ [secretClass]
            log := state.insertions ++
              (virtualOutputs (context.decl secretClass) ++
                [blockOutput (context.decl secretClass).semiLoc .head
                    (headText (context.decl secretClass).name.text),
                  blockOutput (context.decl secretClass).semiLoc .allocatorCode
                    getSecretAllocatorCode]).map (secretClass, ·) } := by
        simp [opened, TyperState.trace, TyperState.insertTextAfter, TyperState.setLocation,
          traced, blockOutput]
      simp only [visit, script, classTasks, runTasks_append, runTasks_emits]
      simp only [TyperState.trace, Bind.bind, Except.bind]
      rw [← openedTrace, runTasks_append]
      simp only [constructSpecialization]
      -- What is left are the two sections and the closing brace.
      refine (simulates_secretMembers ih _ _ _ .asPublic secretClass
        (context.decl secretClass) opened openedMarks).bind fun state marks => ?_
      rw [runTasks_append]
      refine (simulates_secretMembers ih _ _ _ .asPrivate secretClass
        (context.decl secretClass) state marks).bind fun state marks => ?_
      exact ⟨rfl, marks⟩
    · simp [constructSpecialization]

end SecretTyping
