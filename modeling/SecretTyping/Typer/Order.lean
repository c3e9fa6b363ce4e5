import SecretTyping.Typer.Blocks

/-! The buffers do not depend on the order of the variables, and each block stands in one piece. -/

namespace SecretTyping

open Lexical Rewriter Search

variable {Cls : Type} [DecidableEq Cls] (context : ASTContext Cls)

/-- The class generated alone, with every other class its fields lead to listed already. -/
def generateAlone (secretClass : Cls) : Except Fault (TyperState Cls) :=
  constructSpecialization context 1 (some secretClass)
    { specializedSecretClasses :=
        (fieldClasses context secretClass).filter fun decl => decl ≠ secretClass }

/-- A class without faults is generated alone with exactly its own insertions. -/
theorem generateAlone_ok {secretClass : Cls}
    (clean : ∀ fault, Task.fail fault ∉ script context secretClass) :
    ∃ alone, generateAlone context secretClass = .ok alone ∧
      alone.edits = (outputs (script context secretClass)).map Output.insertion := by
  let others := (fieldClasses context secretClass).filter fun decl => decl ≠ secretClass
  let listed : TyperState Cls := { specializedSecretClasses := others }
  have unlisted : secretClass ∉ listed.specializedSecretClasses := by simp [listed, others]
  have unmarked : MarksListed listed := by
    intro mark member
    simp [listed] at member
  have simulated := (constructSpecialization_follows context 1).unlisted secretClass listed
    unlisted unmarked
  -- All targets of the script are listed once the class itself is.
  have targetsListed : ∀ target ∈ targets (script context secretClass),
      target ∈ others ++ [secretClass] := by
    intro target found
    obtain ⟨field, member, walked, specializes⟩ := (mem_successors_script context).mp found
    by_cases own : target = secretClass
    · simp [own]
    · have held : target ∈ fieldClasses context secretClass := by
        simp only [fieldClasses, List.mem_filterMap, List.mem_filter, decide_eq_true_eq]
        exact ⟨field, ⟨member, walked⟩, QualType.specializes_class.mp specializes⟩
      simp [others, held, own]
  have searched : visit (script context) Fault.outOfFuel 1 secretClass listed.trace =
      .ok { visited := others ++ [secretClass]
            log := (outputs (script context secretClass)).map (secretClass, ·) } := by
    rw [visit, runTasks_listed_targets _ secretClass targetsListed clean]
    rfl
  rw [searched] at simulated
  cases result : constructSpecialization context 1 (some secretClass) listed with
  | error fault =>
    rw [result] at simulated
    exact simulated.elim
  | ok alone =>
    rw [result] at simulated
    refine ⟨alone, result, ?_⟩
    have logged : alone.insertions =
        (outputs (script context secretClass)).map (secretClass, ·) :=
      (congrArg Trace.log simulated.1).symm
    simp [TyperState.edits, logged]

section Completed

variable {context} {depth : Nat} {varDecls : List (VarDecl Cls)} {state : TyperState Cls}
  (completed : start context depth varDecls = .ok state)

include completed

/-- Every insertion of a completed run is one of its class's own. -/
theorem mem_outputs_of_completed {secretClass : Cls} {output : Output Cls}
    (member : (secretClass, output) ∈ state.insertions) :
    output ∈ outputs (script context secretClass) := by
  -- What a class has written is its script or nothing.
  obtain ⟨fresh, _, wrote, _⟩ := start_ok context completed
  have found := mem_written.mpr member
  rw [wrote] at found
  split at found
  · exact found
  · simp at found

/-- What a completed run inserts before a location is always the same keyword. -/
theorem keyword_of_before {insertion : Insertion} (member : insertion ∈ state.edits)
    (before : insertion.side = .before) : insertion.text = "virtual ".toList := by
  -- The insertion is one of its class, either a keyword or a part of the block.
  obtain ⟨⟨secretClass, output⟩, found, same⟩ := List.mem_map.mp member
  have own := mem_outputs_of_completed completed found
  rw [outputs_script, List.mem_append] at own
  rcases own with keyword | block
  · obtain ⟨method, _, written⟩ := List.mem_map.mp keyword
    rw [← same, ← written]
    rfl
  · -- A block is inserted after its location.
    have after := (insertion_of_mem_blockOutputs block).1
    have clash : Side.after = Side.before := by rw [← after, ← before, ← same]
    cases clash

/-- What a completed run inserts after a location belongs to a class with that insertion point. -/
theorem location_of_after {entry : Cls × Output Cls} (member : entry ∈ state.insertions)
    (after : entry.2.insertion.side = .after) :
    entry.2.insertion.location = (context.decl entry.1).semiLoc := by
  -- The insertion is one of its class, either a keyword or a part of the block.
  have own := mem_outputs_of_completed completed member
  rw [outputs_script, List.mem_append] at own
  rcases own with keyword | block
  · -- A keyword is inserted before its location.
    obtain ⟨method, _, written⟩ := List.mem_map.mp keyword
    rw [← written] at after
    cases after
  · exact (insertion_of_mem_blockOutputs block).2

/-- A class that a completed run has inserted something for is one that its variables lead to. -/
theorem generates_of_mem {secretClass : Cls} {output : Output Cls}
    (member : (secretClass, output) ∈ state.insertions) :
    Generates context varDecls secretClass := by
  -- A class that the search has not entered has written nothing.
  obtain ⟨fresh, explored, wrote, _⟩ := start_ok context completed
  have found := mem_written.mpr member
  rw [wrote] at found
  split at found
  · next entered =>
    obtain ⟨root, given, reached⟩ := (explored.mem_iff secretClass).mp entered
    exact ⟨root, given, (reaches_iff_fieldReaches context root secretClass).mp reached⟩
  · simp at found

/-- Where the insertion points of the generated classes are apart, the text after one of them is its
block and nothing else. -/
theorem insertedTexts_after (apart : ∀ one another : Cls, Generates context varDecls one →
      Generates context varDecls another →
        (context.decl one).semiLoc = (context.decl another).semiLoc → one = another)
    {secretClass : Cls} (generates : Generates context varDecls secretClass) :
    insertedTexts state.edits .after (context.decl secretClass).semiLoc =
      (generatedBlock state secretClass).map fun output => output.insertion.text := by
  -- An insertion stands at the point of a class exactly when that class has made it.
  have kept : (state.insertions.filter ((fun insertion : Insertion =>
        decide (insertion.side = .after ∧
          insertion.location = (context.decl secretClass).semiLoc)) ∘
        fun entry => entry.2.insertion)) =
      state.insertions.filter fun entry =>
        decide (entry.2.insertion.side = .after) && decide (entry.1 = secretClass) := by
    refine List.filter_congr fun entry member => ?_
    by_cases after : entry.2.insertion.side = .after
    · have placed := location_of_after completed member after
      have owned : entry.2.insertion.location = (context.decl secretClass).semiLoc ↔
          entry.1 = secretClass := by
        rw [placed]
        exact ⟨apart _ _ (generates_of_mem completed member) generates,
          fun same => by rw [same]⟩
      simp [after, owned]
    · simp [after]
  unfold insertedTexts generatedBlock TyperState.edits
  rw [written_eq, List.filter_map, List.filter_map, List.filter_filter, List.map_map, List.map_map,
    kept]
  rfl

/-- Nothing is inserted after a location that is the insertion point of no generated class. -/
theorem insertedTexts_after_nothing {location : SourceLocation}
    (noPoint : ∀ secretClass, Generates context varDecls secretClass →
      (context.decl secretClass).semiLoc ≠ location) :
    insertedTexts state.edits .after location = [] := by
  -- Any insertion after the location would be the point of its class.
  simp only [insertedTexts, List.map_eq_nil_iff, List.filter_eq_nil_iff, decide_eq_true_eq]
  intro insertion member given
  obtain ⟨after, placed⟩ := given
  obtain ⟨entry, found, same⟩ := List.mem_map.mp member
  rw [← same] at after placed
  exact noPoint entry.1 (generates_of_mem completed found)
    ((location_of_after completed found after).symm.trans placed)

end Completed

section Reordered

variable {depth : Nat} {first second : List (VarDecl Cls)} (reordered : first.Perm second)

include reordered

omit [DecidableEq Cls] in
/-- The roots of the search do not depend on the order of the variables. -/
theorem mem_secretRoots_of_perm (root : Cls) :
    root ∈ secretRoots context first ↔ root ∈ secretRoots context second :=
  ((reordered.flatMap_right _).filterMap _).mem_iff

/-- A run that completes in one order completes in any other. -/
theorem completes_of_perm [Fintype Cls] (enough : Fintype.card Cls ≤ depth)
    {one : TyperState Cls} (completed : start context depth first = .ok one) :
    ∃ other, start context depth second = .ok other := by
  obtain ⟨fresh, explored, _, clean⟩ := start_ok context completed
  cases result : start context depth second with
  | ok other => exact ⟨other, rfl⟩
  | error fault =>
    -- Whatever stops the second run has been met by the first and was no fault there.
    rcases start_error context result with own | lack | ⟨root, member, node, reached, fails⟩
    · exact absurd ((reordered.flatMap_right _).mem_iff.mpr own) (clean fault)
    · exact absurd (lack ▸ result) (start_not_exhausted context enough second)
    · have rootMember := (mem_secretRoots_of_perm context reordered root).mpr member
      have found := (explored.mem_iff node).mpr ⟨root, rootMember, reached⟩
      exact absurd fails (explored.clean node found fault)

/-- Two completed runs over the same variables write the same for every class. -/
theorem written_eq_of_perm {one other : TyperState Cls}
    (completed : start context depth first = .ok one)
    (again : start context depth second = .ok other) (secretClass : Cls) :
    written one.insertions secretClass = written other.insertions secretClass := by
  -- Both runs have explored the same classes, for both started from the same roots.
  obtain ⟨fresh, explored, wrote, _⟩ := start_ok context completed
  obtain ⟨later, exploredAgain, wroteAgain, _⟩ := start_ok context again
  have same : secretClass ∈ fresh ↔ secretClass ∈ later := by
    rw [explored.mem_iff, exploredAgain.mem_iff]
    simp only [mem_secretRoots_of_perm context reordered]
  rw [wrote, wroteAgain]
  simp only [same]

omit [DecidableEq Cls] in
/-- The generated classes do not depend on the order of the variables. -/
theorem generates_of_perm (secretClass : Cls) :
    Generates context first secretClass ↔ Generates context second secretClass :=
  exists_congr fun root => and_congr_left fun _ => mem_secretRoots_of_perm context reordered root

/-- Two completed runs over the same variables leave the same buffers. -/
theorem sameBuffers_of_perm_varDecls (apart : ∀ one another : Cls, Generates context first one →
      Generates context first another →
        (context.decl one).semiLoc = (context.decl another).semiLoc → one = another)
    {one other : TyperState Cls} (completed : start context depth first = .ok one)
    (again : start context depth second = .ok other) : SameBuffers one.edits other.edits := by
  have same := written_eq_of_perm context reordered completed again
  have alike := generates_of_perm context reordered
  refine sameBuffers_of_perm ((perm_of_written same).map _)
    (fun insertion member before => keyword_of_before completed member before) fun location => ?_
  -- Each location is the insertion point of one generated class or of none.
  by_cases point : ∃ secretClass, Generates context first secretClass ∧
      (context.decl secretClass).semiLoc = location
  · obtain ⟨secretClass, generates, placed⟩ := point
    have apartAgain : ∀ one another : Cls, Generates context second one →
        Generates context second another →
          (context.decl one).semiLoc = (context.decl another).semiLoc → one = another :=
      fun one another left right => apart one another ((alike one).mpr left)
        ((alike another).mpr right)
    rw [← placed, insertedTexts_after completed apart generates,
      insertedTexts_after again apartAgain ((alike secretClass).mp generates),
      generatedBlock, generatedBlock, same]
  · have noPoint : ∀ secretClass, Generates context first secretClass →
        (context.decl secretClass).semiLoc ≠ location :=
      fun secretClass generates placed => point ⟨secretClass, generates, placed⟩
    rw [insertedTexts_after_nothing completed noPoint, insertedTexts_after_nothing again
      fun secretClass generates => noPoint secretClass ((alike secretClass).mpr generates)]

end Reordered

omit [DecidableEq Cls] in
/-- The text generated alone for a class is its block. -/
theorem textAfter_alone {secretClass : Cls} {alone : TyperState Cls}
    (wrote : alone.edits = (outputs (script context secretClass)).map Output.insertion) :
    textAfter alone.edits (context.decl secretClass).semiLoc =
      blockText (blockOutputs (context.decl secretClass)) := by
  unfold textAfter insertedTexts blockText
  rw [wrote, List.filter_map, List.map_map]
  -- What is inserted after the class is all of its block and no keyword.
  have kept : ((outputs (script context secretClass)).filter ((fun insertion : Insertion =>
        decide (insertion.side = .after ∧
          insertion.location = (context.decl secretClass).semiLoc)) ∘ Output.insertion)) =
      (outputs (script context secretClass)).filter fun output =>
        output.insertion.side = .after := by
    refine List.filter_congr fun output member => ?_
    rw [outputs_script, List.mem_append] at member
    rcases member with keyword | block
    · obtain ⟨method, _, written⟩ := List.mem_map.mp keyword
      simp [← written, virtualOutput]
    · simp [insertion_of_mem_blockOutputs block]
  rw [kept, block_of_outputs_script]
  rfl

/-- Matching the same variables in another order leaves the same buffers, and every block stands
in them in one piece, as it would be generated alone. -/
theorem start_order_independent [Fintype Cls]
    (plain : ∀ secretClass, ∀ field ∈ (context.decl secretClass).fields,
      field.type.isPlainKind = true)
    (first second : List (VarDecl Cls)) (reordered : first.Perm second)
    (apart : ∀ one another : Cls, Generates context first one → Generates context first another →
      (context.decl one).semiLoc = (context.decl another).semiLoc → one = another)
    (secret : WrapsClasses context first)
    (depth : Nat) (enough : Fintype.card Cls ≤ depth) :
    match start context depth first, start context depth second with
    | .ok one, .ok other =>
      SameBuffers one.edits other.edits ∧
        ∀ secretClass ∈ generatedClasses one, ∃ alone,
          generateAlone context secretClass = .ok alone ∧
          let point := (context.decl secretClass).semiLoc
          textAfter one.edits point = textAfter alone.edits point ∧
          ∀ original : Text, point.offset ≤ original.length →
            textAfter alone.edits point <:+: render one.edits point.file original
    | .error fault, .error again => fault = .missingDefinition ∧ again = .missingDefinition
    | _, _ => False := by
  have secretAgain : WrapsClasses context second :=
    fun varDecl member => secret varDecl (reordered.mem_iff.mpr member)
  cases result : start context depth first with
  | error fault =>
    cases again : start context depth second with
    | error raised =>
      exact ⟨(start_error_plain context plain secret enough result).1,
        (start_error_plain context plain secretAgain enough again).1⟩
    | ok other =>
      obtain ⟨one, completed⟩ := completes_of_perm context reordered.symm enough again
      simp [completed] at result
  | ok one =>
    obtain ⟨other, again⟩ := completes_of_perm context reordered enough result
    rw [again]
    refine ⟨sameBuffers_of_perm_varDecls context reordered apart result again, ?_⟩
    intro secretClass generated
    -- Neither run met a fault in the class, so nothing stops it alone.
    obtain ⟨fresh, explored, wrote, _⟩ := start_ok context result
    have member := ((generatedClasses_of_written context wrote).2 secretClass).mp generated
    obtain ⟨alone, completed, edits⟩ :=
      generateAlone_ok context (explored.clean secretClass member)
    have same : textAfter one.edits (context.decl secretClass).semiLoc =
        textAfter alone.edits (context.decl secretClass).semiLoc := by
      have generates := (mem_generatedClasses_iff context result secretClass).mp generated
      rw [textAfter_alone context edits, textAfter, insertedTexts_after result apart generates,
        generatedBlock_eq context result generated]
      rfl
    refine ⟨alone, completed, same, fun original within => ?_⟩
    rw [← same]
    exact textAfter_infix_render one.edits _ original _ within

/-- The sample as a compiler has it: all specializations of the wrapper stand where their template
does. -/
def templateContext : ASTContext (Fin 7) where
  decl secretClass :=
    if 4 ≤ secretClass.val then
      { cyclicContext.decl secretClass with
        semiLoc := ⟨"secretLib/secrettype.hpp".toList, 99⟩ }
    else cyclicContext.decl secretClass
  translationUnitDecls := cyclicContext.translationUnitDecls

/-- Both variables wrap a class. -/
theorem template_wrapsClasses : WrapsClasses templateContext [nodeVariable, innerVariable] := by
  intro varDecl member _
  simp only [List.mem_cons, List.not_mem_nil, or_false] at member
  rcases member with rfl | rfl
  · exact ⟨0, by decide, by decide, _, _, _, _, rfl, rfl, rfl⟩
  · exact ⟨3, by decide, by decide, _, _, _, _, rfl, rfl, rfl⟩

/-- The two variables of the sample leave the same buffers in either order, although the wrappers of
both share one location. -/
theorem start_order_independent_cycle :
    (templateContext.decl 4).semiLoc = (templateContext.decl 6).semiLoc ∧
      ∃ one other, start templateContext 7 [nodeVariable, innerVariable] = .ok one ∧
        start templateContext 7 [innerVariable, nodeVariable] = .ok other ∧
        SameBuffers one.edits other.edits := by
  -- Both runs complete, which leaves the first case of the theorem.
  obtain ⟨one, completed, classes⟩ : ∃ one, start templateContext 7
      [nodeVariable, innerVariable] = .ok one ∧ generatedClasses one = [0, 1, 3] :=
    completes_of_generates (by decide)
  obtain ⟨other, again, _⟩ : ∃ other, start templateContext 7 [innerVariable, nodeVariable] =
      .ok other ∧ generatedClasses other = [3, 0, 1] := completes_of_generates (by decide)
  have listed : ∀ secretClass, Generates templateContext [nodeVariable, innerVariable]
      secretClass → secretClass ∈ [0, 1, 3] := fun secretClass generates => by
    rw [← classes]
    exact (mem_generatedClasses_iff templateContext completed secretClass).mpr generates
  have points : ∀ one ∈ [0, 1, 3], ∀ another ∈ [0, 1, 3],
      (templateContext.decl one).semiLoc = (templateContext.decl another).semiLoc →
        one = another := by decide
  have independent := start_order_independent templateContext (by decide)
    [nodeVariable, innerVariable] [innerVariable, nodeVariable] (List.Perm.swap _ _ _)
    (fun one another left right => points one (listed one left) another (listed another right))
    template_wrapsClasses 7 (by decide)
  rw [completed, again] at independent
  exact ⟨rfl, one, other, completed, again, independent.1⟩

end SecretTyping
