import Mathlib.Data.List.Pairwise
import SecretTyping.Typer.Signatures

/-! Which declarations of the original classes get the keyword that makes them virtual. -/

namespace SecretTyping

open Declarators Lexical Rewriter Search

variable {Cls : Type}

/-- The keyword that makes a member function virtual. -/
def virtualKeyword : Text := "virtual ".toList

/-- A member function that is to be made virtual. -/
def CXXMethodDecl.needsVirtual (method : CXXMethodDecl) : Bool :=
  method.isUserProvided && !method.isStatic && (method.kind ≠ .constructor) && !method.isVirtual

/-- What the language asks of the member functions of a class: the constructors are those that are
named like it, and what is static is neither a constructor nor virtual. -/
structure ProperMethods (decl : CXXRecordDecl Cls) : Prop where
  named : ∀ method ∈ decl.methods, method.kind = .constructor ↔ method.name.text = decl.name.text
  static : ∀ method ∈ decl.methods, method.isStatic = true →
    method.kind ≠ .constructor ∧ method.isVirtual = false

/-- The keyword is inserted once before each member function of a generated class that is to be made
virtual, and nowhere else. -/
structure MarksMethods [DecidableEq Cls] (context : ASTContext Cls) (state : TyperState Cls) :
    Prop where
  once : ∀ secretClass ∈ generatedClasses state, ∀ method ∈ (context.decl secretClass).methods,
    method.needsVirtual = true →
      (insertedTexts state.edits .before method.beginLoc).count virtualKeyword = 1
  elsewhere : ∀ insertion ∈ state.edits, insertion.text = virtualKeyword →
    ∃ secretClass ∈ generatedClasses state, ∃ method ∈ (context.decl secretClass).methods,
      method.needsVirtual = true ∧ insertion.side = .before ∧
        insertion.location = method.beginLoc

/-- The classes have no static member functions of the user's own, and the declarations of all that
are to be made virtual begin at places of their own. -/
structure DeclaredApart (context : ASTContext Cls) (classes : Cls → Prop) : Prop where
  nonStatic : ∀ secretClass, classes secretClass → ∀ method ∈ (context.decl secretClass).methods,
    method.isUserProvided = true → method.isStatic = false
  within : ∀ secretClass, classes secretClass →
    (((context.decl secretClass).methods.filter CXXMethodDecl.needsVirtual).map
      CXXMethodDecl.beginLoc).Nodup
  between : ∀ first second, classes first → classes second → first ≠ second →
    ∀ method ∈ (context.decl first).methods, ∀ other ∈ (context.decl second).methods,
      method.needsVirtual = true → other.needsVirtual = true → method.beginLoc ≠ other.beginLoc

/-- Beside what is to be made virtual, only static member functions get the keyword. -/
theorem becomesVirtual_iff {decl : CXXRecordDecl Cls} (proper : ProperMethods decl)
    {method : CXXMethodDecl} (member : method ∈ decl.methods) :
    becomesVirtual decl.name.text method = true ↔
      method.needsVirtual = true ∨ method.isUserProvided = true ∧ method.isStatic = true := by
  -- The guard tests the name and not whether the function is static.
  have named := proper.named method member
  have static := proper.static method member
  unfold becomesVirtual CXXMethodDecl.needsVirtual
  simp only [Bool.and_eq_true, Bool.not_eq_true', decide_eq_true_eq, ne_eq, ← named]
  cases isStatic : method.isStatic with
  -- A static function is plain, so that the guard lets it through.
  | true =>
    have plain := static isStatic
    simp [plain]
  | false =>
    simp only [Bool.false_eq_true, and_false, or_false, and_true]
    exact ⟨fun given => ⟨⟨given.1.1, given.2⟩, given.1.2⟩,
      fun given => ⟨⟨given.1.1, given.2⟩, given.1.2⟩⟩

section Texts

/-- A text with a character that the keyword does not have is not the keyword. -/
theorem ne_virtualKeyword {text : Text} {c : Char} (member : c ∈ text)
    (absent : c ∉ virtualKeyword) : text ≠ virtualKeyword :=
  fun same => absurd (same ▸ member) absent

/-- The body of a copied member function has a brace. -/
theorem brace_mem_bodyText (method : CXXMethodDecl) : '\x7b' ∈ bodyText method := by
  unfold bodyText
  cases method.getBody with
  | none => decide
  | some body => exact body.braced

/-- No text of a copied member function is the keyword alone. -/
theorem methodTexts_ne_virtualKeyword {method : CXXMethodDecl} {texts : List Text}
    (printed : methodTexts method = .ok texts) : ∀ text ∈ texts, text ≠ virtualKeyword := by
  intro text member
  -- A signature has a parenthesis and a body has a brace; the keyword has neither.
  have body : bodyText method ≠ virtualKeyword :=
    ne_virtualKeyword (brace_mem_bodyText method) (by decide)
  have parenthesis : '(' ∉ virtualKeyword := by decide
  cases kind : method.kind with
  | constructor =>
    obtain ⟨head, signature, rfl⟩ := texts_of_constructor kind printed
    rcases List.mem_cons.mp member with rfl | member
    · -- The head of a constructor has its parentheses.
      unfold getSecretConstructorSignature at signature
      cases defined : method.definition with
      | none => simp [defined] at signature
      | some definition =>
        rw [defined] at signature
        have same := Except.ok.inj signature
        apply ne_virtualKeyword _ parenthesis
        rw [← same]
        exact List.mem_append_left _ (List.mem_append_left _ (List.mem_append_left _ (by decide)))
    · rw [List.mem_singleton.mp member]
      exact body
  | destructor =>
    rw [texts_of_destructor kind printed] at member
    rcases List.mem_append.mp member with member | member
    · -- The head of the destructor is two fixed texts, neither of which is the keyword.
      rcases List.mem_cons.mp member with rfl | member
      · decide
      · rw [List.mem_singleton.mp member]
        decide
    · -- Its body is printed only if there is one.
      cases found : method.getBody with
      | none => simp [found] at member
      | some body =>
        rw [found] at member
        rcases List.mem_cons.mp member with rfl | member
        · exact ne_virtualKeyword body.braced (by decide)
        · rw [List.mem_singleton.mp member]
          decide
  | method =>
    obtain ⟨head, signature, rfl⟩ := texts_of_method kind printed
    rcases List.mem_cons.mp member with rfl | member
    · -- The head of a method has its parentheses as well.
      unfold getSecretMethodSignature at signature
      cases defined : method.definition with
      | none => simp [defined] at signature
      | some definition =>
        rw [defined] at signature
        have same := Except.ok.inj signature
        apply ne_virtualKeyword _ parenthesis
        rw [← same]
        apply List.mem_append_left
        apply List.mem_append_left
        exact List.mem_append_right _ (by decide)
    · rw [List.mem_singleton.mp member]
      exact body

/-- No text of the section of one access is the keyword alone. -/
theorem copyOutputs_ne_virtualKeyword {wrapBuiltin wrapPointer : Text → Text}
    {access : AccessSpecifier} {decl : CXXRecordDecl Cls} {output : Output Cls}
    (member : output ∈ copyOutputs wrapBuiltin wrapPointer access decl) :
    output.insertion.text ≠ virtualKeyword := by
  rcases List.mem_append.mp member with found | found
  · -- The declaration of a field ends in a semicolon.
    obtain ⟨field, -, rfl⟩ := List.mem_map.mp found
    have semicolon : ';' ∈ fieldText wrapBuiltin wrapPointer field :=
      List.mem_append_right _ (by decide)
    exact ne_virtualKeyword semicolon (by decide)
  · -- The texts of a member function are written one after another, the first one apart.
    obtain ⟨method, -, found⟩ := List.mem_flatMap.mp found
    unfold memberOutputs at found
    split at found
    · cases printed : methodTexts method with
      | error fault => simp [printed] at found
      | ok texts =>
        rw [printed] at found
        have apart := methodTexts_ne_virtualKeyword printed
        cases texts with
        | nil => simp [methodOutputs] at found
        | cons first rest =>
          rcases List.mem_cons.mp found with rfl | found
          · exact apart first List.mem_cons_self
          · obtain ⟨text, later, rfl⟩ := List.mem_map.mp found
            exact apart text (List.mem_cons_of_mem _ later)
    · simp at found

/-- No text of a generated class is the keyword alone. -/
theorem blockOutputs_ne_virtualKeyword {decl : CXXRecordDecl Cls} {output : Output Cls}
    (member : output ∈ blockOutputs decl) : output.insertion.text ≠ virtualKeyword := by
  have opening : '\n' ∈ headText decl.name.text :=
    List.mem_append_left _ (List.mem_append_left _ (by decide))
  -- Each fixed text has a character of its own, and the rest is one of the two sections.
  simp only [blockOutputs_eq, openingOutputs, List.mem_append, List.mem_cons, List.not_mem_nil,
    or_false] at member
  rcases member with (rfl | rfl | rfl) | found | rfl | found | rfl
  · exact ne_virtualKeyword opening (by decide)
  · exact ne_virtualKeyword (show '/' ∈ getSecretAllocatorCode by decide) (by decide)
  · exact ne_virtualKeyword (show ':' ∈ "public:\n".toList by decide) (by decide)
  · exact copyOutputs_ne_virtualKeyword found
  · exact ne_virtualKeyword (show ':' ∈ "private:\n".toList by decide) (by decide)
  · exact copyOutputs_ne_virtualKeyword found
  · exact ne_virtualKeyword (show ';' ∈ "\x7d;\n".toList by decide) (by decide)

end Texts

section Places

variable (context : ASTContext Cls)

/-- The member functions of a class that get the keyword. -/
def markedMethods (secretClass : Cls) : List CXXMethodDecl :=
  (context.decl secretClass).methods.filter
    (becomesVirtual (context.decl secretClass).name.text)

/-- Where the keyword is inserted for the given classes. -/
def keywordPlaces (classes : List Cls) : List SourceLocation :=
  (classes.flatMap (markedMethods context)).map CXXMethodDecl.beginLoc

/-- Before the places of marked member functions stands the keyword, once for each of them. -/
theorem insertedTexts_keywords (methods : List CXXMethodDecl) (location : SourceLocation) :
    insertedTexts (methods.map fun method => ⟨.before, method.beginLoc, virtualKeyword⟩) .before
        location =
      List.replicate ((methods.map CXXMethodDecl.beginLoc).count location) virtualKeyword := by
  -- By induction on the member functions.
  induction methods with
  | nil => rfl
  | cons method rest ih =>
    unfold insertedTexts at ih ⊢
    rw [List.map_cons, List.map_cons, List.filter_cons]
    -- A function at the location adds one keyword, and any other none.
    by_cases here : method.beginLoc = location
    · rw [if_pos (decide_eq_true (And.intro rfl here)), List.map_cons, ih, here,
        List.count_cons_self, List.replicate_succ]
    · rw [if_neg, ih, List.count_cons_of_ne here]
      rw [decide_eq_true_eq]
      exact fun given => here given.2

/-- A class inserts the keyword before its marked member functions. -/
theorem count_keyword_outputs (secretClass : Cls) (location : SourceLocation) :
    (insertedTexts ((outputs (script context secretClass)).map Output.insertion) .before
        location).count virtualKeyword =
      ((markedMethods context secretClass).map CXXMethodDecl.beginLoc).count location := by
  -- The block of the class is inserted after its location.
  have block : insertedTexts ((blockOutputs (context.decl secretClass)).map Output.insertion)
      .before location = [] := by
    simp only [insertedTexts, List.map_eq_nil_iff, List.filter_eq_nil_iff, decide_eq_true_eq]
    intro insertion member given
    obtain ⟨output, found, rfl⟩ := List.mem_map.mp member
    have after := (insertion_of_mem_blockOutputs found).1
    rw [given.1] at after
    cases after
  rw [outputs_script, List.map_append, insertedTexts_append, block, List.append_nil]
  have keywords : (virtualOutputs (context.decl secretClass)).map Output.insertion =
      (markedMethods context secretClass).map fun method =>
        ⟨.before, method.beginLoc, virtualKeyword⟩ := by
    unfold virtualOutputs
    rw [List.map_map]
    rfl
  rw [keywords, insertedTexts_keywords, List.count_replicate_self]

/-- The keyword before a marked member function is among the insertions of its class. -/
theorem keyword_mem_outputs {classes : List Cls} {secretClass : Cls}
    (member : secretClass ∈ classes) {method : CXXMethodDecl}
    (marked : method ∈ markedMethods context secretClass) :
    (⟨.before, method.beginLoc, virtualKeyword⟩ : Insertion) ∈ classes.flatMap fun secretClass =>
      (outputs (script context secretClass)).map Output.insertion := by
  -- A class inserts the keywords before its block.
  apply List.mem_flatMap.mpr
  refine ⟨secretClass, member, List.mem_map.mpr ⟨virtualOutput method, ?_, rfl⟩⟩
  rw [outputs_script]
  exact List.mem_append_left _ (List.mem_map_of_mem marked)

/-- Without static member functions of the user's own, the marked ones are those that are to be made
virtual. -/
theorem markedMethods_eq {context : ASTContext Cls} {secretClass : Cls}
    (proper : ProperMethods (context.decl secretClass))
    (nonStatic : ∀ method ∈ (context.decl secretClass).methods,
      method.isUserProvided = true → method.isStatic = false) :
    markedMethods context secretClass =
      (context.decl secretClass).methods.filter CXXMethodDecl.needsVirtual := by
  -- What is marked besides would be static.
  apply List.filter_congr
  intro method member
  rw [Bool.eq_iff_iff, becomesVirtual_iff proper member]
  constructor
  · rintro (needs | ⟨provided, static⟩)
    · exact needs
    · rw [nonStatic method member provided] at static
      cases static
  · exact .inl

/-- Two members with an image that occurs once are the same. -/
theorem eq_of_count_map {Item Image : Type} [DecidableEq Image] {items : List Item}
    {image : Item → Image} {value : Image} (once : (items.map image).count value = 1)
    {first second : Item} (member : first ∈ items) (member' : second ∈ items)
    (same : image first = value) (same' : image second = value) : first = second := by
  -- The items with the image are a list with one entry.
  have single : (items.filter fun item => image item == value).length = 1 := by
    rw [← List.countP_eq_length_filter, ← once, List.count, List.countP_map]
    rfl
  obtain ⟨only, alone⟩ := List.length_eq_one_iff.mp single
  have found : ∀ {item : Item}, item ∈ items → image item = value → item = only := by
    intro item listed maps
    have kept : item ∈ items.filter fun item => image item == value :=
      List.mem_filter.mpr ⟨listed, beq_iff_eq.mpr maps⟩
    rw [alone] at kept
    exact List.mem_singleton.mp kept
  rw [found member same, found member' same']

/-- Several classes insert the keyword as often as there are marked member functions in them. -/
theorem count_keyword_flatMap (classes : List Cls) (location : SourceLocation) :
    (insertedTexts (classes.flatMap fun secretClass =>
        (outputs (script context secretClass)).map Output.insertion) .before location).count
        virtualKeyword =
      (keywordPlaces context classes).count location := by
  -- By induction on the classes, whose insertions follow one another.
  induction classes with
  | nil => rfl
  | cons first rest ih =>
    rw [List.flatMap_cons, insertedTexts_append, List.count_append, count_keyword_outputs, ih]
    unfold keywordPlaces
    rw [List.flatMap_cons, List.map_append, List.count_append]

/-- The places of the keyword are all different when those of each class are and no two classes
share one. -/
theorem keywordPlaces_nodup_iff {classes : List Cls} (nodup : classes.Nodup) :
    (keywordPlaces context classes).Nodup ↔
      (∀ secretClass ∈ classes,
        ((markedMethods context secretClass).map CXXMethodDecl.beginLoc).Nodup) ∧
      ∀ first ∈ classes, ∀ second ∈ classes, first ≠ second →
        ∀ method ∈ markedMethods context first, ∀ other ∈ markedMethods context second,
          method.beginLoc ≠ other.beginLoc := by
  unfold keywordPlaces
  rw [List.map_flatMap, List.nodup_flatMap]
  apply and_congr_right
  intro _
  -- That two classes have no place in common is a matter of their member functions.
  have disjoint : ∀ first second : Cls,
      List.Disjoint ((markedMethods context first).map CXXMethodDecl.beginLoc)
        ((markedMethods context second).map CXXMethodDecl.beginLoc) ↔
      ∀ method ∈ markedMethods context first, ∀ other ∈ markedMethods context second,
        method.beginLoc ≠ other.beginLoc := by
    intro first second
    constructor
    · intro apart method member other member' same
      exact apart (List.mem_map_of_mem member) (same ▸ List.mem_map_of_mem member')
    · intro apart location member member'
      obtain ⟨method, marked, rfl⟩ := List.mem_map.mp member
      obtain ⟨other, marked', same⟩ := List.mem_map.mp member'
      exact apart method marked other marked' same.symm
  constructor
  · intro pairwise first member second member' differ
    have symmetric : Std.Symm (Function.onFun List.Disjoint fun secretClass =>
        (markedMethods context secretClass).map CXXMethodDecl.beginLoc) :=
      ⟨fun _ _ apart => apart.symm⟩
    exact (disjoint first second).mp (pairwise.forall member member' differ)
  · intro apart
    exact nodup.pairwise_of_forall_ne fun first member second member' differ =>
      (disjoint first second).mpr (apart first member second member' differ)

end Places

section Completed

variable [DecidableEq Cls] {context : ASTContext Cls} {depth : Nat}
  {varDecls : List (VarDecl Cls)} {state : TyperState Cls} {classes : List Cls}

/-- A list of the classes that a run has generated, which are those that the variables lead to, and
whose insertions are all that the run has made. -/
structure ListsClasses (context : ASTContext Cls) (varDecls : List (VarDecl Cls))
    (state : TyperState Cls) (classes : List Cls) : Prop where
  nodup : classes.Nodup
  exact : ∀ secretClass, secretClass ∈ classes ↔ Generates context varDecls secretClass
  generated : ∀ secretClass, secretClass ∈ generatedClasses state ↔ secretClass ∈ classes
  perm : state.edits.Perm (classes.flatMap fun secretClass =>
    (outputs (script context secretClass)).map Output.insertion)

/-- The classes of a completed run can be listed. -/
theorem exists_listsClasses (completed : start context depth varDecls = .ok state) :
    ∃ classes, ListsClasses context varDecls state classes := by
  -- They are the classes that the search has entered.
  obtain ⟨fresh, explored, wrote, -⟩ := start_ok context completed
  refine ⟨fresh, explored.nodup, fun secretClass => ?_,
    (generatedClasses_of_written context wrote).2, ?_⟩
  · rw [explored.mem_iff]
    simp only [Generates, reaches_iff_fieldReaches]
  · have same : ∀ secretClass, written state.insertions secretClass =
        written (fresh.flatMap fun owner =>
          (outputs (script context owner)).map (owner, ·)) secretClass := by
      intro secretClass
      rw [wrote, written_flatMap explored.nodup]
    have perm := (perm_of_written same).map fun entry => entry.2.insertion
    rw [List.map_flatMap] at perm
    refine perm.trans (List.Perm.of_eq ?_)
    -- Forgetting for which class an insertion was made leaves the insertions of the classes.
    congr 1
    funext owner
    rw [List.map_map]
    rfl

variable (listing : ListsClasses context varDecls state classes)
  (proper : ∀ secretClass, Generates context varDecls secretClass →
    ProperMethods (context.decl secretClass))

include listing

omit [DecidableEq Cls] in
/-- The keyword stands at a place as often as there are marked member functions that begin there. -/
theorem ListsClasses.count_keyword (location : SourceLocation) :
    (insertedTexts state.edits .before location).count virtualKeyword =
      (keywordPlaces context classes).count location := by
  rw [← count_keyword_flatMap]
  exact ((listing.perm.filter _).map _).count_eq virtualKeyword

include proper

omit [DecidableEq Cls] in
/-- The marked member functions are those that are to be made virtual, and the static ones. -/
theorem ListsClasses.mem_marked {secretClass : Cls} (member : secretClass ∈ classes)
    (method : CXXMethodDecl) :
    method ∈ markedMethods context secretClass ↔
      method ∈ (context.decl secretClass).methods ∧ (method.needsVirtual = true ∨
        method.isUserProvided = true ∧ method.isStatic = true) := by
  unfold markedMethods
  rw [List.mem_filter]
  exact and_congr_right fun found =>
    becomesVirtual_iff (proper secretClass ((listing.exact secretClass).mp member)) found

/-- Where the keyword is in its places, there are no static member functions of the user's own. -/
theorem ListsClasses.nonStatic (marks : MarksMethods context state) {secretClass : Cls}
    (member : secretClass ∈ classes) {method : CXXMethodDecl}
    (found : method ∈ (context.decl secretClass).methods)
    (provided : method.isUserProvided = true) : method.isStatic = false := by
  by_contra static
  rw [Bool.not_eq_false] at static
  have marked := (listing.mem_marked proper member method).mpr ⟨found, .inr ⟨provided, static⟩⟩
  -- The place of its keyword would be that of another member function.
  obtain ⟨owner, ownerMember, other, otherFound, needs, -, same⟩ :=
    marks.elsewhere ⟨.before, method.beginLoc, virtualKeyword⟩
      (listing.perm.mem_iff.mpr (keyword_mem_outputs context member marked)) rfl
  have ownerListed := (listing.generated owner).mp ownerMember
  have marked' := (listing.mem_marked proper ownerListed other).mpr ⟨otherFound, .inl needs⟩
  have once := marks.once owner ownerMember other otherFound needs
  rw [listing.count_keyword] at once
  have equal := eq_of_count_map once (List.mem_flatMap.mpr ⟨secretClass, member, marked⟩)
    (List.mem_flatMap.mpr ⟨owner, ownerListed, marked'⟩) same rfl
  simp [CXXMethodDecl.needsVirtual, ← equal, static] at needs

/-- Where the keyword is in its places, these are all different. -/
theorem ListsClasses.places_nodup (marks : MarksMethods context state) :
    (keywordPlaces context classes).Nodup := by
  -- At each of them the keyword stands once, as there are no static member functions.
  rw [List.nodup_iff_count_le_one]
  intro location
  by_cases member : location ∈ keywordPlaces context classes
  · obtain ⟨method, found, rfl⟩ := List.mem_map.mp member
    obtain ⟨secretClass, listed, found⟩ := List.mem_flatMap.mp found
    obtain ⟨declared, needs | ⟨provided, static⟩⟩ :=
      (listing.mem_marked proper listed method).mp found
    · rw [← listing.count_keyword]
      have generated := (listing.generated secretClass).mpr listed
      exact (marks.once secretClass generated method declared needs).le
    · rw [listing.nonStatic proper marks listed declared provided] at static
      cases static
  · rw [List.count_eq_zero.mpr member]
    exact Nat.zero_le _

/-- Where the keyword is in its places, the declarations are apart. -/
theorem ListsClasses.declaredApart (marks : MarksMethods context state) :
    DeclaredApart context (Generates context varDecls) := by
  -- The places of the keyword are those of the marked declarations.
  obtain ⟨within, between⟩ := (keywordPlaces_nodup_iff context listing.nodup).mp
    (listing.places_nodup proper marks)
  constructor
  · intro secretClass leads method found provided
    exact listing.nonStatic proper marks ((listing.exact secretClass).mpr leads) found provided
  · intro secretClass leads
    have listed := (listing.exact secretClass).mpr leads
    rw [← markedMethods_eq (proper secretClass leads) fun _ found provided =>
      listing.nonStatic proper marks listed found provided]
    exact within secretClass listed
  · intro first second leads leads' differ method found other found' needs needs'
    have listed := (listing.exact first).mpr leads
    have listed' := (listing.exact second).mpr leads'
    exact between first listed second listed' differ method
      ((listing.mem_marked proper listed method).mpr ⟨found, .inl needs⟩) other
      ((listing.mem_marked proper listed' other).mpr ⟨found', .inl needs'⟩)

/-- Where the declarations are apart, the keyword is in its places. -/
theorem ListsClasses.marksMethods (apart : DeclaredApart context (Generates context varDecls)) :
    MarksMethods context state := by
  -- Nothing is marked that is not to be made virtual, and all the places are different.
  have needed : ∀ secretClass ∈ classes, markedMethods context secretClass =
      (context.decl secretClass).methods.filter CXXMethodDecl.needsVirtual := by
    intro secretClass listed
    have leads := (listing.exact secretClass).mp listed
    exact markedMethods_eq (proper secretClass leads) (apart.nonStatic secretClass leads)
  have places : (keywordPlaces context classes).Nodup := by
    apply (keywordPlaces_nodup_iff context listing.nodup).mpr
    constructor
    · intro secretClass listed
      rw [needed secretClass listed]
      exact apart.within secretClass ((listing.exact secretClass).mp listed)
    · intro first listed second listed' differ method found other found'
      rw [needed first listed, List.mem_filter] at found
      rw [needed second listed', List.mem_filter] at found'
      exact apart.between first second ((listing.exact first).mp listed)
        ((listing.exact second).mp listed') differ method found.1 other found'.1 found.2 found'.2
  constructor
  · intro secretClass member method found needs
    have listed := (listing.generated secretClass).mp member
    have marked := (listing.mem_marked proper listed method).mpr ⟨found, .inl needs⟩
    rw [listing.count_keyword]
    apply List.count_eq_one_of_mem places
    exact List.mem_map_of_mem (List.mem_flatMap.mpr ⟨secretClass, listed, marked⟩)
  · -- What has been inserted with this text is no part of a generated class.
    intro insertion member same
    obtain ⟨secretClass, listed, made⟩ := List.mem_flatMap.mp (listing.perm.mem_iff.mp member)
    obtain ⟨output, found, rfl⟩ := List.mem_map.mp made
    rw [outputs_script, List.mem_append] at found
    rcases found with keyword | block
    · obtain ⟨method, marked, rfl⟩ := List.mem_map.mp keyword
      have found : method ∈ markedMethods context secretClass := marked
      rw [needed secretClass listed, List.mem_filter] at found
      exact ⟨secretClass, (listing.generated secretClass).mpr listed, method, found.1, found.2,
        rfl, rfl⟩
    · exact absurd same (blockOutputs_ne_virtualKeyword block)

omit listing in
/-- The keyword is in its places exactly when the classes have no static member functions of the
user's own, and the declarations of all that are to be made virtual begin at places of their own. -/
theorem marksMethods_iff (completed : start context depth varDecls = .ok state) :
    MarksMethods context state ↔ DeclaredApart context (Generates context varDecls) := by
  obtain ⟨classes, listing⟩ := exists_listsClasses completed
  exact ⟨listing.declaredApart proper, listing.marksMethods proper⟩

end Completed

section Gauge

/-- A public member function of the class that is only declared, of each object or of the class. -/
def gaugeMethod (isStatic : Bool) : CXXMethodDecl where
  kind := .method
  name := phrase "gauge" (by decide)
  proper := fun _ => by decide
  isStatic
  access := .asPublic
  isUserProvided := true
  isVirtual := false
  beginLoc := ⟨"input/Node.hpp".toList, 5⟩
  definedInClass := false
  definition := none

/-- The class is generated with either. -/
theorem gauge_completes (isStatic : Bool) : ∃ state,
    start (holderContext [gaugeMethod isStatic]) 1 [holderVariable] = .ok state ∧
      generatedClasses state = [0] :=
  completes_of_generates (by cases isStatic <;> decide)

/-- The member function is a proper one. -/
theorem gauge_proper (isStatic : Bool) (secretClass : Fin 2) :
    ProperMethods ((holderContext [gaugeMethod isStatic]).decl secretClass) := by
  -- The wrapper has no member functions.
  constructor
  · revert secretClass isStatic
    decide
  · revert secretClass isStatic
    decide

/-- Only one member function is to be made virtual. -/
theorem gauge_apart (classes : Fin 2 → Prop) :
    DeclaredApart (holderContext [gaugeMethod false]) classes := by
  -- The class has one method only, so that all cases can be tried.
  have nonStatic : ∀ secretClass, ∀ method ∈
      ((holderContext [gaugeMethod false]).decl secretClass).methods,
        method.isUserProvided = true → method.isStatic = false := by decide
  have within : ∀ secretClass,
      ((((holderContext [gaugeMethod false]).decl secretClass).methods.filter
        CXXMethodDecl.needsVirtual).map CXXMethodDecl.beginLoc).Nodup := by decide
  have between : ∀ first second, first ≠ second →
      ∀ method ∈ ((holderContext [gaugeMethod false]).decl first).methods,
        ∀ other ∈ ((holderContext [gaugeMethod false]).decl second).methods,
          method.needsVirtual = true → other.needsVirtual = true →
            method.beginLoc ≠ other.beginLoc := by decide
  exact ⟨fun secretClass _ => nonStatic secretClass, fun secretClass _ => within secretClass,
    fun first second _ _ => between first second⟩

/-- A member function of each object gets the keyword, once and alone. -/
theorem marksMethods_gauge : ∃ state,
    start (holderContext [gaugeMethod false]) 1 [holderVariable] = .ok state ∧
      MarksMethods (holderContext [gaugeMethod false]) state := by
  obtain ⟨state, completed, -⟩ := gauge_completes false
  exact ⟨state, completed, (marksMethods_iff (fun secretClass _ => gauge_proper false secretClass)
    completed).mpr (gauge_apart _)⟩

/-- A static member function gets the keyword as well. -/
theorem not_marksMethods_static : ∃ state,
    start (holderContext [gaugeMethod true]) 1 [holderVariable] = .ok state ∧
      (∀ secretClass, ProperMethods ((holderContext [gaugeMethod true]).decl secretClass)) ∧
        ¬ MarksMethods (holderContext [gaugeMethod true]) state := by
  -- The keyword in its places would leave no marked method static.
  obtain ⟨state, completed, classes⟩ := gauge_completes true
  refine ⟨state, completed, gauge_proper true, fun marks => ?_⟩
  obtain ⟨listed, listing⟩ := exists_listsClasses completed
  have member : (0 : Fin 2) ∈ listed :=
    (listing.generated 0).mp (by rw [classes]; exact List.mem_singleton_self 0)
  have found : gaugeMethod true ∈ ((holderContext [gaugeMethod true]).decl 0).methods :=
    List.mem_singleton_self _
  have nonStatic := listing.nonStatic (fun secretClass _ => gauge_proper true secretClass) marks
    member found rfl
  exact Bool.noConfusion nonStatic

end Gauge

end SecretTyping
