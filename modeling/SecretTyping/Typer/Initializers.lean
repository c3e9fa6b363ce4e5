import SecretTyping.Typer.FunctionCopies

/-! The initializers of the constructors that a generated class emits. -/

namespace SecretTyping

open Declarators Lexical Rewriter

/-- Whether a member that the class itself has is initialized. -/
def InitTarget.isMember : InitTarget → Bool
  | .member _ _ => true
  | _ => false

/-- Whether a member of an anonymous union or structure is initialized. -/
def InitTarget.isIndirectMember : InitTarget → Bool
  | .indirectMember _ _ => true
  | _ => false

/-- Whether another constructor is called. -/
def InitTarget.isDelegating : InitTarget → Bool
  | .delegating _ => true
  | _ => false

/-- A member initializer as the text of its member and the text of its expression. -/
def entryText (entry : Identifier × Option Lexeme) : Text × Text :=
  (entry.1.text, (entry.2.map Lexeme.text).getD [])

/-- The member initializer list that follows the head of a constructor. -/
def memInitializers (inits : List (Text × Text)) : Text :=
  if inits.isEmpty then []
  else ": ".toList ++
    commaSeparated (inits.map fun init => init.1 ++ "(".toList ++ init.2 ++ ")".toList)

/-- The arguments with which a constructor delegates, where it does and they are known. -/
def delegatedArguments (inits : List CXXCtorInitializer) : Option (Option (List Lexeme)) :=
  inits.findSome? fun init =>
    match init.target with
    | .delegating arguments => some arguments
    | _ => none

/-- Printed initializers do what the given ones do: they call the constructor of the generated
class with the same arguments, or initialize the same members with the same expressions. -/
def SameInitializers (inits : List CXXCtorInitializer) (printed : List (Text × Text)) : Prop :=
  match delegatedArguments inits with
  | some arguments => ∃ given : List Text,
      (∀ known ∈ arguments, given = known.map Lexeme.text) ∧
        printed = [(SECRET_TYPE, commaSeparated given)]
  | none => printed.Perm ((writtenMembers inits).map entryText)

/-- The first text of a copied constructor is its head and the initializers of its definition. -/
def KeepsInitializers (definition : FunctionDecl) (copy : FunctionCopy) : Prop :=
  ∃ head printed rest, getSecretConstructorSignature copy.method = .ok head ∧
    SameInitializers definition.inits printed ∧
    copy.texts = (head ++ memInitializers printed) :: rest

/-- A value under a new key is added to those that are stored. -/
theorem setMember_perm {key : Text} (value : Text) {initMembers : List (Text × Text)}
    (fresh : key ∉ initMembers.map Prod.fst) :
    (setMember key value initMembers).Perm ((key, value) :: initMembers) := by
  induction initMembers with
  | nil => exact .refl _
  | cons entry rest ih =>
    simp only [List.map_cons, List.mem_cons, not_or] at fresh
    rw [setMember, if_neg fresh.1]
    -- The entry is put here or further down.
    split
    · exact .refl _
    · exact ((ih fresh.2).cons entry).trans (.swap _ entry rest)

/-- The written initializers of members that the class itself has. -/
def ownInits (inits : List CXXCtorInitializer) : List (Identifier × Option Lexeme) :=
  (inits.filter fun init => init.isWritten && init.target.isMember).filterMap fun init =>
    init.target.initialized?

/-- The written initializers of members of anonymous unions and structures. -/
def indirectInits (inits : List CXXCtorInitializer) : List (Identifier × Option Lexeme) :=
  (inits.filter fun init => init.isWritten && init.target.isIndirectMember).filterMap fun init =>
    init.target.initialized?

/-- Members of the class itself are members. -/
theorem ownInits_sublist (inits : List CXXCtorInitializer) :
    (ownInits inits).Sublist (writtenMembers inits) := by
  -- The narrower filter keeps a part of what the wider one keeps.
  refine List.Sublist.filterMap _ (List.monotone_filter_right inits fun init both => ?_)
  exact (Bool.and_eq_true_iff.mp both).1

/-- What the walk over the initializers has collected, for those that it has seen. -/
structure Collected (inits : List CXXCtorInitializer) (collected : CtorInits) : Prop where
  members : collected.initMembers.Perm ((ownInits inits).map entryText)
  isMember : collected.isMemberInit = !(ownInits inits).isEmpty
  string : ownInits inits ≠ [] →
    collected.initMembersString = getMemberInitString collected.initMembers
  isDelegating : collected.isDelegatingInit =
    inits.any fun init => init.isWritten && init.target.isDelegating

/-- A member that no initializer has named yet is not stored. -/
theorem Collected.fresh {inits : List CXXCtorInitializer} {collected : CtorInits}
    (seen : Collected inits collected) {field : Identifier} {init : Option Lexeme}
    (once : ((writtenMembers inits ++ [(field, init)]).map Prod.fst).Nodup) :
    field.text ∉ collected.initMembers.map Prod.fst := by
  -- An entry of the same name would be that of an earlier member.
  intro stored
  have named := (seen.members.map Prod.fst).mem_iff.mp stored
  simp only [List.map_map, List.mem_map, Function.comp] at named
  obtain ⟨entry, member, same⟩ := named
  -- Identifiers with the same text are the same.
  have equal : entry.1 = field := Identifier.ext same
  have before : field ∈ (writtenMembers inits).map Prod.fst :=
    List.mem_map.mpr ⟨entry, (ownInits_sublist inits).subset member, equal⟩
  rw [List.map_append, List.nodup_append] at once
  exact once.2.2 field before field (by simp) rfl

/-- An initializer of anything but a written member of the class changes no more than the mark. -/
theorem add_other {init : CXXCtorInitializer}
    (other : (init.isWritten && init.target.isMember) = false) (collected : CtorInits) :
    collected.add init = { collected with
      isDelegatingInit :=
        collected.isDelegatingInit || (init.isWritten && init.target.isDelegating) } := by
  -- The initializer is not written, or its target is no member.
  obtain ⟨isWritten, target⟩ := init
  cases isWritten with
  | false => simp [CtorInits.add]
  | true =>
    cases target with
    | member field init => simp [InitTarget.isMember] at other
    | indirectMember field init => simp [CtorInits.add, InitTarget.isDelegating]
    | delegating arguments => simp [CtorInits.add, InitTarget.isDelegating]
    | base => simp [CtorInits.add, InitTarget.isDelegating]

/-- The members that two lists of initializers name follow each other. -/
theorem writtenMembers_append (first second : List CXXCtorInitializer) :
    writtenMembers (first ++ second) = writtenMembers first ++ writtenMembers second := by
  simp [writtenMembers]

/-- The walk takes the next initializer into account. -/
theorem Collected.add {inits : List CXXCtorInitializer} {collected : CtorInits}
    (seen : Collected inits collected) {init : CXXCtorInitializer}
    (once : ((writtenMembers (inits ++ [init])).map Prod.fst).Nodup)
    (filled : ∀ entry ∈ writtenMembers (inits ++ [init]), entry.2.isSome) :
    Collected (inits ++ [init]) (collected.add init) := by
  have own : ownInits (inits ++ [init]) = ownInits inits ++ ownInits [init] := by
    simp [ownInits]
  rw [writtenMembers_append] at once filled
  cases case : init.isWritten && init.target.isMember with
  | false =>
    -- The members stay as they are.
    have none : ownInits [init] = [] := by simp [ownInits, case]
    rw [none, List.append_nil] at own
    obtain ⟨members, isMember, string, isDelegating⟩ := seen
    rw [add_other case]
    exact ⟨own ▸ members, own ▸ isMember, own ▸ string, by simp [isDelegating]⟩
  | true =>
    obtain ⟨isWritten, target⟩ := init
    obtain ⟨rfl, member⟩ := Bool.and_eq_true_iff.mp case
    cases target with
    | member field init =>
      -- Every member that is written has a value.
      cases init with
      | none =>
        have named : (field, none) ∈ writtenMembers inits ++ [(field, none)] := by simp
        exact absurd (filled (field, none) named) (by simp)
      | some value =>
        have fresh := seen.fresh once
        obtain ⟨members, isMember, string, isDelegating⟩ := seen
        have one : ownInits [⟨true, .member field (some value)⟩] = [(field, some value)] := rfl
        rw [one] at own
        refine ⟨?_, ?_, fun _ => rfl, ?_⟩
        · -- The entry of the member is new in the map.
          rw [own, List.map_append]
          have stored := (setMember_perm value.text fresh).trans (members.cons _)
          exact stored.trans (List.perm_append_singleton _ _).symm
        · simp [own, CtorInits.add]
        · simp [CtorInits.add, isDelegating, InitTarget.isDelegating]
    | indirectMember field init => cases member
    | delegating arguments => cases member
    | base => cases member

/-- The walk over valid initializers collects the members of the class itself. -/
theorem collected_foldl {inits : List CXXCtorInitializer}
    (once : ((writtenMembers inits).map Prod.fst).Nodup)
    (filled : ∀ entry ∈ writtenMembers inits, entry.2.isSome) :
    Collected inits (inits.foldl CtorInits.add {}) := by
  -- By induction from the back, since the walk adds at the end.
  induction inits using List.reverseRecOn with
  | nil => exact ⟨.refl _, rfl, fun some => absurd rfl some, rfl⟩
  | append_singleton inits init ih =>
    have before := once
    rw [writtenMembers_append, List.map_append, List.nodup_append] at before
    rw [List.foldl_append]
    have seen := ih before.1 fun entry member =>
      filled entry (by simp [writtenMembers_append, member])
    exact seen.add once filled

/-- The written initializers of members are those of the two kinds of members. -/
theorem writtenMembers_perm (inits : List CXXCtorInitializer) :
    (writtenMembers inits).Perm (ownInits inits ++ indirectInits inits) := by
  -- By induction: each initializer names a member of one kind or none at all.
  induction inits with
  | nil => exact .refl _
  | cons init rest ih =>
    obtain ⟨isWritten, target⟩ := init
    -- One that is not written is in none of the lists.
    cases isWritten with
    | false => exact ih
    | true =>
      cases target with
      | member field init => exact ih.cons _
      | indirectMember field init => exact (ih.cons _).trans List.perm_middle.symm
      | delegating arguments => exact ih
      | base => exact ih

/-- How much text a member initializer takes, with what stands around it. -/
def entryLength (entry : Text × Text) : Nat := entry.1.length + entry.2.length + 4

/-- The length of an initializer list is the sum of the lengths of its entries. -/
theorem length_memInitializers (inits : List (Text × Text)) :
    (memInitializers inits).length = (inits.map entryLength).sum := by
  cases inits with
  | nil => rfl
  | cons init rest =>
    -- The colon takes as much text as the comma that the first entry has not.
    have colon : (": ".toList).length = 2 := rfl
    have parentheses : ("(".toList).length = 1 ∧ (")".toList).length = 1 := ⟨rfl, rfl⟩
    have others : (rest.map fun other => other.1.length + 1 + other.2.length + 1 + 2) =
        rest.map entryLength := List.map_congr_left fun other _ => by rw [entryLength]; omega
    simp only [memInitializers, List.isEmpty_cons, Bool.false_eq_true, if_false, List.map_cons,
      List.length_append, length_commaSeparated, List.map_map, Function.comp_def, colon,
      parentheses.1, parentheses.2, List.sum_cons, others, entryLength]
    omega

/-- Entries with no text at all are no entries. -/
theorem eq_nil_of_length {inits : List (Text × Text)} (none : (inits.map entryLength).sum = 0) :
    inits = [] := by
  cases inits with
  | nil => rfl
  | cons init rest =>
    simp only [List.map_cons, List.sum_cons, entryLength] at none
    omega

section Constructor

variable {method : CXXMethodDecl} {definition : FunctionDecl}

/-- Without a delegating initializer, the initializers printed are those of the members that the
class itself has. -/
theorem ctorInitText_own {method : CXXMethodDecl}
    (once : ((writtenMembers method.inits).map Prod.fst).Nodup)
    (filled : ∀ entry ∈ writtenMembers method.inits, entry.2.isSome)
    (own : ∀ init ∈ method.inits, init.target.isDelegating = false) :
    ∃ printed, printed.Perm ((ownInits method.inits).map entryText) ∧
      ctorInitText method = memInitializers printed := by
  have seen := collected_foldl once filled
  -- No initializer delegates, as each is that of a member.
  have noDelegation : (method.inits.foldl CtorInits.add {}).isDelegatingInit = false := by
    rw [seen.isDelegating, List.any_eq_false]
    intro init member
    simp [own init member]
  by_cases empty : ownInits method.inits = []
  · -- Nothing is printed.
    refine ⟨[], by simp [empty], ?_⟩
    simp [ctorInitText, noDelegation, seen.isMember, empty, memInitializers]
  · -- The map has an entry for each member, so that it is not empty.
    have some : (method.inits.foldl CtorInits.add {}).initMembers ≠ [] := by
      intro none
      have same := seen.members
      rw [none] at same
      exact empty (List.map_eq_nil_iff.mp same.symm.eq_nil)
    refine ⟨_, seen.members, ?_⟩
    simp only [ctorInitText, noDelegation, seen.isMember, seen.string empty, memInitializers]
    simp only [List.isEmpty_eq_false_iff.mpr empty, List.isEmpty_eq_false_iff.mpr some]
    exact List.append_nil _

/-- The initializers of a definition that can be copied: no other constructor is called, every
member is one of the class itself, and they stand in the class. -/
def InitializersCopied (method : CXXMethodDecl) (definition : FunctionDecl) : Prop :=
  (∀ init ∈ definition.inits, init.isWritten = true →
      init.target.isDelegating = false ∧ init.target.isIndirectMember = false) ∧
    (method.definedInClass = true ∨ writtenMembers definition.inits = [])

/-- A constructor delegates when one of its initializers does. -/
theorem delegatedArguments_eq_none {inits : List CXXCtorInitializer} :
    delegatedArguments inits = none ↔ ∀ init ∈ inits, init.target.isDelegating = false := by
  rw [delegatedArguments, List.findSome?_eq_none_iff]
  refine forall₂_congr fun init _ => ?_
  cases init.target <;> simp [InitTarget.isDelegating]

/-- A delegating initializer is printed under another name than that of the generated class. -/
theorem ctorInitText_delegating {init : CXXCtorInitializer} {arguments : Option (List Lexeme)}
    (delegates : init.target = .delegating arguments) (alone : definition.inits = [init])
    (defined : method.definition = some definition) (text : Text) :
    ctorInitText method ≠ memInitializers [(SECRET_TYPE, text)] := by
  -- Only a constructor that is defined in the class has its initializers at hand.
  have inits : method.inits = if method.definedInClass then [init] else [] := by
    rw [CXXMethodDecl.inits, defined, ← alone]
  have expected : ∃ rest, memInitializers [(SECRET_TYPE, text)] = ':' :: ' ' :: 's' :: rest :=
    ⟨_, rfl⟩
  obtain ⟨rest, expected⟩ := expected
  rw [expected]
  -- The text of the whole would begin with the name of the wrapper.
  obtain ⟨isWritten, target⟩ := init
  subst delegates
  rw [ctorInitText, inits]
  -- What is printed is nothing, a blank, or the name of another template.
  cases method.definedInClass <;> cases isWritten <;> cases arguments <;>
    simp [CtorInits.add, getDelegatingInitString]

/-- No member of an anonymous union is named when no written initializer is for one. -/
theorem indirectInits_eq_nil {inits : List CXXCtorInitializer} :
    indirectInits inits = [] ↔
      ∀ init ∈ inits, init.isWritten = true → init.target.isIndirectMember = false := by
  simp only [indirectInits, List.filterMap_eq_nil_iff, List.mem_filter, Bool.and_eq_true]
  refine ⟨fun none init member written => ?_, fun none init ⟨member, written, indirect⟩ => ?_⟩
  · cases indirect : init.target.isIndirectMember with
    | false => rfl
    | true =>
      -- Such an initializer names its member.
      have named := none init ⟨member, written, indirect⟩
      cases target : init.target <;>
        simp_all [InitTarget.isIndirectMember, InitTarget.initialized?]
  · rw [none init member written] at indirect
    cases indirect

/-- A constructor has the initializers of its definition exactly when they can be copied. -/
theorem sameInitializers_iff (defined : method.definition = some definition) :
    (∃ printed, SameInitializers definition.inits printed ∧
        ctorInitText method = memInitializers printed) ↔
      InitializersCopied method definition := by
  obtain ⟨once, filled, alone⟩ := definition.initsValid
  have inits : method.inits = if method.definedInClass then definition.inits else [] := by
    rw [CXXMethodDecl.inits, defined]
  cases delegation : delegatedArguments definition.inits with
  | some arguments =>
    -- A delegating initializer stands alone.
    obtain ⟨init, member, found⟩ := List.exists_of_findSome?_eq_some delegation
    have delegates : init.target = .delegating arguments := by
      cases target : init.target <;> simp_all
    obtain ⟨written, single⟩ := alone init member arguments delegates
    refine ⟨?_, fun copied => ?_⟩
    · -- A delegating initializer names another template than the wrapper.
      intro ⟨printed, same, text⟩
      rw [SameInitializers, delegation] at same
      obtain ⟨given, -, rfl⟩ := same
      exact absurd text (ctorInitText_delegating delegates single defined _)
    · -- It is none of the kinds that are copied.
      have other := (copied.1 init member written).1
      rw [delegates] at other
      cases other
  | none =>
    have own := delegatedArguments_eq_none.mp delegation
    have split := (writtenMembers_perm definition.inits).map entryText
    have noIndirect : (∀ init ∈ definition.inits, init.isWritten = true →
        init.target.isDelegating = false ∧ init.target.isIndirectMember = false) ↔
          indirectInits definition.inits = [] := by
      rw [indirectInits_eq_nil]
      exact forall₂_congr fun init member => by simp [own init member]
    rw [InitializersCopied, noIndirect]
    simp only [SameInitializers, delegation]
    cases inClass : method.definedInClass with
    | false =>
      -- Outside of the class there is nothing to print.
      have nothing : ctorInitText method = [] := by
        simp [ctorInitText, inits, inClass]
      rw [nothing]
      constructor
      · -- Any initializer to be printed would be some text.
        intro ⟨printed, perm, text⟩
        have length := length_memInitializers printed
        rw [← text] at length
        rw [eq_nil_of_length length.symm] at perm
        have none : writtenMembers definition.inits = [] :=
          List.map_eq_nil_iff.mp perm.symm.eq_nil
        rw [none] at split
        have both := List.map_eq_nil_iff.mp split.symm.eq_nil
        exact ⟨(List.append_eq_nil_iff.mp both).2, .inr none⟩
      · rintro ⟨-, never | none⟩
        · cases never
        · exact ⟨[], by simp [none], rfl⟩
    | true =>
      rw [inClass, if_pos rfl] at inits
      -- In the class the own members are printed in some order.
      obtain ⟨printed, perm, text⟩ := ctorInitText_own (inits ▸ once) (inits ▸ filled) (inits ▸ own)
      rw [inits] at perm
      constructor
      · -- The members of the class itself are all members when they take as much text.
        intro ⟨other, all, same⟩
        have length := congrArg List.length (text.symm.trans same)
        rw [length_memInitializers, length_memInitializers, (perm.map entryLength).sum_nat,
          (all.map entryLength).sum_nat, (split.map entryLength).sum_nat, List.map_append,
          List.map_append, List.sum_append] at length
        have none := eq_nil_of_length (Nat.left_eq_add.mp length)
        exact ⟨List.map_eq_nil_iff.mp none, .inl rfl⟩
      · rintro ⟨none, -⟩
        rw [none, List.append_nil] at split
        exact ⟨printed, perm.trans split.symm, text⟩

end Constructor

/-- A copied constructor has the initializers of its definition exactly when they can be copied. -/
theorem keepsInitializers_iff {copy : FunctionCopy} {definition : FunctionDecl}
    (constructs : copy.method.kind = .constructor)
    (defined : copy.method.definition = some definition)
    (printed : methodTexts copy.method = .ok copy.texts) :
    KeepsInitializers definition copy ↔ InitializersCopied copy.method definition := by
  -- The head is the same in any case, so that only the text behind it matters.
  rw [← sameInitializers_iff defined]
  obtain ⟨head, signature, texts⟩ := texts_of_constructor constructs printed
  constructor
  · -- Behind the same head stands the same text.
    intro ⟨other, inits, rest, found, same, split⟩
    cases signature.symm.trans found
    rw [texts] at split
    exact ⟨inits, same, List.append_cancel_left (List.cons.inj split).1⟩
  · intro ⟨inits, same, text⟩
    exact ⟨head, inits, _, signature, same, by rw [texts, text]⟩

/-- A generated class emits a constructor with the initializers of a user-provided one exactly when
the constructor is public or private and its definition calls no other constructor, initializes no
member of an anonymous union, and stands in the class or initializes no member at all; and every
copy of the constructor that is emitted has the initializers exactly in the latter case. -/
theorem generated_initializers_iff {Cls : Type} [DecidableEq Cls] (context : ASTContext Cls)
    {depth : Nat} {varDecls : List (VarDecl Cls)} {state : TyperState Cls}
    (completed : start context depth varDecls = .ok state) {secretClass : Cls}
    (generated : secretClass ∈ generatedClasses state) {method : CXXMethodDecl}
    {definition : FunctionDecl} (member : method ∈ (context.decl secretClass).methods)
    (constructs : method.kind = .constructor) (provided : method.isUserProvided = true)
    (defined : method.definition = some definition) :
    ((∃ copy ∈ functionCopies (generatedBlock state secretClass), copy.method = method ∧
        KeepsInitializers definition copy) ↔
      method.access.isWalked ∧ InitializersCopied method definition) ∧
    ∀ copy ∈ functionCopies (generatedBlock state secretClass), copy.method = method →
      (KeepsInitializers definition copy ↔ InitializersCopied method definition) := by
  have copied : method.isCopied = true := by
    simp [CXXMethodDecl.isCopied, provided, constructs]
  exact generated_copies_iff context completed generated member copied (by simp [defined])
    fun texts printed => keepsInitializers_iff constructs defined printed

section Holder

/-- A class with one private member and the given member functions, and the wrapper of it. -/
def holderContext (methods : List CXXMethodDecl) : ASTContext (Fin 2) where
  decl
    | 0 => { sampleClass (word "Holder" (by decide)) 1
        [sampleField (word "value" (by decide)) .asPrivate (.builtin (plain "long" (by decide)))]
        none with methods }
    | 1 => sampleClass secretName 2 []
        (some (secretName, [.type (.record (plain "Holder" (by decide)) 0)]))
  translationUnitDecls := []

/-- A variable of the wrapper of the class. -/
def holderVariable : VarDecl (Fin 2) where
  name := word "holder" (by decide)
  type := .record (plain "secret<Holder>" (by decide)) 1
  filename := "input/main.cpp".toList
  isInSystemHeader := false
  isImplicit := false

/-- Text printed with plain characters. -/
def phrase (spelling : String) (letters : spelling.toList.all isPlainChar = true) : Lexeme :=
  ⟨spelling.toList, (settled_plain letters).neutral⟩

/-- A type printed by its name. -/
def printedType (spelling : String) (letters : spelling.toList.all isPlainChar = true)
    (type : CppType) (printed : lex spelling.toList = type.tokens) : PrintedType :=
  { phrase spelling letters with
    named := some type
    printed := fun _ same => Option.some.inj same ▸ printed }

/-- The type of no value. -/
def voidType : CppType := .base ⟨[.word "void".toList], by decide⟩

/-- The initializer of the member of the class. -/
def valueInit : CXXCtorInitializer :=
  ⟨true, .member (word "value" (by decide)) (some (phrase "0" (by decide)))⟩

/-- A definition that initializes the member of the class. -/
def holderDefinition : FunctionDecl where
  params := []
  returnType := printedType "void" (by decide) voidType (by decide)
  inits := [valueInit]
  initsValid := ⟨by decide, by decide, by simp [valueInit]⟩
  body := some ⟨"\x7b\n\x7d\n".toList, fun _ _ => rfl, by decide⟩

/-- The constructor of the class, defined in it or after it. -/
def holderConstructor (definedInClass : Bool) : CXXMethodDecl where
  kind := .constructor
  name := phrase "Holder" (by decide)
  proper := fun _ => by decide
  access := .asPublic
  isUserProvided := true
  isVirtual := false
  beginLoc := ⟨"input/Node.hpp".toList, 3⟩
  definedInClass
  definition := some holderDefinition

/-- The class is generated wherever its constructor is defined. -/
theorem holder_completes (definedInClass : Bool) : ∃ state,
    start (holderContext [holderConstructor definedInClass]) 1 [holderVariable] = .ok state ∧
      generatedClasses state = [0] :=
  completes_of_generates (by cases definedInClass <;> decide)

/-- Defined in its class, the constructor keeps its initializer. -/
theorem generated_initializers_inClass : ∃ state,
    start (holderContext [holderConstructor true]) 1 [holderVariable] = .ok state ∧
      ∃ copy ∈ functionCopies (generatedBlock state 0), copy.method = holderConstructor true ∧
        KeepsInitializers holderDefinition copy := by
  obtain ⟨state, completed, classes⟩ := holder_completes true
  have generated : (0 : Fin 2) ∈ generatedClasses state := by simp [classes]
  refine ⟨state, completed, (generated_initializers_iff _ completed generated
    (List.mem_singleton.mpr rfl) rfl rfl rfl).1.mpr ⟨.inl rfl, fun init member _ => ?_, .inl rfl⟩⟩
  cases List.mem_singleton.mp member
  exact ⟨rfl, rfl⟩

/-- Defined after its class, the constructor is emitted without the initializer of its member. -/
theorem not_keepsInitializers_outOfClass : ∃ state,
    start (holderContext [holderConstructor false]) 1 [holderVariable] = .ok state ∧
      ∃ copy ∈ functionCopies (generatedBlock state 0), copy.method = holderConstructor false ∧
        ¬ KeepsInitializers holderDefinition copy := by
  obtain ⟨state, completed, classes⟩ := holder_completes false
  have generated : (0 : Fin 2) ∈ generatedClasses state := by simp [classes]
  obtain ⟨texts, printed⟩ : ∃ texts, methodTexts (holderConstructor false) = .ok texts := ⟨_, rfl⟩
  refine ⟨state, completed, ⟨holderConstructor false, texts⟩, ?_, rfl, fun kept => ?_⟩
  · exact (mem_generatedCopies _ completed generated).mpr
      ⟨List.mem_singleton.mpr rfl, .inl rfl, rfl, printed⟩
  -- The initializers are looked for in the declaration that stands in the class.
  rcases ((keepsInitializers_iff rfl rfl printed).mp kept).2 with inClass | none
  · cases inClass
  · cases none

end Holder

end SecretTyping
