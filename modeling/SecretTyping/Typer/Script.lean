import SecretTyping.Lib.Search
import SecretTyping.Typer.RecursiveSecretTyper

/-! The typer is a depth-first search: each class has a script of insertions and visits. -/

namespace SecretTyping

open Rewriter Search

variable {Cls : Type}

/-- The class a field makes the typer specialize, if it makes it specialize any: it may be null. -/
def QualType.specializes : QualType Cls → Option (Option Cls)
  | .builtin _ => none
  | .pointer _ pointee _ => if pointee.isBuiltinType then none else some pointee.getAsCXXRecordDecl
  | type => some type.getAsCXXRecordDecl

/-- How a section wraps the type of a field. -/
def wrappedType (wrapBuiltin wrapPointer : Text → Text) : QualType Cls → Text
  | .builtin spelling => wrapBuiltin spelling.text
  | .pointer _ pointee _ =>
    if pointee.isBuiltinType then wrapPointer pointee.getAsString
    else "secret<".toList ++ pointee.getAsString ++ "*> ".toList
  | type => "secret<".toList ++ type.getAsString ++ "> ".toList

/-- The declaration of a field in a generated class. -/
def fieldText (wrapBuiltin wrapPointer : Text → Text) (field : FieldDecl Cls) : Text :=
  wrappedType wrapBuiltin wrapPointer field.type ++ field.name.text ++ ";\n".toList

/-- Whether a member function is one of those that are copied. -/
def CXXMethodDecl.isCopied (method : CXXMethodDecl) : Bool :=
  method.isUserProvided && (method.kind ≠ .method || method.definition.isSome)

/-- The texts inserted for a copied member function. -/
def methodTexts (method : CXXMethodDecl) : Except Fault (List Text) :=
  match method.kind with
  | .constructor => secretConstructors method
  | .destructor => secretDestructors method
  | .method => secretMethods method

/-- Whether a method gets the keyword when its class is first specialized. -/
def becomesVirtual (className : Text) (method : CXXMethodDecl) : Bool :=
  method.isUserProvided && !method.isVirtual && method.name.text ≠ className

/-- An insertion after a class definition. -/
def blockOutput (semiLoc : SourceLocation) (part : BlockPart Cls) (text : Text) : Output Cls :=
  ⟨part, ⟨.after, semiLoc, text⟩⟩

/-- The insertion that makes a method virtual. -/
def virtualOutput (method : CXXMethodDecl) : Output Cls :=
  ⟨.virtualKeyword method, ⟨.before, method.beginLoc, "virtual ".toList⟩⟩

/-- The insertions of a member function, given its texts. -/
def methodOutputs (semiLoc : SourceLocation) (method : CXXMethodDecl) :
    List Text → List (Output Cls)
  | [] => []
  | first :: rest => blockOutput semiLoc (.signature method) first ::
    rest.map (blockOutput semiLoc (.continuation method))

/-- What a field does: insert its declaration, then specialize the class of its type. -/
def fieldTasks (wrapBuiltin wrapPointer : Text → Text) (semiLoc : SourceLocation)
    (field : FieldDecl Cls) : List (Task Cls (Output Cls) Fault) :=
  -- The declaration is inserted before the class of its type is searched for.
  .emit (blockOutput semiLoc (.field field) (fieldText wrapBuiltin wrapPointer field)) ::
    match field.type.specializes with
    | none => []
    | some none => [.fail .nullClass]
    | some (some decl) => [.visit decl]

/-- What a member function does: insert its texts, or stop for want of a definition. -/
def methodTasks (semiLoc : SourceLocation) (method : CXXMethodDecl) :
    List (Task Cls (Output Cls) Fault) :=
  -- A definition that is missing is a fault only where the code reads it.
  if method.isCopied then
    match methodTexts method with
    | .ok texts => (methodOutputs semiLoc method texts).map .emit
    | .error fault => [.fail fault]
  else []

/-- What the section of one access does. -/
def sectionTasks (label : Text) (wrapBuiltin wrapPointer : Text → Text) (access : AccessSpecifier)
    (decl : CXXRecordDecl Cls) : List (Task Cls (Output Cls) Fault) :=
  -- The fields of an access all come before its member functions.
  .emit (blockOutput decl.semiLoc .accessLabel label) ::
    ((decl.fields.filter fun field => field.access = access).flatMap
        (fieldTasks wrapBuiltin wrapPointer decl.semiLoc) ++
      (decl.methods.filter fun method => method.access = access).flatMap
        (methodTasks decl.semiLoc))

/-- What the public section does. -/
def publicTasks (decl : CXXRecordDecl Cls) : List (Task Cls (Output Cls) Fault) :=
  sectionTasks "public:\n".toList (wrapAs "secret".toList []) (wrapAs "secret".toList [])
    .asPublic decl

/-- What the private section does. -/
def privateTasks (decl : CXXRecordDecl Cls) : List (Task Cls (Output Cls) Fault) :=
  sectionTasks "private:\n".toList (wrapAs "numa".toList []) (wrapAs "numa".toList "*".toList)
    .asPrivate decl

/-- The insertions that make the methods of a class virtual. -/
def virtualOutputs (decl : CXXRecordDecl Cls) : List (Output Cls) :=
  (decl.methods.filter (becomesVirtual decl.name.text)).map virtualOutput

/-- Everything the specialization of a class does, in order. -/
def classTasks (decl : CXXRecordDecl Cls) : List (Task Cls (Output Cls) Fault) :=
  -- The keywords go into the class itself and everything else behind it.
  (virtualOutputs decl ++
      [blockOutput decl.semiLoc .head (headText decl.name.text),
        blockOutput decl.semiLoc .allocatorCode getSecretAllocatorCode]).map .emit ++
    (publicTasks decl ++ (privateTasks decl ++
      [.emit (blockOutput decl.semiLoc .closing "\x7d;\n".toList)]))

/-- The script of the search the typer performs. -/
def script (context : ASTContext Cls) (secretClass : Cls) : List (Task Cls (Output Cls) Fault) :=
  classTasks (context.decl secretClass)

/-- The listed classes and the insertions of a typer state. -/
def TyperState.trace (state : TyperState Cls) : Trace Cls (Output Cls) :=
  { visited := state.specializedSecretClasses, log := state.insertions }

/-- Only methods of listed classes have been marked as virtual. -/
def MarksListed (state : TyperState Cls) : Prop :=
  ∀ mark ∈ state.virtualAsWritten, mark.1 ∈ state.specializedSecretClasses

/-- A run of the typer and a run of the search end alike. -/
def Simulates : Except Fault (TyperState Cls) →
    Except Fault (Trace Cls (Output Cls)) → Prop
  | .ok state, .ok trace => trace = state.trace ∧ MarksListed state
  | .error fault, .error raised => fault = raised
  | _, _ => False

/-- Simulated runs continue with simulated runs. -/
theorem Simulates.bind {result : Except Fault (TyperState Cls)}
    {searched : Except Fault (Trace Cls (Output Cls))}
    {next : TyperState Cls → Except Fault (TyperState Cls)}
    {search : Trace Cls (Output Cls) → Except Fault (Trace Cls (Output Cls))}
    (simulated : Simulates result searched)
    (step : ∀ state, MarksListed state → Simulates (next state) (search state.trace)) :
    Simulates (result >>= next) (searched >>= search) := by
  -- Only two normal ends go on, and those start the next step in the same trace.
  cases result with
  | error fault =>
    cases searched with
    | error raised => exact simulated
    | ok trace => exact simulated.elim
  | ok state =>
    cases searched with
    | error raised => exact simulated.elim
    | ok trace =>
      obtain ⟨rfl, marks⟩ := simulated
      exact step state marks

/-- A simulated run that ends normally leaves the trace of its state. -/
theorem Simulates.ok {state : TyperState Cls} {searched : Except Fault (Trace Cls (Output Cls))}
    (simulated : Simulates (.ok state) searched) : searched = .ok state.trace := by
  -- The other ends of the search are excluded by the relation.
  cases searched with
  | error raised => exact simulated.elim
  | ok trace => rw [simulated.1]

/-- A simulated run that stops raises the same fault. -/
theorem Simulates.error {fault : Fault} {searched : Except Fault (Trace Cls (Output Cls))}
    (simulated : Simulates (.error fault) searched) : searched = .error fault := by
  -- The other ends of the search are excluded by the relation.
  cases searched with
  | error raised => rw [show fault = raised from simulated]
  | ok trace => exact simulated.elim

/-- The texts of a member function after its first are inserted in order. -/
theorem insertContinuations_eq (secretClass : Cls) (semiLoc : SourceLocation)
    (method : CXXMethodDecl) (rest : List Text) (state : TyperState Cls) :
    rest.foldl (fun state text =>
        state.insertTextAfter secretClass (.continuation method) semiLoc text) state =
      { state with
        insertions := state.insertions ++
          (rest.map (blockOutput semiLoc (.continuation method))).map (secretClass, ·) } := by
  -- The texts are folded over with a state that grows at its end.
  induction rest generalizing state with
  | nil => simp
  | cons text rest ih =>
    rw [List.foldl_cons, ih]
    simp [TyperState.insertTextAfter, blockOutput]

/-- Inserting the texts of a member function changes the insertions alone. -/
theorem insertMethod_eq (secretClass : Cls) (semiLoc : SourceLocation) (method : CXXMethodDecl)
    (texts : List Text) (state : TyperState Cls) :
    insertMethod secretClass semiLoc method texts state =
      { state with
        insertions := state.insertions ++
          (methodOutputs semiLoc method texts).map (secretClass, ·) } := by
  -- The first text opens the copy and the loop inserts the rest.
  cases texts with
  | nil => simp [insertMethod, methodOutputs]
  | cons first rest =>
    rw [insertMethod, insertContinuations_eq]
    simp [methodOutputs, TyperState.insertTextAfter, blockOutput]

/-- A member function is copied with its texts, or skipped. -/
theorem secretMethod_eq (secretClass : Cls) (semiLoc : SourceLocation) (method : CXXMethodDecl)
    (state : TyperState Cls) :
    secretMethod secretClass semiLoc method state =
      if method.isCopied then do
        let texts ← methodTexts method
        return insertMethod secretClass semiLoc method texts state
      else .ok state := by
  -- Each kind of member function has its own test, and all tests agree with one.
  unfold secretMethod CXXMethodDecl.isCopied methodTexts
  cases method.kind <;> cases method.isUserProvided <;> cases method.definition <;> rfl

section Simulation

variable [DecidableEq Cls]

/-- A recursive call follows a visit on unlisted classes and stops on a null class. -/
structure Follows (construct : Construct Cls)
    (enter : Cls → Trace Cls (Output Cls) → Except Fault (Trace Cls (Output Cls))) : Prop where
  unlisted : ∀ secretClass state, secretClass ∉ state.specializedSecretClasses →
    MarksListed state →
      Simulates (construct (some secretClass) state) (enter secretClass state.trace)
  null : ∀ state, construct none state = .error .nullClass

/-- Specializing a class unless it is listed is a visit. -/
theorem simulates_specializeUnlisted {construct : Construct Cls}
    {enter : Cls → Trace Cls (Output Cls) → Except Fault (Trace Cls (Output Cls))}
    (follows : Follows construct enter) (owner decl : Cls) (state : TyperState Cls)
    (marks : MarksListed state) :
    Simulates (specializeUnlisted construct (some decl) (some decl) state)
      (runTasks enter owner [.visit decl] state.trace) := by
  -- The vector search and the search's own test look at the same list.
  have same : some decl ∈ state.specializedSecretClasses.map some ↔
      decl ∈ state.trace.visited := by simp [TyperState.trace]
  unfold specializeUnlisted
  simp only [runTasks]
  by_cases listed : decl ∈ state.trace.visited
  · rw [if_pos (same.mpr listed), if_pos listed]
    exact ⟨rfl, marks⟩
  · rw [if_neg (mt same.mp listed), if_neg listed]
    have entered : Simulates (construct (some decl) state >>= .ok)
        (enter decl state.trace >>= .ok) :=
      (follows.unlisted decl state listed marks).bind fun state marks => ⟨rfl, marks⟩
    cases result : construct (some decl) state with
    | error fault => simpa [result, Bind.bind, Except.bind] using entered
    | ok state => simpa [result, Bind.bind, Except.bind] using entered

/-- The chain of field cases inserts one text and then treats one class. -/
theorem secretField_eq (wrapBuiltin wrapPointer : Text → Text) (construct : Construct Cls)
    (secretClass : Cls) (semiLoc : SourceLocation) (field : FieldDecl Cls)
    (state : TyperState Cls) :
    secretField wrapBuiltin wrapPointer construct secretClass semiLoc field state =
      let state := state.insertTextAfter secretClass (.field field) semiLoc
        (fieldText wrapBuiltin wrapPointer field)
      match field.type.specializes with
      | none => .ok state
      | some target => specializeUnlisted construct target target state := by
  -- Only behind a pointer does the case depend on more than the outer type.
  unfold secretField fieldText
  cases field.type with
  | pointer spelling pointee qualifiers =>
    by_cases builtin : pointee.isBuiltinType <;>
      simp [builtin, QualType.specializes, wrappedType, QualType.getPointeeCXXRecordDecl]
  | _ => rfl

/-- A field runs its tasks. -/
theorem simulates_secretField {construct : Construct Cls}
    {enter : Cls → Trace Cls (Output Cls) → Except Fault (Trace Cls (Output Cls))}
    (follows : Follows construct enter) (wrapBuiltin wrapPointer : Text → Text)
    (secretClass : Cls) (semiLoc : SourceLocation) (field : FieldDecl Cls)
    (state : TyperState Cls) (marks : MarksListed state) :
    Simulates (secretField wrapBuiltin wrapPointer construct secretClass semiLoc field state)
      (runTasks enter secretClass (fieldTasks wrapBuiltin wrapPointer semiLoc field)
        state.trace) := by
  rw [secretField_eq]
  simp only [fieldTasks, runTasks]
  cases field.type.specializes with
  | none => exact ⟨rfl, marks⟩
  | some target =>
    cases target with
    | none =>
      -- A null class is never listed, so the recursive call is made with it.
      simp [specializeUnlisted, follows.null, runTasks, Simulates]
    | some decl => exact simulates_specializeUnlisted follows secretClass decl _ marks

/-- A member function runs its tasks. -/
theorem simulates_secretMethod
    (enter : Cls → Trace Cls (Output Cls) → Except Fault (Trace Cls (Output Cls)))
    (secretClass : Cls) (semiLoc : SourceLocation) (method : CXXMethodDecl)
    (state : TyperState Cls) (marks : MarksListed state) :
    Simulates (secretMethod secretClass semiLoc method state)
      (runTasks enter secretClass (methodTasks semiLoc method) state.trace) := by
  -- A member function is either skipped or inserts all its texts at once.
  rw [secretMethod_eq]
  unfold methodTasks
  by_cases copied : method.isCopied
  · rw [if_pos copied, if_pos copied]
    cases methodTexts method with
    | error fault => rfl
    | ok texts =>
      simp only [Bind.bind, Except.bind, runTasks_emits, insertMethod_eq]
      exact ⟨rfl, marks⟩
  · rw [if_neg copied, if_neg copied]
    exact ⟨rfl, marks⟩

/-- A loop over members runs their tasks in order. -/
theorem simulates_foldlM {Member : Type}
    (enter : Cls → Trace Cls (Output Cls) → Except Fault (Trace Cls (Output Cls)))
    (secretClass : Cls) (act : TyperState Cls → Member → Except Fault (TyperState Cls))
    (tasks : Member → List (Task Cls (Output Cls) Fault))
    (step : ∀ member state, MarksListed state →
      Simulates (act state member) (runTasks enter secretClass (tasks member) state.trace))
    (members : List Member) (state : TyperState Cls) (marks : MarksListed state) :
    Simulates (members.foldlM act state)
      (runTasks enter secretClass (members.flatMap tasks) state.trace) := by
  -- By induction on the members, each started in the trace the one before has left.
  induction members generalizing state with
  | nil => exact ⟨rfl, marks⟩
  | cons member rest ih =>
    simp only [List.foldlM_cons, List.flatMap_cons, runTasks_append]
    exact (step member state marks).bind fun state marks => ih state marks

end Simulation

end SecretTyping
