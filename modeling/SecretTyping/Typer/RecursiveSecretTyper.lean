import SecretTyping.Typer.Emit

/-! The recursive secret typer: its state, the walk over a class, and the match callback. -/

namespace SecretTyping

open Rewriter

variable {Cls : Type}

/-- What an inserted text is in the output for its class. -/
inductive BlockPart (Cls : Type) where
  /-- The keyword put before a method of the original class. -/
  | virtualKeyword (method : CXXMethodDecl)
  | head
  | allocatorCode
  | accessLabel
  | field (field : FieldDecl Cls)
  /-- The first text of a member function. -/
  | signature (method : CXXMethodDecl)
  /-- Any further text of a member function. -/
  | continuation (method : CXXMethodDecl)
  | closing
  deriving DecidableEq

/-- An insertion together with what it is. -/
structure Output (Cls : Type) where
  part : BlockPart Cls
  insertion : Insertion
  deriving DecidableEq

/-- The fields of the typer, its rewriter, and the methods it has marked as virtual.

Each insertion is kept with the class it was made for. -/
structure TyperState (Cls : Type) where
  specializedSecretClasses : List Cls := []
  rewriteLocation : Option SourceLocation := none
  fileIDs : List (Option Text) := []
  virtualAsWritten : List (Cls × Nat) := []
  insertions : List (Cls × Output Cls) := []

namespace TyperState

/-- Insert text after everything inserted earlier at the location. -/
def insertTextAfter (state : TyperState Cls) (secretClass : Cls) (part : BlockPart Cls)
    (location : SourceLocation) (text : Text) : TyperState Cls :=
  { state with
    insertions := state.insertions ++ [(secretClass, ⟨part, ⟨.after, location, text⟩⟩)] }

/-- Insert text before everything inserted earlier at the location. -/
def insertTextBefore (state : TyperState Cls) (secretClass : Cls) (part : BlockPart Cls)
    (location : SourceLocation) (text : Text) : TyperState Cls :=
  { state with
    insertions := state.insertions ++ [(secretClass, ⟨part, ⟨.before, location, text⟩⟩)] }

/-- Set the location the typer works at. -/
def setLocation (state : TyperState Cls) (location : SourceLocation) : TyperState Cls :=
  { state with rewriteLocation := some location }

/-- Record the file of the location the typer works at. -/
def pushFileID (state : TyperState Cls) : TyperState Cls :=
  { state with fileIDs := state.fileIDs ++ [state.rewriteLocation.map SourceLocation.file] }

/-- Every insertion made so far, without the class it was made for. -/
def edits (state : TyperState Cls) : List Insertion :=
  state.insertions.map fun entry => entry.2.insertion

end TyperState

/-- The name of the wrapper template. -/
def SECRET_TYPE : Text := "secret".toList

/-- The placeholder for the allocator of a generated class. -/
def getSecretAllocatorCode : Text := "//add your secure memory allocator code here".toList

section Typer

variable [DecidableEq Cls] (context : ASTContext Cls)

/-- List the class an argument of a specialization names, unless it is listed. -/
def addArgument (state : TyperState Cls) (argument : TemplateArgument Cls) : TyperState Cls :=
  -- Arguments that are no class leave the list as it is.
  match argument with
  | .type (.record _ decl) =>
    if decl ∈ state.specializedSecretClasses then state
    else { state with
      specializedSecretClasses := state.specializedSecretClasses ++ [decl] }
  | _ => state

/-- List the classes that one specialization covers, if it specializes the wrapper. -/
def addSpecialization (state : TyperState Cls) (specDecl : Cls) : TyperState Cls :=
  -- Specializations of other templates are ignored.
  match (context.decl specDecl).specialization with
  | some (templateName, arguments) =>
    if templateName.text = SECRET_TYPE then arguments.foldl addArgument state else state
  | none => state

/-- List every class that a top-level specialization of the wrapper already covers. -/
def addAllSpecializations (state : TyperState Cls) : TyperState Cls :=
  context.translationUnitDecls.foldl (addSpecialization context) state

/-- Put the keyword before one method, unless it is virtual or named like its class. -/
def makeMethodVirtual (classDecl : Cls) (state : TyperState Cls) (entry : CXXMethodDecl × Nat) :
    TyperState Cls :=
  let (method, index) := entry
  if method.isUserProvided then
    if method.isVirtual ∨ (classDecl, index) ∈ state.virtualAsWritten then state
    else if method.name.text ≠ (context.decl classDecl).name.text then
      let state := { state with
        virtualAsWritten := state.virtualAsWritten ++ [(classDecl, index)] }
      let state := state.setLocation method.beginLoc
      let state := state.insertTextBefore classDecl (.virtualKeyword method) method.beginLoc
        "virtual ".toList
      state.pushFileID
    else state
  else state

/-- Make the methods of a class virtual in its own definition. -/
def makeVirtual (classDecl : Cls) (state : TyperState Cls) : TyperState Cls :=
  (context.decl classDecl).methods.zipIdx.foldl (makeMethodVirtual context classDecl) state

/-- The recursive call of the typer, on a class that may be null. -/
abbrev Construct (Cls : Type) := Option Cls → TyperState Cls → Except Fault (TyperState Cls)

/-- Specialize a class unless the pointer searched for is listed. -/
def specializeUnlisted (construct : Construct Cls) (searched secretClass : Option Cls)
    (state : TyperState Cls) : Except Fault (TyperState Cls) :=
  if searched ∈ state.specializedSecretClasses.map some then .ok state
  else construct secretClass state

/-- Declare one field of a generated class and specialize the class of its type.

Public and private fields differ only in how they wrap built-in types. -/
def secretField (wrapBuiltin wrapPointer : Text → Text) (construct : Construct Cls)
    (secretClass : Cls) (semiLoc : SourceLocation) (field : FieldDecl Cls)
    (state : TyperState Cls) : Except Fault (TyperState Cls) :=
  let declare (wrapped : Text) : TyperState Cls :=
    state.insertTextAfter secretClass (.field field) semiLoc
      (wrapped ++ field.name.text ++ ";\n".toList)
  match field.type with
  -- The field is of a built-in type and no pointer.
  | .builtin spelling => .ok (declare (wrapBuiltin spelling.text))
  | .pointer spelling pointee qualifiers =>
    -- The field points to a built-in type.
    if pointee.isBuiltinType then .ok (declare (wrapPointer pointee.getAsString))
    else
      -- The field points to anything else.
      specializeUnlisted construct
        (QualType.pointer spelling pointee qualifiers).getPointeeCXXRecordDecl
        pointee.getAsCXXRecordDecl
        (declare ("secret<".toList ++ pointee.getAsString ++ "*> ".toList))
  -- The field is neither built-in nor a pointer.
  | type =>
    specializeUnlisted construct type.getAsCXXRecordDecl type.getAsCXXRecordDecl
      (declare ("secret<".toList ++ type.getAsString ++ "> ".toList))

/-- Wrap a type in a template and leave a space for the name. -/
def wrapAs (template : Text) (stars : Text) (type : Text) : Text :=
  template ++ "<".toList ++ type ++ stars ++ "> ".toList

/-- Declare a public field. -/
def secretPublicField : Construct Cls → Cls → SourceLocation → FieldDecl Cls →
    TyperState Cls → Except Fault (TyperState Cls) :=
  secretField (wrapAs "secret".toList []) (wrapAs "secret".toList [])

/-- Declare a private field. -/
def secretPrivateField : Construct Cls → Cls → SourceLocation → FieldDecl Cls →
    TyperState Cls → Except Fault (TyperState Cls) :=
  secretField (wrapAs "numa".toList []) (wrapAs "numa".toList "*".toList)

/-- Insert the texts of a member function. -/
def insertMethod (secretClass : Cls) (semiLoc : SourceLocation) (method : CXXMethodDecl)
    (texts : List Text) (state : TyperState Cls) : TyperState Cls :=
  -- The first text is the signature of the copy.
  match texts with
  | [] => state
  | first :: rest =>
    rest.foldl (fun state text =>
        state.insertTextAfter secretClass (.continuation method) semiLoc text)
      (state.insertTextAfter secretClass (.signature method) semiLoc first)

/-- Copy one member function, if it is one of those that are copied. -/
def secretMethod (secretClass : Cls) (semiLoc : SourceLocation) (method : CXXMethodDecl)
    (state : TyperState Cls) : Except Fault (TyperState Cls) := do
  -- Only methods are tested for a definition before they are copied.
  match method.kind with
  | .constructor =>
    if method.isUserProvided then
      let texts ← secretConstructors method
      return insertMethod secretClass semiLoc method texts state
    else return state
  | .destructor =>
    if method.isUserProvided then
      let texts ← secretDestructors method
      return insertMethod secretClass semiLoc method texts state
    else return state
  | .method =>
    if method.definition.isSome then
      if method.isUserProvided then
        let texts ← secretMethods method
        return insertMethod secretClass semiLoc method texts state
      else return state
    else return state

/-- Write the section of one access: its label, its fields, its member functions. -/
def secretMembers (label : Text)
    (declareField : Cls → SourceLocation → FieldDecl Cls → TyperState Cls →
      Except Fault (TyperState Cls))
    (secretClass : Cls) (semiLoc : SourceLocation) (fields : List (FieldDecl Cls))
    (methods : List CXXMethodDecl) (state : TyperState Cls) : Except Fault (TyperState Cls) := do
  let state := state.insertTextAfter secretClass .accessLabel semiLoc label
  let state ← fields.foldlM (fun state field => declareField secretClass semiLoc field state) state
  methods.foldlM (fun state method => secretMethod secretClass semiLoc method state) state

/-- Write the public section of a generated class. -/
def secretPublicMembers (construct : Construct Cls) : Cls → SourceLocation →
    List (FieldDecl Cls) → List CXXMethodDecl → TyperState Cls → Except Fault (TyperState Cls) :=
  secretMembers "public:\n".toList (secretPublicField construct)

/-- Write the private section of a generated class. -/
def secretPrivateMembers (construct : Construct Cls) : Cls → SourceLocation →
    List (FieldDecl Cls) → List CXXMethodDecl → TyperState Cls → Except Fault (TyperState Cls) :=
  secretMembers "private:\n".toList (secretPrivateField construct)

/-- The line that opens a generated class. -/
def headText (name : Text) : Text :=
  "\ntemplate<>\nclass secret<".toList ++ name ++ ">\x7b\n".toList

/-- Generate the specialization of a class, nesting to the given depth. -/
def constructSpecialization : Nat → Construct Cls
  -- A null class is dereferenced for its name in the first call made with it.
  | _, none, _ => .error .nullClass
  | 0, some _, _ => .error .outOfFuel
  | depth + 1, some secretClass, state => do
    let decl := context.decl secretClass
    let state := { state with
      specializedSecretClasses := state.specializedSecretClasses ++ [secretClass] }
    let state := makeVirtual context secretClass state
    let state := state.setLocation decl.endLoc
    let semiLoc := decl.semiLoc
    let publicFields := decl.fields.filter fun field => field.access = .asPublic
    let privateFields := decl.fields.filter fun field => field.access = .asPrivate
    let publicMethods := decl.methods.filter fun method => method.access = .asPublic
    let privateMethods := decl.methods.filter fun method => method.access = .asPrivate
    let state := state.insertTextAfter secretClass .head semiLoc (headText decl.name.text)
    let state := state.insertTextAfter secretClass .allocatorCode semiLoc getSecretAllocatorCode
    let state ← secretPublicMembers (constructSpecialization depth) secretClass semiLoc
      publicFields publicMethods state
    let state ← secretPrivateMembers (constructSpecialization depth) secretClass semiLoc
      privateFields privateMethods state
    let state := state.insertTextAfter secretClass .closing semiLoc "\x7d;\n".toList
    return state.pushFileID

/-- Specialize a class found through a variable. -/
def specializeClass (depth : Nat) : Construct Cls := constructSpecialization context depth

/-- Specialize the classes among the arguments of the wrapper. -/
def runArgument (depth : Nat) (state : TyperState Cls) (argument : TemplateArgument Cls) :
    Except Fault (TyperState Cls) :=
  -- The name of the class is printed before the list is searched.
  match argument with
  | .type argType =>
    match argType.getAsCXXRecordDecl with
    | none => .error .nullClass
    | some secretClass =>
      if secretClass ∈ state.specializedSecretClasses then .ok state
      else specializeClass context depth (some secretClass) state
  | .other => .ok state

/-- Whether a variable is one the callback looks at. -/
def VarDecl.isConsidered (varDecl : VarDecl Cls) : Bool :=
  !varDecl.isInSystemHeader &&
    (findText "../secretLib/secrettype.hpp".toList varDecl.filename).isNone &&
    !varDecl.filename.isEmpty && !varDecl.isImplicit && !varDecl.name.text.isEmpty

/-- Handle one matched variable declaration. -/
def run (depth : Nat) (state : TyperState Cls) (varDecl : VarDecl Cls) :
    Except Fault (TyperState Cls) :=
  if varDecl.isConsidered then
    if varDecl.type.getAsString.take 6 = SECRET_TYPE then
      let state := addAllSpecializations context state
      match varDecl.type.stripPointers with
      | .record _ decl =>
        match (context.decl decl).specialization with
        | some (_, arguments) => arguments.foldlM (runArgument context depth) state
        | none => .ok state
      | _ => .ok state
    else .ok state
  else .ok state

/-- Handle the variable declarations of a translation unit in the order they are matched. -/
def start (depth : Nat) (varDecls : List (VarDecl Cls)) : Except Fault (TyperState Cls) :=
  varDecls.foldlM (run context depth) {}

end Typer

end SecretTyping
