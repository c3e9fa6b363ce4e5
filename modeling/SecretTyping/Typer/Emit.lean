import SecretTyping.Typer.Ast

/-! The text written for constructors, destructors and methods. -/

namespace SecretTyping

/-- Why the typer stops before its work is done. -/
inductive Fault where
  /-- A null class was dereferenced. -/
  | nullClass
  /-- A missing function definition was dereferenced. -/
  | missingDefinition
  /-- The recursion went deeper than allowed. -/
  | outOfFuel
  deriving DecidableEq

/-- A parameter as a signature prints it. -/
def paramText (param : ParmVarDecl) : Text :=
  param.type.text ++ if param.name.text.isEmpty then [] else ' ' :: param.name.text

/-- The parameter list of a signature, without its parentheses. -/
def paramsText (params : List ParmVarDecl) : Text := commaSeparated (params.map paramText)

/-- The head of a generated constructor. -/
def getSecretConstructorSignature (constructor : CXXMethodDecl) : Except Fault Text :=
  match constructor.definition with
  | none => .error .missingDefinition
  | some constructorDefinition =>
    .ok ("secret (".toList ++ paramsText constructorDefinition.params ++ ")".toList)

/-- The head of a generated method. -/
def getSecretMethodSignature (method : CXXMethodDecl) : Except Fault Text :=
  match method.definition with
  | none => .error .missingDefinition
  | some methodDefinition =>
    .ok ("virtual ".toList ++ methodDefinition.returnType.text ++ " ".toList ++ method.name.text ++
      "(".toList ++ paramsText methodDefinition.params ++ ")".toList)

/-- Store a value under a key of an ordered map. -/
def setMember (key value : Text) : List (Text × Text) → List (Text × Text)
  | [] => [(key, value)]
  | (first, held) :: rest =>
    if key = first then (key, value) :: rest
    else if key < first then (key, value) :: (first, held) :: rest
    else (first, held) :: setMember key value rest

/-- The member initializers of a generated constructor. -/
def getMemberInitString (initMemberlist : List (Text × Text)) : Text :=
  ": ".toList ++ commaSeparated
    (initMemberlist.map fun (member, value) => member ++ "(".toList ++ value ++ ")".toList)

/-- The delegating initializer of a generated constructor. -/
def getDelegatingInitString : List CXXCtorInitializer → Text
  | [] => " ".toList
  | init :: rest =>
    match init.target with
    | .delegating (some arguments) =>
      ": numa(".toList ++ commaSeparated (arguments.map Lexeme.text) ++ ")".toList
    | _ => getDelegatingInitString rest

/-- What the walk over the initializers of a constructor has collected. -/
structure CtorInits where
  initMembers : List (Text × Text) := []
  initMembersString : Text := []
  isMemberInit : Bool := false
  isDelegatingInit : Bool := false

/-- Take one initializer into account. -/
def CtorInits.add (inits : CtorInits) (init : CXXCtorInitializer) : CtorInits :=
  -- Initializers that the compiler has added are skipped.
  if init.isWritten then
    match init.target with
    | .delegating _ => { inits with isDelegatingInit := true }
    | .member initializedField initExpr =>
      let initMembers :=
        match initExpr with
        | some value => setMember initializedField.text value.text inits.initMembers
        | none => inits.initMembers
      { inits with
        initMembers
        initMembersString := getMemberInitString initMembers
        isMemberInit := true }
    -- Only a member that the class itself has is tested for.
    | .indirectMember _ _ | .base => inits
  else inits

/-- The initializer part of a generated constructor. -/
def ctorInitText (constructor : CXXMethodDecl) : Text :=
  let inits := constructor.inits.foldl CtorInits.add {}
  (if inits.isMemberInit then inits.initMembersString else []) ++
    if inits.isDelegatingInit then getDelegatingInitString constructor.inits else []

/-- The body of a generated constructor or method, empty when none is visible. -/
def bodyText (method : CXXMethodDecl) : Text :=
  match method.getBody with
  | some body => body.text
  | none => "\x7b\x7d\n".toList

/-- The texts inserted for a constructor, in order. -/
def secretConstructors (constructor : CXXMethodDecl) : Except Fault (List Text) := do
  let signature ← getSecretConstructorSignature constructor
  return [signature ++ ctorInitText constructor, bodyText constructor]

/-- The texts inserted for a destructor, in order.

A destructor has no parameters, so the branch that prints them is never taken. -/
def secretDestructors (destructor : CXXMethodDecl) : Except Fault (List Text) :=
  -- The closing parenthesis is a text of its own, and the body needs no definition.
  .ok (["virtual ~secret(".toList, ")\n".toList] ++
    match destructor.getBody with
    | some body => [body.text, "\n".toList]
    | none => [])

/-- The texts inserted for a method, in order. -/
def secretMethods (method : CXXMethodDecl) : Except Fault (List Text) := do
  let signature ← getSecretMethodSignature method
  return [signature, bodyText method]

end SecretTyping
