import SecretTyping.Lib.Declarators
import SecretTyping.Lib.Rewriter

/-! The part of clang's syntax tree that the secret typer reads. -/

namespace SecretTyping

open Lexical Declarators

/-- Text printed for a name, an expression or a type of the parsed program. -/
structure Lexeme where
  text : Text
  neutral : Neutral text
  deriving DecidableEq

/-- Text printed for a type that may stand before any other token. -/
structure TypeName where
  text : Text
  settled : Settled text
  deriving DecidableEq

/-- A plain identifier, possibly empty. -/
@[ext]
structure Identifier where
  text : Text
  letters : text.all isWordChar = true
  deriving DecidableEq

/-- Text printed for a compound statement. -/
structure Body where
  text : Text
  closed : Closed text
  braced : '\x7b' ∈ text
  deriving DecidableEq

/-- Text printed for a type of a function, with the type that the text names; some types, such as
those of closures, have no name. -/
structure PrintedType extends Lexeme where
  named : Option CppType
  printed : ∀ type ∈ named, lex text = type.tokens
  deriving DecidableEq

/-- A type as the typer inspects it, each layer with the text printed for it. -/
inductive QualType (Cls : Type) where
  /-- The canonical type is built in. -/
  | builtin (spelling : TypeName)
  /-- The canonical type is the class with the given declaration. -/
  | record (spelling : TypeName) (decl : Cls)
  | pointer (spelling : TypeName) (pointee : QualType Cls) (qualifiers : CvQualifiers := {})
  | reference (spelling : TypeName) (referent : QualType Cls)
  | array (spelling : TypeName) (element : QualType Cls)
  | enumeration (spelling : TypeName)
  | function (spelling : TypeName)
  /-- Any other type that is no class, such as a pointer to member. -/
  | other (spelling : TypeName)
  deriving DecidableEq

namespace QualType

variable {Cls : Type}

/-- How a type is printed. -/
def typeName : QualType Cls → TypeName
  | builtin spelling | record spelling _ | pointer spelling _ _ | reference spelling _
  | array spelling _ | enumeration spelling | function spelling | other spelling => spelling

/-- The text printed for a type. -/
def getAsString (type : QualType Cls) : Text := type.typeName.text

/-- Whether the canonical type is built in. -/
def isBuiltinType : QualType Cls → Bool
  | builtin _ => true
  | _ => false

/-- The class a type names directly, or null. -/
def getAsCXXRecordDecl : QualType Cls → Option Cls
  | record _ decl => some decl
  | _ => none

/-- The class a pointer or reference leads to directly, or null. -/
def getPointeeCXXRecordDecl : QualType Cls → Option Cls
  | pointer _ pointee _ => pointee.getAsCXXRecordDecl
  | reference _ referent => referent.getAsCXXRecordDecl
  | _ => none

/-- A type with all its outer pointers removed. -/
def stripPointers : QualType Cls → QualType Cls
  | pointer _ pointee _ => pointee.stripPointers
  | type => type

end QualType

/-- A parameter of a function definition. -/
structure ParmVarDecl where
  type : PrintedType
  name : Identifier
  defaultArg : Option Lexeme := none
  deriving DecidableEq

/-- What a constructor initializer initializes, and with which printed expressions. -/
inductive InitTarget where
  | member (field : Identifier) (init : Option Lexeme)
  /-- A member of an anonymous union or structure of the class. -/
  | indirectMember (field : Identifier) (init : Option Lexeme)
  /-- The arguments are known when the initializer is a plain constructor call. -/
  | delegating (arguments : Option (List Lexeme))
  | base
  deriving DecidableEq

/-- One constructor initializer. -/
structure CXXCtorInitializer where
  isWritten : Bool
  target : InitTarget
  deriving DecidableEq

/-- The member that an initializer names and its expression, where it initializes a member. -/
def InitTarget.initialized? : InitTarget → Option (Identifier × Option Lexeme)
  | member field init | indirectMember field init => some (field, init)
  | delegating _ | base => none

/-- The members that the written initializers name, in order, each with its expression. -/
def writtenMembers (inits : List CXXCtorInitializer) : List (Identifier × Option Lexeme) :=
  (inits.filter CXXCtorInitializer.isWritten).filterMap fun init => init.target.initialized?

/-- What the language asks of the initializers of a constructor. -/
structure ValidInits (inits : List CXXCtorInitializer) : Prop where
  /-- No member is initialized twice. -/
  once : ((writtenMembers inits).map Prod.fst).Nodup
  /-- A written initializer has an expression. -/
  filled : ∀ entry ∈ writtenMembers inits, entry.2.isSome
  /-- A constructor that delegates does nothing else. -/
  alone : ∀ init ∈ inits, ∀ arguments, init.target = .delegating arguments →
    init.isWritten ∧ inits = [init]

/-- A function definition visible in the translation unit. -/
structure FunctionDecl where
  params : List ParmVarDecl
  /-- Whether the parameters end with an ellipsis. -/
  isVariadic : Bool := false
  returnType : PrintedType
  inits : List CXXCtorInitializer
  initsValid : ValidInits inits
  body : Option Body
  deriving DecidableEq

/-- Which of the declarations that `methods()` lists a member function is. -/
inductive MethodKind where
  | constructor
  | destructor
  | method
  deriving DecidableEq

/-- The ref-qualifier of a member function. -/
inductive RefQualifierKind where
  | none
  | lvalue
  | rvalue
  deriving DecidableEq

/-- What is written behind the parameters of a member function. -/
structure MethodQualifiers where
  isConst : Bool := false
  isVolatile : Bool := false
  refQualifier : RefQualifierKind := .none
  deriving DecidableEq

/-- The tokens of a name begin with a word; that of a conversion function is a keyword. -/
def isFunctionName (isConversion : Bool) : List Token → Bool
  | .word text :: _ => !isConversion || Token.word text = operatorWord
  | _ => false

/-- A member function as its class declares it. -/
structure CXXMethodDecl where
  kind : MethodKind
  name : Lexeme
  isConversion : Bool := false
  /-- Only the name of a destructor begins with a tilde. -/
  proper : kind ≠ .destructor → isFunctionName isConversion (lex name.text) = true
  isStatic : Bool := false
  qualifiers : MethodQualifiers := {}
  access : AccessSpecifier
  isUserProvided : Bool
  isVirtual : Bool
  beginLoc : SourceLocation
  definedInClass : Bool
  definition : Option FunctionDecl
  deriving DecidableEq

namespace CXXMethodDecl

/-- Initializers hang on the declaration that defines the constructor. -/
def inits (method : CXXMethodDecl) : List CXXCtorInitializer :=
  match method.definition with
  | some definition => if method.definedInClass then definition.inits else []
  | none => []

/-- The body of whichever declaration has one. -/
def getBody (method : CXXMethodDecl) : Option Body :=
  method.definition.bind FunctionDecl.body

end CXXMethodDecl

/-- A non-static data member. -/
structure FieldDecl (Cls : Type) where
  name : Identifier
  access : AccessSpecifier
  type : QualType Cls
  deriving DecidableEq

/-- An argument of a class template specialization. -/
inductive TemplateArgument (Cls : Type) where
  | type (argument : QualType Cls)
  | other
  deriving DecidableEq

/-- A class definition. -/
structure CXXRecordDecl (Cls : Type) where
  name : Identifier
  fields : List (FieldDecl Cls)
  methods : List CXXMethodDecl
  endLoc : SourceLocation
  /-- The location after the semicolon that ends the definition. -/
  semiLoc : SourceLocation
  /-- The template and the arguments, for a class template specialization. -/
  specialization : Option (Identifier × List (TemplateArgument Cls))
  deriving DecidableEq

/-- The classes of a translation unit, and which of its top-level declarations are
class template specializations. -/
structure ASTContext (Cls : Type) where
  decl : Cls → CXXRecordDecl Cls
  translationUnitDecls : List Cls

/-- A variable declaration as the match finder reports it. -/
structure VarDecl (Cls : Type) where
  name : Identifier
  type : QualType Cls
  filename : Text
  isInSystemHeader : Bool
  isImplicit : Bool
  deriving DecidableEq

end SecretTyping
