import SecretTyping.Consumer.Outputs

/-! When the output of one translation unit survives that of the others. -/

namespace SecretTyping

open LastWrite Rewriter Search

variable {Cls : Type}

namespace TranslationUnit

variable (fileAt : Text → Text) (unit : TranslationUnit Cls)

/-- A class that the variables of a translation unit lead to. -/
def Generates (secretClass : Cls) : Prop :=
  SecretTyping.Generates unit.context unit.varDecls secretClass

/-- A list of exactly the classes that a translation unit generates. -/
structure Enumerates (classes : List Cls) : Prop where
  nodup : classes.Nodup
  exact : ∀ secretClass, secretClass ∈ classes ↔ unit.Generates secretClass

end TranslationUnit

section Completed

variable [DecidableEq Cls] {fileAt : Text → Text} {depth : Nat} {unit : TranslationUnit Cls}
  {state : TyperState Cls} (typed : start unit.context depth unit.varDecls = .ok state)

include typed

end Completed

section Tool

variable [DecidableEq Cls] (fileAt : Text → Text) (canOpen : Text → Bool) (depth : Nat)

variable {fileAt} {canOpen} {depth}

end Tool

end SecretTyping
