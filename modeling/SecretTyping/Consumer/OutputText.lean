import SecretTyping.Consumer.LostOutput
import SecretTyping.Lib.Paths

/-! The text of the output tree, and what is lost of it. -/

namespace SecretTyping

open LastWrite Rewriter Search

variable {Cls : Type}

section Unit

variable [DecidableEq Cls] {fileAt : Text → Text} {depth : Nat} {unit : TranslationUnit Cls}
  {state : TyperState Cls} (typed : start unit.context depth unit.varDecls = .ok state)

include typed

end Unit

section Tool

variable [DecidableEq Cls] {fileAt : Text → Text} {canOpen : Text → Bool} {depth : Nat}

end Tool

section Sample

end Sample

end SecretTyping
