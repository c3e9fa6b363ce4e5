/-! The calls on a first-in-first-out queue and what they return. -/

namespace SecretTyping.Fifo

/-- A call on a queue. -/
inductive Call (Value : Type) where
  | add (value : Value)
  | del
  deriving DecidableEq

variable {Value : Type}

/-- What a call makes of the values in the queue. -/
def afterCall (contents : List Value) : Call Value → List Value
  | .add value => contents ++ [value]
  | .del => contents.tail

/-- What calls make of the values in the queue. -/
def contentsAfter (contents : List Value) (calls : List (Call Value)) : List Value :=
  calls.foldl afterCall contents

/-- What the removals among the calls return; an empty queue returns a value of its own. -/
def results (absent : Value) (contents : List Value) : List (Call Value) → List Value
  | [] => []
  | .add value :: rest => results absent (afterCall contents (.add value)) rest
  | .del :: rest => contents.headD absent :: results absent (afterCall contents .del) rest

/-- One more call acts on what the calls before it leave. -/
@[simp] theorem contentsAfter_concat (contents : List Value) (calls : List (Call Value))
    (call : Call Value) :
    contentsAfter contents (calls ++ [call]) = afterCall (contentsAfter contents calls) call := by
  simp [contentsAfter]

/-- One more call returns something on what the calls before it leave, if it is a removal. -/
theorem results_concat (absent : Value) (contents : List Value) (calls : List (Call Value))
    (call : Call Value) :
    results absent contents (calls ++ [call]) =
      results absent contents calls ++ results absent (contentsAfter contents calls) [call] := by
  -- By induction on the calls before it.
  induction calls generalizing contents with
  | nil => rfl
  | cons first rest ih =>
    cases first with
    | add value => exact ih _
    | del => exact congrArg (contents.headD absent :: ·) (ih _)

end SecretTyping.Fifo
