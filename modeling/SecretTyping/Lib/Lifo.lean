/-! The calls on a last-in-first-out stack and what they return. -/

namespace SecretTyping.Lifo

/-- A call on a stack. -/
inductive Call (Value : Type) where
  | push (value : Value)
  | pop
  deriving DecidableEq

variable {Value : Type}

/-- What a call makes of the values on the stack, the top one first. -/
def afterCall (contents : List Value) : Call Value → List Value
  | .push value => value :: contents
  | .pop => contents.tail

/-- What calls make of the values on the stack. -/
def contentsAfter (contents : List Value) (calls : List (Call Value)) : List Value :=
  calls.foldl afterCall contents

/-- What the removals among the calls return; an empty stack returns a value of its own. -/
def results (absent : Value) (contents : List Value) : List (Call Value) → List Value
  | [] => []
  | .push value :: rest => results absent (afterCall contents (.push value)) rest
  | .pop :: rest => contents.headD absent :: results absent (afterCall contents .pop) rest

/-- How many of the calls add a value. -/
def pushes : List (Call Value) → Nat
  | [] => 0
  | .push _ :: rest => pushes rest + 1
  | .pop :: rest => pushes rest

/-- Values added one after another lie on the stack the last one first. -/
theorem contentsAfter_pushes (contents values : List Value) :
    contentsAfter contents (values.map .push) = values.reverse ++ contents := by
  -- By induction on the values, each of which goes on top of those before it.
  induction values generalizing contents with
  | nil => rfl
  | cons value rest ih =>
    show contentsAfter (value :: contents) (rest.map .push) = _
    rw [ih, List.reverse_cons, List.append_assoc, List.singleton_append]

end SecretTyping.Lifo
