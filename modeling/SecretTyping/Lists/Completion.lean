import SecretTyping.Lists.Sequence

/-! Which calls on the benchmark linked list complete. -/

namespace SecretTyping.Lists

open Memory

/-- A call completes where it does not write through null and no int overflows in it: neither the
successor of its index nor the length of the list. -/
def Operation.Completes (values : List Int) (operation : Operation) : Prop :=
  ¬ operation.FallsOnNull values ∧ operation.InRange ∧
    ((operation.onValues values).length : Int) ≤ intMax

/-- Every one of several calls completes on what the calls before it leave. -/
def CompletesAll (values : List Int) : List Operation → Prop
  | [] => True
  | operation :: rest => operation.Completes values ∧ CompletesAll (operation.onValues values) rest

/-- What calls make of a sequence, one after another. -/
def valuesAfter (values : List Int) (operations : List Operation) : List Int :=
  operations.foldl Operation.onValues values

/-- An int is in range up to the greatest one, as a length is never negative. -/
theorem checkedInt_length (length : Nat) :
    checkedInt length =
      if (length : Int) ≤ intMax then .ok (length : Int) else .error .overflow := by
  unfold checkedInt
  have least : -intMax - 1 ≤ (length : Int) := by
    unfold intMax
    omega
  simp only [least, true_and]

/-- A call that leaves a chain completes if the length of the chain is an int. -/
theorem Leaves.ok_iff {list : LinkedList} {result : Except Fault (Outcome × LinkedList)}
    {outcome : Outcome} {nodes : List (Nat × Int)} (leaves : Leaves list result outcome nodes) :
    (∃ returned, result = .ok returned) ↔ (nodes.length : Int) ≤ intMax := by
  obtain ⟨heap, same, -⟩ := leaves
  rw [same, LinkedList.resize, checkedInt_length]
  -- Apart from the length, nothing is checked.
  by_cases fits : (nodes.length : Int) ≤ intMax
  · rw [if_pos fits]
    exact ⟨fun _ => fits, fun _ => ⟨_, rfl⟩⟩
  · rw [if_neg fits]
    apply iff_of_false _ fits
    intro completed
    obtain ⟨returned, done⟩ := completed
    cases done

/-- A call that leaves a chain does not write through null. -/
theorem Leaves.not_null {list : LinkedList} {result : Except Fault (Outcome × LinkedList)}
    {outcome : Outcome} {nodes : List (Nat × Int)} (leaves : Leaves list result outcome nodes) :
    result ≠ .error .nullDereference := by
  obtain ⟨heap, same, -⟩ := leaves
  rw [same, LinkedList.resize, checkedInt_length]
  -- The only fault left is that of a length out of range.
  by_cases fits : (nodes.length : Int) ≤ intMax
  · rw [if_pos fits]
    intro fault
    cases fault
  · rw [if_neg fits]
    intro fault
    cases fault

section Calls

variable {list : LinkedList} {nodes : List (Nat × Int)} (holds : Holds list nodes)

include holds

/-- Exactly the calls that are said to do so complete. -/
theorem perform_ok_iff (operation : Operation) :
    (∃ returned, perform list operation = .ok returned) ↔
      operation.Completes (valuesOf nodes) := by
  unfold Operation.Completes
  by_cases falls : operation.FallsOnNull (valuesOf nodes)
  · rw [perform_falls holds falls]
    exact ⟨(fun ⟨_, done⟩ => nomatch done), fun completes => absurd falls completes.1⟩
  · by_cases inRange : operation.InRange
    · -- The call leaves a chain with the values that it makes.
      obtain ⟨changed, leaves, values⟩ := perform_leaves_safe holds falls inRange
      have counted : (operation.onValues (valuesOf nodes)).length = changed.length := by
        rw [← values, length_valuesOf]
      rw [leaves.ok_iff, counted]
      exact ⟨fun fits => ⟨falls, inRange, fits⟩, fun completes => completes.2.2⟩
    · rw [perform_overflows list inRange]
      exact ⟨(fun ⟨_, done⟩ => nomatch done), fun completes => absurd completes.2.1 inRange⟩

/-- Exactly the calls that are said to do so write through null. -/
theorem perform_null_iff (operation : Operation) :
    perform list operation = .error .nullDereference ↔
      operation.FallsOnNull (valuesOf nodes) := by
  -- Any other call completes or overflows.
  constructor
  · intro fault
    by_cases falls : operation.FallsOnNull (valuesOf nodes)
    · exact falls
    · by_cases inRange : operation.InRange
      · obtain ⟨changed, leaves, -⟩ := perform_leaves_safe holds falls inRange
        exact absurd fault leaves.not_null
      · rw [perform_overflows list inRange] at fault
        cases fault
  · exact perform_falls holds

/-- Calls complete one after another if each one completes on what those before it leave. -/
theorem runOperations_ok_iff (operations : List Operation) :
    (∃ after, runOperations list operations = .ok after) ↔
      CompletesAll (valuesOf nodes) operations := by
  -- By induction on the calls; the first one leaves a list with the values that it makes.
  induction operations generalizing list nodes with
  | nil => exact ⟨fun _ => trivial, fun _ => ⟨list, rfl⟩⟩
  | cons operation rest ih =>
    constructor
    · intro ⟨after, run⟩
      obtain ⟨⟨outcome, middle⟩, done, run⟩ := bind_eq_ok run
      obtain ⟨-, changed, held, values⟩ := perform_holds holds done
      have others : CompletesAll (valuesOf changed) rest := (ih held).mp ⟨after, run⟩
      rw [values] at others
      exact ⟨(perform_ok_iff holds operation).mp ⟨_, done⟩, others⟩
    · intro ⟨completes, others⟩
      obtain ⟨⟨outcome, middle⟩, done⟩ := (perform_ok_iff holds operation).mpr completes
      obtain ⟨-, changed, held, values⟩ := perform_holds holds done
      rw [← values] at others
      obtain ⟨after, run⟩ := (ih held).mpr others
      refine ⟨after, ?_⟩
      rw [runOperations, done]
      exact run

omit holds in
/-- Calls that complete one after another leave the values that they make. -/
theorem runOperations_values {operations : List Operation} {after : LinkedList}
    (holds : Holds list nodes) (run : runOperations list operations = .ok after) :
    ∃ changed, Holds after changed ∧
      valuesOf changed = valuesAfter (valuesOf nodes) operations := by
  -- By induction on the calls, as for the chain that they leave.
  induction operations generalizing list nodes with
  | nil =>
    cases run
    exact ⟨nodes, holds, rfl⟩
  | cons operation rest ih =>
    obtain ⟨⟨outcome, middle⟩, done, run⟩ := bind_eq_ok run
    obtain ⟨-, changed, held, values⟩ := perform_holds holds done
    obtain ⟨last, heldLast, valuesLast⟩ := ih held run
    refine ⟨last, heldLast, ?_⟩
    rw [valuesLast, values]
    rfl

end Calls

/-- Calls on a new list complete if and only if each one does on the values that those before it
leave, and on every list that they leave a further call completes, or writes through null, if and
only if it is said to: the removal from the end exactly on one value, and an insertion at the index
zero exactly on a list that is not empty. -/
theorem runOperations_completes_iff (operations : List Operation) :
    ((∃ list, runOperations .new operations = .ok list) ↔ CompletesAll [] operations) ∧
      ∀ list, runOperations .new operations = .ok list →
        Stores list (valuesAfter [] operations) ∧ ∀ operation : Operation,
          ((∃ returned, perform list operation = .ok returned) ↔
            operation.Completes (valuesAfter [] operations)) ∧
          (perform list operation = .error .nullDereference ↔
            operation.FallsOnNull (valuesAfter [] operations)) := by
  -- A run stores its sequence, which decides about the next call.
  constructor
  · exact runOperations_ok_iff holds_new operations
  · intro list run
    obtain ⟨nodes, holds, values⟩ := runOperations_values holds_new run
    rw [valuesOf_nil] at values
    rw [← values]
    exact ⟨holds.stores, fun operation =>
      ⟨perform_ok_iff holds operation, perform_null_iff holds operation⟩⟩

/-- On two values, a removal from the end and an insertion at the index one complete. -/
theorem runOperations_completes_two :
    ∃ list, runOperations .new [.append 1, .append 2] = .ok list ∧
      (∃ returned, perform list .removeTail = .ok returned) ∧
      ∃ returned, perform list (.insertAtIndex 1 3) = .ok returned := by
  -- The sequence is known, so that both calls can be decided.
  have both : CompletesAll [] [.append 1, .append 2] := by
    simp [CompletesAll, Operation.Completes, Operation.FallsOnNull, Operation.InRange,
      Operation.onValues, Operation.onSequence, intMax]
  obtain ⟨list, run⟩ := (runOperations_completes_iff [.append 1, .append 2]).1.mpr both
  have calls := ((runOperations_completes_iff [.append 1, .append 2]).2 list run).2
  refine ⟨list, run, (calls .removeTail).1.mpr ?_, (calls (.insertAtIndex 1 3)).1.mpr ?_⟩
  · exact ⟨fun (single : 2 = 1) => by omega, trivial, by decide⟩
  · exact ⟨fun falls => absurd falls.1 (by decide), ⟨by decide, by decide⟩, by decide⟩

/-- On a list with one value, a removal from the end and an insertion at the index zero write
through null. -/
theorem removeTail_single_null :
    ∃ list, runOperations .new [.append 1] = .ok list ∧
      perform list .removeTail = .error .nullDereference ∧
      perform list (.insertAtIndex 0 2) = .error .nullDereference :=
  ⟨_, rfl, rfl, rfl⟩

end SecretTyping.Lists
