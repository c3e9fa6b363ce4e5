import SecretTyping.Umf.RavlRanks

/-! Runs of operations on the balanced tree, and the runs of a sorted list that they are. -/

namespace SecretTyping.Umf.Ravl

open Sorted

variable {Data : Type}

/-- An operation on a tree; an insertion comes with the answer of the allocator, and a node is named
by the search that finds it. -/
inductive Operation (Data : Type) where
  | emplace (data : Data) (memory : Bool)
  | find (data : Data) (flags : Predicate)
  | remove (data : Data) (flags : Predicate)
  | successor (data : Data) (flags : Predicate)
  | predecessor (data : Data) (flags : Predicate)
  | first
  | last
  | foreach

/-- What an operation returns. -/
inductive Reply (Data : Type) where
  | outcome (outcome : Outcome)
  | item (item : Option Data)
  | items (items : List Data)

/-- Perform an operation on a tree: there is no result where an assertion fails. -/
def perform (compare : Data → Data → Ordering) (root : Node Data) :
    Operation Data → Option (Reply Data × Node Data)
  | .emplace data memory =>
    (emplace compare root data memory).map fun (outcome, root) => (.outcome outcome, root)
  | .find data flags => some (.item ((find compare root data flags).map Location.data), root)
  | .remove data flags =>
    match find compare root data flags with
    | none => some (.item none, root)
    | some n => some (.item (some n.data), remove n)
  | .successor data flags =>
    some (.item (((find compare root data flags).bind nodeSuccessor).map Location.data), root)
  | .predecessor data flags =>
    some (.item (((find compare root data flags).bind nodePredecessor).map Location.data), root)
  | .first => some (.item ((first root).map Location.data), root)
  | .last => some (.item ((last root).map Location.data), root)
  | .foreach => some (.items (foreach root), root)

/-- Perform operations one after another. -/
def performAll (compare : Data → Data → Ordering) (root : Node Data) :
    List (Operation Data) → Option (List (Reply Data) × Node Data)
  | [] => some ([], root)
  | operation :: rest => do
    let (reply, root) ← perform compare root operation
    let (replies, root) ← performAll compare root rest
    return (reply :: replies, root)

/-- What an insertion into a sorted list may return and make of it. -/
def ListEmplace (compare : Data → Data → Ordering) (before : List Data) (data : Data)
    (memory : Bool) (outcome : Outcome) (after : List Data) : Prop :=
  match outcome with
  | .success => memory = true ∧ lookup compare data before = none ∧
      after = insert compare data before
  | .duplicate => memory = true ∧ lookup compare data before ≠ none ∧ after = before
  | .noMemory => memory = false ∧ after = before

/-- What an operation on a sorted list may return and make of it. -/
def ListStep (compare : Data → Data → Ordering) (before : List Data) :
    Operation Data → Reply Data → List Data → Prop
  | .emplace data memory, .outcome outcome, after =>
    ListEmplace compare before data memory outcome after
  | .find data flags, .item item, after => item = sought compare flags data before ∧ after = before
  | .remove data flags, .item item, after =>
    item = sought compare flags data before ∧
      after = item.elim before fun found => erase compare found before
  | .successor data flags, .item item, after =>
    item = (sought compare flags data before).bind (fun found => next compare found before) ∧
      after = before
  | .predecessor data flags, .item item, after =>
    item = (sought compare flags data before).bind (fun found => previous compare found before) ∧
      after = before
  | .first, .item item, after => item = before.head? ∧ after = before
  | .last, .item item, after => item = before.getLast? ∧ after = before
  | .foreach, .items items, after => items = before ∧ after = before
  | _, _, _ => False

/-- What operations on a sorted list may return, one after another, and make of it. -/
def ListRun (compare : Data → Data → Ordering) :
    List Data → List (Operation Data) → List (Reply Data) → List Data → Prop
  | before, [], [], after => after = before
  | before, operation :: operations, reply :: replies, after =>
    ∃ middle, ListStep compare before operation reply middle ∧
      ListRun compare middle operations replies after
  | _, _, _, _ => False

/-- The number of insertions that a reply is to. -/
def inserted : Reply Data → Nat
  | .outcome .success => 1
  | _ => 0

/-- A tree whose items are in ascending order, and which is low. -/
structure Sound (compare : Data → Data → Ordering) (count : Nat) (root : Node Data) : Prop where
  ascending : Ascending compare (foreach root)
  low : Low count root

/-- The empty tree is sound. -/
theorem sound_null (compare : Data → Data → Ordering) : Sound compare 0 .null :=
  ⟨List.Pairwise.nil, low_null⟩

variable {compare : Data → Data → Ordering} [Std.TransCmp compare]

/-- The neighbour of a node is its neighbour in the list. -/
theorem nodeSuccessor_next {n : Location Data} (ascending : Ascending compare (foreach n.root)) :
    (nodeSuccessor n).map Location.data = next compare n.data (foreach n.root) := by
  obtain ⟨whole, cut⟩ := Location.cut ascending Std.ReflCmp.compare_self
  rw [whole, cut.next]
  exact (nodeCessor_item .right n).2

/-- The neighbour of a node is its neighbour in the list. -/
theorem nodePredecessor_previous {n : Location Data}
    (ascending : Ascending compare (foreach n.root)) :
    (nodePredecessor n).map Location.data = previous compare n.data (foreach n.root) := by
  obtain ⟨whole, cut⟩ := Location.cut ascending Std.ReflCmp.compare_self
  rw [whole, cut.previous, List.getLast?_reverse]
  exact (nodeCessor_item .left n).2

/-- The first node has the first item. -/
theorem first_head (root : Node Data) :
    (first root).map Location.data = (foreach root).head? := by
  -- The leftmost node is the first one, if there is any.
  rw [first]
  rcases nodeTypeMost_spec .left root [] with ⟨rfl, none⟩ | ⟨found, reached, most⟩
  · rw [none]
    rfl
  · have rest := most.rest
    rw [slotOpposite, seen_right, pathBeyond, List.append_nil] at rest
    rw [reached, ← rest]
    rfl

/-- The last node has the last item. -/
theorem last_getLast (root : Node Data) :
    (last root).map Location.data = (foreach root).getLast? := by
  -- The rightmost node is the first one of the tree seen from the other side.
  rw [last]
  rcases nodeTypeMost_spec .right root [] with ⟨rfl, none⟩ | ⟨found, reached, most⟩
  · rw [none]
    rfl
  · have rest := most.rest
    have opposite := reverse_seen .right root
    rw [slotOpposite, pathBeyond, List.append_nil] at rest
    rw [reached, ← seen_right, ← opposite, slotOpposite, List.getLast?_reverse, ← rest]
    rfl

/-- An insertion into a sound tree is one into its list. -/
theorem emplace_spec {count : Nat} {root : Node Data} (sound : Sound compare count root)
    (data : Data) (memory : Bool) :
    ∃ outcome after, emplace compare root data memory = some (outcome, after) ∧
      ListEmplace compare (foreach root) data memory outcome (foreach after) ∧
      Sound compare (count + inserted (.outcome outcome : Reply Data)) after := by
  obtain ⟨outcome, after, result, low⟩ := emplace_low sound.low data memory
  have items := emplace_items sound.ascending result
  -- The answer tells whether there was memory.
  have answer : memory = true ∨ outcome = .noMemory := by
    cases memory with
    | true => exact Or.inl rfl
    | false =>
      cases result
      exact Or.inr rfl
  refine ⟨outcome, after, result, ?_⟩
  -- By the outcome, of which only success changes the items.
  cases outcome with
  | success =>
    obtain ⟨missing, items⟩ := items
    refine ⟨⟨answer.resolve_right nofun, missing, items⟩, ?_, low⟩
    rw [items]
    exact ascending_insert sound.ascending data
  | duplicate =>
    obtain ⟨present, rfl⟩ := items
    exact ⟨⟨answer.resolve_right nofun, present, rfl⟩, sound.ascending, low⟩
  | noMemory =>
    obtain ⟨failed, rfl⟩ := items
    exact ⟨⟨failed, rfl⟩, sound.ascending, low⟩

/-- What is found in a sound tree is one of its nodes, and has the item that is looked for. -/
theorem find_spec {count : Nat} {root : Node Data} (sound : Sound compare count root) (data : Data)
    (flags : Predicate) :
    (find compare root data flags = none ∧ sought compare flags data (foreach root) = none) ∨
      ∃ n, find compare root data flags = some n ∧ n.root = root ∧
        sought compare flags data (foreach root) = some n.data := by
  -- What is found is in the tree, and its item is the one that is sought.
  obtain ⟨inTree, item⟩ := find_finds sound.ascending data flags
  cases result : find compare root data flags with
  | none =>
    rw [result] at item
    exact Or.inl ⟨rfl, item.symm⟩
  | some n =>
    rw [result] at item inTree
    exact Or.inr ⟨n, rfl, inTree n rfl, item.symm⟩

/-- An operation on a sound tree is possible, leaves it sound, and is one on its list. -/
theorem perform_spec {count : Nat} {root : Node Data} (sound : Sound compare count root)
    (operation : Operation Data) :
    ∃ reply after, perform compare root operation = some (reply, after) ∧
      ListStep compare (foreach root) operation reply (foreach after) ∧
      Sound compare (count + inserted reply) after := by
  -- By the operation: only the insertion and the removal change the tree.
  cases operation with
  | emplace data memory =>
    obtain ⟨outcome, after, result, step, sound⟩ := emplace_spec sound data memory
    exact ⟨.outcome outcome, after, by rw [perform, result]; rfl, step, sound⟩
  | find data flags =>
    exact ⟨_, root, rfl, ⟨(find_finds sound.ascending data flags).item, rfl⟩, sound⟩
  | remove data flags =>
    rcases find_spec sound data flags with ⟨result, nothing⟩ | ⟨n, result, rfl, item⟩
    · exact ⟨.item none, root, by rw [perform, result], ⟨nothing.symm, rfl⟩, sound⟩
    · have erased := remove_erases sound.ascending
      refine ⟨.item (some n.data), remove n, by rw [perform, result], ⟨item.symm, erased⟩, ?_,
        sound.low.remove⟩
      rw [erased]
      exact ascending_erase sound.ascending n.data
  | successor data flags =>
    refine ⟨_, root, rfl, ⟨?_, rfl⟩, sound⟩
    -- Nothing is found, so there is no next item to tell.
    rcases find_spec sound data flags with ⟨result, nothing⟩ | ⟨n, result, rfl, item⟩
    · rw [result, nothing]
      rfl
    · rw [result, item]
      exact nodeSuccessor_next sound.ascending
  | predecessor data flags =>
    refine ⟨_, root, rfl, ⟨?_, rfl⟩, sound⟩
    -- Nothing is found, so there is no previous item to tell.
    rcases find_spec sound data flags with ⟨result, nothing⟩ | ⟨n, result, rfl, item⟩
    · rw [result, nothing]
      rfl
    · rw [result, item]
      exact nodePredecessor_previous sound.ascending
  | first => exact ⟨_, root, rfl, ⟨first_head root, rfl⟩, sound⟩
  | last => exact ⟨_, root, rfl, ⟨last_getLast root, rfl⟩, sound⟩
  | foreach => exact ⟨_, root, rfl, ⟨rfl, rfl⟩, sound⟩

/-- Operations on a sound tree are possible, leave it sound, and are operations on its list. -/
theorem performAll_spec {count : Nat} {root : Node Data} (sound : Sound compare count root)
    (operations : List (Operation Data)) :
    ∃ replies after, performAll compare root operations = some (replies, after) ∧
      ListRun compare (foreach root) operations replies (foreach after) ∧
      Sound compare (count + (replies.map inserted).sum) after := by
  -- By induction on the operations, each of which leaves the tree sound.
  induction operations generalizing count root with
  | nil => exact ⟨[], root, rfl, rfl, sound⟩
  | cons operation rest ih =>
    obtain ⟨reply, middle, performed, step, sound⟩ := perform_spec sound operation
    obtain ⟨replies, after, performedRest, run, sound⟩ := ih sound
    refine ⟨reply :: replies, after, ?_, ⟨foreach middle, step, run⟩, ?_⟩
    · simp [performAll, performed, performedRest]
    · rwa [List.map_cons, List.sum_cons, ← Nat.add_assoc]

/-- Whatever operations are performed on an empty tree, with whatever memory there is, no assertion
fails, and the replies are those of a list in ascending order. -/
theorem ravl_refines_list (operations : List (Operation Data)) :
    ∃ replies root, performAll compare .null operations = some (replies, root) ∧
      ListRun compare [] operations replies (foreach root) := by
  obtain ⟨replies, root, performed, run, -⟩ :=
    performAll_spec (sound_null compare) operations
  exact ⟨replies, root, performed, run⟩

/-- A run of operations on numbers is one of a list in ascending order. -/
theorem ravl_refines_list_nat :
    ∃ replies root, performAll (Ord.compare : Nat → Nat → Ordering) .null
        [.emplace 2 true, .emplace 1 true, .emplace 2 true, .remove 2 .greaterEqual] =
          some (replies, root) ∧
      ListRun Ord.compare [] [.emplace 2 true, .emplace 1 true, .emplace 2 true,
        .remove 2 .greaterEqual] replies (foreach root) :=
  ravl_refines_list _

/-- Whatever operations are performed on an empty tree, the ranks of its nodes are in order, and it
has no more levels than the index of a Fibonacci number that is not greater than the number of
insertions, although removals do not balance it. -/
theorem ravl_stays_low (operations : List (Operation Data)) :
    ∃ replies root, performAll compare .null operations = some (replies, root) ∧ Ranked root ∧
      Nat.fib (levels root) ≤ (replies.map inserted).sum := by
  obtain ⟨replies, root, performed, -, sound⟩ :=
    performAll_spec (sound_null compare) operations
  rw [Nat.zero_add] at sound
  exact ⟨replies, root, performed, sound.low.ranked, sound.low.levels⟩

/-- A run of operations on numbers leaves the tree low. -/
theorem ravl_stays_low_nat :
    ∃ replies root, performAll (Ord.compare : Nat → Nat → Ordering) .null
        [.emplace 1 true, .emplace 2 true, .emplace 3 true, .remove 1 .equal] =
          some (replies, root) ∧ Ranked root ∧
      Nat.fib (levels root) ≤ (replies.map inserted).sum :=
  ravl_stays_low _

end SecretTyping.Umf.Ravl
