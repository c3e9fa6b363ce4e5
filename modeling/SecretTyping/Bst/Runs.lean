import SecretTyping.Bst.Insertion

/-! Every run of calls on the benchmark tree ends without fault on a well-formed tree. -/

namespace SecretTyping.Bst

open Memory

/-- What a removal leaves: nothing when the key is at the root, and otherwise everything. -/
def afterRemove (data : Int) : Shape Int → Shape Int
  | .leaf => .leaf
  | .node address left held right =>
    if held = data then .leaf else .node address left held right

/-- The empty tree is represented by every tree without a root. -/
theorem represents_leaf {tree : BinarySearchTree} (noRoot : tree.root = none) :
    Represents tree .leaf :=
  ⟨noRoot, trivial, List.nodup_nil, trivial⟩

/-- A removal ends, and it drops the whole tree or nothing. -/
theorem remove_represents {tree : BinarySearchTree} {shape : Shape Int}
    (represents : Represents tree shape) (data : Int) :
    ∃ after, remove tree data = .ok after ∧ Represents after (afterRemove data shape) := by
  -- A key at the root, on the left and on the right is treated in three ways.
  obtain ⟨root, heap⟩ := tree
  obtain ⟨rootEq, stored, nodup, ordered⟩ := represents
  cases shape with
  -- There is nothing to remove from an empty tree.
  | leaf =>
    have noRoot : root = none := rootEq
    refine ⟨⟨root, heap⟩, ?_, represents_leaf noRoot⟩
    simp only [remove, if_pos noRoot]
    rfl
  | node address left held right =>
    have someRoot : root = some address := rootEq
    subst someRoot
    have read : getData heap (some address) = .ok held := getData_stored stored
    rw [afterRemove]
    by_cases same : held = data
    · -- The root is deleted, and all that hangs below it is no longer reachable.
      have own : address ∈ (Shape.node address left held right).addresses := List.mem_cons_self
      obtain ⟨cell, live⟩ := stored.live own
      have freed := Heap.free_live live
      refine ⟨⟨none, heap.kill address⟩, ?_, ?_⟩
      · simp only [remove, read, freed, Bind.bind, Except.bind, if_pos same]
        rfl
      · rw [if_pos same]
        exact represents_leaf rfl
    · rw [if_neg same]
      refine ⟨⟨some address, heap⟩, ?_, rfl, stored, nodup, ordered⟩
      by_cases below : held < data
      · -- Greater keys are looked for on the left, where all keys are smaller than the root's.
        have greater : ∀ key ∈ left.keys, key < data := fun key member =>
          lt_trans (ordered.1 key member) below
        have enough : left.height < loopBound heap := by
          have bound := stored.height_le nodup
          simp only [Shape.height] at bound
          simp only [loopBound]
          omega
        have nothing := deleteHelper_greater stored.2.1 greater enough (some address)
        simp only [remove, read, getLeftChild_stored stored, nothing, setLeftChild_same stored,
          Bind.bind, Except.bind, if_neg same, if_pos below]
        rfl
      · -- Smaller keys are not looked for at all, as the second test repeats the first.
        simp only [remove, read, Bind.bind, Except.bind, if_neg same, if_neg below]
        rfl

/-- The keys of a tree after a call. -/
def shapeAfter (tree : BinarySearchTree) (shape : Shape Int) : Operation → Shape Int
  | .insert data => shape.insert data tree.heap.next
  | .remove data => afterRemove data shape
  | .lookup _ | .update _ | .getDepth => shape

/-- Every call ends, on a tree that is represented again. -/
theorem perform_represents {tree : BinarySearchTree} {shape : Shape Int}
    (represents : Represents tree shape) (operation : Operation) :
    ∃ result after, perform tree operation = .ok (result, after) ∧
      Represents after (shapeAfter tree shape operation) := by
  -- A represented tree gives every loop the fuel it needs.
  have enough := represents.bounded
  cases operation with
  -- An insertion counts the levels down to the place of its key.
  | insert data =>
    obtain ⟨after, done, again, -⟩ := insert_represents represents data
    refine ⟨some (searchLevel data shape 0), after, ?_, again⟩
    simp only [perform, done, Bind.bind, Except.bind]
    rfl
  | remove data =>
    obtain ⟨after, done, again⟩ := remove_represents represents data
    refine ⟨none, after, ?_, again⟩
    simp only [perform, done, Bind.bind, Except.bind]
    rfl
  -- A lookup leaves the tree as it is, and so do the calls below.
  | lookup data =>
    have done := lookupLoop_stored represents.stored data enough 0
    rw [← represents.root] at done
    refine ⟨some (searchLevel data shape 0), tree, ?_, represents⟩
    simp only [perform, lookup, done, Bind.bind, Except.bind]
    rfl
  | update data =>
    have done := updateLoop_stored represents.stored data enough
    rw [← represents.root] at done
    refine ⟨none, tree, ?_, represents⟩
    simp only [perform, update, done, Bind.bind, Except.bind]
    rfl
  | getDepth =>
    have done := getDepthHelper_stored represents.stored enough
    rw [← represents.root] at done
    refine ⟨some shape.height, tree, ?_, represents⟩
    simp only [perform, getDepth, done, Bind.bind, Except.bind]
    rfl

/-- Every run from a represented tree ends on one. -/
theorem runOperations_represents {tree : BinarySearchTree} {shape : Shape Int}
    (represents : Represents tree shape) (operations : List Operation) :
    ∃ after rest, runOperations tree operations = .ok after ∧ Represents after rest := by
  -- By induction on the calls, each of which leaves a represented tree.
  induction operations generalizing tree shape with
  | nil => exact ⟨tree, shape, rfl, represents⟩
  | cons operation operations ih =>
    obtain ⟨result, middle, done, again⟩ := perform_represents represents operation
    obtain ⟨after, rest, run, last⟩ := ih again
    refine ⟨after, rest, ?_, last⟩
    simp only [runOperations, done, Bind.bind, Except.bind]
    exact run

/-- Every run of calls from the empty tree goes through without touching a deleted node or null, and
what it leaves is a finite ordered tree of live nodes without sharing. -/
theorem runOperations_wellFormed (operations : List Operation) :
    ∃ tree, runOperations .new operations = .ok tree ∧
      WellFormed nodeLayout tree.heap tree.root := by
  -- The run starts from the empty tree, which is represented.
  obtain ⟨tree, shape, run, represents⟩ :=
    runOperations_represents (represents_leaf rfl : Represents .new .leaf) operations
  refine ⟨tree, run, ?_⟩
  rw [represents.root]
  exact represents.stored.wellFormed represents.ordered represents.nodup

end SecretTyping.Bst
