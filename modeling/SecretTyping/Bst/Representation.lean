import SecretTyping.Bst.BinarySearch

/-! Every call on the benchmark tree works on a tree laid out in its heap. -/

namespace SecretTyping.Bst

open Memory

/-- The heap of a tree holds an ordered binary tree without shared nodes at its root. -/
structure Represents (tree : BinarySearchTree) (shape : Shape Int) : Prop where
  root : tree.root = shape.ptr
  stored : Stored nodeLayout tree.heap shape
  nodup : shape.addresses.Nodup
  ordered : shape.Ordered

/-- A represented tree is shallower than the bound of its loops. -/
theorem Represents.bounded {tree : BinarySearchTree} {shape : Shape Int}
    (represents : Represents tree shape) : shape.height < loopBound tree.heap :=
  Nat.lt_succ_of_le (represents.stored.height_le represents.nodup)

section Reading

variable {heap : NodeHeap} {address : Nat} {left right : Shape Int} {key : Int}
  (stored : Stored nodeLayout heap (.node address left key right))

include stored

/-- The key of a stored node is read. -/
theorem getData_stored : getData heap (some address) = .ok key := by
  -- A stored node is live, and its cell holds its key.
  obtain ⟨⟨cell, live, held, _⟩, _⟩ := stored
  rw [getData, Heap.read_live live, ← held]
  rfl

/-- The left child of a stored node is the root of its left subtree. -/
theorem getLeftChild_stored : getLeftChild heap (some address) = .ok left.ptr := by
  -- A stored node is live, and its cell points to its left subtree.
  obtain ⟨⟨cell, live, _, held, _⟩, _⟩ := stored
  rw [getLeftChild, Heap.read_live live, ← held]
  rfl

/-- The right child of a stored node is the root of its right subtree. -/
theorem getRightChild_stored : getRightChild heap (some address) = .ok right.ptr := by
  -- A stored node is live, and its cell points to its right subtree.
  obtain ⟨⟨cell, live, _, _, held⟩, _⟩ := stored
  rw [getRightChild, Heap.read_live live, ← held]
  rfl

/-- Writing the left child a node has already changes nothing. -/
theorem setLeftChild_same : setLeftChild heap (some address) left.ptr = .ok heap := by
  -- The cell written is the one that was read.
  obtain ⟨⟨cell, live, _, held, _⟩, _⟩ := stored
  have same : { cell with leftChild := left.ptr } = cell := by
    rw [← held]
    rfl
  rw [setLeftChild, Heap.modify_live live, same, Heap.put_self live]

/-- Writing the right child a node has already changes nothing. -/
theorem setRightChild_same : setRightChild heap (some address) right.ptr = .ok heap := by
  -- The cell written is the one that was read.
  obtain ⟨⟨cell, live, _, _, held⟩, _⟩ := stored
  have same : { cell with rightChild := right.ptr } = cell := by
    rw [← held]
    rfl
  rw [setRightChild, Heap.modify_live live, same, Heap.put_self live]

end Reading

/-- The level where the search for a key ends. -/
def searchLevel (data : Int) : Shape Int → Nat → Nat
  | .leaf, level => level
  | .node _ left key right, level =>
    if key = data then level
    else if data < key then searchLevel data left (level + 1)
    else searchLevel data right (level + 1)

/-- The counting search ends at its level. -/
theorem lookupLoop_stored {heap : NodeHeap} {shape : Shape Int}
    (stored : Stored nodeLayout heap shape) (data : Int) {fuel : Nat}
    (enough : shape.height < fuel) (level : Nat) :
    lookupLoop heap data fuel shape.ptr level = .ok (searchLevel data shape level) := by
  -- By induction on the tree, with fuel for one more level than it has.
  induction shape generalizing fuel level with
  | leaf =>
    cases fuel <;> rfl
  | node address left key right ihLeft ihRight =>
    cases fuel with
    | zero => exact absurd enough (Nat.not_lt_zero _)
    | succ fuel =>
      simp only [Shape.height] at enough
      have leftEnough : left.height < fuel := by omega
      have rightEnough : right.height < fuel := by omega
      simp only [Shape.ptr_node, lookupLoop, getData_stored stored, getLeftChild_stored stored,
        getRightChild_stored stored, Bind.bind, Except.bind, searchLevel]
      -- The loop stops here or goes on into one subtree.
      split
      · rfl
      · split
        · exact ihLeft stored.2.1 leftEnough (level + 1)
        · exact ihRight stored.2.2 rightEnough (level + 1)

/-- The idle search ends. -/
theorem updateLoop_stored {heap : NodeHeap} {shape : Shape Int}
    (stored : Stored nodeLayout heap shape) (data : Int) {fuel : Nat}
    (enough : shape.height < fuel) : updateLoop heap data fuel shape.ptr = .ok () := by
  -- By induction on the tree, with fuel for one more level than it has.
  induction shape generalizing fuel with
  | leaf =>
    cases fuel <;> rfl
  | node address left key right ihLeft ihRight =>
    cases fuel with
    | zero => exact absurd enough (Nat.not_lt_zero _)
    | succ fuel =>
      simp only [Shape.height] at enough
      have leftEnough : left.height < fuel := by omega
      have rightEnough : right.height < fuel := by omega
      simp only [Shape.ptr_node, updateLoop, getData_stored stored, getLeftChild_stored stored,
        getRightChild_stored stored, Bind.bind, Except.bind]
      -- The loop stops here or goes on into one subtree.
      split
      · rfl
      · split
        · exact ihLeft stored.2.1 leftEnough
        · exact ihRight stored.2.2 rightEnough

/-- The recursion behind the depth computes the height. -/
theorem getDepthHelper_stored {heap : NodeHeap} {shape : Shape Int}
    (stored : Stored nodeLayout heap shape) {fuel : Nat} (enough : shape.height < fuel) :
    getDepthHelper heap fuel shape.ptr = .ok shape.height := by
  -- By induction on the tree, both of whose subtrees are shallower.
  induction shape generalizing fuel with
  | leaf =>
    cases fuel <;> rfl
  | node address left key right ihLeft ihRight =>
    cases fuel with
    | zero => exact absurd enough (Nat.not_lt_zero _)
    | succ fuel =>
      simp only [Shape.height] at enough
      have leftEnough : left.height < fuel := by omega
      have rightEnough : right.height < fuel := by omega
      have leftDepth := ihLeft stored.2.1 leftEnough
      have rightDepth := ihRight stored.2.2 rightEnough
      simp only [Shape.ptr_node, getDepthHelper, getLeftChild_stored stored,
        getRightChild_stored stored, Bind.bind, Except.bind, leftDepth, rightDepth]
      rfl

/-- Deleting a key greater than all others finds nothing and changes nothing. -/
theorem deleteHelper_greater {heap : NodeHeap} {shape : Shape Int}
    (stored : Stored nodeLayout heap shape) {data : Int} (greater : ∀ key ∈ shape.keys, key < data)
    {fuel : Nat} (enough : shape.height < fuel) (parent : Ptr) :
    deleteHelper heap fuel parent shape.ptr data = .ok (shape.ptr, heap) := by
  -- By induction on the tree, along its right border.
  induction shape generalizing fuel parent with
  | leaf =>
    cases fuel <;> rfl
  | node address left key right ihLeft ihRight =>
    cases fuel with
    | zero => exact absurd enough (Nat.not_lt_zero _)
    | succ fuel =>
      simp only [Shape.height] at enough
      have rightEnough : right.height < fuel := by omega
      have here : key < data := greater key (by simp [Shape.keys])
      have greaterRight : ∀ k ∈ right.keys, k < data := by
        intro k member
        exact greater k (by simp [Shape.keys, member])
      have below := ihRight stored.2.2 greaterRight rightEnough (some address)
      -- The recursion only ever goes to the right.
      simp only [Shape.ptr_node, deleteHelper, getData_stored stored, getRightChild_stored stored,
        Bind.bind, Except.bind]
      rw [if_neg (by omega), if_pos here, below]
      simp only [setRightChild_same stored]
      rfl

end SecretTyping.Bst
