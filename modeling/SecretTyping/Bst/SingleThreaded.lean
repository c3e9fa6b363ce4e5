import SecretTyping.Bst.Traversals
import SecretTyping.Lib.MultisetTree

/-! The binary search tree of the single-threaded variant, which keeps duplicates. -/

namespace SecretTyping.Bst.SingleThreaded

open Memory

/-- The loop that looks for the place of a new key; the result is the node above that place. -/
def insertLoop (heap : NodeHeap) (data : Int) : Nat → Ptr → Ptr → Except Fault Ptr
  | _, none, parent => .ok parent
  | 0, some _, _ => .error .endless
  | fuel + 1, some current, _ => do
    let held ← getData heap (some current)
    if data ≤ held then
      insertLoop heap data fuel (← getLeftChild heap (some current)) (some current)
    else insertLoop heap data fuel (← getRightChild heap (some current)) (some current)

/-- Hang a new leaf below the node where the loop ended. -/
def linkLeaf (heap : NodeHeap) (parent leaf : Ptr) : Except Fault NodeHeap := do
  if (← getData heap leaf) ≤ (← getData heap parent) then setLeftChild heap parent leaf
  else setRightChild heap parent leaf

/-- Insert a key. -/
def insert (tree : BinarySearchTree) (data : Int) : Except Fault BinarySearchTree := do
  let (leaf, heap) := tree.heap.alloc (.new data)
  if tree.root = none then return ⟨some leaf, heap⟩
  else
    let parent ← insertLoop heap data (loopBound heap) tree.root none
    return ⟨tree.root, ← linkLeaf heap parent (some leaf)⟩

/-- Insert keys one after another. -/
def insertAll (tree : BinarySearchTree) : List Int → Except Fault BinarySearchTree
  | [] => .ok tree
  | data :: rest => do
    insertAll (← insert tree data) rest

/-- The loop that looks for a key. -/
def lookupLoop (heap : NodeHeap) (data : Int) : Nat → Ptr → Except Fault Bool
  | _, none => .ok false
  | 0, some _ => .error .endless
  | fuel + 1, some current => do
    let held ← getData heap (some current)
    if held = data then return true
    else if data < held then lookupLoop heap data fuel (← getLeftChild heap (some current))
    else lookupLoop heap data fuel (← getRightChild heap (some current))

/-- Whether a key is in the tree. -/
def lookup (tree : BinarySearchTree) (data : Int) : Except Fault Bool :=
  if tree.root = none then .ok false
  else lookupLoop tree.heap data (loopBound tree.heap) tree.root

/-- Write the keys below a node in order, as the benchmark tree does. -/
def inOrder (heap : NodeHeap) : Nat → Ptr → Except Fault (List Piece) :=
  Bst.inOrder heap

/-- Print the keys of a tree in order. -/
def inOrderPrint (tree : BinarySearchTree) : Except Fault (List Piece) :=
  printTraversal "In Order Print" (inOrder tree.heap (loopBound tree.heap) tree.root)

section Insertion

variable {heap : NodeHeap} {leafAddress : Nat} {data : Int}

/-- The key of a new node is read. -/
theorem getData_new (made : heap.cells leafAddress = some (.new data)) :
    getData heap (some leafAddress) = .ok data := by
  rw [getData, Heap.read_live made]
  rfl

/-- The loop ends at a node of the tree, and hanging the new leaf there puts it in its place. -/
theorem insertLoop_links {shape : Shape Int} (stored : Stored nodeLayout heap shape)
    (nodup : shape.addresses.Nodup) (made : heap.cells leafAddress = some (.new data))
    (fresh : leafAddress ∉ shape.addresses) (inner : shape ≠ .leaf) {fuel : Nat}
    (enough : shape.height < fuel) (start : Ptr) :
    ∃ parent ∈ shape.addresses, ∃ linked,
      insertLoop heap data fuel shape.ptr start = .ok (some parent) ∧
      linkLeaf heap (some parent) (some leafAddress) = .ok linked ∧
      Stored nodeLayout linked (shape.place data leafAddress) ∧
      ∀ other, other ≠ parent → linked.cells other = heap.cells other := by
  -- By induction on the tree, with the frame saying which one cell has changed.
  induction shape generalizing fuel start with
  | leaf => exact absurd rfl inner
  | node address left held right ihLeft ihRight =>
    cases fuel with
    | zero => exact absurd enough (Nat.not_lt_zero _)
    | succ fuel =>
      simp only [Shape.height] at enough
      have leftEnough : left.height < fuel := by omega
      have rightEnough : right.height < fuel := by omega
      simp only [Shape.addresses, List.mem_cons, List.mem_append, not_or] at fresh
      obtain ⟨notOwn, freshLeft, freshRight⟩ := fresh
      have apart := nodup
      simp only [Shape.addresses, List.nodup_cons, List.nodup_append] at apart
      obtain ⟨-, nodupLeft, nodupRight, -⟩ := apart
      have own := getData_stored stored
      have new := getData_new made
      simp only [Shape.ptr_node, insertLoop, own, getLeftChild_stored stored,
        getRightChild_stored stored, ok_bind, Shape.place]
      split
      · next notAbove =>
        -- Keys that are not greater go to the left, equal ones included.
        by_cases empty : left = .leaf
        · -- The loop ends here, and the node compares with the new key as it did before.
          subst empty
          obtain ⟨linked, done, after, frame⟩ := setLeftChild_leaf stored nodup made notOwn
          refine ⟨address, by simp [Shape.addresses], linked, ?_, ?_, after, frame⟩
          · cases fuel <;> rfl
          · simp only [linkLeaf, own, new, ok_bind, if_pos notAbove, done]
        · -- The loop goes on into the left subtree, and this node keeps its left child.
          obtain ⟨parent, member, linked, loop, done, storedLeft, frame⟩ :=
            ihLeft stored.2.1 nodupLeft freshLeft empty leftEnough (some address)
          refine ⟨parent, by simp [Shape.addresses, member], linked, loop, done, ?_, frame⟩
          refine stored.replaceLeft nodup storedLeft (Shape.ptr_place data leafAddress empty) ?_
          intro other outside _
          exact frame other fun same => outside (same ▸ member)
      · next above =>
        -- Greater keys go to the right.
        by_cases empty : right = .leaf
        · -- The loop ends here, with a missing right child.
          subst empty
          obtain ⟨linked, done, after, frame⟩ := setRightChild_leaf stored nodup made notOwn
          refine ⟨address, by simp [Shape.addresses], linked, ?_, ?_, after, frame⟩
          · cases fuel <;> rfl
          · simp only [linkLeaf, own, new, ok_bind, if_neg above, done]
        · -- It goes on into the right subtree.
          obtain ⟨parent, member, linked, loop, done, storedRight, frame⟩ :=
            ihRight stored.2.2 nodupRight freshRight empty rightEnough (some address)
          refine ⟨parent, by simp [Shape.addresses, member], linked, loop, done, ?_, frame⟩
          refine stored.replaceRight nodup storedRight (Shape.ptr_place data leafAddress empty) ?_
          intro other outside _
          exact frame other fun same => outside (same ▸ member)

end Insertion

/-- The heap of a tree holds a tree with equal keys to the left, without shared nodes. -/
structure Represents (tree : BinarySearchTree) (shape : Shape Int) : Prop where
  holds : Holds tree shape
  ordered : shape.WeaklyOrdered

variable {tree : BinarySearchTree} {shape : Shape Int}

/-- An insertion puts a new leaf in its place. -/
theorem insert_represents (represents : Represents tree shape) (data : Int) :
    ∃ after, insert tree data = .ok after ∧
      Represents after (shape.place data tree.heap.next) := by
  obtain ⟨⟨root, stored, nodup⟩, ordered⟩ := represents
  let grown : NodeHeap := (tree.heap.alloc (.new data)).2
  have fresh : tree.heap.next ∉ shape.addresses := fun member =>
    absurd (stored.lt_next member) (lt_irrefl _)
  have made : grown.cells tree.heap.next = some (.new data) := Heap.alloc_same ..
  -- The allocation does not touch the tree.
  have older : ∀ address ∈ shape.addresses, grown.cells address = tree.heap.cells address := by
    intro address member
    have before := stored.lt_next member
    exact Heap.alloc_other _ (by omega) _
  have storedGrown : Stored nodeLayout grown shape := stored.congr older
  have nodupAfter := Shape.nodup_place data tree.heap.next nodup fresh
  have orderedAfter := Shape.place_weaklyOrdered data tree.heap.next ordered
  by_cases empty : shape = .leaf
  · -- The new node is the root of an empty tree.
    subst empty
    have noRoot : tree.root = none := root
    refine ⟨⟨some tree.heap.next, grown⟩, ?_, ⟨rfl, new_stored made, nodupAfter⟩, orderedAfter⟩
    simp only [insert, if_pos noRoot]
    rfl
  · -- Otherwise it is linked below the node where the loop ends.
    have someRoot : tree.root ≠ none := by
      rw [root]
      cases shape with
      | leaf => exact absurd rfl empty
      | node => simp
    have enough : shape.height < loopBound grown :=
      Nat.lt_succ_of_le (storedGrown.height_le nodup)
    obtain ⟨parent, -, linked, loop, done, storedAfter, -⟩ :=
      insertLoop_links storedGrown nodup made fresh empty enough none
    rw [← root] at loop
    have rootAfter := root.trans (Shape.ptr_place data tree.heap.next empty).symm
    refine ⟨⟨tree.root, linked⟩, ?_, ⟨rootAfter, storedAfter, nodupAfter⟩, orderedAfter⟩
    simp only [insert, if_neg someRoot]
    show (insertLoop grown data (loopBound grown) tree.root none >>= _) = _
    rw [loop]
    show (linkLeaf grown (some parent) (some tree.heap.next) >>= _) = _
    rw [done]
    rfl

/-- A run of insertions adds all keys inserted, repeated ones included. -/
theorem insertAll_represents (represents : Represents tree shape) (inserted : List Int) :
    ∃ after rest, insertAll tree inserted = .ok after ∧ Represents after rest ∧
      rest.keys.Perm (shape.keys ++ inserted) := by
  -- By induction on the keys, each of which is inserted into a represented tree.
  induction inserted generalizing tree shape with
  | nil => exact ⟨tree, shape, rfl, represents, by simp⟩
  | cons data inserted ih =>
    obtain ⟨middle, done, again⟩ := insert_represents represents data
    obtain ⟨after, rest, run, last, keys⟩ := ih again
    refine ⟨after, rest, ?_, last, keys.trans ?_⟩
    · simp only [insertAll, done, ok_bind]
      exact run
    · have added := (shape.keys_place data tree.heap.next).append_right inserted
      exact added.trans List.perm_middle.symm

/-- The loop of a search makes the comparisons of the search in the tree that its heap holds. -/
theorem lookupLoop_stored {heap : NodeHeap} (stored : Stored nodeLayout heap shape) (data : Int)
    {fuel : Nat} (enough : shape.height < fuel) :
    lookupLoop heap data fuel shape.ptr = .ok (shape.contains data) := by
  -- By induction on the tree, with fuel for one more level than it has.
  induction shape generalizing fuel with
  | leaf => cases fuel <;> rfl
  | node address left held right ihLeft ihRight =>
    cases fuel with
    | zero => exact absurd enough (Nat.not_lt_zero _)
    | succ fuel =>
      simp only [Shape.height] at enough
      simp only [Shape.ptr_node, lookupLoop, getData_stored stored, getLeftChild_stored stored,
        getRightChild_stored stored, ok_bind, Shape.contains]
      -- The loop stops here or goes on into one subtree.
      split
      · rfl
      · split
        · exact ihLeft stored.2.1 (by omega)
        · exact ihRight stored.2.2 (by omega)

/-- A search in a represented tree finds exactly its keys. -/
theorem lookup_represents (represents : Represents tree shape) (data : Int) :
    lookup tree data = .ok (decide (data ∈ shape.keys)) := by
  have found : shape.contains data = decide (data ∈ shape.keys) := by
    rw [Bool.eq_iff_iff, decide_eq_true_iff]
    exact Shape.contains_iff data represents.ordered
  have bounded := represents.holds.bounded
  obtain ⟨⟨root, stored, -⟩, -⟩ := represents
  rw [← found, lookup]
  split
  · next noRoot =>
    -- Without a root the tree is empty.
    cases shape with
    | leaf => rfl
    | node => exact absurd (root.symm.trans noRoot) (by simp)
  · rw [root]
    exact lookupLoop_stored stored data bounded

/-- After any insertions into an empty tree, a search finds exactly the keys inserted, and the keys
printed in order are those inserted, as often as they were, without a descent. -/
theorem insertAll_multiset (inserted : List Int) :
    ∃ tree pieces, insertAll .new inserted = .ok tree ∧
      (∀ data, lookup tree data = .ok (decide (data ∈ inserted))) ∧
      inOrderPrint tree = .ok pieces ∧ (writtenKeys pieces).Pairwise (· ≤ ·) ∧
      (writtenKeys pieces).Perm inserted := by
  -- Both results are read off the shape that is represented.
  have start : Represents .new .leaf := ⟨⟨rfl, trivial, .nil⟩, trivial⟩
  obtain ⟨tree, shape, run, represents, keys⟩ := insertAll_represents start inserted
  obtain ⟨pieces, printed, inKeys⟩ := inOrderPrint_holds represents.holds
  refine ⟨tree, pieces, run, fun data => ?_, printed, ?_, ?_⟩
  · rw [lookup_represents represents]
    exact congrArg Except.ok (decide_eq_decide.mpr keys.mem_iff)
  · rw [inKeys]
    exact Shape.inOrder_monotone represents.ordered
  · rw [inKeys]
    exact shape.inOrder_perm.trans keys

end SecretTyping.Bst.SingleThreaded
