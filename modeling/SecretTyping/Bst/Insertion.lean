import SecretTyping.Lib.SearchTree
import SecretTyping.Bst.Representation

/-! Inserting into the benchmark tree is ordered insertion into the tree its heap holds. -/

namespace SecretTyping.Bst

open Memory

/-- How the descent for a new key ends in a tree. -/
def descend (data : Int) : Shape Int → Ptr → Nat → Descent
  | .leaf, parent, level => .fell parent level
  | .node address left held right, _, level =>
    if data < held then descend data left (some address) (level + 1)
    else if data > held then descend data right (some address) (level + 1)
    else .found level

/-- The loop of an insertion descends the tree that its heap holds. -/
theorem insertLoop_stored {heap : NodeHeap} {shape : Shape Int}
    (stored : Stored nodeLayout heap shape) (data : Int) {fuel : Nat}
    (enough : shape.height < fuel) (parent : Ptr) (level : Nat) :
    insertLoop heap data fuel shape.ptr parent level = .ok (descend data shape parent level) := by
  -- By induction on the tree, with fuel for one more level than it has.
  induction shape generalizing fuel parent level with
  | leaf =>
    cases fuel <;> rfl
  | node address left key right ihLeft ihRight =>
    cases fuel with
    | zero => exact absurd enough (Nat.not_lt_zero _)
    | succ fuel =>
      simp only [Shape.height] at enough
      have leftEnough : left.height < fuel := by omega
      have rightEnough : right.height < fuel := by omega
      simp only [Shape.ptr_node, insertLoop, getData_stored stored, getLeftChild_stored stored,
        getRightChild_stored stored, Bind.bind, Except.bind, descend]
      -- Both sides go the same way at this node.
      split
      · exact ihLeft stored.2.1 leftEnough (some address) (level + 1)
      · split
        · exact ihRight stored.2.2 rightEnough (some address) (level + 1)
        · -- The key is here, and the loop ends.
          rfl

/-- Where the descent finds the key, ordered insertion changes nothing. -/
theorem insert_of_found {data : Int} {shape : Shape Int} {parent : Ptr} {level reached : Nat}
    (found : descend data shape parent level = .found reached) (leafAddress : Nat) :
    shape.insert data leafAddress = shape := by
  -- By induction on the tree: both make the same comparisons on their way down.
  induction shape generalizing parent level with
  | leaf => cases found
  | node address left held right ihLeft ihRight =>
    rw [descend] at found
    rw [Shape.insert]
    split at found
    · next below => rw [if_pos below, ihLeft found]
    · next notBelow =>
      split at found
      · next above => rw [if_neg notBelow, if_pos above, ihRight found]
      · next notAbove => rw [if_neg notBelow, if_neg notAbove]

section Linking

variable {heap : NodeHeap} {leafAddress : Nat} {data : Int}

/-- A node without children is a stored tree of its own. -/
theorem new_stored (made : heap.cells leafAddress = some (.new data)) :
    Stored nodeLayout heap (.node leafAddress .leaf data .leaf) :=
  ⟨⟨.new data, made, rfl, rfl, rfl⟩, trivial, trivial⟩

/-- A new leaf is written as the left child of a node that has nothing there. -/
theorem setLeftChild_leaf {address : Nat} {held : Int} {right : Shape Int}
    (stored : Stored nodeLayout heap (.node address .leaf held right))
    (nodup : (Shape.node address .leaf held right).addresses.Nodup)
    (made : heap.cells leafAddress = some (.new data)) (fresh : leafAddress ≠ address) :
    ∃ linked, setLeftChild heap (some address) (some leafAddress) = .ok linked ∧
      Stored nodeLayout linked (.node address (.node leafAddress .leaf data .leaf) held right) ∧
      ∀ other, other ≠ address → linked.cells other = heap.cells other := by
  -- Only the cell of the node is written, and its subtree does not hold it again.
  obtain ⟨⟨cell, live, heldKey, toLeft, toRight⟩, -, storedRight⟩ := stored
  let linkedCell : BinaryNode := { cell with leftChild := some leafAddress }
  have notRight : address ∉ right.addresses := by
    simp only [Shape.addresses, List.nil_append, List.nodup_cons] at nodup
    exact nodup.1
  refine ⟨heap.put address linkedCell, Heap.modify_live live _, ⟨?_, ?_, ?_⟩, ?_⟩
  · -- The node is as it was, but for its left child.
    exact ⟨linkedCell, Heap.put_same live _, heldKey, rfl, toRight⟩
  · -- The new leaf has been made before, at an address of its own.
    exact new_stored ((Heap.put_other heap fresh _).trans made)
  · -- The nodes on the right are other nodes than the one that was written.
    refine storedRight.congr fun other member => Heap.put_other heap ?_ _
    intro same
    exact notRight (same ▸ member)
  · exact fun other apart => Heap.put_other heap apart _

/-- A new leaf is written as the right child of a node that has nothing there. -/
theorem setRightChild_leaf {address : Nat} {held : Int} {left : Shape Int}
    (stored : Stored nodeLayout heap (.node address left held .leaf))
    (nodup : (Shape.node address left held .leaf).addresses.Nodup)
    (made : heap.cells leafAddress = some (.new data)) (fresh : leafAddress ≠ address) :
    ∃ linked, setRightChild heap (some address) (some leafAddress) = .ok linked ∧
      Stored nodeLayout linked (.node address left held (.node leafAddress .leaf data .leaf)) ∧
      ∀ other, other ≠ address → linked.cells other = heap.cells other := by
  -- Only the cell of the node is written, and its subtree does not hold it again.
  obtain ⟨⟨cell, live, heldKey, toLeft, toRight⟩, storedLeft, -⟩ := stored
  let linkedCell : BinaryNode := { cell with rightChild := some leafAddress }
  have notLeft : address ∉ left.addresses := by
    simp only [Shape.addresses, List.append_nil, List.nodup_cons] at nodup
    exact nodup.1
  refine ⟨heap.put address linkedCell, Heap.modify_live live _, ⟨?_, ?_, ?_⟩, ?_⟩
  · exact ⟨linkedCell, Heap.put_same live _, heldKey, toLeft, rfl⟩
  · -- The nodes on the left are other nodes than the one that was written.
    refine storedLeft.congr fun other member => Heap.put_other heap ?_ _
    intro same
    exact notLeft (same ▸ member)
  · exact new_stored ((Heap.put_other heap fresh _).trans made)
  · exact fun other apart => Heap.put_other heap apart _

/-- Hanging a new leaf below the left of a node that has nothing there. -/
theorem linkLeaf_left {address : Nat} {held : Int} {right : Shape Int}
    (stored : Stored nodeLayout heap (.node address .leaf held right))
    (nodup : (Shape.node address .leaf held right).addresses.Nodup)
    (made : heap.cells leafAddress = some (.new data)) (fresh : leafAddress ≠ address)
    (below : data < held) :
    ∃ linked, linkLeaf heap data (some address) (some leafAddress) = .ok linked ∧
      Stored nodeLayout linked (.node address (.node leafAddress .leaf data .leaf) held right) ∧
      ∀ other, other ≠ address → linked.cells other = heap.cells other := by
  -- The node compares with the new key once more, and the leaf is written to its left.
  have read := getData_stored stored
  obtain ⟨linked, done, after, frame⟩ := setLeftChild_leaf stored nodup made fresh
  refine ⟨linked, ?_, after, frame⟩
  simp only [linkLeaf, read, Bind.bind, Except.bind, if_pos below, done]

/-- Hanging a new leaf below the right of a node that has nothing there. -/
theorem linkLeaf_right {address : Nat} {held : Int} {left : Shape Int}
    (stored : Stored nodeLayout heap (.node address left held .leaf))
    (nodup : (Shape.node address left held .leaf).addresses.Nodup)
    (made : heap.cells leafAddress = some (.new data)) (fresh : leafAddress ≠ address)
    (above : held < data) :
    ∃ linked, linkLeaf heap data (some address) (some leafAddress) = .ok linked ∧
      Stored nodeLayout linked (.node address left held (.node leafAddress .leaf data .leaf)) ∧
      ∀ other, other ≠ address → linked.cells other = heap.cells other := by
  -- The node compares with the new key once more, and the leaf is written to its right.
  have read := getData_stored stored
  have notBelow : ¬ data < held := by omega
  obtain ⟨linked, done, after, frame⟩ := setRightChild_leaf stored nodup made fresh
  refine ⟨linked, ?_, after, frame⟩
  simp only [linkLeaf, read, Bind.bind, Except.bind, if_neg notBelow, done]

/-- Below a node, the descent for a key that is not there ends at a node of the tree, and hanging
the new leaf there is ordered insertion. -/
theorem linkLeaf_stored {shape : Shape Int} (stored : Stored nodeLayout heap shape)
    (nodup : shape.addresses.Nodup) (made : heap.cells leafAddress = some (.new data))
    (fresh : leafAddress ∉ shape.addresses) (inner : shape ≠ .leaf) {start parent : Ptr}
    {level reached : Nat} (fell : descend data shape start level = .fell parent reached) :
    ∃ address ∈ shape.addresses, ∃ linked,
      linkLeaf heap data parent (some leafAddress) = .ok linked ∧
      Stored nodeLayout linked (shape.insert data leafAddress) ∧
      ∀ other, other ≠ address → linked.cells other = heap.cells other := by
  -- By induction on the tree, with the frame saying which one cell has changed.
  induction shape generalizing start level with
  | leaf => exact absurd rfl inner
  | node address left held right ihLeft ihRight =>
    have freshAll := fresh
    simp only [Shape.addresses, List.mem_cons, List.mem_append, not_or] at fresh
    obtain ⟨notOwn, freshLeft, freshRight⟩ := fresh
    have nodupAll := nodup
    simp only [Shape.addresses, List.nodup_cons, List.nodup_append] at nodup
    obtain ⟨-, nodupLeft, nodupRight, -⟩ := nodup
    rw [descend] at fell
    split at fell
    · next below =>
      rw [Shape.insert, if_pos below]
      by_cases empty : left = .leaf
      · -- The descent ends here, on the left.
        subst empty
        cases fell
        obtain ⟨linked, done, held', frame⟩ := linkLeaf_left stored nodupAll made notOwn below
        exact ⟨address, by simp [Shape.addresses], linked, done, held', frame⟩
      · -- The leaf is linked further down, and this node keeps its left child, which is not empty.
        obtain ⟨place, member, linked, done, storedLeft, frame⟩ :=
          ihLeft stored.2.1 nodupLeft freshLeft empty fell
        refine ⟨place, by simp [Shape.addresses, member], linked, done, ?_, frame⟩
        refine stored.replaceLeft nodupAll storedLeft (Shape.ptr_insert data leafAddress empty) ?_
        intro other outside _
        exact frame other fun same => outside (same ▸ member)
    · next notBelow =>
      split at fell
      · next above =>
        rw [Shape.insert, if_neg notBelow, if_pos above]
        by_cases empty : right = .leaf
        · -- The descent ends here, on the right.
          subst empty
          cases fell
          obtain ⟨linked, done, held', frame⟩ := linkLeaf_right stored nodupAll made notOwn above
          exact ⟨address, by simp [Shape.addresses], linked, done, held', frame⟩
        · -- The leaf is linked further down on the right.
          obtain ⟨place, member, linked, done, storedRight, frame⟩ :=
            ihRight stored.2.2 nodupRight freshRight empty fell
          refine ⟨place, by simp [Shape.addresses, member], linked, done, ?_, frame⟩
          refine stored.replaceRight nodupAll storedRight
            (Shape.ptr_insert data leafAddress empty) ?_
          intro other outside _
          exact frame other fun same => outside (same ▸ member)
      · -- The key is here, so the descent would not have fallen.
        cases fell

end Linking

/-- A cell that was just allocated can be deleted, which leaves all cells as they were. -/
theorem free_alloc {Cell : Type} (heap : Heap Cell) (cell : Cell) :
    ∃ freed, (heap.alloc cell).2.free (some heap.next) = .ok freed ∧
      freed.cells = heap.cells := by
  refine ⟨_, Heap.free_live (Heap.alloc_same heap cell), funext fun address => ?_⟩
  -- The new cell is the only one that differs, and it is gone again.
  by_cases same : address = heap.next
  · rw [same, Heap.kill_same, heap.beyond heap.next (Nat.le_refl _)]
  · rw [Heap.kill_other _ same, Heap.alloc_other heap same]

/-- The level that a descent has counted to. -/
def Descent.level : Descent → Nat
  | .found level | .fell _ level => level

/-- The descent for a new key counts to the level where the search for the key ends. -/
theorem descend_level (data : Int) (shape : Shape Int) (parent : Ptr) (level : Nat) :
    (descend data shape parent level).level = searchLevel data shape level := by
  -- By induction on the tree: both compare the same two keys at each node.
  induction shape generalizing parent level with
  | leaf => rfl
  | node address left held right ihLeft ihRight =>
    rw [descend, searchLevel]
    rcases lt_trichotomy data held with below | same | above
    · rw [if_pos below, if_neg (by omega), if_pos below]
      exact ihLeft (some address) (level + 1)
    · rw [if_neg (by omega), if_neg (by omega), if_pos same.symm]
      rfl
    · rw [if_neg (by omega), if_pos above, if_neg (by omega), if_neg (by omega)]
      exact ihRight (some address) (level + 1)

/-- In an ordered tree, a descent that falls off the tree has missed no key. -/
theorem not_mem_of_fell {data : Int} {shape : Shape Int} (ordered : shape.Ordered)
    {start parent : Ptr} {level reached : Nat}
    (fell : descend data shape start level = .fell parent reached) : data ∉ shape.keys := by
  -- By induction on the tree: the key could only be on the side that the descent takes.
  induction shape generalizing start level with
  | leaf => simp [Shape.keys]
  | node address left held right ihLeft ihRight =>
    obtain ⟨smaller, greater, orderedLeft, orderedRight⟩ := ordered
    rw [descend] at fell
    simp only [Shape.keys, List.mem_cons, List.mem_append, not_or]
    split at fell
    · next below =>
      -- A smaller key is not among those on the right.
      refine ⟨by omega, ihLeft orderedLeft fell, fun member => ?_⟩
      exact absurd (greater data member) (by omega)
    · next notBelow =>
      split at fell
      · next above =>
        -- A greater key is not among those on the left.
        refine ⟨by omega, fun member => ?_, ihRight orderedRight fell⟩
        exact absurd (smaller data member) (by omega)
      · cases fell

/-- An insertion ends at the level where the search for its key ends, on the tree that ordered
insertion leaves; where the key exists, no cell of the tree has changed. -/
theorem insert_represents {tree : BinarySearchTree} {shape : Shape Int}
    (represents : Represents tree shape) (data : Int) :
    ∃ after, insert tree data = .ok (searchLevel data shape 0, after) ∧
      Represents after (shape.insert data tree.heap.next) ∧
      (data ∈ shape.keys → after.root = tree.root ∧ after.heap.cells = tree.heap.cells) := by
  obtain ⟨root, stored, nodup, ordered⟩ := represents
  let grown : NodeHeap := (tree.heap.alloc (.new data)).2
  have fresh : tree.heap.next ∉ shape.addresses := fun member =>
    absurd (stored.lt_next member) (lt_irrefl _)
  have made : grown.cells tree.heap.next = some (.new data) := Heap.alloc_same ..
  -- The allocation does not touch the tree.
  have older : ∀ address ∈ shape.addresses, grown.cells address = tree.heap.cells address := by
    intro address member
    have before := stored.lt_next member
    exact Heap.alloc_other _ (by omega) _
  have storedGrown : Stored nodeLayout grown shape := stored.congr older
  have nodupAfter := Shape.nodup_insert data tree.heap.next nodup fresh
  have orderedAfter := Shape.insert_ordered data tree.heap.next ordered
  by_cases empty : shape = .leaf
  · -- The new node is the root of an empty tree.
    subst empty
    have noRoot : tree.root = none := root
    refine ⟨⟨some tree.heap.next, grown⟩, ?_, ⟨rfl, new_stored made, nodupAfter, orderedAfter⟩,
      fun member => by simp [Shape.keys] at member⟩
    simp only [insert, if_pos noRoot]
    rfl
  · -- The loop runs through the grown heap, in which the tree is as it was.
    have someRoot : tree.root ≠ none := by
      rw [root]
      cases shape with
      | leaf => exact absurd rfl empty
      | node => simp
    have enough : shape.height < loopBound grown :=
      Nat.lt_succ_of_le (storedGrown.height_le nodup)
    have loop := insertLoop_stored storedGrown data enough none 0
    rw [← root] at loop
    have rootAfter := Shape.ptr_insert data tree.heap.next empty
    have counted := descend_level data shape none 0
    cases ended : descend data shape none 0 with
    | found level =>
      -- The key exists: the new node is deleted, and the tree is as it was.
      rw [ended] at loop counted
      obtain ⟨freed, done, same⟩ := free_alloc tree.heap (BinaryNode.new data)
      refine ⟨⟨tree.root, freed⟩, ?_, ⟨root.trans rootAfter.symm, ?_, nodupAfter, orderedAfter⟩,
        fun _ => ⟨rfl, same⟩⟩
      · rw [← counted]
        simp only [insert, if_neg someRoot]
        show (insertLoop grown data (loopBound grown) tree.root none 0 >>= _) = _
        rw [loop]
        show (grown.free (some tree.heap.next) >>= _) = _
        rw [done]
        rfl
      · rw [insert_of_found ended]
        exact stored.congr fun address _ => by rw [same]
    | fell parent level =>
      -- The key is missing: the new node is linked where the descent has fallen.
      rw [ended] at loop counted
      obtain ⟨-, -, linked, done, storedAfter, -⟩ :=
        linkLeaf_stored storedGrown nodup made fresh empty ended
      refine ⟨⟨tree.root, linked⟩, ?_, ⟨root.trans rootAfter.symm, storedAfter, nodupAfter,
        orderedAfter⟩, fun member => absurd member (not_mem_of_fell ordered ended)⟩
      rw [← counted]
      simp only [insert, if_neg someRoot]
      show (insertLoop grown data (loopBound grown) tree.root none 0 >>= _) = _
      rw [loop]
      show (linkLeaf grown data parent (some tree.heap.next) >>= _) = _
      rw [done]
      rfl

end SecretTyping.Bst
