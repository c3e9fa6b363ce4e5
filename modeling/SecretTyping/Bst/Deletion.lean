import SecretTyping.Bst.Representation
import SecretTyping.Lib.Subtree

/-! When the recursive deletion of the benchmark tree deletes a key, and when it goes wrong. -/

namespace SecretTyping.Bst

open Memory

/-- Write one of the two children of a node. -/
def setChild (heap : NodeHeap) (node : Ptr) : Side → Ptr → Except Fault NodeHeap
  | .left, child => setLeftChild heap node child
  | .right, child => setRightChild heap node child

/-- Writing a child brings nothing back to life. -/
theorem setChild_later {heap after : NodeHeap} {node child : Ptr} {side : Side}
    (done : setChild heap node side child = .ok after) : heap.Later after := by
  cases side with
  | left => exact Heap.later_modify done
  | right => exact Heap.later_modify done

/-- Only a live node has its key read. -/
theorem getData_eq_ok {heap : NodeHeap} {node : Nat} {key : Int}
    (held : getData heap (some node) = .ok key) : ∃ cell, heap.cells node = some cell := by
  -- Reading a dead cell is a fault.
  cases live : heap.cells node with
  | none => simp [getData, Heap.read, live, Except.map] at held
  | some cell => exact ⟨cell, rfl⟩

/-- At a node with two children, a deletion that ends has deleted the node before it goes on below
the copy, and it writes to the node afterwards. -/
theorem deleteHelper_both {heap : NodeHeap} {fuel node : Nat} {parent left right : Ptr} {key : Int}
    {result : Ptr × NodeHeap} (held : getData heap (some node) = .ok key)
    (toLeft : getLeftChild heap (some node) = .ok left)
    (toRight : getRightChild heap (some node) = .ok right) (someLeft : left ≠ none)
    (someRight : right ≠ none)
    (done : deleteHelper heap (fuel + 1) parent (some node) key = .ok result) :
    ∃ linked copy below next child, heap.Later linked ∧ node < linked.next ∧
      linked.cells node = none ∧ deleteHelper linked fuel copy below next = .ok child ∧
      setRightChild child.2 (some node) child.1 = .ok result.2 := by
  -- The steps before the recursion are taken apart one by one.
  simp only [deleteHelper, held, toLeft, toRight, ok_bind, if_neg (lt_irrefl key),
    gt_iff_lt, if_neg someLeft, if_neg someRight] at done
  -- The successor is found, copied, and the copy linked to both children of the node.
  obtain ⟨successor, -, done⟩ := bind_eq_ok done
  obtain ⟨copied, -, done⟩ := bind_eq_ok done
  obtain ⟨withLeft, wroteLeft, done⟩ := bind_eq_ok done
  obtain ⟨withRight, wroteRight, done⟩ := bind_eq_ok done
  -- Then the node itself is deleted.
  obtain ⟨freed, deleted, done⟩ := bind_eq_ok done
  obtain ⟨above, -, done⟩ := bind_eq_ok done
  obtain ⟨copyKey, -, done⟩ := bind_eq_ok done
  -- The copy is hung below the parent, on one side or the other.
  obtain ⟨side, done⟩ : ∃ side, (do
      let linked ← setChild freed parent side (some heap.next)
      let below ← getRightChild linked (some heap.next)
      let next ← getData linked (some heap.next)
      let below ← deleteHelper linked fuel (some heap.next) below next
      return (some node, ← setRightChild below.2 (some node) below.1)) = .ok result := by
    split at done
    · exact ⟨.left, done⟩
    · exact ⟨.right, done⟩
  -- The recursion deletes the successor below the copy.
  obtain ⟨linked, hung, done⟩ := bind_eq_ok done
  obtain ⟨below, -, done⟩ := bind_eq_ok done
  obtain ⟨next, -, done⟩ := bind_eq_ok done
  obtain ⟨child, recursion, done⟩ := bind_eq_ok done
  -- At last the node is written to, which must have been possible.
  obtain ⟨after, written, done⟩ := bind_eq_ok done
  cases done
  -- Nothing of this brings the node back, which was handed out before and has been deleted.
  -- Each step only adds nodes, writes to them, or deletes one.
  have copying : heap.Later withRight := ((Heap.later_alloc heap _).trans
    (Heap.later_modify wroteLeft)).trans (Heap.later_modify wroteRight)
  have hanging : freed.Later linked := setChild_later hung
  have handed : node < freed.next := by
    obtain ⟨cell, live⟩ := getData_eq_ok held
    rw [Heap.free_eq_ok deleted]
    exact (Heap.lt_next live).trans_le copying.next
  -- The deleted node stays so.
  have dead : freed.cells node = none := by
    rw [Heap.free_eq_ok deleted]
    exact Heap.kill_same withRight node
  exact ⟨linked, some heap.next, below, next, child,
    (copying.trans (Heap.later_free deleted)).trans hanging, handed.trans_le hanging.next,
    hanging.dead node handed dead, recursion, written⟩

/-- A deletion brings nothing back to life. -/
theorem deleteHelper_later {heap : NodeHeap} {fuel : Nat} {parent node : Ptr} {key : Int}
    {result : Ptr × NodeHeap} (done : deleteHelper heap fuel parent node key = .ok result) :
    heap.Later result.2 := by
  -- By induction on the fuel: each branch is made of single steps that bring nothing back.
  induction fuel generalizing heap parent node key result with
  | zero =>
    cases node with
    | none =>
      -- A missing child is left as it is.
      cases done
      exact .refl heap
    | some node => cases done
  | succ fuel ih =>
    cases node with
    | none =>
      cases done
      exact .refl heap
    | some node =>
      have whole := done
      simp only [deleteHelper] at done
      obtain ⟨held, read, done⟩ := bind_eq_ok done
      split at done
      · -- Down to the left, and the child is linked again on the way back.
        obtain ⟨left, -, done⟩ := bind_eq_ok done
        obtain ⟨⟨child, below⟩, recursion, done⟩ := bind_eq_ok done
        obtain ⟨linked, written, done⟩ := bind_eq_ok done
        cases done
        exact (ih recursion).trans (Heap.later_modify written)
      · split at done
        · -- Down to the right, in the same way.
          obtain ⟨right, -, done⟩ := bind_eq_ok done
          obtain ⟨⟨child, below⟩, recursion, done⟩ := bind_eq_ok done
          obtain ⟨linked, written, done⟩ := bind_eq_ok done
          cases done
          exact (ih recursion).trans (Heap.later_modify written)
        · obtain ⟨left, toLeft, done⟩ := bind_eq_ok done
          obtain ⟨right, toRight, done⟩ := bind_eq_ok done
          split at done
          · -- No left child: the node is deleted.
            obtain ⟨freed, deleted, done⟩ := bind_eq_ok done
            cases done
            exact Heap.later_free deleted
          · split at done
            · -- No right child: the node is deleted.
              obtain ⟨freed, deleted, done⟩ := bind_eq_ok done
              cases done
              exact Heap.later_free deleted
            · next notBelow notAbove someLeft someRight =>
              -- Two children: the recursion is into what has been linked.
              have same : key = held := by omega
              subst same
              obtain ⟨linked, copy, below, next, child, first, -, -, recursion, written⟩ :=
                deleteHelper_both read toLeft toRight someLeft someRight whole
              exact (first.trans (ih recursion)).trans (Heap.later_modify written)

section Single

variable {heap : NodeHeap}

/-- A node whose subtree on one side has been changed is linked to the new root of that side. -/
theorem setChild_stored {after : NodeHeap} {address : Nat} {left right changed : Shape Int}
    {held : Int} (stored : Stored nodeLayout heap (.node address left held right))
    (nodup : (Shape.node address left held right).addresses.Nodup) (side : Side)
    (storedChanged : Stored nodeLayout after changed)
    (fewer : changed.addresses ⊆ ((Shape.node address left held right).subtree [side]).addresses)
    (frame : ∀ a ∉ ((Shape.node address left held right).subtree [side]).addresses,
      after.cells a = heap.cells a) :
    ∃ linked, setChild after (some address) side changed.ptr = .ok linked ∧
      Stored nodeLayout linked ((Shape.node address left held right).replace [side] changed) ∧
      ∀ a ∉ (Shape.node address left held right).addresses, linked.cells a = heap.cells a := by
  simp only [Shape.addresses, List.nodup_cons, List.mem_append, not_or, List.nodup_append] at nodup
  obtain ⟨⟨notLeft, notRight⟩, -, -, apart⟩ := nodup
  obtain ⟨⟨cell, live, key, toLeft, toRight⟩, storedLeft, storedRight⟩ := stored
  -- The node itself is not among the nodes that have changed, and neither is the other side.
  cases side with
  -- On the left, the right child and its nodes are untouched.
  | left =>
    simp only [Shape.subtree] at fewer frame
    have own : after.cells address = some cell := (frame address notLeft).trans live
    refine ⟨after.put address { cell with leftChild := changed.ptr }, Heap.modify_live own _,
      ⟨⟨_, Heap.put_same own _, key, rfl, toRight⟩, storedChanged.congr fun a member => ?_,
        storedRight.congr fun a member => ?_⟩, fun a outside => ?_⟩
    · have other : a ≠ address := fun same => notLeft (same ▸ fewer member)
      exact Heap.put_other after other _
    · have other : a ≠ address := fun same => notRight (same ▸ member)
      have outside : a ∉ left.addresses := fun inLeft => apart a inLeft a member rfl
      rw [Heap.put_other after other, frame a outside]
    · simp only [Shape.addresses, List.mem_cons, List.mem_append, not_or] at outside
      rw [Heap.put_other after outside.1, frame a outside.2.1]
  -- On the right, the left child and its nodes are untouched.
  | right =>
    simp only [Shape.subtree] at fewer frame
    have own : after.cells address = some cell := (frame address notRight).trans live
    refine ⟨after.put address { cell with rightChild := changed.ptr }, Heap.modify_live own _,
      ⟨⟨_, Heap.put_same own _, key, toLeft, rfl⟩, storedLeft.congr fun a member => ?_,
        storedChanged.congr fun a member => ?_⟩, fun a outside => ?_⟩
    · have other : a ≠ address := fun same => notLeft (same ▸ member)
      have outside : a ∉ right.addresses := fun inRight => apart a member a inRight rfl
      rw [Heap.put_other after other, frame a outside]
    · have other : a ≠ address := fun same => notRight (same ▸ fewer member)
      exact Heap.put_other after other _
    · simp only [Shape.addresses, List.mem_cons, List.mem_append, not_or] at outside
      rw [Heap.put_other after outside.1, frame a outside.2.2]

/-- The node at a path, one side of which has changed, is linked to the new root of that side. -/
theorem setChild_subtree {after : NodeHeap} {shape changed : Shape Int} {path : List Side}
    {parent : Nat} (there : (shape.subtree path).ptr = some parent)
    (stored : Stored nodeLayout heap shape) (nodup : shape.addresses.Nodup) (side : Side)
    (storedChanged : Stored nodeLayout after changed)
    (fewer : changed.addresses ⊆ (shape.subtree (path ++ [side])).addresses)
    (frame : ∀ a ∉ (shape.subtree (path ++ [side])).addresses, after.cells a = heap.cells a) :
    ∃ linked, setChild after (shape.subtree path).ptr side changed.ptr = .ok linked ∧
      Stored nodeLayout linked ((shape.subtree path).replace [side] changed) ∧
      ∀ a ∉ (shape.subtree path).addresses, linked.cells a = heap.cells a := by
  -- The parent is the root of the subtree at the path.
  have storedParent := stored.at_path path
  have nodupParent : (shape.subtree path).addresses.Nodup := Shape.nodup_subtree nodup
  rw [Shape.subtree_append] at fewer frame
  cases found : shape.subtree path with
  -- There is a parent at the path, so the subtree there is not empty.
  | leaf => simp [found] at there
  | node address left held right =>
    rw [found] at storedParent nodupParent fewer frame
    exact setChild_stored storedParent nodupParent side storedChanged fewer frame

/-- Where the node of the key has at most one child, deletion splices it out. -/
theorem deleteHelper_stored {shape : Shape Int} (stored : Stored nodeLayout heap shape)
    (nodup : shape.addresses.Nodup) {key : Int} (single : ¬ shape.HasTwoChildren key) {fuel : Nat}
    (enough : shape.height < fuel) (parent : Ptr) :
    ∃ after, deleteHelper heap fuel parent shape.ptr key = .ok ((shape.erase key).ptr, after) ∧
      Stored nodeLayout after (shape.erase key) ∧
      ∀ a ∉ shape.addresses, after.cells a = heap.cells a := by
  -- By induction on the tree; on the way back each node is linked to what the recursion returned.
  induction shape generalizing fuel parent with
  | leaf => exact ⟨heap, by cases fuel <;> rfl, trivial, fun _ _ => rfl⟩
  | node address left held right ihLeft ihRight =>
    cases fuel with
    | zero => exact absurd enough (Nat.not_lt_zero _)
    | succ fuel =>
      simp only [Shape.height] at enough
      have leftEnough : left.height < fuel := by omega
      have rightEnough : right.height < fuel := by omega
      simp only [Shape.HasTwoChildren, not_or] at single
      obtain ⟨notHere, singleLeft, singleRight⟩ := single
      have parts := nodup
      simp only [Shape.addresses, List.nodup_cons, List.mem_append, not_or,
        List.nodup_append] at parts
      obtain ⟨⟨notLeft, notRight⟩, nodupLeft, nodupRight, -⟩ := parts
      have toLeft := getLeftChild_stored stored
      have toRight := getRightChild_stored stored
      simp only [Shape.ptr_node, deleteHelper, getData_stored stored, toLeft, toRight, ok_bind,
        Shape.erase, gt_iff_lt]
      split
      · -- The key is less, so it is below on the left if anywhere.
        obtain ⟨after, done, storedAfter, frame⟩ :=
          ihLeft stored.2.1 nodupLeft singleLeft leftEnough (some address)
        obtain ⟨linked, written, storedLinked, outside⟩ := setChild_stored stored nodup .left
          storedAfter (Shape.addresses_erase key left).subset frame
        refine ⟨linked, ?_, storedLinked, outside⟩
        rw [done, ok_bind]
        show (setChild after (some address) .left _ >>= _) = _
        rw [written]
        rfl
      · split
        · -- The key is greater, so it is below on the right if anywhere.
          obtain ⟨after, done, storedAfter, frame⟩ :=
            ihRight stored.2.2 nodupRight singleRight rightEnough (some address)
          obtain ⟨linked, written, storedLinked, outside⟩ := setChild_stored stored nodup .right
            storedAfter (Shape.addresses_erase key right).subset frame
          refine ⟨linked, ?_, storedLinked, outside⟩
          rw [done, ok_bind]
          show (setChild after (some address) .right _ >>= _) = _
          rw [written]
          rfl
        · -- The node is deleted, and the child it may have takes its place.
          obtain ⟨⟨cell, live, -⟩, storedLeft, storedRight⟩ := stored
          have deleted : heap.free (some address) = .ok (heap.kill address) := Heap.free_live live
          have others : ∀ a ∉ (Shape.node address left held right).addresses,
              (heap.kill address).cells a = heap.cells a := by
            intro a outside
            simp only [Shape.addresses, List.mem_cons, not_or] at outside
            exact Heap.kill_other heap outside.1
          split
          · -- Without a left child, the right one takes its place.
            refine ⟨heap.kill address, by rw [deleted]; rfl, storedRight.congr fun a member => ?_,
              others⟩
            exact Heap.kill_other heap fun same => notRight (same ▸ member)
          · next notBelow notAbove someLeft =>
            -- With a left child, there is no right one, as the key does not have two.
            have noRight : right.ptr = none := by
              by_contra someRight
              exact notHere ⟨by omega, someLeft, someRight⟩
            rw [if_pos noRight]
            refine ⟨heap.kill address, by rw [deleted]; rfl, storedLeft.congr fun a member => ?_,
              others⟩
            exact Heap.kill_other heap fun same => notLeft (same ▸ member)

/-- Where the node of the key has two children, deletion goes wrong. -/
theorem deleteHelper_two {shape : Shape Int} (stored : Stored nodeLayout heap shape)
    (ordered : shape.Ordered) {key : Int} (two : shape.HasTwoChildren key) {fuel : Nat}
    {parent : Ptr} {result : Ptr × NodeHeap} :
    deleteHelper heap fuel parent shape.ptr key ≠ .ok result := by
  intro done
  -- By induction on the tree, down to the node of the key, which is written to when it is dead.
  induction shape generalizing fuel parent result with
  | leaf => exact two
  | node address left held right ihLeft ihRight =>
    cases fuel with
    | zero => cases done
    | succ fuel =>
      obtain ⟨smaller, greater, orderedLeft, orderedRight⟩ := ordered
      have read := getData_stored stored
      have toLeft := getLeftChild_stored stored
      have toRight := getRightChild_stored stored
      rcases two with here | onLeft | onRight
      · -- The node of the key is here; it is deleted, and written to at the end.
        obtain ⟨same, someLeft, someRight⟩ := here
        subst same
        obtain ⟨linked, copy, below, next, child, -, handed, dead, recursion, written⟩ :=
          deleteHelper_both read toLeft toRight someLeft someRight done
        have still := (deleteHelper_later recursion).dead address handed dead
        simp [setRightChild, Heap.modify, still] at written
      · -- The node of the key is on the left, and the recursion is into that side.
        have under := smaller key onLeft.mem
        simp only [Shape.ptr_node, deleteHelper, read, toLeft, ok_bind, if_pos under] at done
        obtain ⟨child, recursion, -⟩ := bind_eq_ok done
        exact ihLeft stored.2.1 orderedLeft onLeft recursion
      · -- The node of the key is on the right, and the recursion is into that side.
        have above := greater key onRight.mem
        simp only [Shape.ptr_node, deleteHelper, read, toRight, ok_bind, gt_iff_lt,
          if_neg (lt_asymm above), if_pos above] at done
        obtain ⟨child, recursion, -⟩ := bind_eq_ok done
        exact ihRight stored.2.2 orderedRight onRight recursion

end Single

/-- Deleting a key below one child of a node deletes it: what is returned is the root of an ordered
tree with the other keys, and once the caller has stored it as that child, the heap holds the same
tree as before but for this subtree. -/
def Deletes (tree : BinarySearchTree) (shape : Shape Int) (path : List Side) (side : Side)
    (key : Int) : Prop :=
  ∃ child heap linked changed,
    deleteHelper tree.heap (loopBound tree.heap) (shape.subtree path).ptr
        (shape.subtree (path ++ [side])).ptr key = .ok (child, heap) ∧
      setChild heap (shape.subtree path).ptr side child = .ok linked ∧
      child = changed.ptr ∧ changed.Ordered ∧
      (∀ k, k ∈ changed.keys ↔ k ∈ (shape.subtree (path ++ [side])).keys ∧ k ≠ key) ∧
      -- A fault would have been returned, so no deleted node has been read or written.
      Represents ⟨tree.root, linked⟩ (shape.replace (path ++ [side]) changed)

/-- The recursive deletion below a node is deletion from a search tree exactly when the node of the
key does not have two children. -/
theorem deletes_iff {tree : BinarySearchTree} {shape : Shape Int}
    (represents : Represents tree shape) {path : List Side} {parent : Nat}
    (there : (shape.subtree path).ptr = some parent) (side : Side) (key : Int) :
    Deletes tree shape path side key ↔
      ¬ (shape.subtree (path ++ [side])).HasTwoChildren key := by
  obtain ⟨root, stored, nodup, ordered⟩ := represents
  have storedBelow := stored.at_path (path ++ [side])
  have orderedBelow : (shape.subtree (path ++ [side])).Ordered := Shape.ordered_subtree ordered
  constructor
  · intro deletes two
    -- With two children, the call does not come to an end.
    obtain ⟨child, heap, linked, changed, done, -⟩ := deletes
    exact deleteHelper_two storedBelow orderedBelow two done
  · intro single
    -- Without, the recursion has fuel for every level of the subtree.
    have nodupBelow : (shape.subtree (path ++ [side])).addresses.Nodup := Shape.nodup_subtree nodup
    have enough := Nat.lt_succ_of_le (storedBelow.height_le nodupBelow)
    obtain ⟨after, done, storedAfter, frame⟩ := deleteHelper_stored storedBelow nodupBelow single
      enough (shape.subtree path).ptr
    have fewer := Shape.addresses_erase key (shape.subtree (path ++ [side]))
    have fewerKeys : ∀ k ∈ ((shape.subtree (path ++ [side])).erase key).keys,
        k ∈ (shape.subtree (path ++ [side])).keys := fun _ => Shape.keys_erase key
    -- The caller stores the result at the parent, whose subtree then stands in the whole tree.
    obtain ⟨linked, written, storedParent, outside⟩ :=
      setChild_subtree there stored nodup side storedAfter fewer.subset frame
    -- The parent is the root of its subtree before and after.
    have sameRoot : ((shape.subtree path).replace [side]
        ((shape.subtree (path ++ [side])).erase key)).ptr = (shape.subtree path).ptr := by
      cases found : shape.subtree path with
      | leaf => rfl
      | node address left held right => cases side <;> rfl
    refine ⟨_, after, linked, (shape.subtree (path ++ [side])).erase key, done, written, rfl,
      Shape.ordered_erase key orderedBelow, Shape.mem_keys_erase key orderedBelow single, ?_⟩
    exact
      { root := by rw [Shape.replace_append, Shape.ptr_replace sameRoot]; exact root
        stored := by
          rw [Shape.replace_append]
          exact stored.replaceAt nodup storedParent sameRoot fun a far _ => outside a far
        nodup := nodup.sublist (Shape.addresses_replace fewer)
        ordered := Shape.ordered_replace ordered (Shape.ordered_erase key orderedBelow) fewerKeys }

/-- A tree of four keys, the right child of whose root has two children. -/
def fourKeys : Shape Int :=
  .node 0 .leaf 4 (.node 1 (.node 2 .leaf 5 .leaf) 6 (.node 3 .leaf 7 .leaf))

/-- The tree of four keys in its heap. -/
def fourNodes : BinarySearchTree where
  root := some 0
  heap :=
    { cells := fun
        | 0 => some ⟨4, none, some 1⟩
        | 1 => some ⟨6, some 2, some 3⟩
        | 2 => some (.new 5)
        | 3 => some (.new 7)
        | _ => none
      next := 4
      beyond := fun
        | 0, far | 1, far | 2, far | 3, far => absurd far (by decide)
        | _ + 4, _ => rfl }

/-- The tree of four keys is laid out in its heap. -/
theorem fourNodes_represents : Represents fourNodes fourKeys where
  root := rfl
  -- Each node is read from its cell.
  stored := ⟨⟨_, rfl, rfl, rfl, rfl⟩, trivial, ⟨_, rfl, rfl, rfl, rfl⟩,
    ⟨⟨_, rfl, rfl, rfl, rfl⟩, trivial, trivial⟩, ⟨_, rfl, rfl, rfl, rfl⟩, trivial, trivial⟩
  nodup := by decide
  ordered := by simp [fourKeys, Shape.Ordered, Shape.keys]

/-- Deleting a leaf of the tree of four keys deletes it. -/
theorem deletes_iff_five : Deletes fourNodes fourKeys [] .right 5 :=
  (deletes_iff fourNodes_represents rfl .right 5).mpr (by
    simp [fourKeys, Shape.subtree, Shape.HasTwoChildren])

/-- Deleting the node with two children of the tree of four keys writes to it when it is dead. -/
theorem deleteHelper_six :
    Represents fourNodes fourKeys ∧
      deleteHelper fourNodes.heap (loopBound fourNodes.heap) (some 0) (some 1) 6 =
        .error .deadAccess ∧
      ¬ Deletes fourNodes fourKeys [] .right 6 := by
  have fails : deleteHelper fourNodes.heap (loopBound fourNodes.heap) (some 0) (some 1) 6 =
      .error .deadAccess := rfl
  refine ⟨fourNodes_represents, fails, fun deletes => ?_⟩
  obtain ⟨child, heap, linked, changed, done, -⟩ := deletes
  exact absurd (fails.symm.trans done) (by simp)

end SecretTyping.Bst
