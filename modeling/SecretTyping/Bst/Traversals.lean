import SecretTyping.Bst.Membership
import SecretTyping.Lib.Traversal

/-! The printed traversals of the benchmark tree. -/

namespace SecretTyping.Bst

open Memory

/-- A piece of what is written to the standard output. -/
inductive Piece where
  | text (written : String)
  | data (key : Int)
  | endl
  deriving DecidableEq

/-- A key is written between blanks. -/
def writeData (held : Int) : List Piece := [.text " ", .data held, .text " "]

/-- The keys among what has been written. -/
def writtenKeys (pieces : List Piece) : List Int :=
  pieces.filterMap fun
    | .data key => some key
    | _ => none

/-- Go on at a child, if there is one. -/
def atChild (traversal : Ptr → Except Fault (List Piece)) (child : Ptr) :
    Except Fault (List Piece) :=
  if child ≠ none then traversal child else .ok []

/-- Write the keys below a node in post-order. -/
def postOrder (heap : NodeHeap) : Nat → Ptr → Except Fault (List Piece)
  | _, none => .ok []
  | 0, some _ => .error .endless
  | fuel + 1, some node => do
    let left ← getLeftChild heap (some node)
    let first ← atChild (postOrder heap fuel) left
    let right ← getRightChild heap (some node)
    let second ← atChild (postOrder heap fuel) right
    let held ← getData heap (some node)
    return first ++ second ++ writeData held

/-- Write the keys below a node in order. -/
def inOrder (heap : NodeHeap) : Nat → Ptr → Except Fault (List Piece)
  | _, none => .ok []
  | 0, some _ => .error .endless
  | fuel + 1, some node => do
    let left ← getLeftChild heap (some node)
    let first ← atChild (inOrder heap fuel) left
    let held ← getData heap (some node)
    let right ← getRightChild heap (some node)
    let second ← atChild (inOrder heap fuel) right
    return first ++ writeData held ++ second

/-- Write the key of a node and then, in order, the keys below it. -/
def preOrder (heap : NodeHeap) (fuel : Nat) : Ptr → Except Fault (List Piece)
  | none => .ok []
  | some node => do
    let held ← getData heap (some node)
    let left ← getLeftChild heap (some node)
    -- The traversal goes on with the other one.
    let first ← atChild (inOrder heap fuel) left
    let right ← getRightChild heap (some node)
    let second ← atChild (inOrder heap fuel) right
    return writeData held ++ first ++ second

/-- A traversal is printed under its title. -/
def printTraversal (title : String) (traversal : Except Fault (List Piece)) :
    Except Fault (List Piece) := do
  return [.text title, .endl] ++ (← traversal) ++ [.endl]

/-- Print the keys of a tree in post-order. -/
def postOrderPrint (tree : BinarySearchTree) : Except Fault (List Piece) :=
  printTraversal "Post Order Print" (postOrder tree.heap (loopBound tree.heap) tree.root)

/-- Print the keys of a tree in what is called pre-order. -/
def preOrderPrint (tree : BinarySearchTree) : Except Fault (List Piece) :=
  printTraversal "Pre Order Print" (preOrder tree.heap (loopBound tree.heap) tree.root)

/-- Print the keys of a tree in order. -/
def inOrderPrint (tree : BinarySearchTree) : Except Fault (List Piece) :=
  printTraversal "In Order Print" (inOrder tree.heap (loopBound tree.heap) tree.root)

/-- Keys that are written one after another are the keys written. -/
@[simp] theorem writtenKeys_flatMap (keys : List Int) :
    writtenKeys (keys.flatMap writeData) = keys := by
  -- By induction on the keys, each of which is written once.
  induction keys with
  | nil => rfl
  | cons key keys ih =>
    rw [List.flatMap_cons, writtenKeys, List.filterMap_append]
    exact congrArg (key :: ·) ih

/-- The title of a traversal adds no key. -/
theorem writtenKeys_printTraversal (title : String) (keys : List Int) :
    ∃ pieces, printTraversal title (.ok (keys.flatMap writeData)) = .ok pieces ∧
      writtenKeys pieces = keys := by
  refine ⟨_, rfl, ?_⟩
  -- The keys are written between the title and the end of the line.
  have same := writtenKeys_flatMap keys
  rw [writtenKeys] at same ⊢
  rw [List.filterMap_append, List.filterMap_append, same]
  exact List.append_nil keys

/-- A traversal that does nothing at null need not be kept from it. -/
theorem atChild_eq {traversal : Ptr → Except Fault (List Piece)} (null : traversal none = .ok [])
    (child : Ptr) : atChild traversal child = traversal child := by
  rw [atChild]
  split
  · rfl
  · next none => rw [not_not.mp none, null]

section Stored

variable {heap : NodeHeap} {shape : Shape Int}

/-- The traversal in order writes the keys of a stored tree in order. -/
theorem inOrder_stored (stored : Stored nodeLayout heap shape) {fuel : Nat}
    (enough : shape.height < fuel) :
    inOrder heap fuel shape.ptr = .ok (shape.inOrder.flatMap writeData) := by
  -- By induction on the tree, with fuel for one more level than it has.
  induction shape generalizing fuel with
  | leaf => cases fuel <;> rfl
  | node address left key right ihLeft ihRight =>
    cases fuel with
    | zero => exact absurd enough (Nat.not_lt_zero _)
    | succ fuel =>
      simp only [Shape.height] at enough
      have first := ihLeft stored.2.1 (show left.height < fuel by omega)
      have second := ihRight stored.2.2 (show right.height < fuel by omega)
      have null : inOrder heap fuel none = .ok [] := by cases fuel <;> rfl
      simp only [Shape.ptr_node, inOrder, getData_stored stored, getLeftChild_stored stored,
        getRightChild_stored stored, ok_bind, atChild_eq null, first, second]
      simp [Shape.inOrder, pure, Except.pure]

/-- The traversal in post-order writes the keys of a stored tree in post-order. -/
theorem postOrder_stored (stored : Stored nodeLayout heap shape) {fuel : Nat}
    (enough : shape.height < fuel) :
    postOrder heap fuel shape.ptr = .ok (shape.postOrder.flatMap writeData) := by
  -- By induction on the tree, with fuel for one more level than it has.
  induction shape generalizing fuel with
  | leaf => cases fuel <;> rfl
  | node address left key right ihLeft ihRight =>
    cases fuel with
    | zero => exact absurd enough (Nat.not_lt_zero _)
    | succ fuel =>
      simp only [Shape.height] at enough
      have first := ihLeft stored.2.1 (show left.height < fuel by omega)
      have second := ihRight stored.2.2 (show right.height < fuel by omega)
      have null : postOrder heap fuel none = .ok [] := by cases fuel <;> rfl
      simp only [Shape.ptr_node, postOrder, getData_stored stored, getLeftChild_stored stored,
        getRightChild_stored stored, ok_bind, atChild_eq null, first, second]
      simp [Shape.postOrder, pure, Except.pure]

/-- The third traversal writes the key of the root and then the keys below it in order. -/
theorem preOrder_stored {address : Nat} {left right : Shape Int} {key : Int}
    (stored : Stored nodeLayout heap (.node address left key right)) {fuel : Nat}
    (enough : (Shape.node address left key right).height < fuel) :
    preOrder heap fuel (some address) =
      .ok ((key :: (left.inOrder ++ right.inOrder)).flatMap writeData) := by
  -- Both children are left to the traversal in order.
  simp only [Shape.height] at enough
  have first := inOrder_stored stored.2.1 (show left.height < fuel by omega)
  have second := inOrder_stored stored.2.2 (show right.height < fuel by omega)
  have null : inOrder heap fuel none = .ok [] := by cases fuel <;> rfl
  simp only [preOrder, getData_stored stored, getLeftChild_stored stored,
    getRightChild_stored stored, ok_bind, atChild_eq null, first, second]
  simp [pure, Except.pure]

end Stored

/-- The heap of a tree holds a binary tree without shared nodes at its root. -/
structure Holds (tree : BinarySearchTree) (shape : Shape Int) : Prop where
  root : tree.root = shape.ptr
  stored : Stored nodeLayout tree.heap shape
  nodup : shape.addresses.Nodup

/-- A represented tree is one that the heap holds. -/
theorem Represents.holds {tree : BinarySearchTree} {shape : Shape Int}
    (represents : Represents tree shape) : Holds tree shape :=
  ⟨represents.root, represents.stored, represents.nodup⟩

section Print

variable {tree : BinarySearchTree} {shape : Shape Int} (holds : Holds tree shape)

include holds

/-- The loops over a tree in its heap have enough fuel. -/
theorem Holds.bounded : shape.height < loopBound tree.heap :=
  Nat.lt_succ_of_le (holds.stored.height_le holds.nodup)

/-- A tree is printed in order. -/
theorem inOrderPrint_holds :
    ∃ pieces, inOrderPrint tree = .ok pieces ∧ writtenKeys pieces = shape.inOrder := by
  have done := inOrder_stored holds.stored holds.bounded
  rw [← holds.root] at done
  rw [inOrderPrint, done]
  exact writtenKeys_printTraversal _ _

/-- A tree is printed in post-order. -/
theorem postOrderPrint_holds :
    ∃ pieces, postOrderPrint tree = .ok pieces ∧ writtenKeys pieces = shape.postOrder := by
  have done := postOrder_stored holds.stored holds.bounded
  rw [← holds.root] at done
  rw [postOrderPrint, done]
  exact writtenKeys_printTraversal _ _

end Print

/-- What a tree prints as its pre-order is the pre-order sequence of its keys. -/
def PrintsPreOrder (tree : BinarySearchTree) (shape : Shape Int) : Prop :=
  ∃ pieces, preOrderPrint tree = .ok pieces ∧ writtenKeys pieces = shape.preOrder

/-- Below the root, the orders of both children agree. -/
theorem printsPreOrder_iff_agree {tree : BinarySearchTree} {shape : Shape Int}
    (holds : Holds tree shape) :
    PrintsPreOrder tree shape ↔ ∀ side, (shape.subtree [side]).OrdersAgree := by
  have bounded := holds.bounded
  obtain ⟨root, stored, nodup⟩ := holds
  cases shape with
  -- An empty tree prints no keys, and its sequences are empty.
  | leaf =>
    have noRoot : tree.root = none := root
    refine ⟨fun _ side => trivial, fun _ => ?_⟩
    rw [PrintsPreOrder, preOrderPrint, noRoot]
    exact writtenKeys_printTraversal _ []
  | node address left key right =>
    have someRoot : tree.root = some address := root
    -- Its key is printed first, and then both children in order.
    obtain ⟨pieces, done, keys⟩ :=
      writtenKeys_printTraversal "Pre Order Print" (key :: (left.inOrder ++ right.inOrder))
    rw [← preOrder_stored stored bounded, ← someRoot] at done
    -- The part of the left child is as long in both sequences.
    have children : PrintsPreOrder tree (.node address left key right) ↔
        left.inOrder = left.preOrder ∧ right.inOrder = right.preOrder := by
      rw [PrintsPreOrder, preOrderPrint, done]
      constructor
      · -- What is printed for the left child is as long as its part of the sequence.
        rintro ⟨other, same, equal⟩
        cases same
        rw [keys, Shape.preOrder] at equal
        exact List.append_inj (List.cons.inj equal).2 left.length_inOrder
      · -- Where both children agree, so does the whole tree.
        rintro ⟨sameLeft, sameRight⟩
        refine ⟨pieces, rfl, ?_⟩
        rw [keys, sameLeft, sameRight]
        rfl
    rw [children, left.inOrder_eq_preOrder_iff, right.inOrder_eq_preOrder_iff]
    constructor
    · -- Both subtrees agree where both orders of each are the same.
      rintro ⟨agreeLeft, agreeRight⟩ side
      cases side with
      | left => exact agreeLeft
      | right => exact agreeRight
    · exact fun agree => ⟨agree .left, agree .right⟩

/-- A tree is printed in pre-order exactly when the two orders agree below each child of the root;
without a key twice, this is when no node below the root has a left child. -/
theorem preOrderPrint_iff {tree : BinarySearchTree} {shape : Shape Int}
    (holds : Holds tree shape) :
    (PrintsPreOrder tree shape ↔ ∀ side, (shape.subtree [side]).OrdersAgree) ∧
      (shape.keys.Nodup →
        (PrintsPreOrder tree shape ↔ ∀ side, (shape.subtree [side]).NoLeft)) := by
  refine ⟨printsPreOrder_iff_agree holds, fun nodup => ?_⟩
  rw [printsPreOrder_iff_agree holds]
  refine forall_congr' fun side => Shape.ordersAgree_iff_noLeft ?_
  -- The keys below the root are keys of the tree.
  cases shape with
  | leaf => exact List.nodup_nil
  | node address left key right =>
    simp only [Shape.keys, List.nodup_cons, List.nodup_append] at nodup
    cases side with
    | left => exact nodup.2.1
    | right => exact nodup.2.2.1

/-- The tree of the keys that the test of the traversals inserts. -/
def testedKeys : Shape Int :=
  .node 0 (.node 1 (.node 3 .leaf 1 .leaf) 2 (.node 4 .leaf 3 .leaf)) 4 (.node 2 .leaf 5 .leaf)

/-- The second key below the root has a left child, whose key is printed before it. -/
theorem not_printsPreOrder_tested : ∃ tree,
    runOperations .new ([4, 2, 5, 1, 3].map .insert) = .ok tree ∧ Holds tree testedKeys ∧
      ¬ PrintsPreOrder tree testedKeys := by
  have laidOut : ∃ tree, runOperations .new ([4, 2, 5, 1, 3].map .insert) = .ok tree ∧
      Holds tree testedKeys := by
    -- Each node is read from its cell.
    refine ⟨_, rfl, rfl, ?_, by decide⟩
    exact ⟨⟨_, rfl, rfl, rfl, rfl⟩, ⟨⟨_, rfl, rfl, rfl, rfl⟩, ⟨⟨_, rfl, rfl, rfl, rfl⟩, trivial,
      trivial⟩, ⟨_, rfl, rfl, rfl, rfl⟩, trivial, trivial⟩, ⟨_, rfl, rfl, rfl, rfl⟩, trivial,
      trivial⟩
  obtain ⟨tree, run, holds⟩ := laidOut
  refine ⟨tree, run, holds, fun prints => ?_⟩
  have agree := (printsPreOrder_iff_agree holds).mp prints .left
  exact absurd agree.1 (by decide)

/-- A root with two leaves below it is printed in pre-order. -/
theorem preOrderPrint_iff_three : ∃ tree,
    runOperations .new ([2, 1, 3].map .insert) = .ok tree ∧
      PrintsPreOrder tree (.node 0 (.node 1 .leaf 1 .leaf) 2 (.node 2 .leaf 3 .leaf)) := by
  have laidOut : ∃ tree, runOperations .new ([2, 1, 3].map .insert) = .ok tree ∧
      Holds tree (.node 0 (.node 1 .leaf 1 .leaf) 2 (.node 2 .leaf 3 .leaf)) :=
    ⟨_, rfl, rfl, ⟨⟨_, rfl, rfl, rfl, rfl⟩, ⟨⟨_, rfl, rfl, rfl, rfl⟩, trivial, trivial⟩,
      ⟨_, rfl, rfl, rfl, rfl⟩, trivial, trivial⟩, by decide⟩
  obtain ⟨tree, run, holds⟩ := laidOut
  refine ⟨tree, run, ((preOrderPrint_iff holds).2 (by decide)).mpr fun side => ?_⟩
  cases side <;> exact ⟨rfl, trivial⟩

/-- A tree built by insertions prints in order the keys inserted, from the least to the greatest,
and in post-order the same keys, each after all keys below it. -/
theorem print_insertions (inserted : List Int) :
    ∃ tree shape ordered posted, runOperations .new (inserted.map .insert) = .ok tree ∧
      Represents tree shape ∧ inOrderPrint tree = .ok ordered ∧ postOrderPrint tree = .ok posted ∧
      (writtenKeys ordered).Pairwise (· < ·) ∧
      (∀ key, key ∈ writtenKeys ordered ↔ key ∈ inserted) ∧
      (writtenKeys posted).Nodup ∧ (writtenKeys posted).Perm (writtenKeys ordered) ∧
      ∀ path address left key right, shape.subtree path = .node address left key right →
        ∀ below ∈ left.keys ++ right.keys, [below, key].Sublist (writtenKeys posted) := by
  -- Insertions make a tree of exactly their keys.
  obtain ⟨tree, shape, run, represents, keys, -⟩ :=
    insertions_represents (represents_leaf rfl : Represents .new .leaf) inserted
  obtain ⟨ordered, printed, inKeys⟩ := inOrderPrint_holds represents.holds
  obtain ⟨posted, printedAgain, postKeys⟩ := postOrderPrint_holds represents.holds
  refine ⟨tree, shape, ordered, posted, run, represents, printed, printedAgain, ?_⟩
  -- What is printed are the two sequences of the tree.
  rw [inKeys, postKeys]
  refine ⟨Shape.inOrder_sorted represents.ordered, fun key => ?_, ?_,
    shape.postOrder_perm.trans shape.inOrder_perm.symm, ?_⟩
  · -- Its keys are those that have been inserted.
    rw [shape.inOrder_perm.mem_iff, keys]
    simp [Shape.keys]
  · -- No key is printed twice.
    exact shape.postOrder_perm.nodup_iff.mpr (Shape.nodup_keys represents.ordered)
  · exact fun path address left key right there below member =>
      Shape.postOrder_after there member

end SecretTyping.Bst
