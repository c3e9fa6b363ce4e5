import SecretTyping.Lib.Heap

/-! The benchmark binary search tree, on an explicit heap of its nodes. The levels are counted
without a bound here, as neither the keys nor the walks depend on them. -/

namespace SecretTyping.Bst

open Memory

/-- A node with its key and its two children. -/
structure BinaryNode where
  data : Int
  leftChild : Ptr
  rightChild : Ptr
  deriving DecidableEq

/-- A node as its constructor leaves it. -/
def BinaryNode.new (data : Int) : BinaryNode := ⟨data, none, none⟩

/-- How a node holds its key and its children. -/
def nodeLayout : Layout BinaryNode Int where
  key := BinaryNode.data
  left := BinaryNode.leftChild
  right := BinaryNode.rightChild

/-- The heap that the nodes of a tree live in. -/
abbrev NodeHeap := Heap BinaryNode

/-- Read the key of a node. -/
def getData (heap : NodeHeap) (node : Ptr) : Except Fault Int :=
  (heap.read node).map BinaryNode.data

/-- Read the left child of a node. -/
def getLeftChild (heap : NodeHeap) (node : Ptr) : Except Fault Ptr :=
  (heap.read node).map BinaryNode.leftChild

/-- Read the right child of a node. -/
def getRightChild (heap : NodeHeap) (node : Ptr) : Except Fault Ptr :=
  (heap.read node).map BinaryNode.rightChild

/-- Write the left child of a node. -/
def setLeftChild (heap : NodeHeap) (node child : Ptr) : Except Fault NodeHeap :=
  heap.modify (fun cell => { cell with leftChild := child }) node

/-- Write the right child of a node. -/
def setRightChild (heap : NodeHeap) (node child : Ptr) : Except Fault NodeHeap :=
  heap.modify (fun cell => { cell with rightChild := child }) node

/-- A tree: its root and the heap of its nodes. -/
structure BinarySearchTree where
  root : Ptr
  heap : NodeHeap

/-- A tree as its constructor leaves it. -/
def BinarySearchTree.new : BinarySearchTree := ⟨none, Heap.empty⟩

/-- No loop over a tree without cycles takes more steps than there have been allocations. -/
def loopBound (heap : NodeHeap) : Nat := heap.next + 1

/-- The loop that looks for a key and does nothing with it. -/
def updateLoop (heap : NodeHeap) (data : Int) : Nat → Ptr → Except Fault Unit
  | _, none => .ok ()
  | 0, some _ => .error .endless
  | fuel + 1, some current => do
    let held ← getData heap (some current)
    if held = data then return ()
    else if data < held then updateLoop heap data fuel (← getLeftChild heap (some current))
    else updateLoop heap data fuel (← getRightChild heap (some current))

/-- Look for a key and do nothing with it. -/
def update (tree : BinarySearchTree) (data : Int) : Except Fault Unit :=
  updateLoop tree.heap data (loopBound tree.heap) tree.root

/-- The loop that looks for a key and counts its steps. -/
def lookupLoop (heap : NodeHeap) (data : Int) : Nat → Ptr → Nat → Except Fault Nat
  | _, none, level => .ok level
  | 0, some _, _ => .error .endless
  | fuel + 1, some current, level => do
    let held ← getData heap (some current)
    if held = data then return level
    else if data < held then
      lookupLoop heap data fuel (← getLeftChild heap (some current)) (level + 1)
    else lookupLoop heap data fuel (← getRightChild heap (some current)) (level + 1)

/-- Look for a key; the result is the level where the search ended. -/
def lookup (tree : BinarySearchTree) (data : Int) : Except Fault Nat :=
  lookupLoop tree.heap data (loopBound tree.heap) tree.root 0

/-- The recursion behind the depth of a tree. -/
def getDepthHelper (heap : NodeHeap) : Nat → Ptr → Except Fault Nat
  | _, none => .ok 0
  | 0, some _ => .error .endless
  | fuel + 1, some node => do
    let leftDepth ← getDepthHelper heap fuel (← getLeftChild heap (some node))
    let rightDepth ← getDepthHelper heap fuel (← getRightChild heap (some node))
    return max leftDepth rightDepth + 1

/-- The depth of a tree. -/
def getDepth (tree : BinarySearchTree) : Except Fault Nat :=
  getDepthHelper tree.heap (loopBound tree.heap) tree.root

/-- How the descent of an insertion ends. -/
inductive Descent where
  | found (level : Nat)
  /-- The search ran off the tree below the given node. -/
  | fell (parent : Ptr) (level : Nat)
  deriving DecidableEq

/-- The loop that looks for the place of a new key. -/
def insertLoop (heap : NodeHeap) (data : Int) : Nat → Ptr → Ptr → Nat → Except Fault Descent
  | _, none, parent, level => .ok (.fell parent level)
  | 0, some _, _, _ => .error .endless
  | fuel + 1, some current, _, level => do
    let held ← getData heap (some current)
    if data < held then
      insertLoop heap data fuel (← getLeftChild heap (some current)) (some current) (level + 1)
    else if data > held then
      insertLoop heap data fuel (← getRightChild heap (some current)) (some current) (level + 1)
    else return .found level

/-- Hang a new leaf below the node where the descent ended. -/
def linkLeaf (heap : NodeHeap) (data : Int) (parent leaf : Ptr) : Except Fault NodeHeap := do
  if data < (← getData heap parent) then setLeftChild heap parent leaf
  else setRightChild heap parent leaf

/-- Insert a key; the result is the level of its node. -/
def insert (tree : BinarySearchTree) (data : Int) : Except Fault (Nat × BinarySearchTree) := do
  let (leaf, heap) := tree.heap.alloc (.new data)
  if tree.root = none then return (0, ⟨some leaf, heap⟩)
  else
    match ← insertLoop heap data (loopBound heap) tree.root none 0 with
    | .found level =>
      -- The key exists, so the node made for it is deleted again.
      return (level, ⟨tree.root, ← heap.free (some leaf)⟩)
    | .fell parent level => return (level, ⟨tree.root, ← linkLeaf heap data parent (some leaf)⟩)

/-- The leftmost node below a node. -/
def findMin (heap : NodeHeap) : Nat → Ptr → Except Fault Ptr
  | _, none => .ok none
  | 0, some _ => .error .endless
  | fuel + 1, some node => do
    let left ← getLeftChild heap (some node)
    if left = none then return some node
    else findMin heap fuel left

/-- Delete a key below a node; the result is what the node is to be replaced by. -/
def deleteHelper (heap : NodeHeap) : Nat → Ptr → Ptr → Int → Except Fault (Ptr × NodeHeap)
  | _, _, none, _ => .ok (none, heap)
  | 0, _, some _, _ => .error .endless
  | fuel + 1, parent, some node, key => do
    let held ← getData heap (some node)
    if key < held then
      let (child, heap) ← deleteHelper heap fuel (some node) (← getLeftChild heap (some node)) key
      return (some node, ← setLeftChild heap (some node) child)
    else if key > held then
      let (child, heap) ← deleteHelper heap fuel (some node) (← getRightChild heap (some node)) key
      return (some node, ← setRightChild heap (some node) child)
    else
      let left ← getLeftChild heap (some node)
      let right ← getRightChild heap (some node)
      if left = none then return (right, ← heap.free (some node))
      else if right = none then return (left, ← heap.free (some node))
      else
        -- Two children: a copy of the successor takes the place of the node.
        let successor ← findMin heap (loopBound heap) right
        let (copy, heap) := heap.alloc (.new (← getData heap successor))
        let heap ← setLeftChild heap (some copy) left
        let heap ← setRightChild heap (some copy) right
        let heap ← heap.free (some node)
        let above ← getData heap parent
        let below ← getData heap (some copy)
        let heap ←
          if above > below then setLeftChild heap parent (some copy)
          else setRightChild heap parent (some copy)
        let (child, heap) ← deleteHelper heap fuel (some copy)
          (← getRightChild heap (some copy)) (← getData heap (some copy))
        -- The node is written to although it has been deleted.
        return (some node, ← setRightChild heap (some node) child)

/-- Remove a key. -/
def remove (tree : BinarySearchTree) (data : Int) : Except Fault BinarySearchTree := do
  if tree.root = none then return tree
  else
    let held ← getData tree.heap tree.root
    if held = data then return ⟨none, ← tree.heap.free tree.root⟩
    else if held < data then
      let (child, heap) ← deleteHelper tree.heap (loopBound tree.heap) tree.root
        (← getLeftChild tree.heap tree.root) data
      return ⟨tree.root, ← setLeftChild heap tree.root child⟩
    else if data > held then
      -- This repeats the test above, so the branch is never taken.
      let (child, heap) ← deleteHelper tree.heap (loopBound tree.heap) tree.root
        (← getRightChild tree.heap tree.root) data
      return ⟨tree.root, ← setRightChild heap tree.root child⟩
    else return tree

/-- A call on a tree. -/
inductive Operation where
  | insert (data : Int)
  | remove (data : Int)
  | lookup (data : Int)
  | update (data : Int)
  | getDepth
  deriving DecidableEq

/-- Carry out one call; its result is a number where it returns one. -/
def perform (tree : BinarySearchTree) : Operation → Except Fault (Option Nat × BinarySearchTree)
  | .insert data => do
    let (level, tree) ← insert tree data
    return (some level, tree)
  | .remove data => return (none, ← remove tree data)
  | .lookup data => return (some (← lookup tree data), tree)
  | .update data => do
    update tree data
    return (none, tree)
  | .getDepth => return (some (← getDepth tree), tree)

/-- Carry out calls one after another. -/
def runOperations (tree : BinarySearchTree) : List Operation → Except Fault BinarySearchTree
  | [] => .ok tree
  | operation :: rest => do
    let (_, tree) ← perform tree operation
    runOperations tree rest

end SecretTyping.Bst
