import Mathlib.Logic.Function.Basic
import SecretTyping.Umf.Slices

/-! The tree that maps words to values: what is in its nodes, and how it is searched and changed. -/

namespace SecretTyping.Umf.Critnib

/-- Where a node or a leaf is. -/
abbrev Address := Nat

/-- The number of removals for which a deleted node is left untouched. -/
abbrev deletedLife : Nat := 16

/-- What a pointer in the tree is to: nothing, a leaf, or a node with its children. -/
inductive Node (Value : Type) where
  | null
  | leaf (address : Address) (key : Word) (value : Value)
  | node (address : Address) (child : Fin slnodes → Node Value) (path : Word) (shift : Sh)

/-- The tree, the nodes and leaves that may be used again, and those that may not yet. -/
structure Tree (Value : Type) where
  root : Node Value
  deletedNode : List Address
  deletedLeaf : List Address
  pendingDelNodes : Fin deletedLife → Option Address
  pendingDelLeaves : Fin deletedLife → Option Address
  removeCount : BitVec 64
  /-- The blocks that the allocator has provided, which the code does not remember. -/
  allocated : List Address

/-- What the allocator returns to an insertion, if it is asked for a leaf and for a node. -/
structure Memory where
  leaf : Option Address
  node : Option Address

/-- The outcome of an insertion. -/
inductive Outcome where
  | success
  | exists
  | noMemory
  deriving DecidableEq, Repr

/-- A direction in which the nearest key is searched for. -/
inductive FindDir where
  | l
  | le
  | eq
  | ge
  | g
  deriving DecidableEq, Repr

variable {Value : Type}

/-- Is there no node? -/
def Node.isNull : Node Value → Bool
  | .null => true
  | _ => false

/-- Is it a leaf? -/
def Node.isLeaf : Node Value → Bool
  | .leaf .. => true
  | _ => false

/-- A new tree is empty. -/
def critnibNew : Tree Value where
  root := .null
  deletedNode := []
  deletedLeaf := []
  pendingDelNodes _ := none
  pendingDelLeaves _ := none
  removeCount := 0
  allocated := []

/-- The blocks of a subtree, in the order in which they are given back. -/
def deleteNode : Node Value → List Address
  | .null => []
  | .leaf address _ _ => [address]
  | .node address child _ _ =>
    (List.finRange slnodes).flatMap (fun i => deleteNode (child i)) ++ [address]

/-- The blocks that are given back when a tree is destroyed; the block of the tree itself is not
among them. -/
def critnibDelete (tree : Tree Value) : List Address :=
  -- The tree itself first, then what may be used again, then what is waiting for that.
  deleteNode tree.root ++ tree.deletedNode ++ tree.deletedLeaf ++
    (List.finRange deletedLife).flatMap fun i =>
      (tree.pendingDelNodes i).toList ++ (tree.pendingDelLeaves i).toList

/-- Put a node, if there is one, to those that may be used again. -/
def freeNode (tree : Tree Value) : Option Address → Tree Value
  | none => tree
  | some address => { tree with deletedNode := address :: tree.deletedNode }

/-- Take a node that may be used again, or ask the allocator for one. -/
def allocNode (tree : Tree Value) (fresh : Option Address) : Option (Address × Tree Value) :=
  match tree.deletedNode with
  | address :: rest => some (address, { tree with deletedNode := rest })
  | [] => fresh.map fun address => (address, { tree with allocated := address :: tree.allocated })

/-- Put a leaf, if there is one, to those that may be used again. -/
def freeLeaf (tree : Tree Value) : Option Address → Tree Value
  | none => tree
  | some address => { tree with deletedLeaf := address :: tree.deletedLeaf }

/-- Take a leaf that may be used again, or ask the allocator for one. -/
def allocLeaf (tree : Tree Value) (fresh : Option Address) : Option (Address × Tree Value) :=
  match tree.deletedLeaf with
  | address :: rest => some (address, { tree with deletedLeaf := rest })
  | [] => fresh.map fun address => (address, { tree with allocated := address :: tree.allocated })

/-- The subtree at which the way down to a key ends: there is nothing, or a leaf, or a node whose
path is not that of the key. -/
def descend (key : Word) : Node Value → Node Value
  | .node address child path shift =>
    -- The way down goes on as long as the path of the node is that of the key.
    if key &&& pathMask shift = path then descend key (child (sliceIndex key shift))
    else .node address child path shift
  | other => other

/-- Store a subtree where the way down to a key ends. -/
def store (key : Word) (subtree : Node Value) : Node Value → Node Value
  | .node address child path shift =>
    if key &&& pathMask shift = path then
      .node address (Function.update child (sliceIndex key shift)
        (store key subtree (child (sliceIndex key shift)))) path shift
    else subtree
  | _ => subtree

/-- The key of a leaf, or the path of a node. -/
def pathOf : Node Value → Word
  | .null => 0
  | .leaf _ key _ => key
  | .node _ _ path _ => path

/-- The leaf with another value. -/
def Node.withValue (value : Value) : Node Value → Node Value
  | .leaf address key _ => .leaf address key value
  | other => other

/-- A new node above the leaf of a key and a subtree with another path. -/
def newNode (m : Address) (key path : Word) (sh : Sh) (kn n : Node Value) : Node Value :=
  .node m (Function.update (Function.update (fun _ => .null) (sliceIndex key sh) kn)
    (sliceIndex path sh) n) (key &&& pathMask sh) sh

/-- Insert a value for a key; where the key is there, its value is changed if that is asked for.
There is no result where an assertion fails. -/
def critnibInsert (tree : Tree Value) (key : Word) (value : Value) (update : Bool)
    (memory : Memory) : Option (Outcome × Tree Value) :=
  -- A leaf is taken before the tree is looked at.
  match allocLeaf tree memory.leaf with
  | none => some (.noMemory, tree)
  | some (k, tree) =>
    let kn := Node.leaf k key value
    match descend key tree.root with
    -- The slot at the end of the way is empty, and takes the leaf.
    | .null => some (.success, { tree with root := store key kn tree.root })
    | n =>
      let path := pathOf n
      -- Where the path differs from the key.
      let at' := path ^^^ key
      if at' = 0 then
        -- An equal path is that of the leaf of the key; a node cannot have it.
        if n.isLeaf then
          let tree := freeLeaf tree (some k)
          if update then
            some (.success, { tree with root := store key (n.withValue value) tree.root })
          else some (.exists, tree)
        else none
      else
        let sh := shiftOf at'
        match allocNode tree memory.node with
        -- The leaf that has been taken is put back.
        | none => some (.noMemory, freeLeaf tree (some k))
        | some (m, tree) =>
          some (.success, { tree with root := store key (newNode m key path sh kn n) tree.root })

/-- Go down to where the key has to be, looking at nothing but the slices. -/
def dive (key : Word) : Node Value → Node Value
  | .node _ child _ shift => dive key (child (sliceIndex key shift))
  | other => other

/-- The children that there are. -/
def children (child : Fin slnodes → Node Value) : List (Fin slnodes) :=
  (List.finRange slnodes).filter fun i => !(child i).isNull

/-- Take the leaf of a key out of a node below, and the node too if it has one child left; there is
no result where an assertion fails. -/
def cut (key : Word) : Node Value → Option (Node Value × Option Address)
  | .node address child path shift =>
    let i := sliceIndex key shift
    -- The child on the way is a node, so the leaf is further down.
    match child i with
    | .node .. => (cut key (child i)).map fun (below, removed) =>
      (.node address (Function.update child i below) path shift, removed)
    | _ =>
      let child := Function.update child i .null
      match children child with
      -- The assertion fails that there is a child left.
      | [] => none
      -- The only child left takes the place of the node.
      | [ochild] => some (child ochild, some address)
      | _ => some (.node address child path shift, none)
  | _ => none

/-- The slot of a removal; what has been waiting there may be used again. -/
def nextSlot (tree : Tree Value) : Fin deletedLife × Tree Value :=
  let removeCount := tree.removeCount + 1
  let del : Fin deletedLife := ⟨(removeCount - 1).toNat % deletedLife, Nat.mod_lt _ (by decide)⟩
  let tree := { tree with removeCount := removeCount }
  let tree := freeNode tree (tree.pendingDelNodes del)
  let tree := freeLeaf tree (tree.pendingDelLeaves del)
  (del, { tree with
    pendingDelNodes := Function.update tree.pendingDelNodes del none
    pendingDelLeaves := Function.update tree.pendingDelLeaves del none })

/-- Remove a key, and return its value if it was there; there is no result where an assertion
fails. -/
def critnibRemove (tree : Tree Value) (key : Word) : Option (Option Value × Tree Value) :=
  match tree.root with
  | .null => some (none, tree)
  | .leaf k found value =>
    -- The slots go on even where the key is not found.
    let (del, tree) := nextSlot tree
    if found = key then
      some (some value, { tree with
        root := .null
        pendingDelLeaves := Function.update tree.pendingDelLeaves del (some k) })
    else some (none, tree)
  | n =>
    let (del, tree) := nextSlot tree
    -- The way down ends at the leaf of the key, or the key is not there.
    match dive key n with
    | .leaf k found value =>
      if found = key then
        (cut key n).map fun (root, removed) =>
          (some value, { tree with
            root := root
            pendingDelNodes := Function.update tree.pendingDelNodes del removed
            pendingDelLeaves := Function.update tree.pendingDelLeaves del (some k) })
      else some (none, tree)
    | _ => some (none, tree)

/-- The value of a key. -/
def critnibGet (tree : Tree Value) (key : Word) : Option Value :=
  match dive key tree.root with
  | .leaf _ found value => if found = key then some value else none
  | _ => none

/-- What the searches to the left and to the right differ in. -/
structure Direction where
  /-- The children, from the outermost one. -/
  slots : List (Fin slnodes)
  /-- Is a child on the far side of the slice of the key? -/
  beyond : Fin slnodes → Fin slnodes → Bool
  /-- May a key be found for a bound? -/
  within : Word → Word → Bool
  /-- Is a path on the far side of a bound? -/
  strictly : Word → Word → Bool

/-- The search for keys that are not greater. -/
def Direction.le : Direction where
  slots := (List.finRange slnodes).reverse
  beyond nibble i := i < nibble
  within found key := found ≤ key
  strictly path key := path < key

/-- The search for keys that are not less. -/
def Direction.ge : Direction where
  slots := List.finRange slnodes
  beyond nibble i := nibble < i
  within found key := found ≥ key
  strictly path key := path > key

/-- The outermost leaf of a subtree in a direction. -/
-- Where there is no child, there is no leaf to find.
def outermost (direction : Direction) : Node Value → Option (Word × Value)
  | .null => none
  | .leaf _ key value => some (key, value)
  | .node _ child _ _ =>
    match direction.slots.find? fun i => !(child i).isNull with
    | none => none
    | some i => outermost direction (child i)

/-- The rightmost leaf of a subtree. -/
def findPredecessor : Node Value → Option (Word × Value) := outermost .le

/-- The leftmost leaf of a subtree. -/
def findSuccessor : Node Value → Option (Word × Value) := outermost .ge

/-- Search a subtree for the nearest leaf in a direction. -/
def nearest (direction : Direction) (key : Word) : Node Value → Option (Word × Value)
  | .null => none
  | .leaf _ found value => if direction.within found key then some (found, value) else none
  | .node address child path shift =>
    if outside key path shift then
      -- The subtree may be too far to the one side, or too far to the other.
      if direction.strictly path key then outermost direction (.node address child path shift)
      else none
    else
      let nibble := sliceIndex key shift
      match nearest direction key (child nibble) with
      | some found => some found
      | none =>
        -- The way was lost here, so the children on the far side are next.
        match (direction.slots.filter (direction.beyond nibble)).find? fun i =>
          !(child i).isNull with
        | none => none
        | some i => outermost direction (child i)

/-- Search a subtree for the last leaf whose key is not greater. -/
def findLe : Word → Node Value → Option (Word × Value) := nearest .le

/-- Search a subtree for the first leaf whose key is not less. -/
def findGe : Word → Node Value → Option (Word × Value) := nearest .ge

/-- The value of the last key that is not greater. -/
def critnibFindLe (tree : Tree Value) (key : Word) : Option Value :=
  (findLe key tree.root).map Prod.snd

/-- The leaf of a key. -/
def findEq (key : Word) (root : Node Value) : Option (Word × Value) :=
  match dive key root with
  | .leaf _ found value => if found = key then some (found, value) else none
  | _ => none

/-- Search in a direction; a strict bound is made one that is not strict. -/
def critnibFind (tree : Tree Value) (key : Word) : FindDir → Option (Word × Value)
  -- There is no key less than zero.
  | .l => if key = 0 then none else findLe (key - 1) tree.root
  | .le => findLe key tree.root
  | .eq => findEq key tree.root
  | .ge => findGe key tree.root
  -- There is no key greater than the last word.
  | .g => if key = -1 then none else findGe (key + 1) tree.root

/-- Call a function for each leaf of a list of subtrees, until one of them says to stop. -/
def untilStop {State Item : Type} (visit : Item → State → Bool × State) :
    List Item → State → Bool × State
  | [], state => (false, state)
  | item :: rest, state =>
    match visit item state with
    | (true, state) => (true, state)
    | (false, state) => untilStop visit rest state

/-- Call a function for the leaves of a subtree whose keys are in a range, until it says to stop. -/
def iter {State : Type} (least greatest : Word) (func : Word → Value → State → Bool × State) :
    Node Value → State → Bool × State
  | .null, state => (false, state)
  | .leaf _ key value, state =>
    if least ≤ key ∧ key ≤ greatest then func key value state else (false, state)
  | .node _ child path shift, state =>
    if path > greatest then (true, state)
    else if path ||| pathMask shift < least then (false, state)
    else untilStop (fun i state => iter least greatest func (child i) state)
      (List.finRange slnodes) state

/-- Call a function for the leaves whose keys are in a range. -/
def critnibIter {State : Type} (tree : Tree Value) (least greatest : Word)
    (func : Word → Value → State → Bool × State) (state : State) : State :=
  (iter least greatest func tree.root state).2

end SecretTyping.Umf.Critnib
