import Mathlib.Data.Int.Order.Basic

/-! The balanced tree with relaxed ranks: how it is searched, and how it is balanced after an
insertion. -/

namespace SecretTyping.Umf.Ravl

/-- The slots of a node for its children. -/
inductive Slot where
  | left
  | right
  deriving DecidableEq, Repr

/-- A subtree, whose nodes have a rank. -/
inductive Node (Data : Type) where
  | null
  | node (data : Data) (rank : Nat) (left right : Node Data)

/-- A step from a node to one of its children: what the node has besides that child. -/
structure Frame (Data : Type) where
  slot : Slot
  data : Data
  rank : Nat
  sibling : Node Data

/-- A pointer to a node in a tree; the path goes from its parent up to the root. -/
structure Location (Data : Type) where
  data : Data
  rank : Nat
  left : Node Data
  right : Node Data
  path : List (Frame Data)

/-- What a search is for. -/
inductive Predicate where
  | equal
  | greater
  | less
  | lessEqual
  | greaterEqual
  deriving DecidableEq, Repr

/-- The outcome of an insertion. -/
inductive Outcome where
  | success
  | duplicate
  | noMemory
  deriving DecidableEq, Repr

variable {Data : Type}

/-- The opposite slot. -/
def slotOpposite : Slot → Slot
  | .left => .right
  | .right => .left

/-- The child in a slot. -/
def Node.child (slot : Slot) : Node Data → Node Data
  | .null => .null
  | .node _ _ left right =>
    match slot with
    | .left => left
    | .right => right

/-- A node with a child in a slot, and another child in the opposite slot. -/
def join (slot : Slot) (data : Data) (rank : Nat) (inner outer : Node Data) : Node Data :=
  match slot with
  | .left => .node data rank inner outer
  | .right => .node data rank outer inner

/-- The node above a child. -/
def Frame.fill (frame : Frame Data) (n : Node Data) : Node Data :=
  join frame.slot frame.data frame.rank n frame.sibling

/-- The tree in which a subtree is at the end of a path. -/
def plug : Node Data → List (Frame Data) → Node Data
  | n, [] => n
  | n, frame :: path => plug (frame.fill n) path

/-- The node that a pointer is to. -/
def Location.node (n : Location Data) : Node Data := .node n.data n.rank n.left n.right

/-- The tree that a pointer is into. -/
def Location.root (n : Location Data) : Node Data := plug n.node n.path

/-- The way down to a child. -/
def Location.down (slot : Slot) (n : Location Data) : List (Frame Data) :=
  ⟨slot, n.data, n.rank, n.node.child (slotOpposite slot)⟩ :: n.path

/-- The parent of a subtree at the end of a path. -/
def Frame.parent (frame : Frame Data) (n : Node Data) (path : List (Frame Data)) : Location Data :=
  match frame.slot with
  | .left => ⟨frame.data, frame.rank, n, frame.sibling, path⟩
  | .right => ⟨frame.data, frame.rank, frame.sibling, n, path⟩

/-- The rank of a node; where there is no node, it is less than that of a leaf. -/
def nodeRank : Node Data → Int
  | .null => -1
  | .node _ rank _ _ => rank

/-- The difference of the ranks of a parent and its child. -/
def rankDifferenceParent (p n : Node Data) : Int := nodeRank p - nodeRank n

/-- Does a node differ so much from its left and its right child? -/
def nodeIsIJ (n : Node Data) (i j : Int) : Bool :=
  rankDifferenceParent n (n.child .left) = i && rankDifferenceParent n (n.child .right) = j

/-- Does a node differ so much from its children? -/
def nodeIs (n : Node Data) (i j : Int) : Bool := nodeIsIJ n i j || nodeIsIJ n j i

/-- Increase the rank of a node. -/
def nodePromote : Node Data → Node Data
  | .null => .null
  | .node data rank left right => .node data (rank + 1) left right

/-- Decrease the rank of a node; there is no result where the assertion that it is positive
fails. -/
def nodeDemote : Node Data → Option (Node Data)
  | .node data (rank + 1) left right => some (.node data rank left right)
  | _ => none

/-- Swap a node with its parent, which becomes its child in the opposite slot. -/
def rotate (n : Node Data) (p : Frame Data) : Node Data :=
  match n with
  | .null => .null
  | .node data rank left right =>
    let n := Node.node data rank left right
    -- The inner child of the node goes to the parent.
    join p.slot data rank (n.child p.slot)
      (join p.slot p.data p.rank (n.child (slotOpposite p.slot)) p.sibling)

/-- Walk up the tree while the parent of a node has the same rank as it and its sibling is one
below, promoting the parents. -/
def climb : Node Data → List (Frame Data) → Node Data × List (Frame Data)
  | n, [] => (n, [])
  | n, frame :: path =>
    -- The parent has the rank of one child and is one above the other.
    if nodeIs (frame.fill n) 0 1 then climb (nodePromote (frame.fill n)) path
    else (n, frame :: path)

/-- Swap a node with its parent, and decrease the rank of the parent. -/
def rotateOnce (n : Node Data) (y : Frame Data) : Option (Node Data) :=
  match rotate n y with
  | .null => none
  | .node data rank left right =>
    let rotated := Node.node data rank left right
    -- The parent is the child of the node now, and one rank lower.
    (nodeDemote (rotated.child (slotOpposite y.slot))).map fun y' =>
      join y.slot data rank (rotated.child y.slot) y'

/-- Swap the inner child of a node with the node and then with the parent of the node; its rank
goes up, and those of the other two go down. -/
def rotateTwice (n : Node Data) (y : Frame Data) : Option (Node Data) :=
  match n with
  | .null => none
  | .node data rank left right =>
    let t := slotOpposite y.slot
    let n := Node.node data rank left right
    -- The inner child is rotated with the node first, then with the parent.
    match rotate (rotate (n.child t) ⟨t, data, rank, n.child y.slot⟩) y with
    | .null => none
    | .node data rank left right =>
      let z := nodePromote (.node data rank left right)
      match nodeDemote (z.child y.slot), nodeDemote (z.child t) with
      | some n, some y' => some (join y.slot data (rank + 1) n y')
      | _, _ => none

/-- Balance the tree after an insertion: there is no result where an assertion fails. -/
def balance (n : Node Data) (path : List (Frame Data)) : Option (Node Data) :=
  match climb n path with
  -- Without a parent, the difference of the ranks is negative.
  | (n, []) => some n
  | (n, y :: path) =>
    if rankDifferenceParent (y.fill n) n = 0 && 1 < rankDifferenceParent (y.fill n) y.sibling then
      match n.child (slotOpposite y.slot) with
      -- Without an inner child it is two below in any case.
      | .null => (rotateOnce n y).map fun n => plug n path
      | .node data rank left right =>
        let z := Node.node data rank left right
        if rankDifferenceParent n z = 2 then (rotateOnce n y).map fun n => plug n path
        else if rankDifferenceParent n z = 1 then (rotateTwice n y).map fun n => plug n path
        else some (plug n (y :: path))
    else some (plug n (y :: path))

/-- The path to the missing slot of an item, unless the item is there. -/
def descend (compare : Data → Data → Ordering) (data : Data) :
    Node Data → List (Frame Data) → Option (List (Frame Data))
  | .null, path => some path
  | .node other rank left right, path =>
    match compare data other with
    | .eq => none
    | .lt => descend compare data left (⟨.left, other, rank, right⟩ :: path)
    | .gt => descend compare data right (⟨.right, other, rank, left⟩ :: path)

/-- Insert an item, if there is memory for its node. -/
def emplace (compare : Data → Data → Ordering) (root : Node Data) (data : Data) (memory : Bool) :
    Option (Outcome × Node Data) :=
  if memory then
    -- The way down ends where an equal item is met.
    match descend compare data root [] with
    | none => some (.duplicate, root)
    | some path => (balance (.node data 0 .null .null) path).map fun root => (.success, root)
  else some (.noMemory, root)

/-- The node that is farthest in a slot. -/
def nodeTypeMost (slot : Slot) : Node Data → List (Frame Data) → Option (Location Data)
  | .null, _ => none
  | .node data rank left right, path =>
    let n : Location Data := ⟨data, rank, left, right, path⟩
    match slot with
    -- Without a further child it is the node itself.
    | .left => some ((nodeTypeMost .left left (n.down .left)).getD n)
    | .right => some ((nodeTypeMost .right right (n.down .right)).getD n)

/-- The first parent above a subtree that is not reached from a slot. -/
def parentOn (slot : Slot) : Node Data → List (Frame Data) → Option (Location Data)
  | _, [] => none
  | n, frame :: path =>
    if frame.slot = slot then parentOn slot (frame.fill n) path else some (frame.parent n path)

/-- The neighbour of a node in the order of the items. -/
def nodeCessor (n : Location Data) (slot : Slot) : Option (Location Data) :=
  match nodeTypeMost (slotOpposite slot) (n.node.child slot) (n.down slot) with
  -- The farthest node of the child is the neighbour.
  | some found => some found
  | none => parentOn slot n.node n.path

/-- The first node that is larger. -/
def nodeSuccessor (n : Location Data) : Option (Location Data) := nodeCessor n .right

/-- The first node that is smaller. -/
def nodePredecessor (n : Location Data) : Option (Location Data) := nodeCessor n .left

/-- Is the search for an item that is equal? -/
def Predicate.isEqual : Predicate → Bool
  | .equal | .lessEqual | .greaterEqual => true
  | _ => false

/-- Is the search for an item that is greater? -/
def Predicate.isGreater : Predicate → Bool
  | .greater | .greaterEqual => true
  | _ => false

/-- Is the search for an item that is less? -/
def Predicate.isLess : Predicate → Bool
  | .less | .lessEqual => true
  | _ => false

/-- What a search has found when it gets to a node, and whether it is over. -/
def predicateHolds (result : Ordering) (ret : Option (Location Data)) (n : Location Data)
    (flags : Predicate) : Option (Location Data) × Bool :=
  -- An equal item is what is looked for, and the search is over.
  if flags.isEqual && result == .eq then (some n, true)
  -- A greater item is a candidate for the searches for greater ones.
  else if flags.isGreater && result == .lt then (some n, false)
  -- For a strict search, the neighbour of an equal item is the answer.
  else if flags.isGreater && result == .eq then (nodeSuccessor n, true)
  else if flags.isLess && result == .gt then (some n, false)
  else if flags.isLess && result == .eq then (nodePredecessor n, true)
  else (ret, false)

/-- Search a subtree. -/
def search (compare : Data → Data → Ordering) (data : Data) (flags : Predicate) :
    Node Data → List (Frame Data) → Option (Location Data) → Option (Location Data)
  | .null, _, r => r
  | .node other rank left right, path, r =>
    let n : Location Data := ⟨other, rank, left, right, path⟩
    let result := compare data other
    match predicateHolds result r n flags with
    | (r, true) => r
    | (r, false) =>
      match result with
      | .gt => search compare data flags right (n.down .right) r
      | _ => search compare data flags left (n.down .left) r

/-- Search a tree. -/
def find (compare : Data → Data → Ordering) (root : Node Data) (data : Data) (flags : Predicate) :
    Option (Location Data) :=
  search compare data flags root [] none

/-- Put the child that may exist in the place of a node. -/
def unlink (n : Location Data) : Node Data :=
  match n.left with
  | .null => plug n.right n.path
  | left => plug left n.path

/-- Remove a node from its tree; where it has both children, it takes the item of its successor,
and the successor is removed instead. -/
def remove (n : Location Data) : Node Data :=
  match n.left, n.right with
  | .null, _ | _, .null => unlink n
  | .node .., .node .. =>
    match nodeSuccessor n with
    | none => unlink n
    | some s =>
      let n := { n with data := s.data }
      match nodeTypeMost .left n.right (n.down .right) with
      | none => unlink n
      | some s => unlink s

/-- The first node of a tree. -/
def first (root : Node Data) : Option (Location Data) := nodeTypeMost .left root []

/-- The last node of a tree. -/
def last (root : Node Data) : Option (Location Data) := nodeTypeMost .right root []

/-- The items of a tree, in the order in which they are visited. -/
def foreach : Node Data → List Data
  | .null => []
  | .node data _ left right => foreach left ++ data :: foreach right

end SecretTyping.Umf.Ravl
