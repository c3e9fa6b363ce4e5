import SecretTyping.Lib.Chain

/-! The nodes of the singly linked structures, on an explicit heap. -/

namespace SecretTyping.Lists

open Memory

/-- A node with its value and its link; the constructor from a value leaves the link unset. -/
structure Node where
  data : Int
  link : Option Ptr
  deriving DecidableEq

/-- A node as its constructor from a value leaves it. -/
def Node.new (data : Int) : Node := ⟨data, none⟩

/-- How a node holds its value and its link. -/
def nodeLinks : LinkLayout Node Int where
  value := Node.data
  link := Node.link

/-- The heap that the nodes live in. -/
abbrev NodeHeap := Heap Node

/-- Read the value of a node. -/
def getData (heap : NodeHeap) (node : Ptr) : Except Fault Int :=
  (heap.read node).map Node.data

/-- Read the link of a node. -/
def getLink (heap : NodeHeap) (node : Ptr) : Except Fault Ptr := do
  match (← heap.read node).link with
  | none => throw .uninitialised
  | some link => return link

/-- Write the link of a node. -/
def setLink (heap : NodeHeap) (node link : Ptr) : Except Fault NodeHeap :=
  heap.modify (fun cell => { cell with link := some link }) node

/-- Make a node from a value and set its link. -/
def makeNode (heap : NodeHeap) (data : Int) (link : Ptr) : Except Fault (Ptr × NodeHeap) := do
  let (newNode, heap) := heap.alloc (.new data)
  return (some newNode, ← setLink heap (some newNode) link)

/-- No loop over a chain without cycles takes more steps than there have been allocations. -/
def loopBound (heap : NodeHeap) : Nat := heap.next + 1

/-- A made node is a new cell with its value and its link. -/
theorem makeNode_eq (heap : NodeHeap) (data : Int) (link : Ptr) :
    makeNode heap data link = .ok (some heap.next, (heap.alloc ⟨data, some link⟩).2) := by
  -- Making the cell and then setting its link is making the cell with the link.
  have made := Heap.alloc_same heap (Node.new data)
  have written : setLink (heap.alloc (.new data)).2 (some heap.next) link =
      .ok (heap.alloc ⟨data, some link⟩).2 := by
    rw [setLink, Heap.modify_live made]
    refine congrArg Except.ok (Heap.ext (funext fun address => ?_) rfl)
    by_cases same : address = heap.next
    · rw [same, Heap.put_same made, Heap.alloc_same]
      rfl
    · rw [Heap.put_other _ same, Heap.alloc_other heap same, Heap.alloc_other heap same]
  show (setLink (heap.alloc (.new data)).2 (some heap.next) link >>= _) = _
  rw [written]
  rfl

section Reading

variable {heap : NodeHeap} {address : Nat} {value : Int} {rest : List (Nat × Int)}
  (chained : Chained nodeLinks heap ((address, value) :: rest))

include chained

/-- A cell of a chain is the node with its value and the link to the rest. -/
theorem cells_chained : heap.cells address = some ⟨value, some (headPtr rest)⟩ := by
  obtain ⟨⟨cell, live, held, link⟩, -⟩ := chained
  rw [live, ← held, ← link]
  rfl

/-- The value of a node of a chain is read. -/
theorem getData_chained : getData heap (some address) = .ok value := by
  -- A cell of a chain is live.
  rw [getData, Heap.read_live (cells_chained chained)]
  rfl

/-- The link of a node of a chain leads to the rest of the chain. -/
theorem getLink_chained : getLink heap (some address) = .ok (headPtr rest) := by
  rw [getLink, Heap.read_live (cells_chained chained)]
  rfl

/-- The link of a node of a chain is written. -/
theorem setLink_chained (link : Ptr) :
    setLink heap (some address) link = .ok (heap.put address ⟨value, some link⟩) := by
  rw [setLink, Heap.modify_live (cells_chained chained)]

/-- A node of a chain is deleted. -/
theorem free_chained : heap.free (some address) = .ok (heap.kill address) :=
  Heap.free_live (cells_chained chained)

end Reading

/-- The heap after a new node has been linked in behind a node of a chain. -/
def splice (heap : NodeHeap) (address : Nat) (value data : Int) (behind : Ptr) : NodeHeap :=
  (heap.alloc ⟨data, some behind⟩).2.put address ⟨value, some (some heap.next)⟩

section Splicing

variable {heap : NodeHeap} {before behind : List (Nat × Int)} {address : Nat} {value : Int}

/-- A node of a chain is linked to a new node. -/
theorem setLink_alloc (chained : Chained nodeLinks heap ((address, value) :: behind)) (data : Int) :
    setLink (heap.alloc ⟨data, some (headPtr behind)⟩).2 (some address) (some heap.next) =
      .ok (splice heap address value data (headPtr behind)) := by
  -- The node has been there before the new one.
  have old : address < heap.next := chained.lt_next (by simp)
  have live := (Heap.alloc_other heap old.ne ⟨data, some (headPtr behind)⟩).trans
    (cells_chained chained)
  rw [setLink, Heap.modify_live live]
  rfl

/-- A heap with a new node linked in holds the chain with the new node. -/
theorem splice_only (only : HoldsOnly nodeLinks heap (before ++ (address, value) :: behind))
    (data : Int) :
    HoldsOnly nodeLinks (splice heap address value data (headPtr behind))
      (before ++ (address, value) :: (heap.next, data) :: behind) := by
  -- Splicing allocates the new cell and then writes the link of the old one.
  show HoldsOnly nodeLinks ((heap.alloc ⟨data, some (headPtr behind)⟩).2.put address
    ⟨value, some (some heap.next)⟩) _
  exact only.insert rfl rfl rfl

/-- Linking a node to a new one before the link of the new one is set makes the same heap. -/
theorem splice_late (chained : Chained nodeLinks heap [(address, value)]) (data : Int) :
    (do
      let linked ← setLink (heap.alloc (.new data)).2 (some address) (some heap.next)
      setLink linked (some heap.next) none) = .ok (splice heap address value data none) := by
  have old : address < heap.next := chained.lt_next (by simp)
  have live := (Heap.alloc_other heap old.ne (Node.new data)).trans (cells_chained chained)
  have linked : setLink (heap.alloc (.new data)).2 (some address) (some heap.next) =
      .ok ((heap.alloc (.new data)).2.put address ⟨value, some (some heap.next)⟩) :=
    Heap.modify_live live _
  have made : ((heap.alloc (.new data)).2.put address ⟨value, some (some heap.next)⟩).cells
      heap.next = some (.new data) := by
    rw [Heap.put_other _ old.ne', Heap.alloc_same]
  rw [linked, ok_bind, setLink, Heap.modify_live made]
  refine congrArg Except.ok (Heap.ext (funext fun other => ?_) rfl)
  -- The heaps agree at the new node, at the old one and elsewhere.
  by_cases new : other = heap.next
  · rw [new, Heap.put_same made, splice, Heap.put_other _ old.ne', Heap.alloc_same]
    rfl
  · rw [Heap.put_other _ new]
    by_cases own : other = address
    · rw [own, Heap.put_same live, splice,
        Heap.put_same ((Heap.alloc_other heap old.ne _).trans (cells_chained chained))]
    · rw [Heap.put_other _ own, splice, Heap.put_other _ own, Heap.alloc_other heap new,
        Heap.alloc_other heap new]

end Splicing

/-- A chain is shorter than the bound of the loops over it. -/
theorem chained_bounded {heap : NodeHeap} {nodes : List (Nat × Int)}
    (chained : Chained nodeLinks heap nodes) : nodes.length < loopBound heap :=
  Nat.lt_succ_of_le chained.length_le

end SecretTyping.Lists
