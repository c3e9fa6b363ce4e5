import Mathlib.Data.List.Perm.Subperm
import Mathlib.Data.List.Range
import Mathlib.Data.Set.Basic
import Mathlib.Order.Basic

/-! A heap of cells that can be deleted, and binary trees laid out in it. -/

namespace SecretTyping.Memory

/-- Why a program on the heap goes wrong. -/
inductive Fault where
  | nullDereference
  /-- A deleted cell was read, written or deleted again. -/
  | deadAccess
  /-- A loop or recursion went on for more steps than there are cells. -/
  | endless
  /-- A pointer was followed that had never been set. -/
  | uninitialised
  /-- A signed number left its range. -/
  | overflow
  deriving DecidableEq

/-- Where two computations in a row go well, so does each of them. -/
theorem bind_eq_ok {Error First Second : Type} {first : Except Error First}
    {second : First → Except Error Second} {result : Second}
    (done : first >>= second = .ok result) :
    ∃ value, first = .ok value ∧ second value = .ok result := by
  -- A fault of the first would have been the result.
  cases first with
  | error fault => cases done
  | ok value => exact ⟨value, rfl, done⟩

/-- A computation that went well hands its value on. -/
theorem ok_bind {Error First Second : Type} (value : First)
    (second : First → Except Error Second) : (.ok value >>= second) = second value :=
  rfl

/-- A pointer, null or to an address. -/
abbrev Ptr := Option Nat

/-- The live cells by address; nothing is live beyond the addresses handed out. -/
structure Heap (Cell : Type) where
  cells : Nat → Option Cell
  next : Nat
  beyond : ∀ address, next ≤ address → cells address = none

namespace Heap

variable {Cell : Type}

/-- The heap before the first allocation. -/
def empty : Heap Cell := ⟨fun _ => none, 0, fun _ _ => rfl⟩

/-- Read the cell a pointer leads to. -/
def read (heap : Heap Cell) : Ptr → Except Fault Cell
  | none => .error .nullDereference
  | some address =>
    match heap.cells address with
    | none => .error .deadAccess
    | some cell => .ok cell

/-- Replace a live cell; a dead one stays dead. -/
def put (heap : Heap Cell) (address : Nat) (cell : Cell) : Heap Cell where
  -- Writing does not bring a deleted cell back to life.
  cells other := if other = address then (heap.cells other).map fun _ => cell else heap.cells other
  next := heap.next
  beyond other far := by simp [heap.beyond other far]

/-- Change the cell a pointer leads to. -/
def modify (heap : Heap Cell) (change : Cell → Cell) (pointer : Ptr) : Except Fault (Heap Cell) :=
  match pointer with
  | none => .error .nullDereference
  | some address =>
    match heap.cells address with
    | none => .error .deadAccess
    | some cell => .ok (heap.put address (change cell))

/-- Allocate a cell at an address never used before. -/
def alloc (heap : Heap Cell) (cell : Cell) : Nat × Heap Cell :=
  -- Addresses are never used again, so a dangling pointer never leads to a new cell.
  (heap.next,
    { cells := fun other => if other = heap.next then some cell else heap.cells other
      next := heap.next + 1
      beyond := fun other far => by
        rw [if_neg (by omega)]
        exact heap.beyond other (by omega) })

/-- Delete the cell a pointer leads to; deleting null does nothing. -/
def free (heap : Heap Cell) (pointer : Ptr) : Except Fault (Heap Cell) :=
  match pointer with
  | none => .ok heap
  | some address =>
    match heap.cells address with
    | none => .error .deadAccess
    | some _ => .ok
        { cells := fun other => if other = address then none else heap.cells other
          next := heap.next
          beyond := fun other far => by simp [heap.beyond other far] }

/-- The heap after the deletion of an address. -/
def kill (heap : Heap Cell) (address : Nat) : Heap Cell where
  cells other := if other = address then none else heap.cells other
  next := heap.next
  beyond other far := by simp [heap.beyond other far]

/-- A deleted cell is dead. -/
@[simp] theorem kill_same (heap : Heap Cell) (address : Nat) :
    (heap.kill address).cells address = none :=
  if_pos rfl

/-- Deleting a cell leaves every other cell alone. -/
theorem kill_other (heap : Heap Cell) {address other : Nat} (apart : other ≠ address) :
    (heap.kill address).cells other = heap.cells other :=
  if_neg apart

/-- Two heaps with the same cells and the same next address are the same. -/
@[ext] theorem ext {first second : Heap Cell} (cells : first.cells = second.cells)
    (next : first.next = second.next) : first = second := by
  cases first
  cases second
  simp_all

/-- A live cell is read. -/
theorem read_live {heap : Heap Cell} {address : Nat} {cell : Cell}
    (live : heap.cells address = some cell) : heap.read (some address) = .ok cell := by
  -- Reading is a match on the cell.
  simp [read, live]

/-- A live cell is changed. -/
theorem modify_live {heap : Heap Cell} {address : Nat} {cell : Cell}
    (live : heap.cells address = some cell) (change : Cell → Cell) :
    heap.modify change (some address) = .ok (heap.put address (change cell)) := by
  -- Changing is a match on the cell.
  simp [modify, live]

/-- A replaced cell holds its new content. -/
theorem put_same {heap : Heap Cell} {address : Nat} {cell : Cell}
    (live : heap.cells address = some cell) (content : Cell) :
    (heap.put address content).cells address = some content := by
  simp [put, live]

/-- Replacing a cell leaves every other cell alone. -/
theorem put_other (heap : Heap Cell) {address other : Nat} (apart : other ≠ address)
    (content : Cell) : (heap.put address content).cells other = heap.cells other := by
  -- The new content is stored under one address only.
  simp [put, apart]

/-- A live cell is deleted. -/
theorem free_live {heap : Heap Cell} {address : Nat} {cell : Cell}
    (live : heap.cells address = some cell) :
    heap.free (some address) = .ok (heap.kill address) := by
  simp only [free]
  -- The deletion is a match on the cell, which is live.
  split
  · next dead => exact absurd (live.symm.trans dead) (by simp)
  · rfl

/-- Only a live cell can be deleted. -/
theorem free_eq_ok {heap freed : Heap Cell} {address : Nat}
    (done : heap.free (some address) = .ok freed) : freed = heap.kill address := by
  simp only [free] at done
  -- A dead cell would have been a fault.
  split at done
  · cases done
  · exact (Except.ok.inj done).symm

/-- A new cell is live. -/
@[simp] theorem alloc_same (heap : Heap Cell) (cell : Cell) :
    (heap.alloc cell).2.cells heap.next = some cell :=
  if_pos rfl

/-- Allocating a cell leaves every other cell alone. -/
theorem alloc_other (heap : Heap Cell) {address : Nat} (apart : address ≠ heap.next)
    (cell : Cell) : (heap.alloc cell).2.cells address = heap.cells address :=
  if_neg apart

/-- Writing back what a cell holds changes nothing. -/
theorem put_self {heap : Heap Cell} {address : Nat} {cell : Cell}
    (live : heap.cells address = some cell) : heap.put address cell = heap := by
  -- The heaps agree at the address itself and at all others.
  refine Heap.ext (funext fun other => ?_) rfl
  by_cases same : other = address
  · rw [same, put_same live, live]
  · exact put_other heap same cell

/-- Live cells have addresses that were handed out. -/
theorem lt_next {heap : Heap Cell} {address : Nat} {cell : Cell}
    (live : heap.cells address = some cell) : address < heap.next := by
  -- Beyond the next address every cell is dead.
  by_contra far
  rw [heap.beyond address (by omega)] at live
  cases live

/-- Later on no address has been taken back, and what was dead still is. -/
structure Later (before after : Heap Cell) : Prop where
  next : before.next ≤ after.next
  dead : ∀ address < before.next, before.cells address = none → after.cells address = none

/-- No work at all brings nothing back to life. -/
theorem Later.refl (heap : Heap Cell) : heap.Later heap := ⟨le_rfl, fun _ _ dead => dead⟩

/-- Work in two parts brings nothing back to life when neither part does. -/
theorem Later.trans {first second third : Heap Cell} (one : first.Later second)
    (two : second.Later third) : first.Later third where
  next := one.next.trans two.next
  dead address handed dead := two.dead address (handed.trans_le one.next)
    (one.dead address handed dead)

/-- A change brings nothing back to life. -/
theorem later_modify {heap after : Heap Cell} {change : Cell → Cell} {pointer : Ptr}
    (done : heap.modify change pointer = .ok after) : heap.Later after := by
  simp only [modify] at done
  -- The change goes well at a live cell only, and it is a replacement there.
  split at done
  · cases done
  · split at done
    · cases done
    · cases done
      exact ⟨le_rfl, fun address _ dead => by simp [put, dead]⟩

/-- A deletion brings nothing back to life. -/
theorem later_free {heap after : Heap Cell} {pointer : Ptr}
    (done : heap.free pointer = .ok after) : heap.Later after := by
  cases pointer with
  | none =>
    cases done
    exact .refl heap
  | some own =>
    rw [free_eq_ok done]
    exact ⟨le_rfl, fun address _ dead => by simp [kill, dead]⟩

/-- An allocation brings nothing back to life. -/
theorem later_alloc (heap : Heap Cell) (cell : Cell) : heap.Later (heap.alloc cell).2 where
  next := Nat.le_succ _
  dead _ handed dead := (alloc_other heap handed.ne cell).trans dead

end Heap

/-- How a cell holds a key and two pointers. -/
structure Layout (Cell Key : Type) where
  key : Cell → Key
  left : Cell → Ptr
  right : Cell → Ptr

/-- A binary tree of keys with the address of each node. -/
inductive Shape (Key : Type) where
  | leaf
  | node (address : Nat) (left : Shape Key) (key : Key) (right : Shape Key)

/-- A step from a node to one of its children. -/
inductive Side where
  | left
  | right
  deriving DecidableEq

namespace Shape

variable {Key : Type}

/-- The pointer to the root of a tree. -/
def ptr : Shape Key → Ptr
  | leaf => none
  | node address _ _ _ => some address

/-- An empty tree hangs at null. -/
@[simp] theorem ptr_leaf : (leaf : Shape Key).ptr = none := rfl

/-- A tree hangs at the address of its root. -/
@[simp] theorem ptr_node (address : Nat) (left : Shape Key) (key : Key) (right : Shape Key) :
    (node address left key right).ptr = some address := rfl

/-- The addresses of all nodes. -/
def addresses : Shape Key → List Nat
  | leaf => []
  | node address left _ right => address :: (left.addresses ++ right.addresses)

/-- The keys of all nodes. -/
def keys : Shape Key → List Key
  | leaf => []
  | node _ left key right => key :: (left.keys ++ right.keys)

/-- The number of nodes on the longest way down. -/
def height : Shape Key → Nat
  | leaf => 0
  | node _ left _ right => max left.height right.height + 1

/-- Smaller keys are to the left of a node and greater ones to its right. -/
def Ordered [LT Key] : Shape Key → Prop
  | leaf => True
  | node _ left key right =>
    (∀ k ∈ left.keys, k < key) ∧ (∀ k ∈ right.keys, key < k) ∧ left.Ordered ∧ right.Ordered

/-- No way down is longer than there are nodes. -/
theorem height_le (shape : Shape Key) : shape.height ≤ shape.addresses.length := by
  -- A way down meets one node for each level.
  induction shape with
  | leaf => exact Nat.le_refl _
  | node address left key right ihLeft ihRight =>
    simp only [height, addresses, List.length_cons, List.length_append]
    omega

end Shape

section Stored

variable {Cell Key : Type} (layout : Layout Cell Key)

/-- A heap holds a tree, node by node. -/
def Stored (heap : Heap Cell) : Shape Key → Prop
  | .leaf => True
  | .node address left key right =>
    (∃ cell, heap.cells address = some cell ∧ layout.key cell = key ∧
      layout.left cell = left.ptr ∧ layout.right cell = right.ptr) ∧
      Stored heap left ∧ Stored heap right

/-- Following the given steps from a pointer leads to an address. -/
inductive LeadsTo (heap : Heap Cell) : Ptr → List Side → Nat → Prop
  | here (address : Nat) : LeadsTo heap (some address) [] address
  | left {address : Nat} {cell : Cell} {path : List Side} {target : Nat}
      (live : heap.cells address = some cell)
      (below : LeadsTo heap (layout.left cell) path target) :
      LeadsTo heap (some address) (.left :: path) target
  | right {address : Nat} {cell : Cell} {path : List Side} {target : Nat}
      (live : heap.cells address = some cell)
      (below : LeadsTo heap (layout.right cell) path target) :
      LeadsTo heap (some address) (.right :: path) target

/-- The keys of the nodes that a pointer leads to. -/
def storedKeys (heap : Heap Cell) (root : Ptr) : Set Key :=
  { key | ∃ path address cell, LeadsTo layout heap root path address ∧
      heap.cells address = some cell ∧ layout.key cell = key }

/-- What a pointer leads to is a finite, live, ordered binary tree without shared nodes. -/
structure WellFormed [LT Key] (heap : Heap Cell) (root : Ptr) : Prop where
  live : ∀ path address, LeadsTo layout heap root path address →
    ∃ cell, heap.cells address = some cell
  /-- No node is reached by two paths, so there is no cycle either. -/
  unshared : ∀ path other address, LeadsTo layout heap root path address →
    LeadsTo layout heap root other address → path = other
  finite : ∃ bound, ∀ path address, LeadsTo layout heap root path address → path.length < bound
  smaller : ∀ path address cell, LeadsTo layout heap root path address →
    heap.cells address = some cell → ∀ key ∈ storedKeys layout heap (layout.left cell),
      key < layout.key cell
  greater : ∀ path address cell, LeadsTo layout heap root path address →
    heap.cells address = some cell → ∀ key ∈ storedKeys layout heap (layout.right cell),
      layout.key cell < key

variable {layout}

/-- Only the cells of a tree matter for whether it is stored. -/
theorem Stored.congr {heap other : Heap Cell} {shape : Shape Key}
    (stored : Stored layout heap shape)
    (same : ∀ address ∈ shape.addresses, other.cells address = heap.cells address) :
    Stored layout other shape := by
  -- The induction follows the tree, whose parts have addresses among those of the whole.
  induction shape with
  | leaf => trivial
  | node address left key right ihLeft ihRight =>
    obtain ⟨⟨cell, live, held⟩, storedLeft, storedRight⟩ := stored
    refine ⟨⟨cell, ?_, held⟩, ihLeft storedLeft fun a member => ?_,
      ihRight storedRight fun a member => ?_⟩
    · rw [same address (by simp [Shape.addresses]), live]
    · exact same a (by simp [Shape.addresses, member])
    · exact same a (by simp [Shape.addresses, member])

/-- The nodes of a stored tree are live. -/
theorem Stored.live {heap : Heap Cell} {shape : Shape Key} (stored : Stored layout heap shape)
    {address : Nat} (member : address ∈ shape.addresses) :
    ∃ cell, heap.cells address = some cell := by
  -- The induction looks for the node with the address.
  induction shape with
  | leaf => simp [Shape.addresses] at member
  | node own left key right ihLeft ihRight =>
    obtain ⟨⟨cell, live, _⟩, storedLeft, storedRight⟩ := stored
    simp only [Shape.addresses, List.mem_cons, List.mem_append] at member
    rcases member with same | member | member
    · exact ⟨cell, same ▸ live⟩
    · exact ihLeft storedLeft member
    · exact ihRight storedRight member

/-- The addresses of a stored tree are among those handed out. -/
theorem Stored.lt_next {heap : Heap Cell} {shape : Shape Key}
    (stored : Stored layout heap shape) {address : Nat} (member : address ∈ shape.addresses) :
    address < heap.next := by
  -- Stored nodes are live.
  obtain ⟨cell, live⟩ := stored.live member
  exact Heap.lt_next live

/-- A stored tree without shared nodes is no higher than there are addresses. -/
theorem Stored.height_le {heap : Heap Cell} {shape : Shape Key}
    (stored : Stored layout heap shape) (nodup : shape.addresses.Nodup) :
    shape.height ≤ heap.next := by
  -- The addresses are different ones below the next address, so there are at most that many.
  have among : shape.addresses ⊆ List.range heap.next := by
    intro address member
    exact List.mem_range.mpr (stored.lt_next member)
  have counted := (List.subperm_of_subset nodup among).length_le
  rw [List.length_range] at counted
  have := shape.height_le
  omega

/-- A path through a stored node stays there or goes on through one of its children. -/
theorem Stored.leads_node {heap : Heap Cell} {own : Nat} {left right : Shape Key} {key : Key}
    (stored : Stored layout heap (.node own left key right)) {path : List Side} {address : Nat}
    (leads : LeadsTo layout heap (some own) path address) :
    (path = [] ∧ address = own) ∨
      (∃ rest, path = .left :: rest ∧ LeadsTo layout heap left.ptr rest address) ∨
      ∃ rest, path = .right :: rest ∧ LeadsTo layout heap right.ptr rest address := by
  obtain ⟨⟨cell, live, _, toLeft, toRight⟩, _, _⟩ := stored
  -- The cell that the path leaves the node through is the stored one.
  cases leads with
  | here => exact .inl ⟨rfl, rfl⟩
  | left liveAgain below =>
    rw [live] at liveAgain
    cases liveAgain
    exact .inr (.inl ⟨_, rfl, toLeft ▸ below⟩)
  | right liveAgain below =>
    rw [live] at liveAgain
    cases liveAgain
    exact .inr (.inr ⟨_, rfl, toRight ▸ below⟩)

/-- A path through a stored tree ends at one of its nodes, whose subtree is stored and ordered. -/
theorem Stored.subtree [LT Key] {heap : Heap Cell} {shape : Shape Key}
    (stored : Stored layout heap shape) (ordered : shape.Ordered) {path : List Side}
    {address : Nat} (leads : LeadsTo layout heap shape.ptr path address) :
    ∃ left key right, Stored layout heap (.node address left key right) ∧
      (Shape.node address left key right).Ordered ∧
      address ∈ shape.addresses ∧ key ∈ shape.keys ∧ path.length < shape.height := by
  -- The induction follows the tree; a path goes into the subtree its first step leads to.
  induction shape generalizing path with
  | leaf => cases leads
  | node own left key right ihLeft ihRight =>
    rcases stored.leads_node leads with ⟨here, same⟩ | ⟨rest, there, below⟩ | ⟨rest, there, below⟩
    · subst here same
      exact ⟨left, key, right, stored, ordered, by simp [Shape.addresses], by simp [Shape.keys],
        by simp [Shape.height]⟩
    · obtain ⟨l, k, r, sub, subOrdered, member, keyMember, short⟩ :=
        ihLeft stored.2.1 ordered.2.2.1 below
      refine ⟨l, k, r, sub, subOrdered, by simp [Shape.addresses, member],
        by simp [Shape.keys, keyMember], ?_⟩
      simp only [there, List.length_cons, Shape.height]
      omega
    · obtain ⟨l, k, r, sub, subOrdered, member, keyMember, short⟩ :=
        ihRight stored.2.2 ordered.2.2.2 below
      refine ⟨l, k, r, sub, subOrdered, by simp [Shape.addresses, member],
        by simp [Shape.keys, keyMember], ?_⟩
      simp only [there, List.length_cons, Shape.height]
      omega

/-- Where no address occurs twice, no two paths lead to one node. -/
theorem Stored.unshared [LT Key] {heap : Heap Cell} {shape : Shape Key}
    (stored : Stored layout heap shape) (ordered : shape.Ordered)
    (nodup : shape.addresses.Nodup) {path other : List Side} {address : Nat}
    (leads : LeadsTo layout heap shape.ptr path address)
    (again : LeadsTo layout heap shape.ptr other address) : path = other := by
  -- Both paths take the same first step, as the two subtrees have no address in common.
  induction shape generalizing path other with
  | leaf => cases leads
  | node own left key right ihLeft ihRight =>
    simp only [Shape.addresses, List.nodup_cons, List.mem_append, not_or,
      List.nodup_append] at nodup
    obtain ⟨⟨notLeft, notRight⟩, nodupLeft, nodupRight, apart⟩ := nodup
    -- Each way down leads to addresses of its own.
    have inLeft : ∀ {rest}, LeadsTo layout heap left.ptr rest address →
        address ∈ left.addresses := by
      intro rest below
      obtain ⟨_, _, _, _, _, member, _⟩ := stored.2.1.subtree ordered.2.2.1 below
      exact member
    have inRight : ∀ {rest}, LeadsTo layout heap right.ptr rest address →
        address ∈ right.addresses := by
      intro rest below
      obtain ⟨_, _, _, _, _, member, _⟩ := stored.2.2.subtree ordered.2.2.2 below
      exact member
    rcases stored.leads_node leads with ⟨here, same⟩ | ⟨rest, there, below⟩ |
        ⟨rest, there, below⟩ <;>
      rcases stored.leads_node again with ⟨here', same'⟩ | ⟨rest', there', below'⟩ |
        ⟨rest', there', below'⟩
    · rw [here, here']
    · exact absurd (same ▸ inLeft below') notLeft
    · exact absurd (same ▸ inRight below') notRight
    · exact absurd (same' ▸ inLeft below) notLeft
    · rw [there, there', ihLeft stored.2.1 ordered.2.2.1 nodupLeft below below']
    · exact absurd rfl (apart address (inLeft below) address (inRight below'))
    · exact absurd (same' ▸ inRight below) notRight
    · exact absurd rfl (apart address (inLeft below') address (inRight below))
    · rw [there, there', ihRight stored.2.2 ordered.2.2.2 nodupRight below below']

/-- The keys found in the heap are those of the tree. -/
theorem Stored.storedKeys_eq [LT Key] {heap : Heap Cell} {shape : Shape Key}
    (stored : Stored layout heap shape) (ordered : shape.Ordered) :
    storedKeys layout heap shape.ptr = { key | key ∈ shape.keys } := by
  -- A path ends at a node of the tree, and every node of the tree is at the end of a path.
  ext key
  constructor
  · intro given
    obtain ⟨path, address, cell, leads, live, held⟩ := given
    obtain ⟨l, k, r, ⟨⟨same, liveSame, heldSame, _⟩, _⟩, _, _, member, _⟩ :=
      stored.subtree ordered leads
    rw [live] at liveSame
    cases liveSame
    rw [Set.mem_ofPred_eq, ← held, heldSame]
    exact member
  · intro member
    rw [Set.mem_ofPred_eq] at member
    induction shape with
    | leaf => simp [Shape.keys] at member
    | node own left k right ihLeft ihRight =>
      obtain ⟨⟨cell, live, held, toLeft, toRight⟩, storedLeft, storedRight⟩ := stored
      simp only [Shape.keys, List.mem_cons, List.mem_append] at member
      rcases member with same | member | member
      · exact ⟨[], own, cell, .here own, live, held.trans same.symm⟩
      · obtain ⟨path, address, below, leads, found⟩ := ihLeft storedLeft ordered.2.2.1 member
        exact ⟨.left :: path, address, below, .left live (toLeft ▸ leads), found⟩
      · obtain ⟨path, address, below, leads, found⟩ := ihRight storedRight ordered.2.2.2 member
        exact ⟨.right :: path, address, below, .right live (toRight ▸ leads), found⟩

/-- A heap that holds an ordered tree without shared nodes is well formed. -/
theorem Stored.wellFormed [LT Key] {heap : Heap Cell} {shape : Shape Key}
    (stored : Stored layout heap shape) (ordered : shape.Ordered)
    (nodup : shape.addresses.Nodup) : WellFormed layout heap shape.ptr where
  -- Every clause is about a node at the end of a path, and its subtree is stored and ordered.
  live path address leads := by
    obtain ⟨_, _, _, _, _, member, _⟩ := stored.subtree ordered leads
    exact stored.live member
  unshared path other address leads again := stored.unshared ordered nodup leads again
  finite := by
    refine ⟨shape.height, fun path address leads => ?_⟩
    obtain ⟨_, _, _, _, _, _, _, short⟩ := stored.subtree ordered leads
    exact short
  smaller path address cell leads live key member := by
    obtain ⟨l, k, r, ⟨⟨same, liveSame, held, toLeft, _⟩, storedLeft, _⟩, sub, _⟩ :=
      stored.subtree ordered leads
    rw [live] at liveSame
    cases liveSame
    rw [toLeft, storedLeft.storedKeys_eq sub.2.2.1] at member
    rw [held]
    exact sub.1 key member
  greater path address cell leads live key member := by
    obtain ⟨l, k, r, ⟨⟨same, liveSame, held, _, toRight⟩, _, storedRight⟩, sub, _⟩ :=
      stored.subtree ordered leads
    rw [live] at liveSame
    cases liveSame
    rw [toRight, storedRight.storedKeys_eq sub.2.2.2] at member
    rw [held]
    exact sub.2.1 key member

end Stored

end SecretTyping.Memory
