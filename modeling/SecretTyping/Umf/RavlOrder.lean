import Mathlib.Tactic.Common
import SecretTyping.Lib.Sorted
import SecretTyping.Umf.Ravl

/-! The order of the items in the tree: what searches find, and what insertions and removals make
of it. -/

namespace SecretTyping.Umf.Ravl

open Sorted

variable {Data : Type}

/-- The items of a subtree in the order in which they are passed towards a slot. -/
def seen (slot : Slot) : Node Data → List Data
  | .null => []
  | .node data _ left right =>
    match slot with
    | .left => seen .left right ++ data :: seen .left left
    | .right => seen .right left ++ data :: seen .right right

/-- The items that are passed towards a slot from the end of a path. -/
def pathBeyond (slot : Slot) : List (Frame Data) → List Data
  | [] => []
  | frame :: path =>
    if frame.slot = slot then pathBeyond slot path
    else frame.data :: (seen slot frame.sibling ++ pathBeyond slot path)

/-- The items that are passed towards a slot from a node. -/
def Location.beyond (slot : Slot) (n : Location Data) : List Data :=
  seen slot (n.node.child slot) ++ pathBeyond slot n.path

/-- A slot is the opposite of its opposite. -/
@[simp] theorem slotOpposite_slotOpposite (slot : Slot) :
    slotOpposite (slotOpposite slot) = slot := by
  cases slot <;> rfl

/-- Two slots are the same or opposite. -/
theorem slot_cases (slot other : Slot) : other = slot ∨ other = slotOpposite slot := by
  cases slot <;> cases other <;> decide

/-- A slot is not its opposite. -/
@[simp] theorem slotOpposite_ne (slot : Slot) : slotOpposite slot ≠ slot := by
  cases slot <;> decide

/-- The child that a node is joined with. -/
@[simp] theorem child_join (slot : Slot) (data : Data) (rank : Nat) (inner outer : Node Data) :
    (join slot data rank inner outer).child slot = inner := by
  cases slot <;> rfl

/-- The other child that a node is joined with. -/
@[simp] theorem child_join_opposite (slot : Slot) (data : Data) (rank : Nat)
    (inner outer : Node Data) :
    (join slot data rank inner outer).child (slotOpposite slot) = outer := by
  cases slot <;> rfl

/-- The items of a node, towards the slot of its first child. -/
@[simp] theorem seen_join (slot : Slot) (data : Data) (rank : Nat) (inner outer : Node Data) :
    seen slot (join slot data rank inner outer) =
      seen slot outer ++ data :: seen slot inner := by
  cases slot <;> rfl

/-- The items of a node, towards the slot of its second child. -/
@[simp] theorem seen_opposite_join (slot : Slot) (data : Data) (rank : Nat)
    (inner outer : Node Data) :
    seen (slotOpposite slot) (join slot data rank inner outer) =
      seen (slotOpposite slot) inner ++ data :: seen (slotOpposite slot) outer := by
  cases slot <;> rfl

/-- A node is joined of its children. -/
theorem node_eq_join (slot : Slot) (data : Data) (rank : Nat) (left right : Node Data) :
    Node.node data rank left right = join slot data rank
      ((Node.node data rank left right).child slot)
      ((Node.node data rank left right).child (slotOpposite slot)) := by
  cases slot <;> rfl

/-- A node is there. -/
theorem node_ne_null (data : Data) (rank : Nat) (left right : Node Data) :
    Node.node data rank left right ≠ .null := by
  intro same
  cases same

/-- A node that is joined is there. -/
theorem join_ne_null (slot : Slot) (data : Data) (rank : Nat) (inner outer : Node Data) :
    join slot data rank inner outer ≠ .null := by
  cases slot
  · exact node_ne_null data rank inner outer
  · exact node_ne_null data rank outer inner

/-- Towards the right, the items of a subtree are in order. -/
theorem seen_right (n : Node Data) : seen .right n = foreach n := by
  induction n with
  | null => rfl
  | node data rank left right ihLeft ihRight => rw [seen, foreach, ihLeft, ihRight]

/-- Towards the other slot, the items are in the opposite order. -/
theorem reverse_seen (slot : Slot) (n : Node Data) :
    (seen (slotOpposite slot) n).reverse = seen slot n := by
  -- By induction on the subtree, whose children change places.
  induction n with
  | null => rfl
  | node data rank left right ihLeft ihRight =>
    cases slot <;> simp_all [seen, slotOpposite]

/-- The items of a tree are those of a subtree, with those that are passed on both sides of it. -/
theorem seen_plug (slot : Slot) (n : Node Data) (path : List (Frame Data)) :
    seen slot (plug n path) =
      (pathBeyond (slotOpposite slot) path).reverse ++ (seen slot n ++ pathBeyond slot path) := by
  -- By induction on the path, going up; the sibling is on the one side or on the other.
  induction path generalizing n with
  | nil => simp [plug, pathBeyond]
  | cons frame path ih =>
    obtain ⟨direction, data, rank, sibling⟩ := frame
    rw [plug, ih]
    rcases slot_cases slot direction with rfl | rfl
    · have opposite := reverse_seen direction sibling
      have different : direction ≠ slotOpposite direction := (slotOpposite_ne direction).symm
      simp [Frame.fill, pathBeyond, different, opposite]
    · have both := seen_opposite_join (slotOpposite slot) data rank n sibling
      rw [slotOpposite_slotOpposite] at both
      simp [Frame.fill, pathBeyond, both]

/-- The items of a tree are those on the one side of a node, its own, and those on the other. -/
theorem Location.seen_root (slot : Slot) (n : Location Data) :
    seen slot n.root = (n.beyond (slotOpposite slot)).reverse ++ n.data :: n.beyond slot := by
  -- The node is at the end of its path.
  have opposite := reverse_seen slot (n.node.child (slotOpposite slot))
  rw [Location.root, seen_plug, Location.node, node_eq_join slot, seen_join, Location.beyond,
    Location.beyond, List.reverse_append, opposite]
  simp [Location.node]

/-- A child is in the same tree. -/
theorem Location.plug_down (n : Location Data) (slot : Slot) :
    plug (n.node.child slot) (n.down slot) = n.root := by
  cases slot <;> rfl

/-- Towards a slot, the same is passed from a node and its child in that slot and from the child. -/
theorem pathBeyond_down (n : Location Data) (slot : Slot) :
    pathBeyond slot (n.down slot) = pathBeyond slot n.path := by
  rw [Location.down, pathBeyond, if_pos rfl]

/-- Towards the opposite slot, the node is passed first from a child. -/
theorem pathBeyond_opposite_down (n : Location Data) (slot : Slot) :
    pathBeyond (slotOpposite slot) (n.down slot) = n.data :: n.beyond (slotOpposite slot) := by
  rw [Location.down, pathBeyond, if_neg (slotOpposite_ne slot).symm]
  rfl

/-- The search for the farthest node goes on in a child, if there is one. -/
theorem nodeTypeMost_node (slot : Slot) (n : Location Data) :
    nodeTypeMost slot n.node n.path =
      some ((nodeTypeMost slot (n.node.child slot) (n.down slot)).getD n) := by
  cases slot <;> rfl

/-- What the farthest node of a subtree is: nothing is beyond it in the subtree. -/
structure IsMost (slot : Slot) (n : Node Data) (path : List (Frame Data))
    (found : Location Data) : Prop where
  root : found.root = plug n path
  leaf : found.node.child slot = .null
  beyond : found.beyond slot = pathBeyond slot path
  rest : found.data :: found.beyond (slotOpposite slot) =
    seen (slotOpposite slot) n ++ pathBeyond (slotOpposite slot) path

/-- The farthest node of a subtree is found, if there is a node. -/
theorem nodeTypeMost_spec (slot : Slot) (n : Node Data) (path : List (Frame Data)) :
    (n = .null ∧ nodeTypeMost slot n path = none) ∨
      ∃ found, nodeTypeMost slot n path = some found ∧ IsMost slot n path found := by
  -- By induction on the subtree, of which the child in the slot is looked at first.
  induction n generalizing path with
  | null => exact Or.inl ⟨rfl, rfl⟩
  | node data rank left right ihLeft ihRight =>
    apply Or.inr
    let n : Location Data := ⟨data, rank, left, right, path⟩
    have ih : ∀ path, (n.node.child slot = .null ∧
        nodeTypeMost slot (n.node.child slot) path = none) ∨
          ∃ found, nodeTypeMost slot (n.node.child slot) path = some found ∧
            IsMost slot (n.node.child slot) path found := by
      cases slot
      · exact ihLeft
      · exact ihRight
    have node := nodeTypeMost_node slot n
    have joined : seen (slotOpposite slot) n.node =
        seen (slotOpposite slot) (n.node.child slot) ++
          n.data :: seen (slotOpposite slot) (n.node.child (slotOpposite slot)) := by
      rw [Location.node, node_eq_join slot, seen_opposite_join]
      simp
    rcases ih (n.down slot) with ⟨leaf, none⟩ | ⟨found, reached, most⟩
    · -- No child in the slot: the node itself is the farthest.
      rw [none] at node
      refine ⟨n, node, rfl, leaf, ?_, ?_⟩
      · rw [Location.beyond, leaf]
        rfl
      · rw [leaf] at joined
        show _ = seen (slotOpposite slot) n.node ++ _
        rw [joined]
        rfl
    · -- Otherwise it is the farthest of the child, with the node behind the rest of the child.
      rw [reached] at node
      refine ⟨found, node, ?_, most.leaf, ?_, ?_⟩
      · rw [most.root]
        exact n.plug_down slot
      · rw [most.beyond, pathBeyond_down]
      · rw [most.rest, pathBeyond_opposite_down]
        show _ = seen (slotOpposite slot) n.node ++ _
        rw [joined]
        simp [Location.beyond, n]

/-- The parent of a subtree is in the same tree. -/
theorem Frame.root_parent (frame : Frame Data) (n : Node Data) (path : List (Frame Data)) :
    (frame.parent n path).root = plug n (frame :: path) := by
  obtain ⟨slot, data, rank, sibling⟩ := frame
  cases slot <;> rfl

/-- Another node is next towards a slot, with nothing between. -/
structure IsCessor (slot : Slot) (n found : Location Data) : Prop where
  root : found.root = n.root
  beyond : n.beyond slot = found.data :: found.beyond slot
  behind : found.beyond (slotOpposite slot) = n.data :: n.beyond (slotOpposite slot)

/-- The first parent that is not reached from a slot is the next item beyond the path. -/
theorem parentOn_spec (slot : Slot) (n : Node Data) (path : List (Frame Data)) :
    (parentOn slot n path = none ∧ pathBeyond slot path = []) ∨
      ∃ found, parentOn slot n path = some found ∧ found.root = plug n path ∧
        pathBeyond slot path = found.data :: found.beyond slot ∧
        found.beyond (slotOpposite slot) =
          seen (slotOpposite slot) n ++ pathBeyond (slotOpposite slot) path := by
  -- By induction on the path, going up while the way is from the slot.
  induction path generalizing n with
  | nil => exact Or.inl ⟨rfl, rfl⟩
  | cons frame path ih =>
    rw [parentOn, pathBeyond]
    by_cases same : frame.slot = slot
    · -- The way comes from the slot, so the parent is no neighbour and the walk goes on above it.
      rw [if_pos same, if_pos same]
      apply (ih (frame.fill n)).imp_right
      rintro ⟨found, reached, root, beyond, behind⟩
      refine ⟨found, reached, root, beyond, ?_⟩
      obtain ⟨direction, data, rank, sibling⟩ := frame
      subst same
      rw [behind, Frame.fill, seen_opposite_join, pathBeyond, if_neg (slotOpposite_ne _).symm]
      simp
    · rw [if_neg same, if_neg same]
      -- The parent is the neighbour, and the subtree lies on its other side.
      refine Or.inr ⟨frame.parent n path, rfl, frame.root_parent n path, ?_, ?_⟩
      · obtain ⟨direction, data, rank, sibling⟩ := frame
        cases direction <;> cases slot <;>
          first
            | exact absurd rfl same
            | rfl
      · obtain ⟨direction, data, rank, sibling⟩ := frame
        have other : direction = slotOpposite slot := (slot_cases slot direction).resolve_left same
        subst other
        rw [pathBeyond, if_pos rfl]
        cases slot <;> rfl

/-- The neighbour of a node is found, unless nothing is beyond it. -/
theorem nodeCessor_spec (slot : Slot) (n : Location Data) :
    (nodeCessor n slot = none ∧ n.beyond slot = []) ∨
      ∃ found, nodeCessor n slot = some found ∧ IsCessor slot n found := by
  -- The next item is in the child of the slot, or above.
  rw [nodeCessor]
  rcases nodeTypeMost_spec (slotOpposite slot) (n.node.child slot) (n.down slot) with
    ⟨leaf, none⟩ | ⟨found, reached, most⟩
  · -- No child in the slot, so the neighbour is the parent at which the way turns.
    rw [none]
    have beyond : n.beyond slot = pathBeyond slot n.path := by
      rw [Location.beyond, leaf]
      rfl
    rw [beyond]
    apply (parentOn_spec slot n.node n.path).imp_right
    rintro ⟨found, reached, root, next, behind⟩
    refine ⟨found, reached, root, by rw [beyond, next], ?_⟩
    rw [behind, Location.node, node_eq_join slot, seen_opposite_join]
    have leaf : (Node.node n.data n.rank n.left n.right).child slot = .null := leaf
    rw [leaf]
    rfl
  · -- The neighbour is the nearest node of the child, seen from the other side.
    rw [reached]
    have rest := most.rest
    have beyond := most.beyond
    rw [slotOpposite_slotOpposite, pathBeyond_down] at rest
    rw [pathBeyond_opposite_down] at beyond
    refine Or.inr ⟨found, rfl, ?_, rest.symm, beyond⟩
    rw [most.root]
    exact n.plug_down slot

/-- A rank that goes up leaves the items where they are. -/
@[simp] theorem seen_nodePromote (slot : Slot) (n : Node Data) :
    seen slot (nodePromote n) = seen slot n := by
  cases n <;> rfl

/-- What a single rotation makes of a node and its parent, if the rank of the parent is positive. -/
theorem rotateOnce_join (slot : Slot) (data parent : Data) (rank level : Nat)
    (outer inner sibling : Node Data) :
    rotateOnce (join slot data rank outer inner) ⟨slot, parent, level, sibling⟩ =
      match level with
      | 0 => none
      | level + 1 =>
        some (join slot data rank outer (join slot parent level inner sibling)) := by
  cases slot <;> cases level <;> rfl

/-- What a double rotation makes of a node, its inner child and its parent, if the ranks of the node
and of the parent are positive. -/
theorem rotateTwice_join (slot : Slot) (data parent child : Data) (rank level height : Nat)
    (outer near far sibling : Node Data) :
    rotateTwice (join slot data rank outer (join slot child height near far))
        ⟨slot, parent, level, sibling⟩ =
      match rank, level with
      | rank + 1, level + 1 =>
        some (join slot child (height + 1) (join slot data rank outer near)
          (join slot parent level far sibling))
      | _, _ => none := by
  cases slot <;> cases rank <;> cases level <;> rfl

/-- A single rotation leaves the items where they are. -/
theorem rotateOnce_seen {n root : Node Data} {y : Frame Data} (result : rotateOnce n y = some root)
    (slot : Slot) : seen slot root = seen slot (y.fill n) := by
  -- The inner child of the node stays between the node and the parent.
  obtain ⟨direction, parent, level, sibling⟩ := y
  cases n with
  | null => cases result
  | node data rank left right =>
    rw [node_eq_join direction data rank left right] at result ⊢
    rw [rotateOnce_join] at result
    cases level with
    | zero => cases result
    | succ level =>
      cases result
      rcases slot_cases direction slot with rfl | rfl
      · simp [Frame.fill]
      · simp [Frame.fill]

/-- A double rotation leaves the items where they are. -/
theorem rotateTwice_seen {n root : Node Data} {y : Frame Data} {slot : Slot}
    (result : rotateTwice n y = some root) (present : n.child (slotOpposite y.slot) ≠ .null) :
    seen slot root = seen slot (y.fill n) := by
  -- The inner child is between the node and the parent, and so are its children.
  obtain ⟨direction, parent, level, sibling⟩ := y
  cases n with
  | null => cases result
  | node data rank left right =>
    rw [node_eq_join direction data rank left right] at result ⊢
    cases inner : (Node.node data rank left right).child (slotOpposite direction) with
    | null => exact absurd inner present
    | node child height first second =>
      rw [inner, node_eq_join direction child height first second, rotateTwice_join] at result
      rw [node_eq_join direction child height first second]
      cases rank with
      | zero => cases result
      | succ rank =>
        cases level with
        | zero => cases result
        | succ level =>
          cases result
          rcases slot_cases direction slot with rfl | rfl
          · simp [Frame.fill]
          · simp [Frame.fill]

/-- What is at the end of a path may be exchanged for what has the same items. -/
theorem seen_plug_congr {n n' : Node Data} (same : ∀ slot, seen slot n' = seen slot n) (slot : Slot)
    (path : List (Frame Data)) : seen slot (plug n' path) = seen slot (plug n path) := by
  rw [seen_plug, seen_plug, same]

/-- Walking up the tree leaves the items where they are. -/
theorem climb_seen (slot : Slot) (n : Node Data) (path : List (Frame Data)) :
    seen slot (plug (climb n path).1 (climb n path).2) = seen slot (plug n path) := by
  -- By induction on the path, whose frames are filled while the parents are promoted.
  induction path generalizing n with
  | nil => rfl
  | cons frame path ih =>
    rw [climb]
    split
    · rw [ih]
      exact seen_plug_congr (fun slot => seen_nodePromote slot _) slot path
    · rfl

/-- Balancing leaves the items where they are. -/
theorem balance_seen {n root : Node Data} {path : List (Frame Data)}
    (result : balance n path = some root) (slot : Slot) :
    seen slot root = seen slot (plug n path) := by
  -- At the end of the walk there may be a rotation.
  rw [← climb_seen, balance.eq_def] at *
  cases climbed : climb n path with
  | mk n path =>
    rw [climbed] at result
    cases path with
    | nil =>
      -- At the root nothing is rotated.
      cases result
      rfl
    | cons y path =>
      dsimp only at result ⊢
      have once : ∀ {root}, (rotateOnce n y).map (fun n => plug n path) = some root →
          seen slot root = seen slot (plug n (y :: path)) := by
        intro root rotated
        obtain ⟨rotated, result, rfl⟩ := Option.map_eq_some_iff.mp rotated
        exact seen_plug_congr (rotateOnce_seen result) slot path
      -- The parent has the rank of the node, so the child on the other side decides the rotation.
      split at result
      · cases inner : n.child (slotOpposite y.slot) with
        | null =>
          rw [inner] at result
          exact once result
        | node data rank left right =>
          rw [inner] at result
          dsimp only at result
          split at result
          · exact once result
          · split at result
            · obtain ⟨rotated, twice, rfl⟩ := Option.map_eq_some_iff.mp result
              have present : n.child (slotOpposite y.slot) ≠ .null := by
                rw [inner]
                exact node_ne_null data rank left right
              exact seen_plug_congr (fun slot => rotateTwice_seen twice present) slot path
            · cases result
              rfl
      · -- Nothing is rotated.
        cases result
        rfl

/-- What is before the end of a path is less than a probe, and what is behind it is greater. -/
structure Splits (compare : Data → Data → Ordering) (probe : Data) (path : List (Frame Data)) :
    Prop where
  less : ∀ item ∈ pathBeyond .left path, compare probe item = .gt
  greater : ∀ item ∈ pathBeyond .right path, compare probe item = .lt

variable {compare : Data → Data → Ordering} {probe : Data}

/-- Where a path ends with no node, the items of the tree are cut. -/
theorem Splits.cut {path : List (Frame Data)} (splits : Splits compare probe path) :
    Cut compare probe (pathBeyond .left path).reverse none (pathBeyond .right path) where
  less item member := splits.less item (List.mem_reverse.mp member)
  equal := nofun
  greater := splits.greater

variable [Std.TransCmp compare]

/-- An item that is less is on the way to the left of a node. -/
theorem Splits.left {n : Location Data} (splits : Splits compare probe n.path)
    (ascending : Ascending compare (foreach n.root)) (less : compare probe n.data = .lt) :
    Splits compare probe (n.down .left) := by
  -- The node and all that is behind it is greater.
  rw [← seen_right, n.seen_root .right] at ascending
  have beyond := greater_of_mem ascending less
  have right := pathBeyond_opposite_down n .left
  constructor
  · rw [pathBeyond_down]
    exact splits.less
  · rw [slotOpposite] at right
    rw [right, List.forall_mem_cons]
    exact ⟨less, beyond⟩

/-- An item that is greater is on the way to the right of a node. -/
theorem Splits.right {n : Location Data} (splits : Splits compare probe n.path)
    (ascending : Ascending compare (foreach n.root)) (greater : compare probe n.data = .gt) :
    Splits compare probe (n.down .right) := by
  -- The node and all that is before it is less.
  rw [← seen_right, n.seen_root .right] at ascending
  have below := less_of_mem ascending greater
  have left := pathBeyond_opposite_down n .right
  constructor
  · rw [slotOpposite] at left
    rw [left, List.forall_mem_cons]
    exact ⟨greater, fun item member => below item (List.mem_reverse.mpr member)⟩
  · rw [pathBeyond_down]
    exact splits.greater

/-- The items of a tree are cut at each of its nodes. -/
theorem Location.cut {n : Location Data} (ascending : Ascending compare (foreach n.root))
    (equal : compare probe n.data = .eq) :
    foreach n.root = joined (n.beyond .left).reverse (some n.data) (n.beyond .right) ∧
      Cut compare probe (n.beyond .left).reverse (some n.data) (n.beyond .right) := by
  rw [← seen_right, n.seen_root .right] at ascending ⊢
  exact ⟨rfl, cut_of_mem ascending equal⟩

/-- The way down to an item ends at a missing slot where the item belongs, unless it is there. -/
theorem descend_spec (n : Node Data) {path : List (Frame Data)}
    (ascending : Ascending compare (foreach (plug n path))) (splits : Splits compare probe path) :
    (descend compare probe n path = none ∧
        lookup compare probe (foreach (plug n path)) ≠ none) ∨
      ∃ bottom, descend compare probe n path = some bottom ∧
        plug .null bottom = plug n path ∧ Splits compare probe bottom := by
  -- By induction on the subtree; the way goes to the side of the comparison.
  induction n generalizing path with
  -- A missing child is where the item would go, and the way there splits the items.
  | null => exact Or.inr ⟨path, rfl, rfl, splits⟩
  | node data rank left right ihLeft ihRight =>
    let n : Location Data := ⟨data, rank, left, right, path⟩
    rw [descend]
    cases compared : compare probe data with
    | lt =>
      have way : Splits compare probe (n.down .left) := splits.left ascending compared
      have whole : Ascending compare (foreach (plug left (n.down .left))) := ascending
      exact ihLeft whole way
    | gt =>
      have way : Splits compare probe (n.down .right) := splits.right ascending compared
      have whole : Ascending compare (foreach (plug right (n.down .right))) := ascending
      exact ihRight whole way
    | eq =>
      -- The item is there already, so looking it up finds something.
      obtain ⟨whole, cut⟩ := Location.cut (n := n) ascending compared
      refine Or.inl ⟨rfl, ?_⟩
      show lookup compare probe (foreach n.root) ≠ none
      rw [whole, cut.lookup]
      exact nofun

/-- What a search looks for in a list in ascending order. -/
def sought (compare : Data → Data → Ordering) (flags : Predicate) (probe : Data)
    (items : List Data) : Option Data :=
  match flags with
  | .equal => lookup compare probe items
  | .greater => next compare probe items
  | .less => previous compare probe items
  | .lessEqual => floor compare probe items
  | .greaterEqual => ceiling compare probe items

/-- What a search has found so far is the nearest of the items that have been passed. -/
structure Candidate (flags : Predicate) (path : List (Frame Data)) (root : Node Data)
    (r : Option (Location Data)) : Prop where
  inTree : ∀ found ∈ r, found.root = root
  nearest : r.map Location.data =
    if flags.isGreater then (pathBeyond .right path).head?
    else if flags.isLess then (pathBeyond .left path).head? else none

/-- A search returns a node of the tree, which has the item that is looked for. -/
structure Finds (compare : Data → Data → Ordering) (flags : Predicate) (probe : Data)
    (root : Node Data) (result : Option (Location Data)) : Prop where
  inTree : ∀ found ∈ result, found.root = root
  item : result.map Location.data = sought compare flags probe (foreach root)

/-- The neighbour of a node has the next item. -/
theorem nodeCessor_item (slot : Slot) (n : Location Data) :
    (∀ found ∈ nodeCessor n slot, found.root = n.root) ∧
      (nodeCessor n slot).map Location.data = (n.beyond slot).head? := by
  rcases nodeCessor_spec slot n with ⟨none, empty⟩ | ⟨found, reached, cessor⟩
  · rw [none, empty]
    exact ⟨nofun, rfl⟩
  · rw [reached, cessor.beyond]
    refine ⟨?_, rfl⟩
    rintro other ⟨⟩
    exact cessor.root

/-- Where the item of a node is equal, the search is over. -/
theorem predicateHolds_eq {n : Location Data} (ascending : Ascending compare (foreach n.root))
    (equal : compare probe n.data = .eq) (flags : Predicate) (ret : Option (Location Data)) :
    ∃ result, predicateHolds .eq ret n flags = (result, true) ∧
      Finds compare flags probe n.root result := by
  obtain ⟨whole, cut⟩ := Location.cut ascending equal
  have itself : ∀ found ∈ some n, found.root = n.root := by
    rintro found ⟨⟩
    rfl
  cases flags with
  -- The three searches that admit an equal item end at the node itself.
  | equal =>
    refine ⟨some n, rfl, itself, ?_⟩
    rw [sought, whole, cut.lookup]
    rfl
  | lessEqual =>
    refine ⟨some n, rfl, itself, ?_⟩
    rw [sought, whole, cut.floor]
    rfl
  | greaterEqual =>
    refine ⟨some n, rfl, itself, ?_⟩
    rw [sought, whole, cut.ceiling]
    rfl
  -- The strict ones end at its neighbour.
  | greater =>
    obtain ⟨inTree, item⟩ := nodeCessor_item .right n
    refine ⟨nodeSuccessor n, rfl, inTree, ?_⟩
    rw [sought, whole, cut.next]
    exact item
  | less =>
    obtain ⟨inTree, item⟩ := nodeCessor_item .left n
    refine ⟨nodePredecessor n, rfl, inTree, ?_⟩
    rw [sought, whole, cut.previous, List.getLast?_reverse]
    exact item

/-- Where the item of a node is greater, the node is what has been found if that is looked for, and
the search goes on. -/
theorem predicateHolds_lt {n : Location Data} {flags : Predicate} {ret : Option (Location Data)}
    (candidate : Candidate flags n.path n.root ret) :
    ∃ result, predicateHolds .lt ret n flags = (result, false) ∧
      Candidate flags (n.down .left) n.root result := by
  have right := pathBeyond_opposite_down n .left
  have left := pathBeyond_down n .left
  rw [slotOpposite] at right
  obtain ⟨inTree, nearest⟩ := candidate
  cases flags with
  -- A greater item is looked for, and the node is nearer than all that were passed.
  | greater | greaterEqual =>
    refine ⟨some n, rfl, ?_, ?_⟩
    · rintro found ⟨⟩
      rfl
    · rw [right]
      rfl
  -- No greater item is looked for, so what has been found stays.
  | equal | less | lessEqual =>
    refine ⟨ret, rfl, inTree, ?_⟩
    rw [nearest, left]
    rfl

/-- Where the item of a node is less, the node is what has been found if that is looked for, and the
search goes on. -/
theorem predicateHolds_gt {n : Location Data} {flags : Predicate} {ret : Option (Location Data)}
    (candidate : Candidate flags n.path n.root ret) :
    ∃ result, predicateHolds .gt ret n flags = (result, false) ∧
      Candidate flags (n.down .right) n.root result := by
  have left := pathBeyond_opposite_down n .right
  have right := pathBeyond_down n .right
  rw [slotOpposite] at left
  obtain ⟨inTree, nearest⟩ := candidate
  cases flags with
  -- A smaller item is looked for, and the node is nearer than all that were passed.
  | less | lessEqual =>
    refine ⟨some n, rfl, ?_, ?_⟩
    · rintro found ⟨⟩
      rfl
    · rw [left]
      rfl
  -- No smaller item is looked for, so what has been found stays.
  | equal | greater | greaterEqual =>
    refine ⟨ret, rfl, inTree, ?_⟩
    rw [nearest, right]
    rfl

/-- A search that goes on from a node finds what is looked for in the whole tree. -/
theorem search_finds (flags : Predicate) (n : Node Data) {path : List (Frame Data)}
    (ascending : Ascending compare (foreach (plug n path))) (splits : Splits compare probe path)
    {r : Option (Location Data)} (candidate : Candidate flags path (plug n path) r) :
    Finds compare flags probe (plug n path) (search compare probe flags n path r) := by
  -- By induction on the subtree; what has been found is the nearest item on the way.
  induction n generalizing path r with
  | null =>
    refine ⟨candidate.inTree, ?_⟩
    have whole : foreach (plug .null path) =
        joined (pathBeyond .left path).reverse none (pathBeyond .right path) := by
      rw [← seen_right, seen_plug]
      rfl
    rw [search, candidate.nearest, whole]
    -- At the end of the way, the items are cut where the probe would be.
    cases flags with
    | equal => exact splits.cut.lookup.symm
    | greater => exact splits.cut.next.symm
    | less =>
      rw [sought, splits.cut.previous, List.getLast?_reverse]
      rfl
    | lessEqual =>
      rw [sought, splits.cut.floor, List.getLast?_reverse]
      rfl
    | greaterEqual =>
      rw [sought, splits.cut.ceiling]
      rfl
  | node data rank left right ihLeft ihRight =>
    let n : Location Data := ⟨data, rank, left, right, path⟩
    rw [search]
    cases compared : compare probe data with
    | eq =>
      -- An equal item ends the search.
      obtain ⟨result, holds, finds⟩ := predicateHolds_eq (n := n) ascending compared flags r
      rw [holds]
      exact finds
    | lt =>
      obtain ⟨result, holds, candidate⟩ := predicateHolds_lt (n := n) candidate
      rw [holds]
      -- The rest of the search is in the left subtree.
      have way : Splits compare probe (n.down .left) := splits.left ascending compared
      have whole : Ascending compare (foreach (plug left (n.down .left))) := ascending
      exact ihLeft whole way candidate
    | gt =>
      obtain ⟨result, holds, candidate⟩ := predicateHolds_gt (n := n) candidate
      rw [holds]
      -- The rest of the search is in the right subtree.
      have way : Splits compare probe (n.down .right) := splits.right ascending compared
      have whole : Ascending compare (foreach (plug right (n.down .right))) := ascending
      exact ihRight whole way candidate

/-- A search finds what is looked for. -/
theorem find_finds {root : Node Data} (ascending : Ascending compare (foreach root))
    (probe : Data) (flags : Predicate) :
    Finds compare flags probe root (find compare root probe flags) := by
  -- Nothing has been passed at the root.
  have whole : Ascending compare (foreach (plug root [])) := ascending
  apply search_finds flags root whole ⟨nofun, nofun⟩
  refine ⟨nofun, ?_⟩
  cases flags <;> rfl

/-- What an insertion makes of the items. -/
theorem emplace_items {root after : Node Data} (ascending : Ascending compare (foreach root))
    {data : Data} {memory : Bool} {outcome : Outcome}
    (result : emplace compare root data memory = some (outcome, after)) :
    match outcome with
    | .success => lookup compare data (foreach root) = none ∧
        foreach after = insert compare data (foreach root)
    | .duplicate => lookup compare data (foreach root) ≠ none ∧ after = root
    | .noMemory => memory = false ∧ after = root := by
  rw [emplace] at result
  cases memory with
  | false =>
    -- Without memory for the node nothing is changed.
    cases result
    exact ⟨rfl, rfl⟩
  | true =>
    rw [if_pos rfl] at result
    have start : Splits compare data [] := ⟨nofun, nofun⟩
    rcases descend_spec root ascending start with
      ⟨none, present⟩ | ⟨path, reached, whole, splits⟩
    · rw [none] at result
      -- An item that is equal has been met on the way.
      cases result
      exact ⟨present, rfl⟩
    · rw [reached] at result
      obtain ⟨balanced, result, same⟩ := Option.map_eq_some_iff.mp result
      cases same
      -- The new node is where the items are cut.
      have items : foreach root =
          joined (pathBeyond .left path).reverse none (pathBeyond .right path) := by
        rw [show root = plug .null path from whole.symm, ← seen_right, seen_plug]
        rfl
      rw [items, splits.cut.lookup, splits.cut.insert, ← seen_right, balance_seen result,
        seen_plug]
      exact ⟨rfl, rfl⟩

/-- The child of a node is put in its place where the other child is missing. -/
theorem unlink_seen {n : Location Data} (leaf : n.left = .null ∨ n.right = .null) :
    foreach (unlink n) = (n.beyond .left).reverse ++ n.beyond .right := by
  obtain ⟨data, rank, left, right, path⟩ := n
  rw [← seen_right]
  rcases leaf with rfl | rfl
  · -- No left child: the items of the right one are kept.
    rw [unlink, seen_plug]
    rfl
  · -- No right child: the items of the left one are kept.
    cases left with
    | null =>
      rw [unlink, seen_plug]
      rfl
    | node other level first second =>
      have opposite := reverse_seen .right (Node.node other level first second)
      rw [unlink, seen_plug, ← opposite]
      simp [Location.beyond, Location.node, Node.child, slotOpposite, seen]

/-- The leftmost node of the right subtree has the first item behind a node. -/
theorem nodeSuccessor_right (n : Location Data) (present : n.right ≠ .null) :
    ∃ s, nodeTypeMost .left n.right (n.down .right) = some s ∧
      IsMost .left n.right (n.down .right) s ∧ s.data :: s.beyond .right = n.beyond .right := by
  rcases nodeTypeMost_spec .left n.right (n.down .right) with ⟨leaf, -⟩ | ⟨s, reached, most⟩
  · exact absurd leaf present
  · have rest := most.rest
    rw [slotOpposite, pathBeyond_down] at rest
    exact ⟨s, reached, most, rest⟩

/-- What a removal makes of the items. -/
theorem remove_items (n : Location Data) :
    foreach (remove n) = (n.beyond .left).reverse ++ n.beyond .right := by
  rw [remove.eq_def]
  split
  · -- A missing child makes the removal an exchange for the other one.
    next leaf => exact unlink_seen (Or.inl leaf)
  · next leaf present => exact unlink_seen (Or.inr leaf)
  · next first second =>
    -- Both children are there, so the item of the successor is put into the node.
    have present : n.right ≠ .null := by
      intro missing
      rw [missing] at second
      cases second
    obtain ⟨s, reached, -, next⟩ := nodeSuccessor_right n present
    have successor : nodeSuccessor n = some s := by
      have below : nodeTypeMost (slotOpposite .right) (n.node.child .right) (n.down .right) =
          some s := reached
      rw [nodeSuccessor, nodeCessor, below]
    -- The successor is found again when its item is in the node.
    obtain ⟨s', again, most, same⟩ := nodeSuccessor_right { n with data := s.data } present
    have same : s'.data :: s'.beyond .right = n.beyond .right := same
    have beyond := most.beyond
    have opposite := pathBeyond_opposite_down { n with data := s.data } .right
    rw [slotOpposite] at opposite
    rw [opposite] at beyond
    have beyond : s'.beyond .left = s.data :: n.beyond .left := beyond
    rw [← next] at same
    obtain ⟨-, tail⟩ := List.cons.inj same
    rw [successor]
    dsimp only
    rw [again]
    dsimp only
    rw [unlink_seen (Or.inl most.leaf), beyond, tail, ← next, List.reverse_cons, List.append_assoc]
    rfl

/-- A removal erases the item of the node. -/
theorem remove_erases {n : Location Data} (ascending : Ascending compare (foreach n.root)) :
    foreach (remove n) = erase compare n.data (foreach n.root) := by
  obtain ⟨whole, cut⟩ := Location.cut ascending (Std.ReflCmp.compare_self)
  rw [remove_items, whole, cut.erase]

end SecretTyping.Umf.Ravl
