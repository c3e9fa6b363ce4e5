import SecretTyping.Bst.Insertion

/-! The calls that count levels, with the counters of the code, which the language leaves undefined
out of the range of an int. The walks are those of the calls that count without a bound. -/

namespace SecretTyping.Bst

open Memory

/-- The greatest level that an int of 32 bits can hold. -/
def maxLevel : Nat := 2147483647

/-- Count one level more. -/
def nextLevel (level : Nat) : Except Fault Nat :=
  if level < maxLevel then .ok (level + 1) else .error .overflow

/-- The loop that looks for a key and counts its steps. -/
def lookupIntLoop (heap : NodeHeap) (data : Int) : Nat → Ptr → Nat → Except Fault Nat
  | _, none, level => .ok level
  | 0, some _, _ => .error .endless
  | fuel + 1, some current, level => do
    let held ← getData heap (some current)
    if held = data then return level
    else if data < held then
      lookupIntLoop heap data fuel (← getLeftChild heap (some current)) (← nextLevel level)
    else lookupIntLoop heap data fuel (← getRightChild heap (some current)) (← nextLevel level)

/-- Look for a key; the result is the level where the search ended. -/
def lookupInt (tree : BinarySearchTree) (data : Int) : Except Fault Nat :=
  lookupIntLoop tree.heap data (loopBound tree.heap) tree.root 0

/-- The recursion behind the depth of a tree. -/
def getDepthIntHelper (heap : NodeHeap) : Nat → Ptr → Except Fault Nat
  | _, none => .ok 0
  | 0, some _ => .error .endless
  | fuel + 1, some node => do
    let leftDepth ← getDepthIntHelper heap fuel (← getLeftChild heap (some node))
    let rightDepth ← getDepthIntHelper heap fuel (← getRightChild heap (some node))
    nextLevel (max leftDepth rightDepth)

/-- The depth of a tree. -/
def getDepthInt (tree : BinarySearchTree) : Except Fault Nat :=
  getDepthIntHelper tree.heap (loopBound tree.heap) tree.root

/-- The loop that looks for the place of a new key. -/
def insertIntLoop (heap : NodeHeap) (data : Int) : Nat → Ptr → Ptr → Nat → Except Fault Descent
  | _, none, parent, level => .ok (.fell parent level)
  | 0, some _, _, _ => .error .endless
  | fuel + 1, some current, _, level => do
    let held ← getData heap (some current)
    if data < held then
      insertIntLoop heap data fuel (← getLeftChild heap (some current)) (some current)
        (← nextLevel level)
    else if data > held then
      insertIntLoop heap data fuel (← getRightChild heap (some current)) (some current)
        (← nextLevel level)
    else return .found level

/-- Insert a key; the result is the level of its node. -/
def insertInt (tree : BinarySearchTree) (data : Int) : Except Fault (Nat × BinarySearchTree) := do
  let (leaf, heap) := tree.heap.alloc (.new data)
  if tree.root = none then return (0, ⟨some leaf, heap⟩)
  else
    match ← insertIntLoop heap data (loopBound heap) tree.root none 0 with
    | .found level =>
      -- The key exists, so the node made for it is deleted again.
      return (level, ⟨tree.root, ← heap.free (some leaf)⟩)
    | .fell parent level => return (level, ⟨tree.root, ← linkLeaf heap data parent (some leaf)⟩)

/-- Insert keys one after another. -/
def insertAllInt (tree : BinarySearchTree) (inserted : List Int) :
    Except Fault BinarySearchTree :=
  inserted.foldlM (fun tree data => (insertInt tree data).map Prod.snd) tree

/-- A count as an int has it. -/
def counted (level : Nat) : Except Fault Nat :=
  if level ≤ maxLevel then .ok level else .error .overflow

/-- A count in the range is itself. -/
theorem counted_fits {level : Nat} (fits : level ≤ maxLevel) : counted level = .ok level :=
  if_pos fits

/-- A count beyond the range is none. -/
theorem counted_beyond {level : Nat} (beyond : maxLevel < level) :
    counted level = .error .overflow :=
  if_neg (by omega)

/-- The next level of one in the range is one more, or none. -/
theorem nextLevel_eq (level : Nat) : nextLevel level = counted (level + 1) :=
  rfl

/-- A search goes down from the level where it starts. -/
theorem le_searchLevel (data : Int) (shape : Shape Int) (level : Nat) :
    level ≤ searchLevel data shape level := by
  -- By induction on the tree, one level for each step down.
  induction shape generalizing level with
  | leaf => exact le_rfl
  | node address left held right ihLeft ihRight =>
    rw [searchLevel]
    split
    · exact le_rfl
    · split
      · exact (Nat.le_succ level).trans (ihLeft (level + 1))
      · exact (Nat.le_succ level).trans (ihRight (level + 1))

section Stored

variable {heap : NodeHeap} {shape : Shape Int} (stored : Stored nodeLayout heap shape)

include stored

/-- The counting search ends at its level, if an int can count to it. -/
theorem lookupIntLoop_stored (data : Int) {fuel : Nat} (enough : shape.height < fuel) {level : Nat}
    (fits : level ≤ maxLevel) :
    lookupIntLoop heap data fuel shape.ptr level = counted (searchLevel data shape level) := by
  -- By induction on the tree; a step that cannot be counted ends the search.
  induction shape generalizing fuel level with
  -- A missing child ends the search at the level reached so far.
  | leaf =>
    rw [searchLevel, counted_fits fits]
    cases fuel <;> rfl
  | node address left key right ihLeft ihRight =>
    cases fuel with
    | zero => exact absurd enough (Nat.not_lt_zero _)
    | succ fuel =>
      simp only [Shape.height] at enough
      have leftEnough : left.height < fuel := by omega
      have rightEnough : right.height < fuel := by omega
      have goLeft := fun fits : level + 1 ≤ maxLevel =>
        ihLeft stored.2.1 leftEnough fits
      have goRight := fun fits : level + 1 ≤ maxLevel =>
        ihRight stored.2.2 rightEnough fits
      have downLeft := le_searchLevel data left (level + 1)
      have downRight := le_searchLevel data right (level + 1)
      simp only [Shape.ptr_node, lookupIntLoop, getData_stored stored, getLeftChild_stored stored,
        getRightChild_stored stored, nextLevel_eq, Bind.bind, Except.bind, searchLevel]
      by_cases next : level + 1 ≤ maxLevel
      · -- The next level can be counted, so the search goes on as it does without a bound.
        rw [counted_fits next]
        split
        · exact (counted_fits fits).symm
        · split
          · exact goLeft next
          · exact goRight next
      · -- It cannot, so only a key that is here is found.
        rw [counted_beyond (by omega)]
        split
        · exact (counted_fits fits).symm
        · split
          · exact (counted_beyond (by omega)).symm
          · exact (counted_beyond (by omega)).symm

/-- The recursion behind the depth computes the height, if an int can count to it. -/
theorem getDepthIntHelper_stored {fuel : Nat} (enough : shape.height < fuel) :
    getDepthIntHelper heap fuel shape.ptr = counted shape.height := by
  -- By induction on the tree, both of whose subtrees are shallower.
  induction shape generalizing fuel with
  | leaf =>
    have zero : counted 0 = .ok 0 := rfl
    rw [Shape.height, zero]
    cases fuel <;> rfl
  | node address left key right ihLeft ihRight =>
    cases fuel with
    | zero => exact absurd enough (Nat.not_lt_zero _)
    | succ fuel =>
      simp only [Shape.height] at enough
      have leftEnough : left.height < fuel := by omega
      have rightEnough : right.height < fuel := by omega
      simp only [Shape.ptr_node, getDepthIntHelper, getLeftChild_stored stored,
        getRightChild_stored stored, ihLeft stored.2.1 leftEnough,
        ihRight stored.2.2 rightEnough, nextLevel_eq, Bind.bind, Except.bind, Shape.height]
      -- Neither subtree may be too deep to count, or its parent is too deep as well.
      by_cases leftFits : left.height ≤ maxLevel
      · rw [counted_fits leftFits]
        by_cases rightFits : right.height ≤ maxLevel
        · rw [counted_fits rightFits]
        · rw [counted_beyond (by omega)]
          exact (counted_beyond (by omega)).symm
      · rw [counted_beyond (by omega)]
        exact (counted_beyond (by omega)).symm

/-- The loop of an insertion descends the tree of its heap, if an int can count its steps. -/
theorem insertIntLoop_stored (data : Int) {fuel : Nat} (enough : shape.height < fuel)
    (parent : Ptr) {level : Nat} (fits : level ≤ maxLevel) :
    insertIntLoop heap data fuel shape.ptr parent level =
      (counted (searchLevel data shape level)).map fun _ => descend data shape parent level := by
  -- By induction on the tree; a step that cannot be counted ends the descent.
  induction shape generalizing fuel parent level with
  | leaf =>
    -- The new key belongs here, at the level reached so far.
    rw [searchLevel, counted_fits fits]
    cases fuel <;> rfl
  | node address left key right ihLeft ihRight =>
    cases fuel with
    | zero => exact absurd enough (Nat.not_lt_zero _)
    | succ fuel =>
      simp only [Shape.height] at enough
      have leftEnough : left.height < fuel := by omega
      have rightEnough : right.height < fuel := by omega
      have goLeft := fun fits : level + 1 ≤ maxLevel =>
        ihLeft stored.2.1 leftEnough (some address) fits
      have goRight := fun fits : level + 1 ≤ maxLevel =>
        ihRight stored.2.2 rightEnough (some address) fits
      have downLeft := le_searchLevel data left (level + 1)
      have downRight := le_searchLevel data right (level + 1)
      simp only [Shape.ptr_node, insertIntLoop, getData_stored stored, getLeftChild_stored stored,
        getRightChild_stored stored, nextLevel_eq, Bind.bind, Except.bind, descend, searchLevel]
      rcases lt_trichotomy data key with below | same | above
      · -- Down to the left, if the step can be counted.
        rw [if_pos below, if_pos below, if_neg (by omega), if_pos below]
        by_cases next : level + 1 ≤ maxLevel
        · rw [counted_fits next]
          exact goLeft next
        · rw [counted_beyond (by omega), counted_beyond (by omega)]
          rfl
      · -- The key is here, and no step is counted.
        rw [if_neg (by omega), if_neg (by omega), if_neg (by omega), if_neg (by omega),
          if_pos same.symm, counted_fits fits]
        rfl
      · -- Down to the right, if the step can be counted.
        rw [if_neg (by omega), if_pos above, if_neg (by omega), if_pos above, if_neg (by omega),
          if_neg (by omega)]
        by_cases next : level + 1 ≤ maxLevel
        · rw [counted_fits next]
          exact goRight next
        · rw [counted_beyond (by omega), counted_beyond (by omega)]
          rfl

end Stored

section Represented

variable {tree : BinarySearchTree} {shape : Shape Int} (represents : Represents tree shape)

include represents

/-- A search returns the level where it ends, if an int can count to it. -/
theorem lookupInt_represents (data : Int) :
    lookupInt tree data = counted (searchLevel data shape 0) := by
  -- The loop starts at the root with fuel for the whole tree.
  have done := lookupIntLoop_stored represents.stored data represents.bounded
    (Nat.zero_le maxLevel)
  rwa [← represents.root] at done

/-- The depth is the height, if an int can count to it. -/
theorem getDepthInt_represents : getDepthInt tree = counted shape.height := by
  have done := getDepthIntHelper_stored represents.stored represents.bounded
  rwa [← represents.root] at done

/-- An insertion is that which counts without a bound, if an int can count its steps. -/
theorem insertInt_represents (data : Int) :
    insertInt tree data = counted (searchLevel data shape 0) >>= fun _ => insert tree data := by
  obtain ⟨root, stored, nodup, -⟩ := represents
  let grown : NodeHeap := (tree.heap.alloc (.new data)).2
  -- The allocation does not touch the tree.
  have older : ∀ address ∈ shape.addresses, grown.cells address = tree.heap.cells address := by
    intro address member
    have before := stored.lt_next member
    exact Heap.alloc_other _ (by omega) _
  have storedGrown : Stored nodeLayout grown shape := stored.congr older
  have enough : shape.height < loopBound grown :=
    Nat.lt_succ_of_le (storedGrown.height_le nodup)
  have loop := insertIntLoop_stored storedGrown data enough none
    (Nat.zero_le maxLevel)
  have plain := insertLoop_stored storedGrown data enough none 0
  rw [← root] at loop plain
  by_cases empty : tree.root = none
  · -- Nothing is counted in an empty tree.
    have leaf : shape = .leaf := by
      cases shape with
      | leaf => rfl
      | node => exact absurd (root.symm.trans empty) (Option.some_ne_none _)
    subst leaf
    simp only [insertInt, insert, if_pos empty]
    rfl
  · simp only [insertInt, insert, if_neg empty]
    -- Both loops go the same way, and only the counting may stop the one.
    show (insertIntLoop grown data (loopBound grown) tree.root none 0 >>= _) =
      counted _ >>= fun _ => (insertLoop grown data (loopBound grown) tree.root none 0 >>= _)
    rw [loop, plain]
    cases counted (searchLevel data shape 0) <;> rfl

end Represented

end SecretTyping.Bst
