import SecretTyping.Lib.SearchTree

/-! Subtrees at the end of a path, their replacement, and the removal of a key by splicing. -/

namespace SecretTyping.Memory

namespace Shape

section Paths

variable {Key : Type}

/-- The subtree at the end of a path; below a leaf there is only the leaf. -/
def subtree : List Side → Shape Key → Shape Key
  | [], shape => shape
  | _ :: _, leaf => leaf
  | .left :: path, node _ left _ _ => left.subtree path
  | .right :: path, node _ _ _ right => right.subtree path

/-- The tree with another subtree at the end of a path. -/
def replace : List Side → Shape Key → Shape Key → Shape Key
  | [], _, changed => changed
  | _ :: _, leaf, _ => leaf
  | .left :: path, node address left key right, changed =>
    node address (left.replace path changed) key right
  | .right :: path, node address left key right, changed =>
    node address left key (right.replace path changed)

/-- Below a leaf there is only the leaf. -/
@[simp] theorem subtree_leaf (path : List Side) : (leaf : Shape Key).subtree path = leaf := by
  cases path <;> rfl

/-- A path after a path leads into the subtree at the end of the first. -/
theorem subtree_append (first second : List Side) (shape : Shape Key) :
    shape.subtree (first ++ second) = (shape.subtree first).subtree second := by
  -- By induction on the first path, one step into the tree at a time.
  induction first generalizing shape with
  | nil => rfl
  | cons side first ih =>
    cases shape with
    | leaf => simp [subtree]
    | node address left key right =>
      cases side with
      | left => exact ih left
      | right => exact ih right

/-- Replacing at the end of two paths is replacing within the subtree at the end of the first. -/
theorem replace_append (changed : Shape Key) (first second : List Side) (shape : Shape Key) :
    shape.replace (first ++ second) changed =
      shape.replace first ((shape.subtree first).replace second changed) := by
  -- By induction on the first path, one step into the tree at a time.
  induction first generalizing shape with
  | nil => rfl
  | cons side first ih =>
    cases shape with
    | leaf => rfl
    | node address left key right =>
      cases side with
      | left =>
        simp only [List.cons_append, replace, subtree]
        rw [ih left]
      | right =>
        simp only [List.cons_append, replace, subtree]
        rw [ih right]

/-- A subtree with the same root leaves the root of the whole tree. -/
theorem ptr_replace {changed shape : Shape Key} {path : List Side}
    (root : changed.ptr = (shape.subtree path).ptr) :
    (shape.replace path changed).ptr = shape.ptr := by
  -- Only the empty path replaces the root itself.
  cases path with
  | nil => exact root
  | cons side path =>
    cases shape with
    | leaf => rfl
    | node address left key right => cases side <;> rfl

/-- The addresses of a subtree are among those of the tree. -/
theorem addresses_subtree {path : List Side} {shape : Shape Key} {address : Nat}
    (member : address ∈ (shape.subtree path).addresses) : address ∈ shape.addresses := by
  induction path generalizing shape with
  | nil => exact member
  | cons side path ih =>
    cases shape with
    | leaf => simpa using member
    | node own left key right =>
      simp only [addresses, List.mem_cons, List.mem_append]
      -- The path goes on in one of the two subtrees.
      cases side with
      | left => exact .inr (.inl (ih member))
      | right => exact .inr (.inr (ih member))

/-- No address occurs twice in a subtree either. -/
theorem nodup_subtree {path : List Side} {shape : Shape Key} (nodup : shape.addresses.Nodup) :
    (shape.subtree path).addresses.Nodup := by
  -- By induction on the path, each side being a part of the addresses.
  induction path generalizing shape with
  | nil => exact nodup
  | cons side path ih =>
    cases shape with
    | leaf => simpa using nodup
    | node own left key right =>
      simp only [addresses, List.nodup_cons, List.nodup_append] at nodup
      cases side with
      | left => exact ih nodup.2.1
      | right => exact ih nodup.2.2.1

/-- A subtree of an ordered tree is ordered. -/
theorem ordered_subtree [LT Key] {path : List Side} {shape : Shape Key}
    (ordered : shape.Ordered) : (shape.subtree path).Ordered := by
  -- By induction on the path, each side being ordered in itself.
  induction path generalizing shape with
  | nil => exact ordered
  | cons side path ih =>
    cases shape with
    | leaf => simpa using ordered
    | node own left key right =>
      obtain ⟨-, -, orderedLeft, orderedRight⟩ := ordered
      cases side with
      | left => exact ih orderedLeft
      | right => exact ih orderedRight

/-- Fewer addresses in a subtree are fewer in the tree, in the same order. -/
theorem addresses_replace {changed : Shape Key} {path : List Side} {shape : Shape Key}
    (fewer : changed.addresses.Sublist (shape.subtree path).addresses) :
    (shape.replace path changed).addresses.Sublist shape.addresses := by
  -- By induction on the path: the addresses outside the subtree stay where they are.
  induction path generalizing shape with
  | nil => exact fewer
  | cons side path ih =>
    cases shape with
    | leaf => exact List.Sublist.refl _
    | node own left key right =>
      cases side with
      | left => exact ((ih fewer).append_right _).cons_cons own
      | right => exact ((ih fewer).append_left _).cons_cons own

/-- Fewer keys in a subtree are fewer in the tree. -/
theorem keys_replace {changed : Shape Key} {path : List Side} {shape : Shape Key}
    (fewer : ∀ held ∈ changed.keys, held ∈ (shape.subtree path).keys) {held : Key}
    (member : held ∈ (shape.replace path changed).keys) : held ∈ shape.keys := by
  -- By induction on the path: the keys outside the subtree stay.
  induction path generalizing shape with
  | nil => exact fewer held member
  | cons side path ih =>
    cases shape with
    | leaf => exact member
    | node own left key right =>
      cases side with
      | left =>
        simp only [replace, keys, List.mem_cons, List.mem_append] at member ⊢
        exact member.imp_right (Or.imp_left (ih fewer))
      | right =>
        simp only [replace, keys, List.mem_cons, List.mem_append] at member ⊢
        exact member.imp_right (Or.imp_right (ih fewer))

/-- A tree stays ordered when an ordered subtree with fewer keys takes the place of another. -/
theorem ordered_replace [LT Key] {changed : Shape Key} {path : List Side} {shape : Shape Key}
    (ordered : shape.Ordered) (orderedChanged : changed.Ordered)
    (fewer : ∀ held ∈ changed.keys, held ∈ (shape.subtree path).keys) :
    (shape.replace path changed).Ordered := by
  -- By induction on the path: the bounds at each node hold of fewer keys than before.
  induction path generalizing shape with
  | nil => exact orderedChanged
  | cons side path ih =>
    cases shape with
    | leaf => exact ordered
    | node own left key right =>
      obtain ⟨smaller, greater, orderedLeft, orderedRight⟩ := ordered
      cases side with
      | left =>
        have inLeft : ∀ held ∈ changed.keys, held ∈ (left.subtree path).keys := fewer
        exact ⟨fun held member => smaller held (keys_replace inLeft member), greater,
          ih orderedLeft inLeft, orderedRight⟩
      | right =>
        have inRight : ∀ held ∈ changed.keys, held ∈ (right.subtree path).keys := fewer
        exact ⟨smaller, fun held member => greater held (keys_replace inRight member), orderedLeft,
          ih orderedRight inRight⟩

/-- Only a leaf hangs at null. -/
theorem eq_leaf {shape : Shape Key} (none : shape.ptr = none) : shape = leaf := by
  cases shape with
  | leaf => rfl
  | node => cases none

/-- The node of a key has two children. -/
def HasTwoChildren (key : Key) : Shape Key → Prop
  | leaf => False
  | node _ left held right =>
    (held = key ∧ left.ptr ≠ none ∧ right.ptr ≠ none) ∨
      left.HasTwoChildren key ∨ right.HasTwoChildren key

/-- A key with a node of two children is a key of the tree. -/
theorem HasTwoChildren.mem {key : Key} {shape : Shape Key} (two : shape.HasTwoChildren key) :
    key ∈ shape.keys := by
  -- By induction on the tree: the node is its root, or in one of the subtrees.
  induction shape with
  | leaf => exact two.elim
  | node address left held right ihLeft ihRight =>
    simp only [keys, List.mem_cons, List.mem_append]
    rcases two with here | onLeft | onRight
    · exact .inl here.1.symm
    · exact .inr (.inl (ihLeft onLeft))
    · exact .inr (.inr (ihRight onRight))

end Paths

section Splicing

variable {Key : Type} [LinearOrder Key]

/-- Splice out the node of a key; of two children, the left one would take its place. -/
def erase (key : Key) : Shape Key → Shape Key
  | leaf => leaf
  | node address left held right =>
    if key < held then node address (left.erase key) held right
    else if held < key then node address left held (right.erase key)
    else if left.ptr = none then right
    else left

variable (key : Key)

/-- Splicing leaves the addresses in order, without the one of the node. -/
theorem addresses_erase (shape : Shape Key) :
    (shape.erase key).addresses.Sublist shape.addresses := by
  -- By induction on the tree: of the node spliced out, one subtree stays.
  induction shape with
  | leaf => exact List.Sublist.refl _
  | node address left held right ihLeft ihRight =>
    simp only [erase]
    split
    · exact (ihLeft.append_right _).cons_cons address
    · split
      · exact (ihRight.append_left _).cons_cons address
      · split
        · exact (List.sublist_append_right _ _).cons address
        · exact (List.sublist_append_left _ _).cons address

/-- Splicing brings in no key. -/
theorem keys_erase {shape : Shape Key} {other : Key} (member : other ∈ (shape.erase key).keys) :
    other ∈ shape.keys := by
  -- By induction on the tree, whose order tells on which side a key can be.
  induction shape with
  | leaf => exact member
  | node address left held right ihLeft ihRight =>
    simp only [erase] at member
    simp only [keys, List.mem_cons, List.mem_append]
    split at member
    · simp only [keys, List.mem_cons, List.mem_append] at member
      exact member.imp_right (Or.imp_left ihLeft)
    · split at member
      · simp only [keys, List.mem_cons, List.mem_append] at member
        exact member.imp_right (Or.imp_right ihRight)
      · split at member
        · exact .inr (.inr member)
        · exact .inr (.inl member)

/-- Splicing keeps a tree ordered. -/
theorem ordered_erase {shape : Shape Key} (ordered : shape.Ordered) :
    (shape.erase key).Ordered := by
  -- By induction on the tree: the bounds at each node hold of fewer keys than before.
  induction shape with
  | leaf => exact ordered
  | node address left held right ihLeft ihRight =>
    obtain ⟨smaller, greater, orderedLeft, orderedRight⟩ := ordered
    simp only [erase]
    split
    · exact ⟨fun other member => smaller other (keys_erase key member), greater,
        ihLeft orderedLeft, orderedRight⟩
    · split
      · exact ⟨smaller, fun other member => greater other (keys_erase key member), orderedLeft,
          ihRight orderedRight⟩
      · split
        · exact orderedRight
        · exact orderedLeft

/-- Where the node of the key has at most one child, splicing removes the key and no other. -/
theorem mem_keys_erase {shape : Shape Key} (ordered : shape.Ordered)
    (single : ¬ shape.HasTwoChildren key) (other : Key) :
    other ∈ (shape.erase key).keys ↔ other ∈ shape.keys ∧ other ≠ key := by
  -- By induction on the tree, on the side where the key would be.
  induction shape with
  | leaf => simp [erase, keys]
  | node address left held right ihLeft ihRight =>
    obtain ⟨smaller, greater, orderedLeft, orderedRight⟩ := ordered
    simp only [HasTwoChildren, not_or] at single
    obtain ⟨notHere, singleLeft, singleRight⟩ := single
    -- A key on the other side of a node is not the one removed.
    have apartLeft : ∀ k ∈ left.keys, held ≤ key → k ≠ key := fun k member above same =>
      absurd (smaller k member) (not_lt.mpr (same ▸ above))
    have apartRight : ∀ k ∈ right.keys, key ≤ held → k ≠ key := fun k member below same =>
      absurd (greater k member) (not_lt.mpr (same ▸ below))
    simp only [erase, keys, List.mem_cons, List.mem_append]
    split
    · next below =>
      have apartHere : held ≠ key := ne_of_gt below
      simp only [keys, List.mem_cons, List.mem_append, ihLeft orderedLeft singleLeft]
      have := apartRight other
      have := below.le
      grind
    · next notBelow =>
      split
      · next above =>
        have apartHere : held ≠ key := ne_of_lt above
        simp only [keys, List.mem_cons, List.mem_append, ihRight orderedRight singleRight]
        have := apartLeft other
        have := above.le
        grind
      · next notAbove =>
        have same : held = key := le_antisymm (not_lt.mp notBelow) (not_lt.mp notAbove)
        have fromLeft := apartLeft other
        have fromRight := apartRight other
        split
        · next noLeft =>
          have empty := eq_leaf noLeft
          subst empty
          simp only [keys, List.not_mem_nil, false_or]
          grind
        · next someLeft =>
          -- There is no second child.
          have noRight : right.ptr = none := by
            by_contra someRight
            exact notHere ⟨same, someLeft, someRight⟩
          have empty := eq_leaf noRight
          subst empty
          simp only [keys, List.not_mem_nil, or_false]
          grind

end Splicing

end Shape

section Replace

variable {Cell Key : Type} {layout : Layout Cell Key}

/-- The subtrees of a stored tree are stored. -/
theorem Stored.at_path {heap : Heap Cell} {shape : Shape Key} (stored : Stored layout heap shape)
    (path : List Side) : Stored layout heap (shape.subtree path) := by
  -- By induction on the path, each step of which leads to a stored side.
  induction path generalizing shape with
  | nil => exact stored
  | cons side path ih =>
    cases shape with
    | leaf => trivial
    | node own left key right =>
      obtain ⟨-, storedLeft, storedRight⟩ := stored
      cases side with
      | left => exact ih storedLeft
      | right => exact ih storedRight

/-- A change below the end of a path that keeps the root there is a change of the whole tree. -/
theorem Stored.replaceAt {heap other : Heap Cell} {shape changed : Shape Key} {path : List Side}
    (stored : Stored layout heap shape) (nodup : shape.addresses.Nodup)
    (storedChanged : Stored layout other changed)
    (root : changed.ptr = (shape.subtree path).ptr)
    (frame : ∀ a ∉ (shape.subtree path).addresses, a ∈ shape.addresses →
      other.cells a = heap.cells a) :
    Stored layout other (shape.replace path changed) := by
  -- By induction on the path, each node of which lies outside of the change.
  induction path generalizing shape with
  | nil => exact storedChanged
  | cons side path ih =>
    cases shape with
    | leaf => trivial
    | node own left key right =>
      have parts := nodup
      simp only [Shape.addresses, List.nodup_cons, List.nodup_append] at parts
      obtain ⟨-, nodupLeft, nodupRight, -⟩ := parts
      cases side with
      | left =>
        refine stored.replaceLeft nodup (ih stored.2.1 nodupLeft root fun a outside member => ?_)
          (Shape.ptr_replace root) fun a outside member => ?_
        · exact frame a outside (by simp [Shape.addresses, member])
        · exact frame a (fun inside => outside (Shape.addresses_subtree inside)) member
      | right =>
        refine stored.replaceRight nodup (ih stored.2.2 nodupRight root fun a outside member => ?_)
          (Shape.ptr_replace root) fun a outside member => ?_
        · exact frame a outside (by simp [Shape.addresses, member])
        · exact frame a (fun inside => outside (Shape.addresses_subtree inside)) member

end Replace

end SecretTyping.Memory
