import Mathlib.Order.Defs.LinearOrder
import SecretTyping.Lib.Heap

/-! Ordered insertion into a binary tree, and changes below one child of a stored node. -/

namespace SecretTyping.Memory

namespace Shape

variable {Key : Type} [LinearOrder Key]

/-- Hang a new leaf at the place of its key; where the key exists the tree stays as it is. -/
def insert (key : Key) (leafAddress : Nat) : Shape Key → Shape Key
  | leaf => node leafAddress leaf key leaf
  | node address left held right =>
    if key < held then node address (left.insert key leafAddress) held right
    else if held < key then node address left held (right.insert key leafAddress)
    else node address left held right

variable (key : Key) (leafAddress : Nat)

/-- Insertion below a node keeps its root. -/
theorem ptr_insert {shape : Shape Key} (inner : shape ≠ leaf) :
    (shape.insert key leafAddress).ptr = shape.ptr := by
  cases shape with
  | leaf => exact absurd rfl inner
  | node address left held right =>
    -- Each of the three branches rebuilds the same node.
    simp only [insert]
    split
    · rfl
    · split <;> rfl

/-- The keys after insertion are the old ones and the new one. -/
theorem mem_keys_insert (shape : Shape Key) (other : Key) :
    other ∈ (shape.insert key leafAddress).keys ↔ other = key ∨ other ∈ shape.keys := by
  -- The induction goes the way that the insertion goes, by the order of the two keys.
  induction shape with
  | leaf => simp [insert, keys]
  | node address left held right ihLeft ihRight =>
    rcases lt_trichotomy key held with below | same | above
    · simp only [insert, if_pos below, keys, List.mem_cons, List.mem_append, ihLeft]
      tauto
    · -- The key is the one of this node, so nothing is new.
      subst same
      simp only [insert, if_neg (lt_irrefl key), keys, List.mem_cons]
      tauto
    · simp only [insert, if_neg (lt_asymm above), if_pos above, keys, List.mem_cons,
        List.mem_append, ihRight]
      tauto

/-- The addresses after insertion are among the old ones and the new one. -/
theorem mem_addresses_insert {shape : Shape Key} {address : Nat}
    (member : address ∈ (shape.insert key leafAddress).addresses) :
    address = leafAddress ∨ address ∈ shape.addresses := by
  -- Only the new leaf has an address that was not there before.
  induction shape with
  | leaf => simpa [insert, addresses] using member
  | node own left held right ihLeft ihRight =>
    rcases lt_trichotomy key held with below | same | above
    · simp only [insert, if_pos below, addresses, List.mem_cons, List.mem_append] at member ⊢
      tauto
    · subst same
      simp only [insert, if_neg (lt_irrefl key)] at member
      exact .inr member
    · simp only [insert, if_neg (lt_asymm above), if_pos above, addresses, List.mem_cons,
        List.mem_append] at member ⊢
      tauto

/-- Insertion at a fresh address leaves no address twice. -/
theorem nodup_insert {shape : Shape Key} (nodup : shape.addresses.Nodup)
    (fresh : leafAddress ∉ shape.addresses) :
    (shape.insert key leafAddress).addresses.Nodup := by
  -- The subtree that grows gets at most the new address, which is fresh everywhere.
  induction shape with
  | leaf => simp [insert, addresses]
  | node own left held right ihLeft ihRight =>
    simp only [addresses, List.mem_cons, List.mem_append, not_or] at fresh
    obtain ⟨notOwn, freshLeft, freshRight⟩ := fresh
    simp only [addresses, List.nodup_cons, List.mem_append, not_or, List.nodup_append] at nodup
    obtain ⟨⟨ownLeft, ownRight⟩, nodupLeft, nodupRight, apart⟩ := nodup
    rcases lt_trichotomy key held with below | same | above
    · simp only [insert, if_pos below, addresses, List.nodup_cons, List.mem_append, not_or,
        List.nodup_append]
      refine ⟨⟨fun member => ?_, ownRight⟩, ihLeft nodupLeft freshLeft, nodupRight,
        fun first inLeft second inRight => ?_⟩
      · rcases mem_addresses_insert key leafAddress member with new | old
        · exact notOwn new.symm
        · exact ownLeft old
      · -- An address on the left is new, so not on the right, or was there before.
        rcases mem_addresses_insert key leafAddress inLeft with new | old
        · intro same
          exact freshRight (new ▸ same ▸ inRight)
        · exact apart first old second inRight
    · subst same
      simp only [insert, if_neg (lt_irrefl key), addresses, List.nodup_cons, List.mem_append,
        not_or, List.nodup_append]
      exact ⟨⟨ownLeft, ownRight⟩, nodupLeft, nodupRight, apart⟩
    · simp only [insert, if_neg (lt_asymm above), if_pos above, addresses, List.nodup_cons,
        List.mem_append, not_or, List.nodup_append]
      refine ⟨⟨ownLeft, fun member => ?_⟩, nodupLeft, ihRight nodupRight freshRight,
        fun first inLeft second inRight => ?_⟩
      · rcases mem_addresses_insert key leafAddress member with new | old
        · exact notOwn new.symm
        · exact ownRight old
      · rcases mem_addresses_insert key leafAddress inRight with new | old
        · intro same
          exact freshLeft (new ▸ same ▸ inLeft)
        · exact apart first inLeft second old

/-- Insertion keeps a tree ordered. -/
theorem insert_ordered {shape : Shape Key} (ordered : shape.Ordered) :
    (shape.insert key leafAddress).Ordered := by
  -- The key goes to the side that its comparison allows, so the bound of that side still holds.
  induction shape with
  | leaf => simp [insert, Ordered, keys]
  | node address left held right ihLeft ihRight =>
    obtain ⟨smaller, greater, orderedLeft, orderedRight⟩ := ordered
    rcases lt_trichotomy key held with below | same | above
    · simp only [insert, if_pos below]
      refine ⟨fun other member => ?_, greater, ihLeft orderedLeft, orderedRight⟩
      rcases (mem_keys_insert key leafAddress left other).mp member with new | old
      · exact new ▸ below
      · exact smaller other old
    · subst same
      simp only [insert, if_neg (lt_irrefl key)]
      exact ⟨smaller, greater, orderedLeft, orderedRight⟩
    · simp only [insert, if_neg (lt_asymm above), if_pos above]
      refine ⟨smaller, fun other member => ?_, orderedLeft, ihRight orderedRight⟩
      rcases (mem_keys_insert key leafAddress right other).mp member with new | old
      · exact new ▸ above
      · exact greater other old

end Shape

section Replace

variable {Cell Key : Type} {layout : Layout Cell Key} {heap other : Heap Cell} {address : Nat}
  {left right : Shape Key} {key : Key}
  (stored : Stored layout heap (.node address left key right))
  (nodup : (Shape.node address left key right).addresses.Nodup)

include stored nodup

/-- A change among the nodes on the left of a node that keeps their root is a change of its tree. -/
theorem Stored.replaceLeft {changed : Shape Key} (storedLeft : Stored layout other changed)
    (root : changed.ptr = left.ptr)
    (frame : ∀ a ∉ left.addresses, a ∈ (Shape.node address left key right).addresses →
      other.cells a = heap.cells a) :
    Stored layout other (.node address changed key right) := by
  -- The node itself and its right subtree lie outside of the change.
  simp only [Shape.addresses, List.nodup_cons, List.mem_append, not_or, List.nodup_append] at nodup
  obtain ⟨⟨notLeft, -⟩, -, -, apart⟩ := nodup
  obtain ⟨⟨cell, live, held, toLeft, toRight⟩, -, storedRight⟩ := stored
  have sameCell : other.cells address = heap.cells address :=
    frame address notLeft (by simp [Shape.addresses])
  refine ⟨⟨cell, sameCell.trans live, held, toLeft.trans root.symm, toRight⟩, storedLeft,
    storedRight.congr fun a member => frame a (fun inLeft => ?_) ?_⟩
  · exact apart a inLeft a member rfl
  · simp [Shape.addresses, member]

/-- A change among the nodes on the right of a node that keeps their root changes its tree. -/
theorem Stored.replaceRight {changed : Shape Key} (storedRight : Stored layout other changed)
    (root : changed.ptr = right.ptr)
    (frame : ∀ a ∉ right.addresses, a ∈ (Shape.node address left key right).addresses →
      other.cells a = heap.cells a) :
    Stored layout other (.node address left key changed) := by
  -- The node itself and its left subtree lie outside of the change.
  simp only [Shape.addresses, List.nodup_cons, List.mem_append, not_or, List.nodup_append] at nodup
  obtain ⟨⟨-, notRight⟩, -, -, apart⟩ := nodup
  obtain ⟨⟨cell, live, held, toLeft, toRight⟩, storedLeft, -⟩ := stored
  have sameCell : other.cells address = heap.cells address :=
    frame address notRight (by simp [Shape.addresses])
  refine ⟨⟨cell, sameCell.trans live, held, toLeft, toRight.trans root.symm⟩,
    storedLeft.congr fun a member => frame a (fun inRight => ?_) ?_, storedRight⟩
  · exact apart a member a inRight rfl
  · simp [Shape.addresses, member]

end Replace

end SecretTyping.Memory
