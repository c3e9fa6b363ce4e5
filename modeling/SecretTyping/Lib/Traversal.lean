import Mathlib.Data.List.Perm.Basic
import SecretTyping.Lib.Subtree

/-! The three orders in which the keys of a binary tree are visited. -/

namespace SecretTyping.Memory

namespace Shape

section Orders

variable {Key : Type}

/-- A node, then its left subtree, then its right subtree. -/
def preOrder : Shape Key → List Key
  | leaf => []
  | node _ left key right => key :: (left.preOrder ++ right.preOrder)

/-- The left subtree of a node, then the node, then its right subtree. -/
def inOrder : Shape Key → List Key
  | leaf => []
  | node _ left key right => left.inOrder ++ key :: right.inOrder

/-- The left subtree of a node, then its right subtree, then the node. -/
def postOrder : Shape Key → List Key
  | leaf => []
  | node _ left key right => left.postOrder ++ (right.postOrder ++ [key])

/-- The keys of a tree are listed in pre-order. -/
theorem preOrder_eq_keys (shape : Shape Key) : shape.preOrder = shape.keys := by
  induction shape with
  | leaf => rfl
  | node address left key right ihLeft ihRight => rw [preOrder, keys, ihLeft, ihRight]

/-- Every key is visited in order as often as the tree holds it. -/
theorem inOrder_perm (shape : Shape Key) : shape.inOrder.Perm shape.keys := by
  -- By induction on the tree; the node moves in front of its left subtree.
  induction shape with
  | leaf => exact .refl _
  | node address left key right ihLeft ihRight =>
    exact List.perm_middle.trans ((ihLeft.append ihRight).cons key)

/-- Every key is visited in post-order as often as the tree holds it. -/
theorem postOrder_perm (shape : Shape Key) : shape.postOrder.Perm shape.keys := by
  -- By induction on the tree; the node moves in front of both its subtrees.
  induction shape with
  | leaf => exact .refl _
  | node address left key right ihLeft ihRight =>
    have moved := List.perm_append_singleton key (left.postOrder ++ right.postOrder)
    rw [List.append_assoc] at moved
    exact moved.trans ((ihLeft.append ihRight).cons key)

/-- In post-order every subtree is visited before anything above it. -/
theorem postOrder_subtree (path : List Side) (shape : Shape Key) :
    (shape.subtree path).postOrder.Sublist shape.postOrder := by
  -- By induction on the path, each step of which leads to one of the two parts.
  induction path generalizing shape with
  | nil => exact .refl _
  | cons side path ih =>
    cases shape with
    | leaf => exact .refl _
    | node address left key right =>
      cases side with
      | left => exact (ih left).trans (List.sublist_append_left _ _)
      | right =>
        exact (ih right).trans
          ((List.sublist_append_left _ _).trans (List.sublist_append_right _ _))

/-- In post-order a node comes after every key below it. -/
theorem postOrder_after {shape : Shape Key} {path : List Side} {address : Nat}
    {left right : Shape Key} {key : Key} (there : shape.subtree path = node address left key right)
    {below : Key} (member : below ∈ left.keys ++ right.keys) :
    [below, key].Sublist shape.postOrder := by
  -- The key below is visited in one of the two parts in front of the node.
  have inParts : below ∈ left.postOrder ++ right.postOrder := by
    rw [List.mem_append] at member ⊢
    exact member.imp (left.postOrder_perm.mem_iff).mpr (right.postOrder_perm.mem_iff).mpr
  have inSubtree : [below, key].Sublist (node address left key right).postOrder := by
    rw [postOrder, ← List.append_assoc]
    exact (List.singleton_sublist.mpr inParts).append (.refl [key])
  rw [← there] at inSubtree
  exact inSubtree.trans (postOrder_subtree path shape)

/-- Down the right of a tree, each left subtree reads the same in order and then its node as the
node and then the left subtree in pre-order. -/
def OrdersAgree : Shape Key → Prop
  | leaf => True
  | node _ left key right =>
    left.inOrder ++ [key] = key :: left.preOrder ∧ right.OrdersAgree

/-- A tree in which no node has a left child. -/
def NoLeft : Shape Key → Prop
  | leaf => True
  | node _ left _ right => left = leaf ∧ right.NoLeft

/-- In order and in pre-order a tree has equally many keys. -/
theorem length_inOrder (shape : Shape Key) : shape.inOrder.length = shape.preOrder.length := by
  rw [preOrder_eq_keys]
  exact shape.inOrder_perm.length_eq

/-- A tree reads the same in order and in pre-order exactly when its orders agree. -/
theorem inOrder_eq_preOrder_iff (shape : Shape Key) :
    shape.inOrder = shape.preOrder ↔ shape.OrdersAgree := by
  -- By induction on the tree; the two parts of the sequences have the same lengths.
  induction shape with
  | leaf => exact ⟨fun _ => trivial, fun _ => rfl⟩
  | node address left key right ihLeft ihRight =>
    have parts : (node address left key right).inOrder =
        (left.inOrder ++ [key]) ++ right.inOrder := by
      rw [inOrder, List.append_assoc]
      rfl
    have lengths : (left.inOrder ++ [key]).length = (key :: left.preOrder).length := by
      rw [List.length_append, List.length_cons, left.length_inOrder]
      rfl
    rw [parts, preOrder, ← List.cons_append, OrdersAgree, ← ihRight]
    refine ⟨fun same => List.append_inj same lengths, fun both => ?_⟩
    rw [both.1, both.2]

/-- A tree without a key twice reads the same in order and in pre-order exactly when no node has a
left child. -/
theorem ordersAgree_iff_noLeft {shape : Shape Key} (nodup : shape.keys.Nodup) :
    shape.OrdersAgree ↔ shape.NoLeft := by
  induction shape with
  | leaf => exact .rfl
  | node address left key right ihLeft ihRight =>
    simp only [keys, List.nodup_cons, List.mem_append, not_or, List.nodup_append] at nodup
    obtain ⟨⟨notLeft, -⟩, -, nodupRight, -⟩ := nodup
    refine and_congr ⟨fun same => ?_, fun none => ?_⟩ (ihRight nodupRight)
    · -- A left child would make the node equal to the first key of its left subtree.
      cases first : left.inOrder with
      | nil =>
        cases left with
        | leaf => rfl
        | node => simp [inOrder] at first
      | cons head rest =>
        rw [first, List.cons_append, List.cons.injEq] at same
        have inLeft : head ∈ left.keys :=
          left.inOrder_perm.mem_iff.mp (first ▸ List.mem_cons_self)
        exact absurd (same.1 ▸ inLeft) notLeft
    · rw [none]
      rfl

end Orders

/-- An ordered tree is visited in order from its least to its greatest key. -/
theorem inOrder_sorted {Key : Type} [Preorder Key] {shape : Shape Key} (ordered : shape.Ordered) :
    shape.inOrder.Pairwise (· < ·) := by
  -- By induction on the tree; the node separates the smaller keys from the greater ones.
  induction shape with
  | leaf => exact .nil
  | node address left key right ihLeft ihRight =>
    obtain ⟨smaller, greater, orderedLeft, orderedRight⟩ := ordered
    have below : ∀ k ∈ left.inOrder, k < key := fun k member =>
      smaller k (left.inOrder_perm.mem_iff.mp member)
    have above : ∀ k ∈ right.inOrder, key < k := fun k member =>
      greater k (right.inOrder_perm.mem_iff.mp member)
    rw [inOrder, List.pairwise_append, List.pairwise_cons]
    refine ⟨ihLeft orderedLeft, ⟨above, ihRight orderedRight⟩, fun k inLeft other rest => ?_⟩
    rcases List.mem_cons.mp rest with same | inRight
    · exact same ▸ below k inLeft
    · exact (below k inLeft).trans (above other inRight)

/-- An ordered tree holds no key twice. -/
theorem nodup_keys {Key : Type} [Preorder Key] {shape : Shape Key} (ordered : shape.Ordered) :
    shape.keys.Nodup := by
  -- A strictly increasing sequence repeats nothing.
  have nodup : shape.inOrder.Nodup := (inOrder_sorted ordered).imp fun below => below.ne
  exact shape.inOrder_perm.nodup_iff.mp nodup

end Shape

end SecretTyping.Memory
