import SecretTyping.Lib.Traversal

/-! Binary trees that keep duplicates, with equal keys to the left. -/

namespace SecretTyping.Memory

namespace Shape

variable {Key : Type} [LinearOrder Key]

/-- Hang a new leaf at the place of its key, to the left of all equal keys. -/
def place (key : Key) (leafAddress : Nat) : Shape Key → Shape Key
  | leaf => node leafAddress leaf key leaf
  | node address left held right =>
    if key ≤ held then node address (left.place key leafAddress) held right
    else node address left held (right.place key leafAddress)

/-- Keys that are not greater are to the left of a node and greater ones to its right. -/
def WeaklyOrdered : Shape Key → Prop
  | leaf => True
  | node _ left key right =>
    (∀ k ∈ left.keys, k ≤ key) ∧ (∀ k ∈ right.keys, key < k) ∧
      left.WeaklyOrdered ∧ right.WeaklyOrdered

/-- Whether the search by comparisons meets a key. -/
def contains (key : Key) : Shape Key → Bool
  | leaf => false
  | node _ left held right =>
    if held = key then true
    else if key < held then left.contains key
    else right.contains key

variable (key : Key) (leafAddress : Nat)

/-- A new leaf below a node keeps its root. -/
theorem ptr_place {shape : Shape Key} (inner : shape ≠ leaf) :
    (shape.place key leafAddress).ptr = shape.ptr := by
  cases shape with
  | leaf => exact absurd rfl inner
  | node address left held right =>
    rw [place]
    split <;> rfl

/-- A new leaf adds its key to those there are, equal ones included. -/
theorem keys_place (shape : Shape Key) :
    (shape.place key leafAddress).keys.Perm (key :: shape.keys) := by
  -- By induction on the tree; the new key moves in front of what stands before it.
  induction shape with
  | leaf => exact .refl _
  | node address left held right ihLeft ihRight =>
    rw [place]
    split
    · exact ((ihLeft.append_right right.keys).cons held).trans (.swap key held _)
    · have moved := (ihRight.append_left left.keys).trans List.perm_middle
      exact (moved.cons held).trans (.swap key held _)

/-- A new leaf adds its address to those there are. -/
theorem addresses_place (shape : Shape Key) :
    (shape.place key leafAddress).addresses.Perm (leafAddress :: shape.addresses) := by
  -- By induction on the tree; the new address moves in front of what stands before it.
  induction shape with
  | leaf => exact .refl _
  | node address left held right ihLeft ihRight =>
    rw [place]
    split
    · exact ((ihLeft.append_right right.addresses).cons address).trans (.swap leafAddress address _)
    · have moved := (ihRight.append_left left.addresses).trans List.perm_middle
      exact (moved.cons address).trans (.swap leafAddress address _)

/-- A new leaf at a fresh address leaves no address twice. -/
theorem nodup_place {shape : Shape Key} (nodup : shape.addresses.Nodup)
    (fresh : leafAddress ∉ shape.addresses) :
    (shape.place key leafAddress).addresses.Nodup :=
  (shape.addresses_place key leafAddress).nodup_iff.mpr (List.nodup_cons.mpr ⟨fresh, nodup⟩)

/-- A new leaf keeps a tree ordered. -/
theorem place_weaklyOrdered {shape : Shape Key} (ordered : shape.WeaklyOrdered) :
    (shape.place key leafAddress).WeaklyOrdered := by
  -- The key goes to the side that its comparison allows, so the bound of that side still holds.
  induction shape with
  | leaf => exact ⟨by simp [keys], by simp [keys], trivial, trivial⟩
  | node address left held right ihLeft ihRight =>
    obtain ⟨smaller, greater, orderedLeft, orderedRight⟩ := ordered
    rw [place]
    split
    · next notAbove =>
      refine ⟨fun k member => ?_, greater, ihLeft orderedLeft, orderedRight⟩
      rcases List.mem_cons.mp ((left.keys_place key leafAddress).mem_iff.mp member) with new | old
      · exact new ▸ notAbove
      · exact smaller k old
    · next above =>
      refine ⟨smaller, fun k member => ?_, orderedLeft, ihRight orderedRight⟩
      rcases List.mem_cons.mp ((right.keys_place key leafAddress).mem_iff.mp member) with new | old
      · exact new ▸ not_le.mp above
      · exact greater k old

variable {leafAddress}

/-- The search meets exactly the keys of an ordered tree. -/
theorem contains_iff {shape : Shape Key} (ordered : shape.WeaklyOrdered) :
    shape.contains key = true ↔ key ∈ shape.keys := by
  -- By induction on the tree: an equal key ends the search, so further ones are not missed.
  induction shape with
  | leaf => simp [contains, keys]
  | node address left held right ihLeft ihRight =>
    obtain ⟨smaller, greater, orderedLeft, orderedRight⟩ := ordered
    simp only [keys, List.mem_cons, List.mem_append]
    rcases lt_trichotomy key held with below | same | above
    · rw [contains, if_neg below.ne', if_pos below, ihLeft orderedLeft]
      refine ⟨fun member => .inr (.inl member), ?_⟩
      rintro (same | inLeft | inRight)
      · exact absurd same below.ne
      · exact inLeft
      · exact absurd (greater key inRight) below.asymm
    · rw [contains, if_pos same.symm]
      exact ⟨fun _ => .inl same, fun _ => rfl⟩
    · rw [contains, if_neg above.ne, if_neg above.asymm, ihRight orderedRight]
      refine ⟨fun member => .inr (.inr member), ?_⟩
      rintro (same | inLeft | inRight)
      · exact absurd same above.ne'
      · exact absurd (smaller key inLeft) above.not_ge
      · exact inRight

/-- An ordered tree is visited in order without a descent. -/
theorem inOrder_monotone {shape : Shape Key} (ordered : shape.WeaklyOrdered) :
    shape.inOrder.Pairwise (· ≤ ·) := by
  -- By induction on the tree; the node separates what is not greater from what is.
  induction shape with
  | leaf => exact .nil
  | node address left held right ihLeft ihRight =>
    obtain ⟨smaller, greater, orderedLeft, orderedRight⟩ := ordered
    have below : ∀ k ∈ left.inOrder, k ≤ held := fun k member =>
      smaller k (left.inOrder_perm.mem_iff.mp member)
    have above : ∀ k ∈ right.inOrder, held ≤ k := fun k member =>
      (greater k (right.inOrder_perm.mem_iff.mp member)).le
    rw [inOrder, List.pairwise_append, List.pairwise_cons]
    refine ⟨ihLeft orderedLeft, ⟨above, ihRight orderedRight⟩, fun k inLeft other rest => ?_⟩
    rcases List.mem_cons.mp rest with same | inRight
    · exact same ▸ below k inLeft
    · exact (below k inLeft).trans (above other inRight)

end Shape

end SecretTyping.Memory
