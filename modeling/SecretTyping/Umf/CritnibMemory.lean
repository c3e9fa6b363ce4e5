import Mathlib.Algebra.BigOperators.Fin
import Mathlib.Tactic.Abel
import SecretTyping.Umf.CritnibRuns

/-! The blocks that a tree has been given: none is lost, none is in two places, and none that has
just been taken out of the tree is used again too early. -/

namespace SecretTyping.Umf.Critnib

open Finset

variable {Value : Type}

/-- How often a block is in a subtree. -/
def occurrences (block : Address) (node : Node Value) : Nat := (deleteNode node).count block

/-- The blocks of a node are those of its children and its own. -/
theorem occurrences_node (block address : Address) (child : Fin slnodes → Node Value) (path : Word)
    (shift : Sh) :
    occurrences block (.node address child path shift) =
      (∑ i, occurrences block (child i)) + [address].count block := by
  -- The sum over the children is one over a list.
  rw [occurrences, deleteNode, List.count_append, List.count_flatMap, Fin.sum_univ_def]
  rfl

/-- A sum over the children after one of them has been exchanged. -/
theorem sum_exchange {Index : Type} [Fintype Index] [DecidableEq Index] {Item : Type}
    (weight : Item → Nat) (items : Index → Item) (i : Index) (item : Item) :
    ∑ j, weight (Function.update items i item j) + weight (items i) =
      ∑ j, weight (items j) + weight item := by
  -- The sums over the other children are the same.
  rw [← Finset.add_sum_erase univ _ (mem_univ i),
    ← Finset.add_sum_erase univ (fun j => weight (items j)) (mem_univ i), Function.update_self]
  have others : ∑ j ∈ univ.erase i, weight (Function.update items i item j) =
      ∑ j ∈ univ.erase i, weight (items j) := by
    apply Finset.sum_congr rfl
    intro j other
    rw [Function.update_of_ne (Finset.ne_of_mem_erase other)]
  rw [others]
  omega

/-- Storing a subtree exchanges its blocks for those of the subtree that was there. -/
theorem occurrences_store (block : Address) (key : Word) (subtree root : Node Value) :
    occurrences block (store key subtree root) + occurrences block (descend key root) =
      occurrences block root + occurrences block subtree := by
  -- By induction on the node, of whose children one is exchanged.
  induction root with
  | null => simp [store, descend, occurrences, deleteNode]
  | leaf address found stored => exact Nat.add_comm _ _
  | node address child path shift ih =>
    rw [store, descend]
    by_cases matched : key &&& pathMask shift = path
    · -- The child on the way is exchanged, and the induction is about that child.
      rw [if_pos matched, if_pos matched, occurrences_node, occurrences_node]
      have exchanged := sum_exchange (occurrences block) child (sliceIndex key shift)
        (store key subtree (child (sliceIndex key shift)))
      have deeper := ih (sliceIndex key shift)
      omega
    · rw [if_neg matched, if_neg matched]
      exact Nat.add_comm _ _

/-- The blocks of a new node are its own, that of the leaf, and those of the subtree. -/
theorem occurrences_newNode (block m : Address) {key path : Word} {sh : Sh}
    (leaf subtree : Node Value) (different : sliceIndex key sh ≠ sliceIndex path sh) :
    occurrences block (newNode m key path sh leaf subtree) =
      occurrences block leaf + occurrences block subtree + [m].count block := by
  -- The children are put into a node that has none.
  have none : occurrences block (.null : Node Value) = 0 := rfl
  rw [newNode, occurrences_node]
  have first := sum_exchange (occurrences block) (fun _ : Fin slnodes => (.null : Node Value))
    (sliceIndex key sh) leaf
  have second := sum_exchange (occurrences block)
    (Function.update (fun _ : Fin slnodes => (.null : Node Value)) (sliceIndex key sh) leaf)
    (sliceIndex path sh) subtree
  rw [Function.update_of_ne different.symm, none] at second
  simp only [none, Finset.sum_const_zero] at first
  omega

/-- The blocks below a node with one child are those of the child. -/
theorem sum_children_singleton (block : Address) {child : Fin slnodes → Node Value}
    {ochild : Fin slnodes} (left : children child = [ochild]) :
    ∑ i, occurrences block (child i) = occurrences block (child ochild) := by
  -- The others are not there, and have no blocks.
  -- Only the one child has blocks.
  apply Finset.sum_eq_single_of_mem ochild (mem_univ ochild)
  intro i _ different
  have absent : i ∉ children child := by
    rw [left, List.mem_singleton]
    exact different
  rw [mem_children, Bool.not_eq_false] at absent
  cases reached : child i with
  | null => rfl
  | leaf address found stored =>
    rw [reached] at absent
    cases absent
  | node address below path shift =>
    rw [reached] at absent
    cases absent

/-- What is left of a node from which the leaf below it is cut: the node, or its only child. -/
def collapse (address : Address) (child : Fin slnodes → Node Value) (path : Word) (shift : Sh) :
    Option (Node Value × Option Address) :=
  match children child with
  | [] => none
  | [ochild] => some (child ochild, some address)
  | _ => some (.node address child path shift, none)

/-- The blocks of a node are those that are left of it, and its own if it is removed. -/
theorem occurrences_collapse (block : Address) {address : Address}
    {child : Fin slnodes → Node Value} {path : Word} {shift : Sh} {after : Node Value}
    {removed : Option Address}
    (left : collapse address child path shift = some (after, removed)) :
    occurrences block (.node address child path shift) =
      occurrences block after + removed.toList.count block := by
  -- The node has no child, one, or more; with one it is taken out itself.
  rw [collapse] at left
  split at left
  · cases left
  · next ochild only =>
    cases left
    rw [occurrences_node, sum_children_singleton block only]
    rfl
  · cases left
    rfl

/-- What is cut out of a tree are the leaf of the key and the node that is removed. -/
theorem occurrences_cut (block : Address) {key : Word} {node after : Node Value}
    {removed : Option Address} (cutOut : cut key node = some (after, removed)) :
    occurrences block node = occurrences block after + occurrences block (dive key node) +
      removed.toList.count block := by
  -- By induction on the node, of whose children one is exchanged or left.
  induction node generalizing after removed with
  | null => cases cutOut
  | leaf address found stored => cases cutOut
  | node address child path shift ih =>
    have step := @ih (sliceIndex key shift)
    rw [cut] at cutOut
    rw [dive]
    -- Where there is no node below, the child is the end of the way.
    have last : dive key (child (sliceIndex key shift)) = child (sliceIndex key shift) →
        collapse address (Function.update child (sliceIndex key shift) .null) path shift =
          some (after, removed) →
        occurrences block (.node address child path shift) =
          occurrences block after + occurrences block (dive key (child (sliceIndex key shift))) +
            removed.toList.count block := by
      intro ended left
      have cleared := occurrences_collapse block left
      have exchanged := sum_exchange (occurrences block) child (sliceIndex key shift) .null
      have none : occurrences block (.null : Node Value) = 0 := rfl
      rw [occurrences_node] at cleared ⊢
      rw [ended]
      omega
    -- What the child is decides how much is cut.
    cases reached : child (sliceIndex key shift) with
    | node lower grandchild route height =>
      simp only [reached] at cutOut
      obtain ⟨⟨below, freed⟩, taken, same⟩ := Option.map_eq_some_iff.mp cutOut
      cases same
      rw [← reached] at taken
      have deeper := step taken
      have exchanged := sum_exchange (occurrences block) child (sliceIndex key shift) below
      rw [← reached, occurrences_node]
      dsimp only
      rw [occurrences_node]
      omega
    | null =>
      simp only [reached] at cutOut
      rw [← reached]
      exact last (by rw [reached]; rfl) cutOut
    | leaf leafAddress found stored =>
      simp only [reached] at cutOut
      rw [← reached]
      exact last (by rw [reached]; rfl) cutOut

/-- The blocks in the slots of removed nodes or leaves. -/
def pendingCount (block : Address) (pending : Fin deletedLife → Option Address) : Nat :=
  ∑ i, (pending i).toList.count block

/-- The blocks that are given back are those of the tree, those that may be used again, and those
that are in the slots. -/
theorem count_critnibDelete (block : Address) (tree : Tree Value) :
    (critnibDelete tree).count block = occurrences block tree.root + tree.deletedNode.count block +
      tree.deletedLeaf.count block + pendingCount block tree.pendingDelNodes +
        pendingCount block tree.pendingDelLeaves := by
  -- The blocks are those in the tree, those that wait in the slots, and those that may be used
  -- again.
  rw [critnibDelete, List.count_append, List.count_append, List.count_append, List.count_flatMap]
  have slots : ((List.finRange deletedLife).map (List.count block ∘ fun i =>
      (tree.pendingDelNodes i).toList ++ (tree.pendingDelLeaves i).toList)).sum =
      pendingCount block tree.pendingDelNodes + pendingCount block tree.pendingDelLeaves := by
    rw [pendingCount, pendingCount, ← Finset.sum_add_distrib, Fin.sum_univ_def]
    simp only [Function.comp_def, List.count_append]
  rw [slots, occurrences]
  omega

/-- The blocks of a tree and some that are in hand are those that the allocator has provided. -/
def Balanced (inHand : List Address) (tree : Tree Value) : Prop :=
  ∀ block, (critnibDelete tree).count block + inHand.count block = tree.allocated.count block

/-- A leaf that has been allocated is in hand. -/
theorem Balanced.allocLeaf {inHand : List Address} {tree after : Tree Value}
    {fresh : Option Address} {k : Address} (balanced : Balanced inHand tree)
    (allocated : allocLeaf tree fresh = some (k, after)) : Balanced (k :: inHand) after := by
  intro block
  have before := balanced block
  -- The leaf comes from those that have been deleted, or from the allocator.
  rw [Critnib.allocLeaf] at allocated
  rw [count_critnibDelete] at before ⊢
  rw [List.count_cons]
  split at allocated
  · next address rest waiting =>
    cases allocated
    rw [waiting, List.count_cons] at before
    dsimp only
    omega
  · obtain ⟨address, -, same⟩ := Option.map_eq_some_iff.mp allocated
    cases same
    dsimp only
    rw [List.count_cons]
    omega

/-- A node that has been allocated is in hand. -/
theorem Balanced.allocNode {inHand : List Address} {tree after : Tree Value}
    {fresh : Option Address} {m : Address} (balanced : Balanced inHand tree)
    (allocated : allocNode tree fresh = some (m, after)) : Balanced (m :: inHand) after := by
  intro block
  have before := balanced block
  -- The node comes from those that have been deleted, or from the allocator.
  rw [Critnib.allocNode] at allocated
  rw [count_critnibDelete] at before ⊢
  rw [List.count_cons]
  split at allocated
  · next address rest waiting =>
    cases allocated
    rw [waiting, List.count_cons] at before
    dsimp only
    omega
  · obtain ⟨address, -, same⟩ := Option.map_eq_some_iff.mp allocated
    cases same
    dsimp only
    rw [List.count_cons]
    omega

/-- A leaf that is freed is no longer in hand. -/
theorem Balanced.freeLeaf {inHand : List Address} {tree : Tree Value} {k : Address}
    (balanced : Balanced (k :: inHand) tree) : Balanced inHand (freeLeaf tree (some k)) := by
  intro block
  have before := balanced block
  rw [count_critnibDelete] at before ⊢
  rw [List.count_cons] at before
  simp only [Critnib.freeLeaf, List.count_cons]
  omega

/-- A subtree that is stored takes blocks from the hand, and those of the subtree before it are in
the hand then. -/
theorem Balanced.store {inHand : List Address} {tree : Tree Value} (rest : List Address)
    (key : Word) (subtree : Node Value) (balanced : Balanced inHand tree)
    (exchanged : ∀ block, inHand.count block + occurrences block (descend key tree.root) =
      rest.count block + occurrences block subtree) :
    Balanced rest { tree with root := Critnib.store key subtree tree.root } := by
  intro block
  have before := balanced block
  -- What is new in the tree was in the hand, and what was there is in the hand now.
  have stored := occurrences_store block key subtree tree.root
  have hands := exchanged block
  rw [count_critnibDelete] at before ⊢
  dsimp only
  omega

/-- The slots of removed nodes after one of them has been filled anew. -/
theorem pendingCount_update (block : Address) (pending : Fin deletedLife → Option Address)
    (slot : Fin deletedLife) (item : Option Address) :
    pendingCount block (Function.update pending slot item) + (pending slot).toList.count block =
      pendingCount block pending + item.toList.count block :=
  sum_exchange (fun item : Option Address => item.toList.count block) pending slot item

/-- What the search for the next slot changes: what has been waiting there may be used again. -/
theorem nextSlot_eq (tree : Tree Value) :
    (nextSlot tree).2 = { tree with
      removeCount := tree.removeCount + 1
      deletedNode := (tree.pendingDelNodes (nextSlot tree).1).toList ++ tree.deletedNode
      deletedLeaf := (tree.pendingDelLeaves (nextSlot tree).1).toList ++ tree.deletedLeaf
      pendingDelNodes := Function.update tree.pendingDelNodes (nextSlot tree).1 none
      pendingDelLeaves := Function.update tree.pendingDelLeaves (nextSlot tree).1 none } := by
  -- The slot holds a node or none, and a leaf or none.
  simp only [nextSlot]
  generalize (⟨(tree.removeCount + 1 - 1).toNat % deletedLife, _⟩ : Fin deletedLife) = del
  cases node : tree.pendingDelNodes del with
  | none =>
    cases leaf : tree.pendingDelLeaves del with
    | none => simp [freeNode, Critnib.freeLeaf, leaf]
    | some k => simp [freeNode, Critnib.freeLeaf, leaf]
  | some n =>
    cases leaf : tree.pendingDelLeaves del with
    | none => simp [freeNode, Critnib.freeLeaf, leaf]
    | some k => simp [freeNode, Critnib.freeLeaf, leaf]

/-- What has been waiting in the next slot is not lost. -/
theorem Balanced.nextSlot {inHand : List Address} {tree : Tree Value}
    (balanced : Balanced inHand tree) : Balanced inHand (nextSlot tree).2 := by
  -- The slot is emptied, and what was in it may be used again.
  intro block
  have before := balanced block
  have nodes := pendingCount_update block tree.pendingDelNodes (Critnib.nextSlot tree).1 none
  have leaves := pendingCount_update block tree.pendingDelLeaves (Critnib.nextSlot tree).1 none
  rw [Option.toList_none, List.count_nil] at nodes leaves
  rw [count_critnibDelete] at before ⊢
  rw [nextSlot_eq]
  simp only [List.count_append]
  omega

/-- The next slot is empty then. -/
theorem nextSlot_empty (tree : Tree Value) :
    (nextSlot tree).2.pendingDelNodes (nextSlot tree).1 = none ∧
      (nextSlot tree).2.pendingDelLeaves (nextSlot tree).1 = none := by
  rw [nextSlot_eq]
  simp

/-- An insertion loses no block. -/
theorem Inserted.balanced {tree after : Tree Value} {key : Word} {value : Value} {update : Bool}
    {memory : Memory} {outcome : Outcome} (balanced : Balanced [] tree)
    (inserted : Inserted tree key value update memory outcome after) : Balanced [] after := by
  -- In each way the leaf and the node end in the tree or are given back.
  cases inserted with
  | noLeaf refused => exact balanced
  | noNode leaf refused => exact (balanced.allocLeaf leaf).freeLeaf
  | present leaf reached asked => exact (balanced.allocLeaf leaf).freeLeaf
  | @empty k middle leaf reached =>
    have root := allocLeaf_root leaf
    have stored := (balanced.allocLeaf leaf).store [] key (.leaf k key value) (by
        intro block
        rw [root, reached]
        simp [occurrences, deleteNode])
    rwa [root] at stored
  | @updated k address old middle leaf reached asked =>
    have root := allocLeaf_root leaf
    have stored := (balanced.allocLeaf leaf).freeLeaf.store [] key (.leaf address key value) (by
        intro block
        show _ + occurrences block (descend key middle.root) = _
        rw [root, reached]
        simp [occurrences, deleteNode])
    change Balanced [] { freeLeaf middle (some k) with
      root := store key (.leaf address key value) middle.root } at stored
    rwa [root] at stored
  | @forked k m middle last leaf node present different =>
    have root := (allocNode_root node).trans (allocLeaf_root leaf)
    have stored := ((balanced.allocLeaf leaf).allocNode node).store [] key
      (newNode m key (pathOf (descend key tree.root))
        (shiftOf (pathOf (descend key tree.root) ^^^ key)) (.leaf k key value)
        (descend key tree.root)) (by
        intro block
        rw [root, occurrences_newNode _ _ _ _ (sliceIndex_shiftOf different)]
        simp only [occurrences, deleteNode, List.count_cons, List.count_nil]
        omega)
    rwa [root] at stored

/-- A removal loses no block. -/
theorem Removed.balanced {tree after : Tree Value} {key : Word} {value : Option Value}
    (balanced : Balanced [] tree) (removal : Removed tree key value after) : Balanced [] after := by
  -- What is taken out of the tree is put into the next slot.
  have advanced := balanced.nextSlot
  have empty := nextSlot_empty tree
  have root := nextSlot_root tree
  cases removal with
  | empty root => exact balanced
  | absent root missing => exact advanced
  | @last k value leaf =>
    -- The leaf of the key was the whole tree, and waits in the slot now.
    intro block
    have before := advanced block
    have leaves :=
      pendingCount_update block (nextSlot tree).2.pendingDelLeaves (nextSlot tree).1 (some k)
    rw [empty.2] at leaves
    rw [count_critnibDelete, root, leaf] at before
    rw [count_critnibDelete]
    simp only [occurrences, deleteNode, Option.toList_none, Option.toList_some, List.count_nil] at *
    omega
  | @taken k value rest removed inside leaf cutOut =>
    -- The leaf and perhaps its node were cut out, and wait in the slot now.
    intro block
    have before := advanced block
    have leaves :=
      pendingCount_update block (nextSlot tree).2.pendingDelLeaves (nextSlot tree).1 (some k)
    have nodes :=
      pendingCount_update block (nextSlot tree).2.pendingDelNodes (nextSlot tree).1 removed
    have parts := occurrences_cut block cutOut
    rw [empty.2] at leaves
    rw [empty.1] at nodes
    rw [leaf] at parts
    rw [count_critnibDelete, root] at before
    rw [count_critnibDelete]
    simp only [occurrences, deleteNode, Option.toList_none, Option.toList_some, List.count_nil] at *
    omega

/-- An operation on a shaped tree loses no block. -/
theorem perform_balanced {tree after : Tree Value} (shaped : tree.Shaped)
    (balanced : Balanced [] tree) {operation : Operation Value} {reply : Reply Value}
    (performed : perform tree operation = some (reply, after)) : Balanced [] after := by
  -- Only insertions and removals change the blocks.
  cases operation with
  | insert key value update memory =>
    obtain ⟨outcome, last, inserted, cases⟩ := critnibInsert_cases shaped key value update memory
    rw [perform, inserted] at performed
    cases performed
    exact cases.balanced balanced
  | remove key =>
    obtain ⟨value, last, removed, cases⟩ := critnibRemove_cases shaped key
    rw [perform, removed] at performed
    cases performed
    exact cases.balanced balanced
  | get key =>
    cases performed
    exact balanced
  | find key dir =>
    cases performed
    exact balanced
  | findLe key =>
    cases performed
    exact balanced

end SecretTyping.Umf.Critnib
