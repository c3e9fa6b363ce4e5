import Mathlib.Algebra.Order.BigOperators.Group.Finset
import SecretTyping.Lib.Run
import SecretTyping.Umf.CritnibMemory

/-! Runs in which the allocator provides no block that is in use, and what becomes of the blocks. -/

namespace SecretTyping.Umf.Critnib

variable {Value : Type}

/-- The blocks that the allocator may provide for an operation. -/
def Operation.blocks : Operation Value → List Address
  | .insert _ _ _ memory => memory.leaf.toList ++ memory.node.toList
  | _ => []

/-- The tree after an operation, for which no block is provided that is in use. -/
def step (tree : Tree Value) (operation : Operation Value) : Option (Tree Value) :=
  if (operation.blocks ++ tree.allocated).Nodup then (perform tree operation).map Prod.snd
  else none

/-- A tree that is shaped, and has each of its blocks once. -/
structure Sound (tree : Tree Value) : Prop where
  shaped : tree.Shaped
  balanced : Balanced [] tree
  distinct : tree.allocated.Nodup

/-- A step is an operation. -/
theorem step_eq_some {tree after : Tree Value} {operation : Operation Value} :
    step tree operation = some after ↔
      (operation.blocks ++ tree.allocated).Nodup ∧
        ∃ reply, perform tree operation = some (reply, after) := by
  -- The step asks whether the blocks are fresh before the operation.
  rw [step]
  split
  · next fresh =>
    rw [Option.map_eq_some_iff]
    apply Iff.intro
    · rintro ⟨⟨reply, last⟩, performed, rfl⟩
      exact ⟨fresh, reply, performed⟩
    · rintro ⟨_, reply, performed⟩
      exact ⟨(reply, after), performed, rfl⟩
  · next used => simp [used]

/-- What the allocator has provided before and during an allocation of a leaf. -/
theorem allocLeaf_allocated {tree after : Tree Value} {fresh : Option Address} {k : Address}
    (allocated : allocLeaf tree fresh = some (k, after)) :
    after.allocated = tree.allocated ∨
      ∃ address, fresh = some address ∧ after.allocated = address :: tree.allocated := by
  -- The leaf was deleted before, or is what the allocator has provided.
  rw [allocLeaf] at allocated
  split at allocated
  · cases allocated
    exact Or.inl rfl
  · obtain ⟨address, provided, same⟩ := Option.map_eq_some_iff.mp allocated
    cases same
    exact Or.inr ⟨k, provided, rfl⟩

/-- What the allocator has provided before and during an allocation of a node. -/
theorem allocNode_allocated {tree after : Tree Value} {fresh : Option Address} {m : Address}
    (allocated : allocNode tree fresh = some (m, after)) :
    after.allocated = tree.allocated ∨
      ∃ address, fresh = some address ∧ after.allocated = address :: tree.allocated := by
  -- The node was deleted before, or is what the allocator has provided.
  rw [allocNode] at allocated
  split at allocated
  · cases allocated
    exact Or.inl rfl
  · obtain ⟨address, provided, same⟩ := Option.map_eq_some_iff.mp allocated
    cases same
    exact Or.inr ⟨m, provided, rfl⟩

/-- Blocks that are provided for an insertion are new ones. -/
theorem Inserted.distinct {tree after : Tree Value} {key : Word} {value : Value} {update : Bool}
    {memory : Memory} {outcome : Outcome}
    (fresh : ((memory.leaf.toList ++ memory.node.toList) ++ tree.allocated).Nodup)
    (inserted : Inserted tree key value update memory outcome after) : after.allocated.Nodup := by
  -- The blocks are those of before, and perhaps one for the leaf, and one for the node.
  have old : tree.allocated.Nodup := fresh.of_append_right
  have ofLeaf : ∀ {k : Address} {middle : Tree Value},
      allocLeaf tree memory.leaf = some (k, middle) →
        (memory.node.toList ++ middle.allocated).Nodup := by
    intro k middle leaf
    rcases allocLeaf_allocated leaf with same | ⟨address, provided, more⟩
    · rw [same]
      rw [List.append_assoc] at fresh
      exact fresh.of_append_right
    · rw [more]
      rw [provided, Option.toList_some, List.append_assoc, List.singleton_append] at fresh
      exact List.nodup_middle.mpr fresh
  cases inserted with
  | noLeaf refused => exact old
  | noNode leaf refused => exact (ofLeaf leaf).of_append_right
  | present leaf reached asked => exact (ofLeaf leaf).of_append_right
  | empty leaf reached => exact (ofLeaf leaf).of_append_right
  | updated leaf reached asked => exact (ofLeaf leaf).of_append_right
  | forked leaf node present different =>
    have both := ofLeaf leaf
    rcases allocNode_allocated node with same | ⟨address, provided, more⟩
    · exact same ▸ both.of_append_right
    · rw [provided, Option.toList_some, List.singleton_append, ← more] at both
      exact both

/-- A removal asks the allocator for nothing. -/
theorem Removed.allocated {tree after : Tree Value} {key : Word} {value : Option Value}
    (removal : Removed tree key value after) : after.allocated = tree.allocated := by
  -- Only the slots are changed.
  have advanced : (nextSlot tree).2.allocated = tree.allocated := by rw [nextSlot_eq]
  cases removal with
  | empty root => rfl
  | absent root missing => exact advanced
  | last root => exact advanced
  | taken inside leaf cutOut => exact advanced

/-- A step leaves a sound tree sound. -/
theorem Sound.step {tree after : Tree Value} {operation : Operation Value} (sound : Sound tree)
    -- The operation is possible, and its blocks are fresh.
    (stepped : step tree operation = some after) : Sound after := by
  obtain ⟨fresh, reply, performed⟩ := step_eq_some.mp stepped
  obtain ⟨known, last, again, shape, -⟩ := perform_spec sound.shaped operation
  rw [again] at performed
  cases performed
  refine ⟨shape, perform_balanced sound.shaped sound.balanced again, ?_⟩
  -- Only an insertion asks for blocks.
  cases operation with
  | insert key value update memory =>
    obtain ⟨outcome, middle, inserted, cases⟩ :=
      critnibInsert_cases sound.shaped key value update memory
    rw [perform, inserted] at again
    cases again
    exact cases.distinct fresh
  | remove key =>
    obtain ⟨value, middle, removed, cases⟩ := critnibRemove_cases sound.shaped key
    rw [perform, removed] at again
    cases again
    rw [cases.allocated]
    exact sound.distinct
  | get key =>
    cases again
    exact sound.distinct
  | find key dir =>
    cases again
    exact sound.distinct
  | findLe key =>
    cases again
    exact sound.distinct

/-- A new tree is sound. -/
theorem sound_critnibNew : Sound (critnibNew : Tree Value) where
  shaped := shaped_critnibNew
  balanced block := by
    rw [count_critnibDelete]
    simp [critnibNew, occurrences, deleteNode, pendingCount]
  distinct := List.nodup_nil

/-- A run leaves a sound tree sound. -/
theorem Sound.run {tree after : Tree Value} {operations : List (Operation Value)}
    (sound : Sound tree) (ran : Machine.run Critnib.step tree operations = some after) :
    Sound after :=
  Machine.run_induction (fun _ tree => Sound tree) sound
    (fun _ _ _ _ _ before stepped => before.step stepped) ran

/-- After any run, destroying the tree gives back each block that the allocator has provided, and
none of them twice. -/
theorem critnibDelete_exact {operations : List (Operation Value)} {tree : Tree Value}
    (ran : Machine.run step critnibNew operations = some tree) :
    (critnibDelete tree).Perm tree.allocated ∧ (critnibDelete tree).Nodup := by
  -- By counting each block; the hand is empty.
  have sound := sound_critnibNew.run ran
  have same : (critnibDelete tree).Perm tree.allocated := by
    rw [List.perm_iff_count]
    intro block
    have balanced := sound.balanced block
    rwa [List.count_nil, Nat.add_zero] at balanced
  exact ⟨same, same.nodup_iff.mpr sound.distinct⟩

/-- After two insertions and a removal, three blocks are given back. -/
theorem critnibDelete_exact_three :
    ∃ tree : Tree Nat, Machine.run step critnibNew [.insert 16 1 false ⟨some 100, none⟩,
      .insert 32 2 false ⟨some 101, some 200⟩, .remove 16] = some tree ∧
        (critnibDelete tree).Perm tree.allocated ∧ (critnibDelete tree).Nodup := by
  have possible : ∃ tree : Tree Nat, Machine.run step critnibNew
      [.insert 16 1 false ⟨some 100, none⟩, .insert 32 2 false ⟨some 101, some 200⟩,
        .remove 16] = some tree := ⟨_, rfl⟩
  obtain ⟨tree, ran⟩ := possible
  exact ⟨tree, ran, critnibDelete_exact ran⟩

/-- Is an operation a removal? -/
def Operation.isRemove : Operation Value → Bool
  | .remove _ => true
  | _ => false

/-- What the slots have in common with those before some removals: a slot that has been filled just
before is not reached by fewer removals than there are slots. -/
structure Waits (filled : Nat) (since : Nat) (slot : Fin deletedLife) (block : Address)
    (tree : Tree Value) : Prop where
  /-- The removals since then, some of which may not have been counted. -/
  counted : ∃ count, count ≤ since ∧
    tree.removeCount.toNat % deletedLife = (filled + 1 + count) % deletedLife
  position : slot.val = filled % deletedLife
  waiting : tree.pendingDelLeaves slot = some block ∨ tree.pendingDelNodes slot = some block

/-- The next slot is that of the number of removals. -/
theorem nextSlot_val (tree : Tree Value) :
    (nextSlot tree).1.val = tree.removeCount.toNat % deletedLife := by
  -- The number is increased for the slot, and decreased again.
  show (tree.removeCount + 1 - 1).toNat % deletedLife = _
  rw [BitVec.add_sub_cancel]

/-- The number of removals goes round with the slots. -/
theorem removeCount_mod (count : BitVec 64) :
    (count + 1).toNat % deletedLife = (count.toNat + 1) % deletedLife := by
  -- The number of words is a multiple of the number of slots.
  have one : (1 : BitVec 64).toNat = 1 := rfl
  rw [BitVec.toNat_add, one, show deletedLife = 16 from rfl]
  omega

/-- An insertion changes neither the slots nor the number of removals. -/
theorem Inserted.slots {tree after : Tree Value} {key : Word} {value : Value} {update : Bool}
    {memory : Memory} {outcome : Outcome}
    (inserted : Inserted tree key value update memory outcome after) :
    after.removeCount = tree.removeCount ∧ after.pendingDelLeaves = tree.pendingDelLeaves ∧
      after.pendingDelNodes = tree.pendingDelNodes := by
  -- Neither an allocation of a leaf nor one of a node changes them.
  have ofLeaf : ∀ {k : Address} {middle : Tree Value},
      allocLeaf tree memory.leaf = some (k, middle) → middle.removeCount = tree.removeCount ∧
        middle.pendingDelLeaves = tree.pendingDelLeaves ∧
          middle.pendingDelNodes = tree.pendingDelNodes := by
    intro k middle leaf
    rw [allocLeaf] at leaf
    split at leaf
    · cases leaf
      exact ⟨rfl, rfl, rfl⟩
    · obtain ⟨address, -, same⟩ := Option.map_eq_some_iff.mp leaf
      cases same
      exact ⟨rfl, rfl, rfl⟩
  cases inserted with
  | noLeaf refused => exact ⟨rfl, rfl, rfl⟩
  | noNode leaf refused => exact (ofLeaf leaf :)
  | present leaf reached asked => exact (ofLeaf leaf :)
  | empty leaf reached => exact (ofLeaf leaf :)
  | updated leaf reached asked => exact (ofLeaf leaf :)
  | forked leaf node present different =>
    have before := ofLeaf leaf
    rw [allocNode] at node
    split at node
    · cases node
      exact before
    · obtain ⟨address, -, same⟩ := Option.map_eq_some_iff.mp node
      cases same
      exact before

/-- A removal changes the next slot alone, and is counted, unless the tree is empty. -/
theorem Removed.slots {tree after : Tree Value} {key : Word} {value : Option Value}
    (removal : Removed tree key value after) :
    (after.removeCount = tree.removeCount ∨ after.removeCount = tree.removeCount + 1) ∧
      ∀ slot, slot ≠ (nextSlot tree).1 → after.pendingDelLeaves slot = tree.pendingDelLeaves slot ∧
        after.pendingDelNodes slot = tree.pendingDelNodes slot := by
  -- The search for the next slot counts, and empties that slot.
  have counted : (nextSlot tree).2.removeCount = tree.removeCount + 1 := by rw [nextSlot_eq]
  have others : ∀ slot, slot ≠ (nextSlot tree).1 →
      (nextSlot tree).2.pendingDelLeaves slot = tree.pendingDelLeaves slot ∧
        (nextSlot tree).2.pendingDelNodes slot = tree.pendingDelNodes slot := by
    intro slot other
    rw [nextSlot_eq]
    exact ⟨Function.update_of_ne other _ _, Function.update_of_ne other _ _⟩
  cases removal with
  | empty root => exact ⟨Or.inl rfl, fun slot _ => ⟨rfl, rfl⟩⟩
  | absent root missing => exact ⟨Or.inr counted, others⟩
  | last root =>
    refine ⟨Or.inr counted, fun slot other => ?_⟩
    dsimp only
    rw [Function.update_of_ne other]
    exact others slot other
  | taken inside leaf cutOut =>
    refine ⟨Or.inr counted, fun slot other => ?_⟩
    dsimp only
    rw [Function.update_of_ne other, Function.update_of_ne other]
    exact others slot other

/-- A block waits on in a step, if that is not one removal too many. -/
theorem Waits.step {filled since : Nat} {slot : Fin deletedLife} {block : Address}
    {tree after : Tree Value} {operation : Operation Value} (sound : Sound tree)
    (waits : Waits filled since slot block tree) (stepped : step tree operation = some after)
    (few : since + (if operation.isRemove then 1 else 0) < deletedLife) :
    Waits filled (since + if operation.isRemove then 1 else 0) slot block after := by
  obtain ⟨-, reply, performed⟩ := step_eq_some.mp stepped
  -- Only a removal touches the slots.
  cases operation with
  | insert key value update memory =>
    obtain ⟨outcome, last, inserted, cases⟩ :=
      critnibInsert_cases sound.shaped key value update memory
    rw [perform, inserted] at performed
    cases performed
    obtain ⟨counted, leaves, nodes⟩ := cases.slots
    exact ⟨by rw [counted]; exact waits.counted, waits.position,
      by rw [leaves, nodes]; exact waits.waiting⟩
  | remove key =>
    obtain ⟨value, last, removed, cases⟩ := critnibRemove_cases sound.shaped key
    rw [perform, removed] at performed
    cases performed
    simp only [Operation.isRemove, if_true] at few ⊢
    obtain ⟨counted, others⟩ := cases.slots
    obtain ⟨count, bounded, position⟩ := waits.counted
    -- The slot of this removal is another one, since fewer have been made than there are slots.
    have other : slot ≠ (nextSlot tree).1 := by
      intro same
      have value := waits.position
      rw [same, nextSlot_val, position] at value
      simp only [deletedLife] at value few
      omega
    obtain ⟨leaves, nodes⟩ := others slot other
    refine ⟨?_, waits.position, by rw [leaves, nodes]; exact waits.waiting⟩
    -- The removal has been counted or not, as the tree may have been empty.
    rcases counted with same | more
    · exact ⟨count, by omega, by rw [same]; exact position⟩
    · refine ⟨count + 1, by omega, ?_⟩
      rw [more, removeCount_mod]
      simp only [deletedLife] at position ⊢
      omega
  | get key =>
    cases performed
    exact waits
  | find key dir =>
    cases performed
    exact waits
  | findLe key =>
    cases performed
    exact waits

/-- A block waits on during a run with few enough removals. -/
theorem Waits.run {filled : Nat} {slot : Fin deletedLife} {block : Address}
    {tree after : Tree Value} {operations : List (Operation Value)} (sound : Sound tree)
    (waits : Waits filled 0 slot block tree)
    (ran : Machine.run Critnib.step tree operations = some after)
    (few : operations.countP Operation.isRemove < deletedLife) :
    Waits filled (operations.countP Operation.isRemove) slot block after := by
  -- By induction on the run, from its end; each of its steps is from a sound tree.
  have both := Machine.run_induction
    (fun done tree => Sound tree ∧ (done.countP Operation.isRemove < deletedLife →
      Waits filled (done.countP Operation.isRemove) slot block tree))
    ⟨sound, fun _ => waits⟩ (by
      rintro done before operation after _ ⟨sound, waits⟩ stepped
      refine ⟨sound.step stepped, fun few => ?_⟩
      rw [List.countP_append, List.countP_singleton] at few ⊢
      exact (waits (by omega)).step sound stepped few) ran
  exact both.2 few

/-- A block that waits is neither in the tree nor among those that may be used again. -/
theorem Waits.untouched {filled since : Nat} {slot : Fin deletedLife} {block : Address}
    {tree : Tree Value} (sound : Sound tree) (waits : Waits filled since slot block tree) :
    block ∉ deleteNode tree.root ∧ block ∉ tree.deletedLeaf ∧ block ∉ tree.deletedNode := by
  -- The block is there once, and the slot has it.
  have once := List.nodup_iff_count_le_one.mp sound.distinct block
  have balanced := sound.balanced block
  rw [count_critnibDelete, List.count_nil] at balanced
  have pending : 1 ≤ pendingCount block tree.pendingDelNodes +
      pendingCount block tree.pendingDelLeaves := by
    have inSlot : ∀ (pending : Fin deletedLife → Option Address), pending slot = some block →
        1 ≤ pendingCount block pending := by
      intro pending waiting
      have part := Finset.single_le_sum (f := fun i => (pending i).toList.count block)
        (fun i _ => Nat.zero_le _) (Finset.mem_univ slot)
      rw [waiting] at part
      simpa [pendingCount] using part
    rcases waits.waiting with leaf | node
    · have := inSlot _ leaf
      omega
    · have := inSlot _ node
      omega
  -- What is counted once in the slot is not counted elsewhere.
  rw [← List.count_eq_zero, ← List.count_eq_zero, ← List.count_eq_zero]
  rw [occurrences] at balanced
  omega

/-- What a removal takes out of a tree waits in the slot of the removal. -/
theorem waits_of_remove {tree after : Tree Value} {key : Word} {a : Address} {value : Value}
    (sound : Sound tree) (leaf : dive key tree.root = .leaf a key value)
    (removed : step tree (.remove key) = some after) {block : Address}
    (taken : block = a ∨ ∃ root, cut key tree.root = some (root, some block)) :
    Waits tree.removeCount.toNat 0 (nextSlot tree).1 block after := by
  -- The key is there, so the removal is not one of those that find nothing.
  obtain ⟨-, reply, performed⟩ := step_eq_some.mp removed
  obtain ⟨result, last, again, cases⟩ := critnibRemove_cases sound.shaped key
  rw [perform, again] at performed
  cases performed
  have there : contents tree key = some value := by
    simp only [contents, critnibGet, leaf, if_true]
  have counted : (nextSlot tree).2.removeCount.toNat % deletedLife =
      (tree.removeCount.toNat + 1 + 0) % deletedLife := by
    rw [nextSlot_eq]
    exact removeCount_mod tree.removeCount
  cases cases with
  | empty root =>
    rw [root] at leaf
    cases leaf
  | absent root missing =>
    rw [missing] at there
    cases there
  -- The leaf was the whole tree, and is put into the slot.
  | last root =>
    rw [root] at leaf taken
    cases leaf
    refine ⟨⟨0, Nat.le_refl 0, counted⟩, nextSlot_val tree, Or.inl ?_⟩
    rcases taken with rfl | ⟨rest, cutOut⟩
    · dsimp only
      rw [Function.update_self]
    · cases cutOut
  -- The leaf, or the node that is cut out with it, is put into the slot.
  | taken inside found cutOut =>
    rw [leaf] at found
    cases found
    refine ⟨⟨0, Nat.le_refl 0, counted⟩, nextSlot_val tree, ?_⟩
    rcases taken with rfl | ⟨rest, cutAgain⟩
    · apply Or.inl
      dsimp only
      rw [Function.update_self]
    · rw [cutOut] at cutAgain
      cases cutAgain
      apply Or.inr
      dsimp only
      rw [Function.update_self]

/-- The leaf that a removal takes out of the tree, and the node that it may take out with it, are
neither in the tree nor among what may be used again, until as many removals have been made as there
are slots. -/
theorem removed_untouched {before between : List (Operation Value)} {tree middle after : Tree Value}
    {key : Word} {a block : Address} {value : Value}
    (ran : Machine.run step critnibNew before = some tree)
    (leaf : dive key tree.root = .leaf a key value)
    (removed : step tree (.remove key) = some middle)
    (taken : block = a ∨ ∃ root, cut key tree.root = some (root, some block))
    (later : Machine.run step middle between = some after)
    (few : between.countP Operation.isRemove < deletedLife) :
    block ∉ deleteNode after.root ∧ block ∉ after.deletedLeaf ∧ block ∉ after.deletedNode := by
  -- Each state of the run is sound, and the block waits from the removal on.
  have sound := sound_critnibNew.run ran
  have next := sound.step removed
  exact ((waits_of_remove sound leaf removed taken).run next later few).untouched (next.run later)

/-- The leaf that a removal takes out of a tree with two keys is not in use after another
insertion. -/
theorem removed_untouched_two :
    ∃ tree middle after : Tree Nat, Machine.run step critnibNew
      [.insert 16 1 false ⟨some 100, none⟩, .insert 32 2 false ⟨some 101, some 200⟩] = some tree ∧
        step tree (.remove 16) = some middle ∧
          Machine.run step middle [.insert 48 3 false ⟨some 102, some 201⟩] = some after ∧
            100 ∉ deleteNode after.root := by
  have possible : ∃ tree middle after : Tree Nat,
      Machine.run step critnibNew [.insert 16 1 false ⟨some 100, none⟩,
        .insert 32 2 false ⟨some 101, some 200⟩] = some tree ∧
      dive 16 tree.root = .leaf 100 16 1 ∧ step tree (.remove 16) = some middle ∧
        Machine.run step middle [.insert 48 3 false ⟨some 102, some 201⟩] = some after :=
    ⟨_, _, _, rfl, rfl, rfl, rfl⟩
  obtain ⟨tree, middle, after, ran, leaf, removed, later⟩ := possible
  have untouched := removed_untouched ran leaf removed (Or.inl rfl) later (by decide)
  exact ⟨tree, middle, after, ran, removed, later, untouched.1⟩

end SecretTyping.Umf.Critnib
