import SecretTyping.Umf.CoarseBlocks

/-! How a block is freed, and merged with its neighbours. -/

namespace SecretTyping.Umf.Coarse

open Sorted Segments

variable {provider : Provider} {before after : List Block} {block a b : Block}

/-- A block is taken out of its list if it is in one. -/
theorem unlist_spec {free : List Head} {rest : List (Nat × Nat)} (lists : Lists free)
    (listed : (entries free).Perm (listedEntries [block] ++ rest)) :
    ∃ left, unlist free block = some left ∧ Lists left ∧ (entries left).Perm rest := by
  rw [listedEntries_cons, listedEntries_nil, List.append_nil] at listed
  rw [unlist]
  split at listed
  · next flag =>
    rw [if_pos flag]
    have member : (block.size, block.data) ∈ entries free :=
      listed.mem_iff.mpr (List.mem_append_left _ List.mem_cons_self)
    obtain ⟨left, taken, lists, moved⟩ := freeBlocksRmNode_spec lists member
    exact ⟨left, taken, lists, (moved.symm.trans listed).cons_inv⟩
  · next flag =>
    rw [if_neg flag]
    exact ⟨free, rfl, lists, listed⟩

/-- A block is put into the list of its size, if there is memory for it. -/
theorem listBlock_at (provider : Provider) (order : Ascending byData (before ++ block :: after))
    (lists : Lists provider.freeBlocks) (place : provider.allBlocks = before ++ block :: after)
    {memory : NewFree} (given : memory.Given) :
    ∃ free, listBlock provider block.data memory = (true, { provider with
        allBlocks := before ++ { block with listed := true } :: after, freeBlocks := free }) ∧
      Lists free ∧
      (entries free).Perm ((block.size, block.data) :: entries provider.freeBlocks) := by
  -- The size is looked up for the address.
  have size : blockSize provider.allBlocks block.data = block.size := by
    rw [blockSize, place, lookup_at order]
    rfl
  have changed := setBlock_at order fun block => { block with listed := true }
  rw [← place] at changed
  obtain ⟨free, added, lists, more⟩ := freeBlocksAdd_spec lists block.data block.size given
  refine ⟨free, ?_, lists, more⟩
  simp only [listBlock, size, added, changed]

/-- The two blocks as one. -/
def mergedBlock (a b : Block) : Block := { a with size := a.size + b.size, listed := false }

/-- Two blocks that can be merged are merged, whatever lists they are in. -/
theorem Shape.userBlockMerge_true (shape : Shape provider) {used : Bool}
    (place : provider.allBlocks = before ++ a :: b :: after)
    (mergeable : Mergeable provider.upstreamBlocks used a b) :
    ∃ free, userBlockMerge provider a b used = some (true, { provider with
        allBlocks := before ++ mergedBlock a b :: after, freeBlocks := free }) ∧
      Shape { provider with
        allBlocks := before ++ mergedBlock a b :: after, freeBlocks := free } := by
  have first : a ∈ provider.allBlocks := place ▸ List.mem_append_right _ List.mem_cons_self
  have second : b ∈ provider.allBlocks :=
    place ▸ List.mem_append_right _ (List.mem_cons_of_mem _ List.mem_cons_self)
  obtain ⟨same, found, joint⟩ := shape.isSameOrigin_spec first second
  have positive := (shape.blocks.nonzero a first).2
  have nextPositive := (shape.blocks.nonzero b second).2
  have contiguous := mergeable.contiguous
  -- The one block fills the range of the two.
  have fillsOld : Fills Block.data Block.size [a, b] a.data (a.data + a.size + b.size) :=
    ⟨rfl, positive, contiguous.symm, nextPositive, rfl⟩
  have fillsNew : Fills Block.data Block.size [mergedBlock a b] a.data
      (a.data + a.size + b.size) :=
    ⟨rfl, Nat.add_pos_left positive _, (Nat.add_assoc a.data a.size b.size).symm⟩
  -- The upstream block of the one is also that of the other.
  have inside : ∃ origin ∈ provider.upstreamBlocks,
      origin.data ≤ a.data ∧ a.data + a.size + b.size ≤ origin.data + origin.size := by
    have together := (joint contiguous).mpr mergeable.joint
    obtain ⟨origin, member, lower, upper⟩ := shape.inside a first
    obtain ⟨other, home, below, above⟩ := shape.inside b second
    obtain ⟨third, shared, left, right⟩ := mergeable.joint
    have one : third = origin :=
      shape.upstream.eq_of_common (b.data - 1) shared member (by omega) (by omega)
    have two : third = other :=
      shape.upstream.eq_of_common b.data shared home (by omega) (by omega)
    subst one two
    exact ⟨third, shared, by omega, by omega⟩
  -- Both blocks are taken out of their lists.
  have listed := shape.listed
  rw [place] at listed
  have order : (listedEntries (before ++ a :: b :: after)).Perm
      (listedEntries [a] ++ (listedEntries [b] ++ listedEntries (before ++ after))) := by
    rw [listedEntries_append, listedEntries_cons, listedEntries_cons b, listedEntries_append,
      listedEntries_cons a [], listedEntries_cons b [], listedEntries_nil, List.append_nil,
      List.append_nil]
    exact List.perm_append_comm_assoc _ _ _ |>.trans
      ((List.perm_append_comm_assoc _ _ _).append_left _)
  obtain ⟨left, outFirst, lists, rest⟩ := unlist_spec shape.lists (listed.trans order)
  obtain ⟨free, outSecond, lists, rest⟩ := unlist_spec lists rest
  have merged : Shape { provider with
      allBlocks := before ++ mergedBlock a b :: after, freeBlocks := free } := by
    refine shape.exchange _ place (List.cons_ne_nil a [b]) fillsOld fillsNew inside lists ?_
    rw [listedEntries_append] at rest ⊢
    exact rest
  -- The code computes the same, as all its checks are passed.
  refine ⟨free, ?_, merged⟩
  have layout := shape.blocks
  rw [place] at layout
  have joined := merge_at layout.ascending
    (fun block => { block with size := block.size + b.size, listed := false }) rfl
  rw [← place] at joined
  simp only [userBlockMerge, found, (joint contiguous).mpr mergeable.joint, mergeable.first,
    mergeable.second, contiguous, outFirst]
  simp only [decide_true, Bool.and_self, Bool.not_true, Bool.or_self, Bool.false_eq_true, if_false,
    Option.bind_eq_bind, Option.bind_some, outSecond, joined]
  rfl

/-- Two blocks that cannot be merged stay as they are. -/
theorem Shape.userBlockMerge_false (shape : Shape provider) {used : Bool}
    (first : a ∈ provider.allBlocks) (second : b ∈ provider.allBlocks)
    (separate : ¬Mergeable provider.upstreamBlocks used a b) :
    userBlockMerge provider a b used = some (false, provider) := by
  obtain ⟨same, found, joint⟩ := shape.isSameOrigin_spec first second
  -- All four conditions together would make the two blocks mergeable.
  rw [userBlockMerge, found]
  refine if_pos ?_
  by_contra together
  simp only [Bool.or_eq_true, Bool.not_eq_true', Bool.and_eq_true, decide_eq_true_eq, not_or,
    Bool.not_eq_false] at together
  obtain ⟨⟨⟨usedFirst, usedSecond⟩, contiguous⟩, inside⟩ := together
  exact separate ⟨usedFirst, usedSecond, contiguous, (joint contiguous).mp inside⟩

/-- All is as it has to be but for a free block, which is not listed and may have to be merged. -/
structure Pending (provider : Provider) (before : List Block) (block : Block) (after : List Block) :
    Prop extends Shape provider where
  place : provider.allBlocks = before ++ block :: after
  unused : block.used = false
  unlisted : block.listed = false
  flags : ∀ other ∈ before ++ after, other.listed = !other.used
  merged : ∀ first ∈ before ++ after, ∀ second ∈ before ++ after,
    ¬Mergeable provider.upstreamBlocks false first second
  usedSizes : total (provider.allBlocks.filter Block.used) = provider.usedSize

/-- Only free blocks and their lists are different. -/
structure Keeps (provider changed : Provider) : Prop where
  rest : changed = { provider with
    allBlocks := changed.allBlocks, freeBlocks := changed.freeBlocks }
  used : changed.allBlocks.filter Block.used = provider.allBlocks.filter Block.used

/-- Two changes of free blocks are one. -/
theorem Keeps.trans {first second third : Provider} (early : Keeps first second)
    (late : Keeps second third) : Keeps first third := by
  refine ⟨?_, late.used.trans early.used⟩
  rw [late.rest, early.rest]

/-- A block that ends where another one begins is right in front of it. -/
theorem Layout.eq_of_contiguous {other : Block} (layout : Layout (before ++ a :: b :: after))
    (member : other ∈ before ++ a :: b :: after) (contiguous : other.data + other.size = b.data) :
    other = a := by
  -- The block is in front of the two, or one of them, or behind them.
  obtain ⟨-, right, across⟩ := List.pairwise_append.mp layout.apart
  obtain ⟨behindFirst, right⟩ := List.pairwise_cons.mp right
  obtain ⟨behindSecond, -⟩ := List.pairwise_cons.mp right
  have positive := layout.nonzero other member
  have order := behindFirst b List.mem_cons_self
  have size := layout.nonzero a (List.mem_append_right _ List.mem_cons_self)
  rcases List.mem_append.mp member with early | late
  · have ends := across other early a List.mem_cons_self
    omega
  · rcases List.mem_cons.mp late with same | late
    · exact same
    · rcases List.mem_cons.mp late with same | late
      · rw [same] at contiguous positive
        omega
      · have begins := behindSecond other late
        omega

/-- No block can be merged with the one behind it if the one in between cannot. -/
theorem Layout.separate_prev {other : Block} {upstreamBlocks : List Block}
    (layout : Layout (before ++ a :: b :: after))
    (separate : ¬Mergeable upstreamBlocks false a b) (member : other ∈ before ++ a :: b :: after) :
    ¬Mergeable upstreamBlocks false other b := by
  intro mergeable
  rw [layout.eq_of_contiguous member mergeable.contiguous] at mergeable
  exact separate mergeable

/-- No block can be merged with the one in front of it if the one in between cannot. -/
theorem Layout.separate_next {other : Block} {upstreamBlocks : List Block}
    (layout : Layout (before ++ a :: b :: after))
    (separate : ¬Mergeable upstreamBlocks false a b) (member : other ∈ before ++ a :: b :: after) :
    ¬Mergeable upstreamBlocks false a other := by
  intro mergeable
  have contiguous := mergeable.contiguous
  -- The block begins where the first one ends, and so does the second one, or behind that.
  obtain ⟨-, right, across⟩ := List.pairwise_append.mp layout.apart
  obtain ⟨behindFirst, right⟩ := List.pairwise_cons.mp right
  obtain ⟨behindSecond, -⟩ := List.pairwise_cons.mp right
  have positive := layout.nonzero other member
  have order := behindFirst b List.mem_cons_self
  have size := layout.nonzero a (List.mem_append_right _ List.mem_cons_self)
  have nextSize := layout.nonzero b
    (List.mem_append_right _ (List.mem_cons_of_mem _ List.mem_cons_self))
  rcases List.mem_append.mp member with early | late
  · have ends := across other early a List.mem_cons_self
    omega
  · rcases List.mem_cons.mp late with rfl | late
    · omega
    · rcases List.mem_cons.mp late with rfl | late
      · exact separate mergeable
      · have begins := behindSecond other late
        omega

/-- A block that is pending has been merged with the previous one if that was possible. -/
theorem Pending.mergeWithPrev (pending : Pending provider before block after) :
    ∃ init merged changed, freeBlockMergeWithPrev provider block.data =
        some (merged.data, changed) ∧ Pending changed init merged after ∧
      Keeps provider changed ∧
      ∀ other ∈ init ++ after, ¬Mergeable changed.upstreamBlocks false other merged := by
  -- The block is the first one, or there is a previous one.
  have layout := pending.blocks
  rw [pending.place] at layout
  rcases List.eq_nil_or_concat' before with rfl | ⟨init, prev, rfl⟩
  · -- There is no previous block.
    refine ⟨[], block, provider, ?_, pending, ⟨rfl, rfl⟩, fun other member mergeable => ?_⟩
    · rw [freeBlockMergeWithPrev, pending.place, previous_at layout.ascending]
      rfl
    · have begins := (List.pairwise_cons.mp layout.apart).1 other member
      have positive := layout.nonzero block List.mem_cons_self
      have contiguous := mergeable.contiguous
      omega
  · have here : lookup byData (atData block.data) provider.allBlocks = some block := by
      rw [pending.place, lookup_at layout.ascending]
    have previous : previous byData (atData block.data) provider.allBlocks = some prev := by
      rw [pending.place, previous_at layout.ascending, List.getLast?_concat]
    have place : provider.allBlocks = init ++ prev :: block :: after := by
      rw [pending.place, ← List.append_cons]
    rw [← List.append_cons] at layout
    have neighbour : prev ∈ (init ++ [prev]) ++ after :=
      List.mem_append_left _ (List.mem_append_right _ List.mem_cons_self)
    -- They are merged, or stay.
    by_cases mergeable : Mergeable provider.upstreamBlocks false prev block
    · obtain ⟨free, done, shape⟩ := pending.userBlockMerge_true place mergeable
      have part : ∀ other ∈ init ++ after, other ∈ (init ++ [prev]) ++ after := by
        intro other member
        rcases List.mem_append.mp member with early | late
        · exact List.mem_append_left _ (List.mem_append_left _ early)
        · exact List.mem_append_right _ late
      have used : (init ++ mergedBlock prev block :: after).filter Block.used =
          provider.allBlocks.filter Block.used := by
        have unused : (mergedBlock prev block).used = false := mergeable.first
        simp [place, mergeable.first, mergeable.second, unused]
      refine ⟨init, mergedBlock prev block, _, ?_, ⟨shape, rfl, mergeable.first, rfl, ?_, ?_, ?_⟩,
        ⟨rfl, used⟩, ?_⟩
      · rw [freeBlockMergeWithPrev, here, previous]
        simp only [done]
        rfl
      · exact fun other member => pending.flags other (part other member)
      · exact fun first member second also =>
          pending.merged first (part first member) second (part second also)
      · rw [used]
        exact pending.usedSizes
      · -- What is in front of both is what was in front of the previous block.
        intro other member again
        exact pending.merged other (part other member) prev neighbour
          ⟨again.first, mergeable.first, again.contiguous, again.joint⟩
    · -- What stays cannot be merged, and neither can what is further in front.
      refine ⟨init ++ [prev], block, provider, ?_, pending, ⟨rfl, rfl⟩, fun other member => ?_⟩
      · rw [freeBlockMergeWithPrev, here, previous]
        have first : prev ∈ provider.allBlocks :=
          place ▸ List.mem_append_right _ List.mem_cons_self
        have second : block ∈ provider.allBlocks :=
          place ▸ List.mem_append_right _ (List.mem_cons_of_mem _ List.mem_cons_self)
        simp only [pending.userBlockMerge_false first second mergeable]
        rfl
      · refine layout.separate_prev mergeable ?_
        rcases List.mem_append.mp member with early | late
        · rw [List.append_cons]
          exact List.mem_append_left _ early
        · exact List.mem_append_right _ (List.mem_cons_of_mem _ (List.mem_cons_of_mem _ late))

/-- A block that is pending has been merged with the next one if that was possible. -/
theorem Pending.mergeWithNext (pending : Pending provider before block after)
    (apart : ∀ other ∈ before ++ after, ¬Mergeable provider.upstreamBlocks false other block) :
    ∃ merged tail changed, freeBlockMergeWithNext provider block.data =
        some (merged.data, changed) ∧ Pending changed before merged tail ∧
      Keeps provider changed ∧ ∀ other ∈ before ++ tail,
        ¬Mergeable changed.upstreamBlocks false other merged ∧
        ¬Mergeable changed.upstreamBlocks false merged other := by
  -- The block is the last one, or there is a next one.
  have layout := pending.blocks
  rw [pending.place] at layout
  have here : lookup byData (atData block.data) provider.allBlocks = some block := by
    rw [pending.place, lookup_at layout.ascending]
  cases after with
  | nil =>
    -- There is no next block.
    have last : next byData (atData block.data) provider.allBlocks = none := by
      rw [pending.place, next_at layout.ascending]
      rfl
    refine ⟨block, [], provider, ?_, pending, ⟨rfl, rfl⟩,
      fun other member => ⟨apart other member, ?_⟩⟩
    · rw [freeBlockMergeWithNext, here, last]
    · intro mergeable
      rw [List.append_nil] at member
      have ends := (List.pairwise_append.mp layout.apart).2.2 other member block List.mem_cons_self
      have positive := layout.nonzero other (List.mem_append_left _ member)
      have contiguous := mergeable.contiguous
      omega
  | cons next tail =>
    have behind : Sorted.next byData (atData block.data) provider.allBlocks = some next := by
      rw [pending.place, next_at layout.ascending]
      rfl
    have part : ∀ other ∈ before ++ tail, other ∈ before ++ next :: tail := by
      intro other member
      rcases List.mem_append.mp member with early | late
      · exact List.mem_append_left _ early
      · exact List.mem_append_right _ (List.mem_cons_of_mem _ late)
    have neighbour : next ∈ before ++ next :: tail := List.mem_append_right _ List.mem_cons_self
    -- They are merged, or stay.
    by_cases mergeable : Mergeable provider.upstreamBlocks false block next
    · obtain ⟨free, done, shape⟩ := pending.userBlockMerge_true pending.place mergeable
      have used : (before ++ mergedBlock block next :: tail).filter Block.used =
          provider.allBlocks.filter Block.used := by
        have unused : (mergedBlock block next).used = false := mergeable.first
        simp [pending.place, mergeable.first, mergeable.second, unused]
      refine ⟨mergedBlock block next, tail, _, ?_,
        ⟨shape, rfl, mergeable.first, rfl, ?_, ?_, ?_⟩, ⟨rfl, used⟩, ?_⟩
      · rw [freeBlockMergeWithNext, here, behind]
        simp only [done]
        rfl
      · exact fun other member => pending.flags other (part other member)
      · exact fun first member second also =>
          pending.merged first (part first member) second (part second also)
      · rw [used]
        exact pending.usedSizes
      · -- What is behind both is what was behind the next block.
        refine fun other member => ⟨fun again => ?_, fun again => ?_⟩
        · exact apart other (part other member)
            ⟨again.first, mergeable.first, again.contiguous, again.joint⟩
        · refine pending.merged next neighbour other (part other member)
            ⟨mergeable.second, again.second, ?_, again.joint⟩
          have contiguous : block.data + (block.size + next.size) = other.data := again.contiguous
          have touching := mergeable.contiguous
          omega
    · -- What stays cannot be merged, and neither can what is further behind.
      refine ⟨block, next :: tail, provider, ?_, pending, ⟨rfl, rfl⟩,
        fun other member => ⟨apart other member, layout.separate_next mergeable ?_⟩⟩
      · have first : block ∈ provider.allBlocks :=
          pending.place ▸ List.mem_append_right _ List.mem_cons_self
        have second : next ∈ provider.allBlocks := pending.place ▸
          List.mem_append_right _ (List.mem_cons_of_mem _ List.mem_cons_self)
        rw [freeBlockMergeWithNext, here, behind]
        simp only [pending.userBlockMerge_false first second mergeable]
        rfl
      · rcases List.mem_append.mp member with early | late
        · exact List.mem_append_left _ early
        · exact List.mem_append_right _ (List.mem_cons_of_mem _ late)

/-- If the block that is pending cannot be merged, it may be exchanged for parts of it. -/
theorem Pending.parts (pending : Pending provider before block after)
    (apart : ∀ other ∈ before ++ after, ¬Mergeable provider.upstreamBlocks false other block ∧
      ¬Mergeable provider.upstreamBlocks false block other) {parts : List Block}
    {free : List Head} {usedSize : Nat}
    (fills : Fills Block.data Block.size parts block.data (block.data + block.size))
    (flags : ∀ part ∈ parts, part.listed = !part.used)
    (separate : ∀ first ∈ parts, ∀ second ∈ parts,
      ¬Mergeable provider.upstreamBlocks false first second)
    (lists : Lists free)
    (listed : (entries free).Perm (listedEntries (before ++ (parts ++ after))))
    (used : total ((before ++ (parts ++ after)).filter Block.used) = usedSize) :
    Consistent { provider with
      allBlocks := before ++ (parts ++ after), freeBlocks := free, usedSize := usedSize } := by
  have layout := pending.blocks
  have member : block ∈ provider.allBlocks :=
    pending.place ▸ List.mem_append_right _ List.mem_cons_self
  have size := (pending.blocks.nonzero block member).2
  rw [pending.place] at layout
  -- The parts fill the range of the block, so that the shape stays.
  have whole : Fills Block.data Block.size [block] block.data (block.data + block.size) :=
    ⟨rfl, size, rfl⟩
  have shape := pending.exchange usedSize pending.place (List.cons_ne_nil block []) whole fills
    (pending.inside block member) lists listed
  -- A block is one of the parts, or one of the others.
  have split : ∀ other ∈ before ++ (parts ++ after), other ∈ before ++ after ∨ other ∈ parts := by
    intro other member
    rcases List.mem_append.mp member with early | late
    · exact Or.inl (List.mem_append_left _ early)
    · rcases List.mem_append.mp late with part | late
      · exact Or.inr part
      · exact Or.inl (List.mem_append_right _ late)
  -- What is left are the flags and that no two blocks can be merged.
  refine ⟨shape, ?_, ?_, used⟩
  · intro other member
    rcases split other member with rest | part
    · exact pending.flags other rest
    · exact flags other part
  · intro first member second also mergeable
    have contiguous := mergeable.contiguous
    have positive := shape.blocks.nonzero first member
    rcases split first member with rest | part
    · rcases split second also with others | part
      · exact pending.merged first rest second others mergeable
      · -- What is in front of a part is in front of the block.
        have bounds := fills.inside.2 second part
        have positive := shape.blocks.nonzero second also
        have touching : first.data + first.size = block.data := by
          rcases layout.beside rest with front | behind <;> omega
        refine (apart first rest).1 ⟨mergeable.first, pending.unused, touching, ?_⟩
        rw [← touching, contiguous]
        exact mergeable.joint
    · -- The first one is a part of the block.
      rcases split second also with others | also
      · -- What is behind a part is behind the block.
        have bounds := fills.inside.2 first part
        have touching : block.data + block.size = second.data := by
          rcases layout.beside others with front | behind <;> omega
        exact (apart second others).2
          ⟨pending.unused, mergeable.second, touching, mergeable.joint⟩
      · exact separate first part second also mergeable

/-- A block that is pending and cannot be merged is put into the lists; then all is as it has to
be. -/
theorem Pending.listBlock (pending : Pending provider before block after)
    (apart : ∀ other ∈ before ++ after, ¬Mergeable provider.upstreamBlocks false other block ∧
      ¬Mergeable provider.upstreamBlocks false block other) {memory : NewFree}
    (given : memory.Given) :
    ∃ changed, listBlock provider block.data memory = (true, changed) ∧ Consistent changed ∧
      Keeps provider changed := by
  -- The lists have the block, which is all that changes.
  have layout := pending.blocks
  have listed := pending.listed
  rw [pending.place] at layout listed
  obtain ⟨address, size⟩ :=
    layout.nonzero block (List.mem_append_right _ List.mem_cons_self)
  obtain ⟨free, added, lists, more⟩ :=
    listBlock_at provider layout.ascending pending.lists pending.place given
  have used : (before ++ { block with listed := true } :: after).filter Block.used =
      provider.allBlocks.filter Block.used := by
    simp [pending.place, pending.unused]
  refine ⟨_, added, ?_, ⟨rfl, used⟩⟩
  -- The only part of the block is the block itself.
  have fills : Fills Block.data Block.size [{ block with listed := true }] block.data
      (block.data + block.size) := ⟨rfl, size, rfl⟩
  refine pending.parts apart fills ?_ ?_ lists ?_ ?_
  · intro part member
    rw [List.mem_singleton.mp member, pending.unused]
    rfl
  · intro first member second also mergeable
    have contiguous := mergeable.contiguous
    rw [List.mem_singleton.mp member, List.mem_singleton.mp also] at contiguous
    exact absurd contiguous (Nat.ne_of_gt (Nat.lt_add_of_pos_right size))
  · refine more.trans ((listed.cons _).trans ?_)
    rw [listedEntries_append, listedEntries_cons, pending.unlisted, List.singleton_append,
      listedEntries_append, listedEntries_cons]
    exact List.perm_middle.symm
  · show total ((before ++ { block with listed := true } :: after).filter Block.used) = _
    rw [used]
    exact pending.usedSizes

/-- A free block that is not put into the lists is missed in them. -/
theorem Pending.listBlock_refused (pending : Pending provider before block after)
    {memory : NewFree}
    (refused : (Coarse.listBlock provider block.data memory).1 = false) :
    Coarse.debugCheck (Coarse.listBlock provider block.data memory).2 = false := by
  -- The block is marked as not listed, and its list is left as it is.
  have layout := pending.blocks
  rw [pending.place] at layout
  have changed := setBlock_at layout.ascending fun block => { block with listed := false }
  rw [← pending.place] at changed
  cases added : freeBlocksAdd provider.freeBlocks block.data
      (blockSize provider.allBlocks block.data) memory with
  | mk flag free =>
    simp only [Coarse.listBlock, added] at refused ⊢
    subst refused
    rw [changed]
    -- All other free blocks are listed, so that one is missing, if no list is empty.
    have missing : provider.allBlocks.countP Block.listed <
        (before ++ { block with listed := false } :: after).countP fun block => !block.used := by
      have others : (before ++ after).countP Block.listed =
          (before ++ after).countP fun block => !block.used := by
        apply List.countP_congr
        intro other member
        rw [pending.flags other member]
      rw [List.countP_append, List.countP_append] at others
      rw [pending.place, List.countP_append, List.countP_append,
        List.countP_cons_of_neg (by simp [pending.unlisted]),
        List.countP_cons_of_pos (by simp [pending.unused])]
      omega
    -- The check counts the lists, which are one short or have an empty one.
    have miscounted : ¬countFree free =
        some ((before ++ { block with listed := false } :: after).countP fun block =>
          !block.used) := by
      rcases freeBlocksAdd_refused added with rfl | ⟨head, member, empty⟩
      · rw [pending.countFree]
        exact fun same => Nat.ne_of_lt missing (Option.some.inj same)
      · have any : (free.any fun head => head.head = []) = true :=
          List.any_eq_true.mpr ⟨head, member, decide_eq_true empty⟩
        rw [Coarse.countFree, any]
        intro none
        cases none
    rw [← Bool.not_eq_true, Coarse.debugCheck]
    simp only [Bool.and_eq_true, decide_eq_true_eq]
    rintro ⟨⟨⟨⟨⟨⟨-, counted⟩, -⟩, -⟩, -⟩, -⟩, -⟩
    exact miscounted counted

/-- How a provider has been made. -/
def Provider.config (provider : Provider) : Bool × Bool × Strategy :=
  (provider.upstreamMemoryProvider, provider.disableUpstreamProviderFree,
    provider.allocationStrategy)

/-- A change of free blocks does not change how the provider has been made. -/
theorem Keeps.config {changed : Provider} (keeps : Keeps provider changed) :
    changed.config = provider.config := by
  rw [keeps.rest]
  rfl

/-- A used block that is no longer used is pending. -/
theorem Consistent.release (consistent : Consistent provider)
    (place : provider.allBlocks = before ++ block :: after) (used : block.used = true) :
    block.size ≤ provider.usedSize ∧ Pending { provider with
      usedSize := provider.usedSize - block.size
      allBlocks := before ++ { block with used := false } :: after }
      before { block with used := false } after := by
  have member : block ∈ provider.allBlocks :=
    place ▸ List.mem_append_right _ List.mem_cons_self
  have size := (consistent.blocks.nonzero block member).2
  -- A used block is not listed.
  have unlisted : block.listed = false := by
    rw [consistent.flags block member, used]
    rfl
  have fills : ∀ flag, Fills Block.data Block.size [{ block with used := flag }] block.data
      (block.data + block.size) := fun _ => ⟨rfl, size, rfl⟩
  have listed := consistent.listed
  have sum := consistent.usedSizes
  have others : ∀ other ∈ before ++ after, other ∈ provider.allBlocks := by
    intro other inside
    rw [place]
    rcases List.mem_append.mp inside with early | late
    · exact List.mem_append_left _ early
    · exact List.mem_append_right _ (List.mem_cons_of_mem _ late)
  rw [place] at listed sum
  -- The size of the block is part of what is in use.
  have parts : total (before.filter Block.used) + (block.size + total (after.filter Block.used)) =
      provider.usedSize := by
    rw [← sum, List.filter_append, List.filter_cons_of_pos used, total_append, total_cons]
  refine ⟨by omega, ?_, rfl, rfl, unlisted, ?_, ?_, ?_⟩
  · refine consistent.exchange _ place (List.cons_ne_nil block []) (fills block.used) (fills false)
      (consistent.inside block member) consistent.lists (listed.trans ?_)
    rw [listedEntries_append, listedEntries_cons, listedEntries_append, List.singleton_append,
      listedEntries_cons]
  · exact fun other inside => consistent.flags other (others other inside)
  · exact fun first inside second also =>
      consistent.merged first (others first inside) second (others second also)
  · show total ((before ++ { block with used := false } :: after).filter Block.used) = _
    rw [List.filter_append, List.filter_cons_of_neg (by simp), total_append]
    show _ = provider.usedSize - block.size
    omega

/-- A used block is freed, if its size is not given or is right. -/
theorem Consistent.free_success (consistent : Consistent provider)
    (place : provider.allBlocks = before ++ block :: after) (used : block.used = true) {bytes : Nat}
    (fits : bytes = 0 ∨ bytes = block.size) {memory : NewFree} (given : memory.Given) :
    ∃ changed, free provider block.data bytes memory = some (.success, changed) ∧
      Consistent changed ∧ changed.config = provider.config ∧
      changed.upstreamBlocks = provider.upstreamBlocks ∧
      changed.allBlocks.filter Block.used = (before ++ after).filter Block.used := by
  obtain ⟨enough, pending⟩ := consistent.release place used
  -- The block is merged with its neighbours, and listed.
  obtain ⟨init, merged, first, withPrev, pendingPrev, keepsPrev, apart⟩ := pending.mergeWithPrev
  obtain ⟨whole, tail, second, withNext, pendingNext, keepsNext, apart⟩ :=
    pendingPrev.mergeWithNext apart
  obtain ⟨changed, listed, final, keepsList⟩ := pendingNext.listBlock apart given
  have keeps := (keepsPrev.trans keepsNext).trans keepsList
  -- The code looks the block up and marks it as free first.
  have order := consistent.blocks.ascending
  rw [place] at order
  have here : lookup byData (atData block.data) provider.allBlocks = some block := by
    rw [place, lookup_at order]
  have unset := setBlock_at order fun block => { block with used := false }
  rw [← place] at unset
  have size : ¬(0 < bytes ∧ bytes ≠ block.size) := by omega
  replace withPrev : freeBlockMergeWithPrev _ block.data = _ := withPrev
  refine ⟨changed, ?_, final, keeps.config, ?_, ?_⟩
  · rw [Coarse.free, consistent.debugCheck, here]
    simp [used, unset, size, Nat.not_lt.mpr enough, withPrev, withNext, listed, final.debugCheck]
  · rw [keeps.rest]
  · rw [keeps.used]
    simp

/-- Nothing is freed if there is no used block of the size at an address. -/
theorem Consistent.free_failure (consistent : Consistent provider) {ptr bytes : Nat}
    (missing : ∀ block ∈ provider.allBlocks, block.data = ptr → block.used = true →
      bytes ≠ 0 ∧ bytes ≠ block.size) (memory : NewFree) :
    ∃ result, free provider ptr bytes memory = some (result, provider) ∧ result ≠ .success := by
  rw [Coarse.free, consistent.debugCheck]
  -- There is no block at the address, or it is not used, or has another size.
  cases found : lookup byData (atData ptr) provider.allBlocks with
  | none => exact ⟨.unknown, rfl, by decide⟩
  | some block =>
    obtain ⟨address, before, after, place⟩ := exists_of_lookup found
    have member : block ∈ provider.allBlocks :=
      place ▸ List.mem_append_right _ List.mem_cons_self
    refine ⟨.invalidArgument, ?_, by decide⟩
    cases used : block.used with
    | false => simp [used]
    | true =>
      have wrong := missing block member address used
      simp [used, wrong, Nat.pos_of_ne_zero wrong.1]

end SecretTyping.Umf.Coarse
