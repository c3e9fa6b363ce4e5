import SecretTyping.Umf.CoarseMerge

/-! How a block is allocated from a free one, and what is left of that. -/

namespace SecretTyping.Umf.Coarse

open Sorted Segments

variable {provider : Provider} {before after below beyond : List Block} {block : Block}
  {data size alignment : Nat}

/-- The allocator has memory for a block and for its node. -/
def NewBlock.given (memory : NewBlock) : Bool := memory.block.isSome && memory.node

/-- A new block is put where the blocks are cut, if there is memory for it. -/
theorem coarseRavlAddNew_given (cut : Cut byData (atData data) below none beyond) (size : Nat)
    (address : data ≠ 0) (positive : size ≠ 0) {memory : NewBlock}
    (given : memory.given = true) :
    ∃ used, coarseRavlAddNew (joined below none beyond) data size memory =
      some (some (below ++ ⟨data, size, used, false⟩ :: beyond)) := by
  -- There is memory for the block and for its node.
  rw [NewBlock.given, Bool.and_eq_true, Option.isSome_iff_exists] at given
  obtain ⟨⟨used, found⟩, node⟩ := given
  have place : Cut byData ⟨data, size, used, false⟩ below none beyond :=
    ⟨cut.less, cut.equal, cut.greater⟩
  refine ⟨used, ?_⟩
  have inserted := place.insert
  simp only [coarseRavlAddNew, found, cut.lookup, inserted, node]
  simp [address, positive]

/-- Nothing is changed if there is no memory for a new block. -/
theorem coarseRavlAddNew_refused (cut : Cut byData (atData data) below none beyond) (size : Nat)
    (address : data ≠ 0) (positive : size ≠ 0) {memory : NewBlock}
    (refused : memory.given = false) :
    coarseRavlAddNew (joined below none beyond) data size memory = some none := by
  -- There is none for the block, or for its node.
  rw [coarseRavlAddNew, cut.lookup]
  cases found : memory.block with
  | none => simp [address, positive]
  | some used =>
    rw [NewBlock.given, found, Option.isSome_some, Bool.true_and] at refused
    simp [address, positive, refused]

/-- No block may be empty. -/
theorem coarseRavlAddNew_empty (blocks : List Block) (data : Nat) (memory : NewBlock) :
    coarseRavlAddNew blocks data 0 memory = none := by
  simp [coarseRavlAddNew]

/-- The blocks are cut behind a block at an address that is in its inside. -/
theorem Layout.cut_inside (layout : Layout (before ++ block :: after)) (lower : block.data < data)
    (upper : data < block.data + block.size) :
    Cut byData (atData data) (before ++ [block]) none after := by
  -- What is in front ends before the block, and what is behind begins after it.
  obtain ⟨-, right, across⟩ := List.pairwise_append.mp layout.apart
  obtain ⟨behind, -⟩ := List.pairwise_cons.mp right
  refine ⟨fun other member => ?_, fun other none => ?_, fun other member => ?_⟩
  · apply coarseRavlComp_gt.mpr
    show other.data < data
    rcases List.mem_append.mp member with early | same
    · have ends := across other early block List.mem_cons_self
      have positive := layout.nonzero other (List.mem_append_left _ early)
      omega
    · rw [List.mem_singleton.mp same]
      exact lower
  · cases none
  · apply coarseRavlComp_lt.mpr
    have begins := behind other member
    show data < other.data
    omega

/-- What is in front of an offset of a free block. -/
def frontPart (block : Block) (offset : Nat) : Block := { block with used := false, size := offset }

/-- What is behind an offset of a block. -/
def backPart (block : Block) (offset : Nat) (used : Bool) : Block :=
  ⟨block.data + offset, block.size - offset, used, false⟩

/-- What is behind an offset of a block is put behind it. -/
theorem Layout.addNew_back (layout : Layout (before ++ block :: after)) {offset : Nat}
    (lower : 0 < offset) (upper : offset < block.size) {memory : NewBlock}
    (given : memory.given = true) :
    ∃ used, coarseRavlAddNew (before ++ block :: after) (block.data + offset) (block.size - offset)
        memory = some (some (before ++ block :: backPart block offset used :: after)) ∧
      Ascending byData (before ++ block :: backPart block offset used :: after) := by
  -- The blocks are cut behind the one that is split.
  have cut : Cut byData (atData (block.data + offset)) (before ++ [block]) none after :=
    layout.cut_inside (by omega) (by omega)
  obtain ⟨used, added⟩ := coarseRavlAddNew_given cut (block.size - offset) (by omega)
    (by omega) given
  have place : Cut byData (backPart block offset used) (before ++ [block]) none after :=
    ⟨cut.less, cut.equal, cut.greater⟩
  have inserted : Ascending byData (insert byData (backPart block offset used)
      (joined (before ++ [block]) none after)) := by
    apply ascending_insert
    have order := layout.ascending
    rwa [List.append_cons] at order
  refine ⟨used, ?_, ?_⟩
  · rw [List.append_cons]
    refine added.trans ?_
    rw [← List.append_cons]
    rfl
  · rwa [place.insert, ← List.append_cons] at inserted

/-- A free block that is taken out of the lists is pending. -/
theorem Consistent.take (consistent : Consistent provider) {rest : List Head} (lists : Lists rest)
    (moved : (entries provider.freeBlocks).Perm ((size, data) :: entries rest)) :
    ∃ before block after, provider.allBlocks = before ++ block :: after ∧ block.data = data ∧
      block.size = size ∧ block.used = false ∧
      Pending { provider with
        freeBlocks := rest, allBlocks := before ++ { block with listed := false } :: after }
        before { block with listed := false } after ∧
      ∀ other ∈ before ++ after,
        ¬Mergeable provider.upstreamBlocks false other { block with listed := false } ∧
        ¬Mergeable provider.upstreamBlocks false { block with listed := false } other := by
  -- An entry of the lists is a block that is listed, and thus free.
  have listed := consistent.listed
  have member : (size, data) ∈ listedEntries provider.allBlocks :=
    listed.mem_iff.mp (moved.mem_iff.mpr List.mem_cons_self)
  obtain ⟨block, inside, same⟩ := List.mem_map.mp member
  obtain ⟨inside, flag⟩ := List.mem_filter.mp inside
  obtain ⟨rfl, rfl⟩ := Prod.mk.inj same
  obtain ⟨before, after, place⟩ := List.append_of_mem inside
  have unused : block.used = false := by
    have flags := consistent.flags block inside
    rw [flag] at flags
    simpa using flags
  have positive := (consistent.blocks.nonzero block inside).2
  have others : ∀ other ∈ before ++ after, other ∈ provider.allBlocks := by
    intro other inside
    rw [place]
    rcases List.mem_append.mp inside with early | late
    · exact List.mem_append_left _ early
    · exact List.mem_append_right _ (List.mem_cons_of_mem _ late)
  have fills : ∀ flag, Fills Block.data Block.size [{ block with listed := flag }] block.data
      (block.data + block.size) := fun _ => ⟨rfl, positive, rfl⟩
  -- Only the flag of the block changes, so that its range is filled by itself.
  refine ⟨before, block, after, place, rfl, rfl, unused,
    ⟨?_, rfl, unused, rfl, ?_, ?_, ?_⟩, fun other member => ⟨?_, ?_⟩⟩
  · refine consistent.exchange _ place (List.cons_ne_nil block []) (fills block.listed)
      (fills false) (consistent.inside block inside) lists ?_
    -- What is left in the lists is what is listed for the others.
    rw [place, listedEntries_append, listedEntries_cons, flag] at listed
    have rests := (moved.symm.trans listed).trans List.perm_middle
    rw [listedEntries_append]
    exact rests.cons_inv
  · exact fun other member => consistent.flags other (others other member)
  · exact fun first member second also =>
      consistent.merged first (others first member) second (others second also)
  · have sum := consistent.usedSizes
    rw [place, List.filter_append, List.filter_cons_of_neg (by simp [unused])] at sum
    show total ((before ++ { block with listed := false } :: after).filter Block.used) = _
    rw [List.filter_append, List.filter_cons_of_neg (by simp [unused])]
    exact sum
  · -- It cannot be merged with any other, as all had been merged.
    exact fun mergeable => consistent.merged other (others other member) block inside
      ⟨mergeable.first, mergeable.second, mergeable.contiguous, mergeable.joint⟩
  · exact fun mergeable => consistent.merged block inside other (others other member)
      ⟨mergeable.first, mergeable.second, mergeable.contiguous, mergeable.joint⟩

/-- At most one block is left over, which is free and listed. -/
structure Leftover (parts : List Block) : Prop where
  single : ∀ first ∈ parts, ∀ second ∈ parts, first = second
  unused : ∀ part ∈ parts, part.used = false
  listed : ∀ part ∈ parts, part.listed = true

/-- Nothing is left over. -/
theorem leftover_nil : Leftover [] :=
  ⟨fun _ none => absurd none List.not_mem_nil, fun _ none => absurd none List.not_mem_nil,
    fun _ none => absurd none List.not_mem_nil⟩

/-- A single block is left over. -/
theorem leftover_singleton {part : Block} (unused : part.used = false)
    (listed : part.listed = true) : Leftover [part] := by
  refine ⟨fun first member second also => ?_, fun other member => ?_, fun other member => ?_⟩
  · rw [List.mem_singleton.mp member, List.mem_singleton.mp also]
  · rw [List.mem_singleton.mp member, unused]
  · rw [List.mem_singleton.mp member, listed]

/-- Of what a block has been cut into, only the part between what is left over is used. -/
theorem filter_parts {pads rests : List Block} {curr : Block} (leftPads : Leftover pads)
    (leftRests : Leftover rests) (used : curr.used = true) :
    (pads ++ curr :: rests).filter Block.used = [curr] := by
  -- Nothing of what is left over is used, in front of the part or behind it.
  have noneUsed : ∀ parts, Leftover parts → parts.filter Block.used = [] := by
    intro parts leftover
    rw [List.filter_eq_nil_iff]
    intro part member
    rw [leftover.unused part member]
    exact Bool.false_ne_true
  rw [List.filter_append, List.filter_cons_of_pos used, noneUsed pads leftPads,
    noneUsed rests leftRests, List.nil_append]

/-- The used blocks are those from before, and the one between what is left over. -/
theorem filter_used {pads rests : List Block} {curr : Block} (leftPads : Leftover pads)
    (leftRests : Leftover rests) (used : curr.used = true) (before after : List Block) :
    (before ++ ((pads ++ curr :: rests) ++ after)).filter Block.used =
      before.filter Block.used ++ curr :: after.filter Block.used := by
  rw [List.filter_append, List.filter_append, filter_parts leftPads leftRests used,
    List.singleton_append]

/-- What a free block has been cut into before it is used: what is in front of the first aligned
address, if that is not the address of the block, and what is behind. -/
structure Cutting (before : List Block) (block : Block) (after : List Block) (size : Nat)
    (pads : List Block) (curr : Block) (free : List Head) : Prop where
  fills : Fills Block.data Block.size (pads ++ [curr]) block.data (block.data + block.size)
  leftover : Leftover pads
  unlisted : curr.listed = false
  enough : size ≤ curr.size
  lists : Lists free
  listed : (entries free).Perm (listedEntries (before ++ (pads ++ curr :: after)))

/-- The last part of a block ends where the block does. -/
theorem Cutting.ends {pads : List Block} {curr : Block} {free : List Head}
    (cutting : Cutting before block after size pads curr free) :
    curr.data + curr.size = block.data + block.size := by
  obtain ⟨middle, -, begins, -, ends⟩ := fills_append.mp cutting.fills
  have last : middle + curr.size = block.data + block.size := ends
  rwa [← begins] at last

/-- A block that is not cut is the first part of itself. -/
theorem Pending.whole (pending : Pending provider before block after) (fits : size ≤ block.size) :
    Cutting before block after size [] block provider.freeBlocks := by
  have member : block ∈ provider.allBlocks :=
    pending.place ▸ List.mem_append_right _ List.mem_cons_self
  have positive := (pending.blocks.nonzero block member).2
  have listed := pending.listed
  -- There is nothing in front of the block.
  rw [pending.place] at listed
  exact ⟨⟨rfl, positive, rfl⟩, leftover_nil, pending.unlisted, fits, pending.lists, listed⟩

/-- Where what is allocated from a block begins. -/
def firstAligned (block : Block) (alignment : Nat) : Nat :=
  if alignment = 0 then block.data else alignUp block.data alignment

/-- The first aligned address is in a block that is not smaller than the alignment. -/
theorem firstAligned_spec (bits : Nat) (positive : 0 < block.size)
    (bound : block.data + block.size < sizeRange) (spaced : 2 ^ bits ≤ block.size)
    (address : 0 < block.data) :
    ∃ padding, firstAligned block (2 ^ bits) = block.data + padding ∧ padding < block.size ∧
      padding < 2 ^ bits ∧ 2 ^ bits ∣ block.data + padding ∧
      alignUp block.data (2 ^ bits) = block.data + padding ∧
      subWord (block.data + padding) block.data = padding ∧
      addWord block.data padding = block.data + padding ∧
      subWord block.size padding = block.size - padding := by
  -- The alignment is a word, as the block is one.
  have range : sizeRange = 2 ^ 64 := rfl
  have power := Nat.two_pow_pos bits
  have small : bits < 64 := by
    by_contra large
    have huge : 2 ^ 64 ≤ 2 ^ bits := Nat.pow_le_pow_right (by omega) (Nat.le_of_not_lt large)
    omega
  have room : block.data + 2 ^ bits ≤ sizeRange := by omega
  -- The next aligned address is less than an alignment away, and so in the block.
  obtain ⟨least, near, divides⟩ := alignUp_two_pow room small
  obtain ⟨padding, target⟩ := Nat.exists_eq_add_of_le least
  rw [target] at near divides
  have front : subWord (block.data + padding) block.data = padding := by
    rw [subWord_eq (by omega) (by omega), Nat.add_sub_cancel_left]
  refine ⟨padding, ?_, by omega, by omega, divides, target, front, addWord_eq (by omega),
    subWord_eq (by omega) (by omega)⟩
  rw [firstAligned, if_neg (Nat.ne_of_gt power), target]

/-- The part in front of the first aligned address is cut off, unless there is not enough behind
it. -/
theorem Pending.createAlignedBlock (pending : Pending provider before block after) (size : Nat)
    {bits : Nat} (spaced : 2 ^ bits ≤ block.size) {memory : AllocMemory}
    (given : memory.aligned.given = true)
    (givenFree : memory.padding.Given) :
    (block.data + block.size < firstAligned block (2 ^ bits) + size → size ≤ block.size →
      createAlignedBlock provider size (2 ^ bits) block memory = none) ∧
    (firstAligned block (2 ^ bits) + size ≤ block.data + block.size →
      ∃ pads curr free, createAlignedBlock provider size (2 ^ bits) block memory =
          some (some curr.data, { provider with
            allBlocks := before ++ (pads ++ curr :: after), freeBlocks := free }) ∧
        Cutting before block after size pads curr free ∧
        curr.data = firstAligned block (2 ^ bits) ∧ 2 ^ bits ∣ curr.data) := by
  -- The first aligned address is that of the block, or there is something in front of it.
  have layout := pending.blocks
  have member : block ∈ provider.allBlocks :=
    pending.place ▸ List.mem_append_right _ List.mem_cons_self
  obtain ⟨origin, home, lower, upper⟩ := pending.inside block member
  have limit := pending.bounded origin home
  obtain ⟨address, positive⟩ := pending.blocks.nonzero block member
  rw [pending.place] at layout
  obtain ⟨padding, begins, inside, -, divides, target, front, back, rest⟩ :=
    firstAligned_spec bits positive (by omega) spaced address
  -- Nothing has to be cut off if the block is aligned.
  by_cases zero : padding = 0
  · refine ⟨fun less enough => by omega, fun enough => ?_⟩
    refine ⟨[], block, provider.freeBlocks, ?_, pending.whole (by omega), by omega, ?_⟩
    · rw [Coarse.createAlignedBlock, target, front, zero, List.nil_append, ← pending.place]
      simp
    · rw [zero] at divides
      exact divides
  · have power := Nat.two_pow_pos bits
    obtain ⟨used, added, order⟩ := layout.addNew_back (Nat.pos_of_ne_zero zero) inside given
    rw [← pending.place] at added
    -- What is in front of the address is listed.
    have shrunk := setBlock_at order fun block => { block with used := false, size := padding }
    have listed := pending.listed
    rw [pending.place] at listed
    obtain ⟨free, padded, lists, more⟩ := listBlock_at { provider with
        allBlocks := before ++ frontPart block padding :: backPart block padding used :: after }
      (ascending_change order (frontPart block padding) rfl) pending.lists rfl givenFree
    rw [frontPart] at padded more
    -- The code fails an assertion if the rest is smaller than the size.
    have cut : Coarse.createAlignedBlock provider size (2 ^ bits) block memory =
        if size ≤ block.size - padding then
          some (some (block.data + padding), { provider with
            allBlocks := before ++
              (⟨block.data, padding, false, true⟩ :: backPart block padding used :: after)
            freeBlocks := free })
        else none := by
      rw [Coarse.createAlignedBlock, target, front, back, rest, added]
      simp only [shrunk, padded]
      simp [power, Nat.pos_of_ne_zero zero]
    -- The rest has room or not.
    refine ⟨fun less enough => ?_, fun enough => ?_⟩
    · rw [cut, if_neg (by omega)]
    · have sum : block.data + padding + (block.size - padding) = block.data + block.size := by omega
      refine ⟨[⟨block.data, padding, false, true⟩], backPart block padding used, free, ?_,
        ⟨⟨rfl, Nat.pos_of_ne_zero zero, rfl, Nat.sub_pos_of_lt inside, sum⟩,
          leftover_singleton rfl rfl, rfl, ?_, lists, ?_⟩, begins.symm, divides⟩
      · rw [cut, if_pos (by omega)]
        rfl
      · show size ≤ block.size - padding
        omega
      · refine more.trans ((listed.cons _).trans ?_)
        rw [listedEntries_append, listedEntries_cons, pending.unlisted, List.singleton_append,
          listedEntries_append, listedEntries_cons, listedEntries_cons]
        exact List.perm_middle.symm

/-- A used part of a free block leaves all as it has to be, as what is left over is listed. -/
theorem Pending.use (pending : Pending provider before block after)
    (apart : ∀ other ∈ before ++ after, ¬Mergeable provider.upstreamBlocks false other block ∧
      ¬Mergeable provider.upstreamBlocks false block other) {pads rests : List Block}
    {curr : Block} {free : List Head}
    (fills : Fills Block.data Block.size (pads ++ curr :: rests) block.data
      (block.data + block.size))
    (leftPads : Leftover pads) (leftRests : Leftover rests) (used : curr.used = true)
    (unlisted : curr.listed = false) (lists : Lists free)
    (listed : (entries free).Perm (listedEntries (before ++ ((pads ++ curr :: rests) ++ after)))) :
    provider.usedSize + curr.size < sizeRange ∧ Consistent { provider with
      allBlocks := before ++ ((pads ++ curr :: rests) ++ after)
      freeBlocks := free
      usedSize := provider.usedSize + curr.size } := by
  have positive := fills.positive
  -- The parts lie one behind the other, with the used one between.
  obtain ⟨-, right, across⟩ := List.pairwise_append.mp fills.apart
  obtain ⟨behind, -⟩ := List.pairwise_cons.mp right
  have size := positive curr (List.mem_append_right _ List.mem_cons_self)
  -- A part is the one that is used, or one of those that are left over.
  have split : ∀ part ∈ pads ++ curr :: rests, part ∈ pads ∨ part = curr ∨ part ∈ rests := by
    intro part member
    rcases List.mem_append.mp member with early | late
    · exact Or.inl early
    · exact Or.inr (List.mem_cons.mp late)
  have sum := pending.usedSizes
  rw [pending.place, List.filter_append, List.filter_cons_of_neg (by simp [pending.unused]),
    total_append] at sum
  -- The parts take the place of the block.
  have consistent : Consistent { provider with
      allBlocks := before ++ ((pads ++ curr :: rests) ++ after)
      freeBlocks := free
      usedSize := provider.usedSize + curr.size } := by
    refine pending.parts apart fills ?_ ?_ lists listed ?_
    · -- What is left over is listed, and what is used is not.
      intro part member
      rcases split part member with pad | rfl | rest
      · rw [leftPads.listed part pad, leftPads.unused part pad]
        rfl
      · rw [used, unlisted]
        rfl
      · rw [leftRests.listed part rest, leftRests.unused part rest]
        rfl
    · -- The used part is between the others.
      intro first member second also mergeable
      have contiguous := mergeable.contiguous
      have lower := positive first member
      rcases split first member with pad | rfl | rest
      · have ends := across first pad curr List.mem_cons_self
        rcases split second also with pad' | rfl | rest
        · rw [leftPads.single first pad second pad'] at contiguous lower
          omega
        · exact absurd (mergeable.second.symm.trans used) Bool.false_ne_true
        · have begins := behind second rest
          omega
      · exact absurd (mergeable.first.symm.trans used) Bool.false_ne_true
      · have begins := behind first rest
        rcases split second also with pad | rfl | rest'
        · have ends := across second pad curr List.mem_cons_self
          omega
        · exact absurd (mergeable.second.symm.trans used) Bool.false_ne_true
        · rw [leftRests.single first rest second rest'] at contiguous lower
          omega
    · -- The used size grows by that of the part.
      rw [filter_used leftPads leftRests used, total_append, total_cons]
      omega
  exact ⟨Nat.lt_of_le_of_lt consistent.usedSize_le consistent.allocSize_lt, consistent⟩

/-- What is behind a size of a block, as a free block that is listed. -/
def restPart (block : Block) (size : Nat) : Block :=
  ⟨block.data + size, block.size - size, false, true⟩

/-- What is used of a block. -/
def usedPart (block : Block) (size : Nat) : Block := { block with size := size, used := true }

/-- What is behind a size of a block is put behind it as a free block, and listed. -/
theorem splitCurrentBlock_spec (provider : Provider) (layout : Layout (before ++ block :: after))
    (place : provider.allBlocks = before ++ block :: after) (lists : Lists provider.freeBlocks)
    (lower : 0 < size) (upper : size < block.size) {memory : AllocMemory}
    (given : memory.rest.given = true) (givenFree : memory.restFree.Given) :
    ∃ free, splitCurrentBlock provider block.data size memory = some (true, { provider with
        allBlocks := before ++ block :: restPart block size :: after
        freeBlocks := free }) ∧ Lists free ∧
      (entries free).Perm
        ((block.size - size, block.data + size) :: entries provider.freeBlocks) ∧
      Ascending byData
        (before ++ block :: restPart block size :: after) := by
  -- The size is that of the block.
  have length : blockSize provider.allBlocks block.data = block.size := by
    rw [blockSize, place, lookup_at layout.ascending]
    rfl
  obtain ⟨used, added, order⟩ := layout.addNew_back lower upper given
  rw [← place] at added
  rw [List.append_cons] at order
  -- The new block is marked as free.
  have unset : setBlock (block.data + size) (fun block => { block with used := false })
      (before ++ block :: backPart block size used :: after) =
        (before ++ [block]) ++ backPart block size false :: after := by
    rw [List.append_cons]
    exact setBlock_at order _
  have order := ascending_change order (backPart block size false) rfl
  -- The new block is listed, with the size of what is behind.
  obtain ⟨free, listed, lists, more⟩ := listBlock_at { provider with
    allBlocks := (before ++ [block]) ++ backPart block size false :: after } order lists rfl
    givenFree
  have order := ascending_change order (restPart block size) rfl
  rw [← List.append_cons] at order
  refine ⟨free, ?_, lists, more, order⟩
  simp only [splitCurrentBlock, length, added, unset]
  rw [List.append_cons before block (restPart block size :: after)]
  exact congrArg some listed

/-- The allocator has memory for all that is needed to allocate from a free block. -/
structure AllocMemory.Given (memory : AllocMemory) : Prop where
  aligned : memory.aligned.given = true
  padding : memory.padding.Given
  rest : memory.rest.given = true
  restFree : memory.restFree.Given

/-- An alignment is a power of two, if there is one. -/
def ValidAlignment (alignment : Nat) : Prop := alignment = 0 ∨ ∃ bits, alignment = 2 ^ bits

/-- A block is not smaller than an alignment, if there is one. -/
def Spaced (alignment : Nat) (block : Block) : Prop := alignment ≤ 1 ∨ alignment ≤ block.size

/-- A block has room for a size at the first aligned address; unless that is its own address,
something is left over behind. -/
def Roomy (size alignment : Nat) (block : Block) : Prop :=
  firstAligned block alignment = block.data ∨
    firstAligned block alignment + size < block.data + block.size

/-- A free block that is large enough is cut at the first aligned address, unless there is not
enough behind it. -/
theorem Pending.cut (pending : Pending provider before block after)
    (valid : ValidAlignment alignment) (fits : size ≤ block.size) (spaced : Spaced alignment block)
    {memory : AllocMemory} (given : memory.Given) :
    (block.data + block.size < firstAligned block alignment + size ∧ (if 0 < alignment then
          Coarse.createAlignedBlock provider size alignment block memory
        else some (some block.data, provider)) = none) ∨
      ∃ pads curr free, (if 0 < alignment then
          Coarse.createAlignedBlock provider size alignment block memory
        else some (some block.data, provider)) = some (some curr.data, { provider with
          allBlocks := before ++ (pads ++ curr :: after), freeBlocks := free }) ∧
      Cutting before block after size pads curr free ∧
      curr.data = firstAligned block alignment ∧ isAligned curr.data alignment = true := by
  have member : block ∈ provider.allBlocks :=
    pending.place ▸ List.mem_append_right _ List.mem_cons_self
  have positive := (pending.blocks.nonzero block member).2
  -- Without an alignment the block is used as it is.
  rcases valid with rfl | ⟨bits, rfl⟩
  · refine Or.inr ⟨[], block, provider.freeBlocks, ?_, pending.whole fits, rfl,
      isAligned_of_le_one (Nat.zero_le 1)⟩
    rw [if_neg (Nat.lt_irrefl 0), List.nil_append, ← pending.place]
  · -- With one it is cut, if there is room.
    have large : 2 ^ bits ≤ block.size := by
      rcases spaced with none | large <;> omega
    rw [if_pos (Nat.two_pow_pos bits)]
    have created := pending.createAlignedBlock size large given.aligned given.padding
    by_cases enough : firstAligned block (2 ^ bits) + size ≤ block.data + block.size
    · obtain ⟨pads, curr, free, created, cutting, begins, divides⟩ := created.2 enough
      exact Or.inr ⟨pads, curr, free, created, cutting, begins,
        (isAligned_two_pow bits).mpr divides⟩
    · have less := Nat.lt_of_not_le enough
      exact Or.inl ⟨less, created.1 less fits⟩

/-- A block is used if all is as it has to be then. -/
theorem useBlock_spec (provider : Provider) (order : Ascending byData (before ++ block :: after))
    (place : provider.allBlocks = before ++ block :: after)
    (bound : provider.usedSize + size < sizeRange) (consistent : Consistent { provider with
      allBlocks := before ++ { block with used := true } :: after
      usedSize := provider.usedSize + size }) :
    useBlock provider block.data size = some (.success, block.data, { provider with
      allBlocks := before ++ { block with used := true } :: after
      usedSize := provider.usedSize + size }) := by
  -- The block is marked as used, and the check passes.
  have used := setBlock_at order fun block => { block with used := true }
  rw [← place] at used
  rw [useBlock, addWord_eq bound, used]
  exact if_pos consistent.debugCheck

/-- What becomes of the used blocks when a free block is used, or a part of it. -/
structure Taken (provider : Provider) (before after : List Block) (size alignment : Nat)
    (data : Nat) (changed : Provider) : Prop extends Consistent changed where
  config : changed.config = provider.config
  aligned : isAligned data alignment = true
  inUse : ∃ curr : Block, curr.data = data ∧ curr.size = size ∧ curr.used = true ∧
    changed.allBlocks.filter Block.used =
      before.filter Block.used ++ curr :: after.filter Block.used

/-- What is behind the size is cut off and listed, and the block is used. -/
theorem Pending.useSplit (pending : Pending provider before block after)
    (apart : ∀ other ∈ before ++ after, ¬Mergeable provider.upstreamBlocks false other block ∧
      ¬Mergeable provider.upstreamBlocks false block other) {pads : List Block} {curr : Block}
    {free : List Head} (cutting : Cutting before block after size pads curr free)
    (cut : Layout ((before ++ pads) ++ curr :: after)) (positive : 0 < size)
    (larger : size < curr.size) (aligned : isAligned curr.data alignment = true)
    {memory : AllocMemory} (given : memory.Given) :
    ∃ rest changed, splitCurrentBlock { provider with
          allBlocks := (before ++ pads) ++ curr :: after, freeBlocks := free } curr.data size
          memory = some (true, rest) ∧
      useBlock { rest with
          allBlocks :=
            setBlock curr.data (fun block => { block with size := size }) rest.allBlocks }
        curr.data size =
        some (.success, curr.data, changed) ∧
      Taken provider before after size alignment curr.data changed ∧
      changed.upstreamBlocks = provider.upstreamBlocks := by
  -- The part that is used ends where the size does.
  obtain ⟨middle, front, begins, -, ends⟩ := fills_append.mp cutting.fills
  obtain ⟨rest, split, lists, moved, order⟩ := splitCurrentBlock_spec { provider with
    allBlocks := (before ++ pads) ++ curr :: after, freeBlocks := free } cut rfl cutting.lists
    positive larger given.rest given.restFree
  have shrunk := setBlock_at order fun block => { block with size := size }
  have order := ascending_change order { curr with size := size } rfl
  -- The parts of the block are what is in front, what is used, and what is behind.
  have fills : Fills Block.data Block.size (pads ++ usedPart curr size :: [restPart curr size])
      block.data (block.data + block.size) := by
    have total : middle + curr.size = block.data + block.size := ends
    refine fills_append.mpr ⟨middle, front, begins, positive, ?_, Nat.sub_pos_of_lt larger, ?_⟩
    · show curr.data + size = middle + size
      rw [begins]
    · show middle + size + (curr.size - size) = block.data + block.size
      omega
  have left : Leftover [restPart curr size] := leftover_singleton rfl rfl
  have place : before ++ ((pads ++ usedPart curr size :: [restPart curr size]) ++ after) =
      (before ++ pads) ++ usedPart curr size :: restPart curr size :: after := by
    simp
  -- What is listed are the rest and what was listed before.
  have listed : (entries rest).Perm (listedEntries
      (before ++ ((pads ++ usedPart curr size :: [restPart curr size]) ++ after))) := by
    have earlier := cutting.listed
    rw [← List.append_assoc, listedEntries_append, listedEntries_cons, cutting.unlisted] at earlier
    rw [place, listedEntries_append, listedEntries_cons, listedEntries_cons]
    refine moved.trans ((earlier.cons _).trans ?_)
    simp only [usedPart, cutting.unlisted]
    exact List.perm_middle.symm
  -- All is as it has to be with the three parts.
  obtain ⟨bound, consistent⟩ := pending.use apart fills cutting.leftover left rfl cutting.unlisted
    lists listed
  have inUse : (usedPart curr size).used = true := rfl
  have used := filter_used cutting.leftover left inUse before after
  rw [place] at consistent used
  refine ⟨_, _, split, ?_, ⟨consistent, rfl, aligned, usedPart curr size, rfl, rfl, rfl, used⟩, rfl⟩
  simp only [shrunk]
  exact useBlock_spec { provider with
    allBlocks := (before ++ pads) ++ { curr with size := size } :: restPart curr size :: after
    freeBlocks := rest } order rfl bound consistent

/-- A block that is not larger is used as a whole. -/
theorem Pending.useWhole (pending : Pending provider before block after)
    (apart : ∀ other ∈ before ++ after, ¬Mergeable provider.upstreamBlocks false other block ∧
      ¬Mergeable provider.upstreamBlocks false block other) {pads : List Block} {curr : Block}
    {free : List Head} (cutting : Cutting before block after size pads curr free)
    (cut : Layout ((before ++ pads) ++ curr :: after)) (same : curr.size = size)
    (aligned : isAligned curr.data alignment = true) :
    ∃ changed, useBlock { provider with
          allBlocks := (before ++ pads) ++ curr :: after, freeBlocks := free } curr.data size =
        some (.success, curr.data, changed) ∧
      Taken provider before after size alignment curr.data changed ∧
      changed.upstreamBlocks = provider.upstreamBlocks := by
  -- There is nothing behind what is used.
  have place : before ++ ((pads ++ usedPart curr size :: []) ++ after) =
      (before ++ pads) ++ usedPart curr size :: after := by
    simp
  have part : usedPart curr size = { curr with used := true } := by
    rw [usedPart, ← same]
  have listed : (entries free).Perm (listedEntries
      (before ++ ((pads ++ usedPart curr size :: []) ++ after))) := by
    have earlier := cutting.listed
    rw [← List.append_assoc, listedEntries_append, listedEntries_cons, cutting.unlisted] at earlier
    rw [place, listedEntries_append, listedEntries_cons]
    simp only [usedPart, cutting.unlisted]
    exact earlier
  have fills : Fills Block.data Block.size (pads ++ usedPart curr size :: []) block.data
      (block.data + block.size) := by
    obtain ⟨middle, front, back⟩ := fills_append.mp cutting.fills
    rw [part]
    exact fills_append.mpr ⟨middle, front, back⟩
  -- All is as it has to be with the two parts.
  obtain ⟨bound, consistent⟩ := pending.use apart fills cutting.leftover leftover_nil rfl
    cutting.unlisted cutting.lists listed
  have inUse : (usedPart curr size).used = true := rfl
  have used := filter_used cutting.leftover leftover_nil inUse before after
  rw [place] at consistent used
  refine ⟨_, ?_, ⟨consistent, rfl, aligned, usedPart curr size, rfl, rfl, rfl, used⟩, rfl⟩
  rw [part] at bound consistent ⊢
  rw [← same]
  exact useBlock_spec { provider with
    allBlocks := (before ++ pads) ++ curr :: after, freeBlocks := free } cut.ascending rfl bound
    consistent

/-- A free block that is large enough is used, or the part of it that is aligned, if there is room
for it; otherwise an assertion fails. -/
theorem Pending.allocFrom (pending : Pending provider before block after)
    (apart : ∀ other ∈ before ++ after, ¬Mergeable provider.upstreamBlocks false other block ∧
      ¬Mergeable provider.upstreamBlocks false block other)
    (valid : ValidAlignment alignment) (positive : 0 < size) (fits : size ≤ block.size)
    (spaced : Spaced alignment block) {memory : AllocMemory} (given : memory.Given) :
    (¬Roomy size alignment block ∧ allocFrom provider block size alignment memory = none) ∨
    (Roomy size alignment block ∧
      ∃ data changed, allocFrom provider block size alignment memory =
          some (.success, data, changed) ∧
        Taken provider before after size alignment data changed ∧
        changed.upstreamBlocks = provider.upstreamBlocks) := by
  have member : block ∈ provider.allBlocks :=
    pending.place ▸ List.mem_append_right _ List.mem_cons_self
  -- The block is cut at its first aligned address, or an assertion fails there.
  rw [Coarse.allocFrom, if_neg (by simp [pending.unused])]
  rcases pending.cut valid fits spaced given with
    ⟨less, failed⟩ | ⟨pads, curr, free, created, cutting, begins, aligned⟩
  · refine Or.inl ⟨?_, by rw [failed]⟩
    rintro (same | room) <;> omega
  · have layout := pending.blocks
    have whole : Fills Block.data Block.size [block] block.data (block.data + block.size) :=
      ⟨rfl, (pending.blocks.nonzero block member).2, rfl⟩
    rw [pending.place] at layout
    have cut : Layout ((before ++ pads) ++ curr :: after) := by
      have cut := layout.exchange whole cutting.fills (List.cons_ne_nil block [])
      rwa [List.append_assoc, List.singleton_append, ← List.append_assoc] at cut
    have ends := cutting.ends
    have enough := cutting.enough
    rw [← List.append_assoc] at created
    rw [created]
    -- What is behind the size is cut off, if the block was larger.
    by_cases more : size < block.size
    · by_cases larger : size < curr.size
      · obtain ⟨rest, changed, split, use, taken⟩ :=
          pending.useSplit apart cutting cut positive larger aligned given
        refine Or.inr ⟨?_, curr.data, changed, ?_, taken⟩
        · exact Or.inr (by omega)
        · simp only [if_pos more, split, use]
      · -- There is nothing behind what is needed, but a block is made for it.
        refine Or.inl ⟨?_, ?_⟩
        · rintro (same | room) <;> omega
        · have split : splitCurrentBlock { provider with
              allBlocks := (before ++ pads) ++ curr :: after, freeBlocks := free } curr.data size
              memory = none := by
            have length : blockSize ((before ++ pads) ++ curr :: after) curr.data = curr.size := by
              rw [blockSize, lookup_at cut.ascending]
              rfl
            have empty : curr.size - size = 0 := by omega
            simp only [splitCurrentBlock, length, empty, coarseRavlAddNew_empty]
          simp only [if_pos more, split]
    · -- Nothing is cut off at either end.
      have same : curr.size = size := by
        have sum := cutting.fills.sum
        rw [List.map_append, List.sum_append, List.map_singleton, List.sum_singleton] at sum
        omega
      obtain ⟨changed, use, taken⟩ := pending.useWhole apart cutting cut same aligned
      refine Or.inr ⟨Or.inl (by omega), curr.data, changed, ?_, taken⟩
      simp only [if_neg more, use]

end SecretTyping.Umf.Coarse
