import SecretTyping.Umf.CoarseHeap

/-! What each operation of the provider makes of the regions that are in use. -/

namespace SecretTyping.Umf.Coarse

open Sorted Segments Regions

variable {provider changed : Provider} {before after old new blocks : List Block}
  {block a b : Block}
  {free rest : List Head} {data size alignment : Nat}

section FindFreeBlock

variable {strategy : Strategy}

/-- A free block is looked for by its size and alignment first, unless that takes too long. -/
theorem findFreeBlock_cases (blocks : List Block) (free : List Head) (size alignment : Nat)
    (strategy : Strategy) (bound : size + alignment < sizeRange) :
    findFreeBlock blocks free size alignment strategy =
        freeBlocksRmGe blocks free (size + alignment) 0 .onlyTheFirstBlock ∨
      strategy ≠ .fastest ∧ ∃ check, findFreeBlock blocks free size alignment strategy =
        match freeBlocksRmGe blocks free size alignment check with
        | (some block, freeBlocks) => (some block, freeBlocks)
        | (none, freeBlocks) =>
          freeBlocksRmGe blocks freeBlocks (size + alignment) 0 .onlyTheFirstBlock := by
  -- The sum of the sizes is a word.
  have sum := (Nat.mod_eq_of_lt bound).symm
  cases strategy with
  | fastest =>
    rw [sum]
    exact Or.inl rfl
  | fastestButOne =>
    rw [sum]
    exact Or.inr ⟨by decide, .onlyTheFirstBlock, rfl⟩
  | checkAllSize =>
    rw [sum]
    exact Or.inr ⟨by decide, .allBlocksOfSize, rfl⟩

/-- A free block that is found is large enough; its size is aligned, or it has room for each
address. -/
theorem findFreeBlock_some (lists : Lists free) (bound : size + alignment < sizeRange)
    (found : findFreeBlock blocks free size alignment strategy = (some data, rest)) :
    Lists rest ∧ ∃ length, (entries free).Perm ((length, data) :: entries rest) ∧
      size ≤ length ∧ (size + alignment ≤ length ∨
        strategy ≠ .fastest ∧ isAligned (blockSize blocks data) alignment = true) := by
  -- A block that is large enough for each alignment is taken without a look at it.
  have large : freeBlocksRmGe blocks free (size + alignment) 0 .onlyTheFirstBlock =
      (some data, rest) → Lists rest ∧ ∃ length,
        (entries free).Perm ((length, data) :: entries rest) ∧ size ≤ length ∧
        (size + alignment ≤ length ∨
          strategy ≠ .fastest ∧ isAligned (blockSize blocks data) alignment = true) := by
    intro taken
    obtain ⟨lists, length, moved, enough, -, -⟩ := freeBlocksRmGe_some lists taken
    exact ⟨lists, length, moved, by omega, Or.inl enough⟩
  rcases findFreeBlock_cases blocks free size alignment strategy bound with
    fastest | ⟨other, check, first⟩
  · exact large (fastest.symm.trans found)
  · -- Otherwise the first search has found one, or the second one has.
    rw [first] at found
    split at found
    · next taken =>
      cases found
      obtain ⟨lists, length, moved, enough, -, aligned⟩ := freeBlocksRmGe_some lists taken
      exact ⟨lists, length, moved, enough, Or.inr ⟨other, aligned⟩⟩
    · next kept =>
      obtain ⟨rfl, -⟩ := freeBlocksRmGe_none lists kept
      exact large found

/-- If no free block is found, none has the size and the alignment together. -/
theorem findFreeBlock_none (lists : Lists free) (bound : size + alignment < sizeRange)
    (missing : findFreeBlock blocks free size alignment strategy = (none, rest)) :
    rest = free ∧ ∀ entry ∈ entries free, entry.1 < size + alignment := by
  -- The second search has no alignment, so that it only misses what is not there.
  have small : freeBlocksRmGe blocks free (size + alignment) 0 .onlyTheFirstBlock = (none, rest) →
      rest = free ∧ ∀ entry ∈ entries free, entry.1 < size + alignment := by
    intro kept
    obtain ⟨same, small⟩ := freeBlocksRmGe_none lists kept
    exact ⟨same, small rfl⟩
  rcases findFreeBlock_cases blocks free size alignment strategy bound with
    fastest | ⟨other, check, first⟩
  · exact small (fastest.symm.trans missing)
  · rw [first] at missing
    split at missing
    · cases missing
    · next kept =>
      obtain ⟨rfl, -⟩ := freeBlocksRmGe_none lists kept
      exact small missing

end FindFreeBlock

/-- What may be asked for, and be answered, when a block is allocated. -/
structure ValidAlloc (provider : Provider) (size alignment : Nat) (memory : AllocMemory) :
    Prop where
  positive : 0 < size
  bounded : size + alignment < sizeRange
  valid : ValidAlignment alignment
  given : memory.Given
  /-- The upstream provider answers with memory that it has not given away before, or with none. -/
  upstream : memory.ptr ≠ 0 →
    Fresh provider.upstreamBlocks memory.ptr size ∧ isAligned memory.ptr alignment = true

/-- The block that is found is large enough, but there is no room for the size behind its first
aligned address. -/
def Misfit (provider : Provider) (size alignment : Nat) : Prop :=
  ∃ block ∈ provider.allBlocks, ¬Roomy size alignment block ∧
    (findFreeBlock provider.allBlocks provider.freeBlocks size alignment
      provider.allocationStrategy).1 = some block.data

/-- A block that is found has room for what is asked for. -/
structure LegalAlloc (provider : Provider) (size alignment : Nat) (memory : AllocMemory) :
    Prop extends ValidAlloc provider size alignment memory where
  fits : ¬Misfit provider size alignment

/-- No free block has a size and an alignment together. -/
def Exhausted (provider : Provider) (size alignment : Nat) : Prop :=
  ∀ block ∈ provider.allBlocks, block.used = false → block.size < size + alignment

/-- The upstream provider gives memory for an allocation. -/
def Granted (provider : Provider) (memory : AllocMemory) : Prop :=
  provider.upstreamMemoryProvider = true ∧ memory.ptr ≠ 0

/-- A block is allocated from the upstream provider, or nothing is changed. -/
theorem Consistent.allocUpstream_spec (consistent : Consistent provider) {memory : AllocMemory}
    (valid : ValidAlloc provider size alignment memory) :
    (∃ changed before after, allocUpstream provider size alignment memory =
        some (.success, memory.ptr, changed) ∧
      Taken provider before after size alignment memory.ptr changed ∧
      provider.allBlocks = before ++ after ∧
      Extended provider.upstreamBlocks changed.upstreamBlocks memory.ptr size ∧
      memory.upstream.given = true) ∨
    ∃ data, allocUpstream provider size alignment memory =
      some (.outOfHostMemory, data, provider) ∧ (data ≠ 0 ↔ Granted provider memory) ∧
      (Granted provider memory → memory.upstream.given = false) := by
  -- The upstream provider is asked, if there is one.
  rw [allocUpstream]
  split
  · next refused =>
    have denied : ¬Granted provider memory := by
      rintro ⟨given, address⟩
      simp [given, address] at refused
    refine Or.inr ⟨0, by simp only [consistent.debugCheck, if_true], ?_, fun granted => ?_⟩
    · exact ⟨absurd rfl, fun granted => absurd granted denied⟩
    · exact absurd granted denied
  · next asked =>
    simp only [Bool.or_eq_true, Bool.not_eq_true', decide_eq_true_eq, not_or] at asked
    obtain ⟨fresh, aligned⟩ := valid.upstream asked.2
    rw [aligned, Bool.not_true, if_neg Bool.false_ne_true]
    -- Its memory becomes an upstream block, or is lost if there is no memory for that.
    rcases consistent.addUpstream fresh memory.upstream with
      ⟨changed, before, after, added, whole, config, place, used, extended, given⟩ |
      ⟨refused, missing⟩
    · refine Or.inl ⟨changed, before, after, ?_, ⟨whole, config, aligned, _, rfl, rfl, rfl, used⟩,
        place, extended, given⟩
      simp only [added, whole.debugCheck, if_true]
    · rw [Bool.not_eq_false] at asked
      refine Or.inr ⟨memory.ptr, ?_, ⟨fun _ => asked, fun _ => asked.2⟩, fun _ => missing⟩
      simp only [refused, consistent.debugCheck, if_true]

/-- What an allocation makes of a provider: a block is allocated from a free one that is large
enough, or from the upstream provider if there is none, or nothing is changed. -/
def Allocated (provider : Provider) (size alignment : Nat) (memory : AllocMemory) : Prop :=
  (∃ data changed before after, alloc provider size alignment memory =
      some (.success, data, changed) ∧
    Taken provider before after size alignment data changed ∧
    provider.allBlocks.filter Block.used =
      before.filter Block.used ++ after.filter Block.used ∧
    (changed.upstreamBlocks = provider.upstreamBlocks ∨
      Exhausted provider size alignment ∧ data = memory.ptr ∧ memory.upstream.given = true ∧
        Extended provider.upstreamBlocks changed.upstreamBlocks data size)) ∨
  ∃ data, alloc provider size alignment memory = some (.outOfHostMemory, data, provider) ∧
    Exhausted provider size alignment ∧ (data ≠ 0 ↔ Granted provider memory) ∧
    (Granted provider memory → memory.upstream.given = false)

/-- A block whose size is aligned, or that is larger by the alignment, is not smaller than it. -/
theorem spaced_of_found (valid : ValidAlignment alignment) (positive : 0 < block.size)
    (found : size + alignment ≤ block.size ∨ isAligned block.size alignment = true) :
    Spaced alignment block := by
  -- An aligned size is a multiple of the alignment, and not zero.
  rcases valid with rfl | ⟨bits, rfl⟩
  · exact Or.inl (Nat.zero_le 1)
  · rcases found with large | aligned
    · exact Or.inr (by omega)
    · exact Or.inr (Nat.le_of_dvd positive ((isAligned_two_pow bits).mp aligned))

/-- Blocks that begin at the same address are the same. -/
theorem Layout.eq_of_data {blocks : List Block} (layout : Layout blocks) (first : a ∈ blocks)
    (second : b ∈ blocks) (same : a.data = b.data) : a = b := by
  have sizeFirst := (layout.nonzero a first).2
  have sizeSecond := (layout.nonzero b second).2
  exact layout.eq_of_common a.data first second (by omega) (by omega)

/-- The block that is found is a free one, and is taken out of the lists. -/
theorem Consistent.found (consistent : Consistent provider) (bound : size + alignment < sizeRange)
    (found : findFreeBlock provider.allBlocks provider.freeBlocks size alignment
      provider.allocationStrategy = (some data, rest)) :
    ∃ before block after, provider.allBlocks = before ++ block :: after ∧ block.data = data ∧
      size ≤ block.size ∧ (size + alignment ≤ block.size ∨
        provider.allocationStrategy ≠ .fastest ∧ isAligned block.size alignment = true) ∧
      block.used = false ∧
      Pending { provider with
        freeBlocks := rest, allBlocks := before ++ { block with listed := false } :: after }
        before { block with listed := false } after ∧
      ∀ other ∈ before ++ after,
        ¬Mergeable provider.upstreamBlocks false other { block with listed := false } ∧
        ¬Mergeable provider.upstreamBlocks false { block with listed := false } other := by
  -- What is taken out of the lists is a block that is listed.
  obtain ⟨lists, length, moved, enough, way⟩ := findFreeBlock_some consistent.lists bound found
  obtain ⟨before, block, after, place, rfl, rfl, unused, pending, apart⟩ :=
    consistent.take lists moved
  have order := consistent.blocks.ascending
  rw [place] at order
  have length : blockSize provider.allBlocks block.data = block.size := by
    rw [blockSize, place, lookup_at order]
    rfl
  rw [length] at way
  exact ⟨before, block, after, place, rfl, enough, way, unused, pending, apart⟩

/-- An allocation fails an assertion exactly if the block that is found is a misfit. -/
theorem Consistent.alloc_cases (consistent : Consistent provider) {memory : AllocMemory}
    (valid : ValidAlloc provider size alignment memory) :
    (Misfit provider size alignment ∧ alloc provider size alignment memory = none) ∨
      (¬Misfit provider size alignment ∧ Allocated provider size alignment memory) := by
  -- The cases are those of what is found.
  rw [Allocated, alloc, consistent.debugCheck, Bool.not_true, if_neg Bool.false_ne_true]
  cases found : findFreeBlock provider.allBlocks provider.freeBlocks size alignment
      provider.allocationStrategy with
  | mk block rest =>
    cases block with
    | none =>
      -- Nothing is found, so that no free block is large enough, and the upstream provider is
      -- asked.
      obtain ⟨rfl, small⟩ := findFreeBlock_none consistent.lists valid.bounded found
      have exhausted : Exhausted provider size alignment := by
        intro block member unused
        have flags := consistent.flags block member
        rw [unused] at flags
        exact small (block.size, block.data) (consistent.listed.mem_iff.mpr
          (List.mem_map.mpr ⟨block, List.mem_filter.mpr ⟨member, flags⟩, rfl⟩))
      refine Or.inr ⟨?_, ?_⟩
      · rintro ⟨block, -, -, same⟩
        rw [found] at same
        cases same
      · rcases consistent.allocUpstream_spec valid with
          ⟨changed, before, after, added, taken, place, extended, given⟩ |
          ⟨data, refused, granted, missing⟩
        · refine Or.inl ⟨memory.ptr, changed, before, after, added, taken, ?_,
            Or.inr ⟨exhausted, rfl, given, extended⟩⟩
          rw [place, List.filter_append]
        · exact Or.inr ⟨data, refused, exhausted, granted, missing⟩
    | some data =>
      -- A block is found, and becomes the one in use.
      obtain ⟨lists, length, moved, enough, way⟩ :=
        findFreeBlock_some consistent.lists valid.bounded found
      obtain ⟨before, block, after, place, rfl, rfl, unused, pending, apart⟩ :=
        consistent.take lists moved
      have order := consistent.blocks.ascending
      have member : block ∈ provider.allBlocks :=
        place ▸ List.mem_append_right _ List.mem_cons_self
      rw [place] at order
      have size : blockSize provider.allBlocks block.data = block.size := by
        rw [blockSize, place, lookup_at order]
        rfl
      rw [size] at way
      have spaced := spaced_of_found valid.valid (consistent.blocks.nonzero block member).2
        (way.imp_right And.right)
      -- It is looked up again by its address.
      have unset := setBlock_at order fun block => { block with listed := false }
      have here := lookup_at (ascending_change order { block with listed := false } rfl)
      rw [← place] at unset
      simp only [unset]
      replace here : lookup byData (atData block.data) (before ++ _ :: after) = _ := here
      simp only [here, Nat.not_lt.mpr enough, if_false]
      -- The block is taken out of its list first, which makes no difference to its room.
      rcases pending.allocFrom apart valid.valid valid.positive enough spaced valid.given with
        ⟨tight, failed⟩ | ⟨roomy, data, changed, taken, result, origins⟩
      · exact Or.inl ⟨⟨block, member, tight, by rw [found]⟩, failed⟩
      · refine Or.inr ⟨?_, Or.inl ⟨data, changed, before, after, taken,
          ⟨result.toConsistent, result.config, result.aligned, result.inUse⟩, ?_, Or.inl origins⟩⟩
        · rintro ⟨other, also, tight, same⟩
          rw [found] at same
          rw [← consistent.blocks.eq_of_data member also (Option.some.inj same)] at tight
          exact tight roomy
        · rw [place, List.filter_append, List.filter_cons_of_neg (by simp [unused])]

/-- An allocation is possible if the block that is found is no misfit. -/
theorem Consistent.alloc_spec (consistent : Consistent provider) {memory : AllocMemory}
    (legal : LegalAlloc provider size alignment memory) :
    Allocated provider size alignment memory := by
  rcases consistent.alloc_cases legal.toValidAlloc with ⟨misfit, -⟩ | ⟨-, allocated⟩
  · exact absurd misfit legal.fits
  · exact allocated

/-- With the fastest strategy, or without an alignment, no block that is found is a misfit. -/
theorem Consistent.not_misfit (consistent : Consistent provider)
    (valid : ValidAlignment alignment) (bound : size + alignment < sizeRange)
    (plain : provider.allocationStrategy = .fastest ∨ alignment ≤ 1) :
    ¬Misfit provider size alignment := by
  rintro ⟨block, member, tight, same⟩
  obtain ⟨origin, home, lower, upper⟩ := consistent.inside block member
  have limit := consistent.bounded origin home
  obtain ⟨address, positive⟩ := consistent.blocks.nonzero block member
  cases found : findFreeBlock provider.allBlocks provider.freeBlocks size alignment
      provider.allocationStrategy with
  | mk data rest =>
    -- The misfit would be the block that is found.
    rw [found] at same
    replace same : data = some block.data := same
    subst same
    obtain ⟨before, other, after, place, begins, enough, way, -⟩ := consistent.found bound found
    have equal : other = block := consistent.blocks.eq_of_data
      (place ▸ List.mem_append_right _ List.mem_cons_self) member begins
    subst equal
    rcases valid with rfl | ⟨bits, rfl⟩
    · exact tight (Or.inl rfl)
    · -- There is room for each address up to the alignment.
      have room : 2 ^ bits ≤ 1 ∨ size + 2 ^ bits ≤ other.size := by
        rcases way with large | ⟨strategy, -⟩
        · exact Or.inr large
        · exact Or.inl (plain.resolve_left strategy)
      have power := Nat.two_pow_pos bits
      obtain ⟨padding, start, -, near, -⟩ :=
        firstAligned_spec bits positive (Nat.lt_of_le_of_lt upper limit) (by omega) address
      rw [Roomy, start] at tight
      omega

/-- Used blocks may be exchanged for used ones, as long as the shape stays as it has to be. -/
theorem Consistent.exchangeUsed (consistent : Consistent provider) (new : List Block)
    (place : provider.allBlocks = before ++ (old ++ after))
    (usedOld : ∀ block ∈ old, block.used = true)
    (usedNew : ∀ block ∈ new, block.used = true ∧ block.listed = false)
    (same : total new = total old) (shape : Shape { provider with
      allBlocks := before ++ (new ++ after), freeBlocks := free }) :
    Consistent { provider with allBlocks := before ++ (new ++ after), freeBlocks := free } := by
  -- A block is a new one, or it is one of those that stay.
  have split : ∀ block ∈ before ++ (new ++ after), block ∈ provider.allBlocks ∨ block ∈ new := by
    intro block member
    rw [place]
    rcases List.mem_append.mp member with early | late
    · exact Or.inl (List.mem_append_left _ early)
    · rcases List.mem_append.mp late with middle | late
      · exact Or.inr middle
      · exact Or.inl (List.mem_append_right _ (List.mem_append_right _ late))
  -- Only used blocks are new, which are not listed and cannot be merged as free ones.
  refine ⟨shape, fun block member => ?_, fun block member next also mergeable => ?_, ?_⟩
  · rcases split block member with stays | isNew
    · exact consistent.flags block stays
    · rw [(usedNew block isNew).1, (usedNew block isNew).2]
      rfl
  · rcases split block member with stays | isNew
    · rcases split next also with staysNext | isNew
      · exact consistent.merged block stays next staysNext mergeable
      · exact Bool.false_ne_true (mergeable.second.symm.trans (usedNew next isNew).1)
    · exact Bool.false_ne_true (mergeable.first.symm.trans (usedNew block isNew).1)
  · -- The sizes of what is in use are the same.
    have sum := consistent.usedSizes
    have all : ∀ blocks : List Block, (∀ block ∈ blocks, block.used = true) →
        blocks.filter Block.used = blocks := fun blocks used => List.filter_eq_self.mpr used
    rw [place, List.filter_append, List.filter_append, all old usedOld, total_append,
      total_append] at sum
    show total ((before ++ (new ++ after)).filter Block.used) = provider.usedSize
    rw [List.filter_append, List.filter_append,
      all new fun block member => (usedNew block member).1,
      total_append, total_append, same, sum]

/-- What is in front of an offset of a used block, and what is behind it. -/
def splitParts (block : Block) (offset : Nat) : List Block :=
  [{ block with size := offset }, ⟨block.data + offset, block.size - offset, true, false⟩]

/-- A used block is split if there is memory for the second part. -/
theorem Consistent.split_success (consistent : Consistent provider)
    (place : provider.allBlocks = before ++ block :: after) (used : block.used = true)
    (lower : 0 < size) (upper : size < block.size) {memory : NewBlock}
    (given : memory.given = true) :
    ∃ changed, allocationSplit provider block.data block.size size memory =
        some (.success, changed) ∧ Consistent changed ∧ changed.config = provider.config ∧
      changed.upstreamBlocks = provider.upstreamBlocks ∧
      changed.allBlocks = before ++ (splitParts block size ++ after) := by
  have member : block ∈ provider.allBlocks := place ▸ List.mem_append_right _ List.mem_cons_self
  obtain ⟨address, positive⟩ := consistent.blocks.nonzero block member
  have layout := consistent.blocks
  have listed := consistent.listed
  rw [place] at layout listed
  have unlisted : block.listed = false := by
    rw [consistent.flags block member, used]
    rfl
  have here : lookup byData (atData block.data) provider.allBlocks = some block := by
    rw [place, lookup_at layout.ascending]
  obtain ⟨garbage, added, order⟩ := layout.addNew_back lower upper given
  rw [← place] at added
  -- The block is cut, and the second part is marked as used.
  have shrunk := setBlock_at order fun block => { block with size := size }
  have order := ascending_change order { block with size := size } rfl
  have set : setBlock (block.data + size) (fun block => { block with used := true })
      (before ++ { block with size := size } :: backPart block size garbage :: after) =
        before ++ (splitParts block size ++ after) := by
    rw [List.append_cons] at order ⊢
    refine (setBlock_at order fun block => { block with used := true }).trans ?_
    rw [← List.append_cons]
    rfl
  -- Both parts fill the range of the block.
  have fillsOld : Fills Block.data Block.size [block] block.data (block.data + block.size) :=
    ⟨rfl, positive, rfl⟩
  have fillsNew : Fills Block.data Block.size (splitParts block size) block.data
      (block.data + block.size) := by
    refine ⟨rfl, lower, rfl, Nat.sub_pos_of_lt upper, ?_⟩
    show block.data + size + (block.size - size) = block.data + block.size
    omega
  have parts : ∀ part ∈ splitParts block size, part.used = true ∧ part.listed = false := by
    intro part inside
    rcases List.mem_cons.mp inside with rfl | inside
    · exact ⟨used, unlisted⟩
    · rw [List.mem_singleton.mp inside]
      exact ⟨rfl, rfl⟩
  have shape := consistent.exchange provider.usedSize place (List.cons_ne_nil block []) fillsOld
    fillsNew (consistent.inside block member) consistent.lists (listed.trans (by
      rw [listedEntries_append, listedEntries_append, listedEntries_append, listedEntries_cons,
        unlisted, listedEntries_unlisted fun part inside => (parts part inside).2]
      rfl))
  -- The two parts are used, as the block was.
  have final : Consistent { provider with
      allBlocks := before ++ (splitParts block size ++ after) } := by
    have single : provider.allBlocks = before ++ ([block] ++ after) := place
    refine consistent.exchangeUsed _ single (fun other same => ?_) parts ?_ shape
    · rw [List.mem_singleton.mp same, used]
    · show size + (block.size - size + 0) = block.size + 0
      omega
  -- The checks of the code are passed, as the block is used and the size is inside of it.
  refine ⟨_, ?_, final, rfl, rfl, rfl⟩
  rw [allocationSplit, if_neg (by simp; omega), consistent.debugCheck, here]
  simp only [added, shrunk, set, checkedResult, final.debugCheck]
  simp [used]

/-- Nothing is split if there is no used block of the size at the address, or no part of it would be
left, or if there is no memory for the second part. -/
theorem Consistent.split_failure (consistent : Consistent provider) {ptr totalSize firstSize : Nat}
    {memory : NewBlock} (wrong : ∀ block ∈ provider.allBlocks, block.data = ptr →
      block.used = true → block.size = totalSize → 0 < firstSize → firstSize < totalSize →
        memory.given = false) :
    ∃ result, allocationSplit provider ptr totalSize firstSize memory = some (result, provider) ∧
      result ≠ .success := by
  have checked : ∀ result, checkedResult result provider = some (result, provider) := fun _ =>
    if_pos consistent.debugCheck
  rw [allocationSplit]
  -- The size of the first part is not valid, or there is no block that fits.
  split
  · exact ⟨.invalidArgument, rfl, by decide⟩
  · next possible =>
    simp only [Bool.or_eq_true, decide_eq_true_eq, not_or] at possible
    rw [consistent.debugCheck, Bool.not_true, if_neg Bool.false_ne_true]
    cases found : lookup byData (atData ptr) provider.allBlocks with
    | none => exact ⟨.invalidArgument, checked _, by decide⟩
    | some block =>
      obtain ⟨rfl, before, after, place⟩ := exists_of_lookup found
      have member : block ∈ provider.allBlocks :=
        place ▸ List.mem_append_right _ List.mem_cons_self
      by_cases size : block.size = totalSize
      · -- The block has another size, or is not used, or there is no memory for the second part.
        cases used : block.used with
        | false => exact ⟨.invalidArgument, by simp [size, used, checked], by decide⟩
        | true =>
          have refused := wrong block member rfl used size (by omega) (by omega)
          have layout := consistent.blocks
          rw [place] at layout
          have cut : Cut byData (atData (block.data + firstSize)) (before ++ [block]) none after :=
            layout.cut_inside (by omega) (by omega)
          have nothing := coarseRavlAddNew_refused cut (block.size - firstSize) (by omega)
            (by omega) refused
          rw [joined, Option.toList, List.nil_append, ← List.append_cons, ← place] at nothing
          refine ⟨.outOfHostMemory, ?_, by decide⟩
          simp [size, checked, used, size ▸ nothing]
      · exact ⟨.invalidArgument, by simp [size, checked], by decide⟩

/-- Two used blocks are merged if they lie one behind the other in the same upstream block. -/
theorem Consistent.merge_success (consistent : Consistent provider)
    (place : provider.allBlocks = before ++ a :: b :: after)
    (mergeable : Mergeable provider.upstreamBlocks true a b) :
    ∃ changed, allocationMerge provider a.data b.data (a.size + b.size) =
        some (.success, changed) ∧ Consistent changed ∧ changed.config = provider.config ∧
      changed.upstreamBlocks = provider.upstreamBlocks ∧
      changed.allBlocks = before ++ mergedBlock a b :: after := by
  have layout := consistent.blocks
  rw [place] at layout
  have first : a ∈ before ++ a :: b :: after := List.mem_append_right _ List.mem_cons_self
  have second : b ∈ before ++ a :: b :: after :=
    List.mem_append_right _ (List.mem_cons_of_mem _ List.mem_cons_self)
  have nonzero := layout.nonzero a first
  have nonzeroNext := layout.nonzero b second
  have contiguous := mergeable.contiguous
  obtain ⟨origin, home, -, upper⟩ := consistent.inside b (place ▸ second)
  have bounded := consistent.bounded origin home
  obtain ⟨free, merged, shape⟩ := consistent.userBlockMerge_true place mergeable
  -- The blocks are found at their addresses, and are neighbours.
  have here : lookup byData (atData a.data) provider.allBlocks = some a := by
    rw [place, lookup_at layout.ascending]
  have next : next byData (atData a.data) provider.allBlocks = some b := by
    rw [place, next_at layout.ascending]
    rfl
  rw [List.append_cons] at layout
  have there : lookup byData (atData b.data) provider.allBlocks = some b := by
    rw [place, List.append_cons, lookup_at layout.ascending]
  have previous : previous byData (atData b.data) provider.allBlocks = some a := by
    rw [place, List.append_cons, previous_at layout.ascending, List.getLast?_concat]
  have final : Consistent { provider with
      allBlocks := before ++ mergedBlock a b :: after, freeBlocks := free } := by
    have pair : provider.allBlocks = before ++ ([a, b] ++ after) := place
    refine consistent.exchangeUsed [mergedBlock a b] pair (fun other same => ?_)
      (fun other same => ?_) ?_ shape
    · rcases List.mem_cons.mp same with rfl | same
      · exact mergeable.first
      · rw [List.mem_singleton.mp same, mergeable.second]
    · rw [List.mem_singleton.mp same]
      exact ⟨mergeable.first, rfl⟩
    · show a.size + b.size + 0 = a.size + (b.size + 0)
      omega
  -- The checks of the code are passed one by one.
  refine ⟨_, ?_, final, rfl, rfl, rfl⟩
  have sum : (a.size + b.size) % sizeRange = a.size + b.size := Nat.mod_eq_of_lt (by omega)
  have possible : ¬(a.data = 0 ∨ b.data = 0 ∨ b.data ≤ a.data ∨
      a.size + b.size ≤ b.data - a.data) := by
    omega
  rw [allocationMerge, if_neg (by simpa [or_assoc] using possible), consistent.debugCheck, here]
  simp only [there, next, previous, sum, merged, checkedResult, final.debugCheck, mergeable.first,
    mergeable.second, contiguous]
  simp

/-- Nothing is merged unless the two blocks are used, and lie one behind the other in the same
upstream block. -/
theorem Consistent.merge_failure (consistent : Consistent provider) {lowPtr highPtr totalSize : Nat}
    (wrong : ∀ before a b after, provider.allBlocks = before ++ a :: b :: after → a.data = lowPtr →
      b.data = highPtr → a.size + b.size = totalSize →
        ¬Mergeable provider.upstreamBlocks true a b) :
    allocationMerge provider lowPtr highPtr totalSize = some (.invalidArgument, provider) := by
  have checked : checkedResult .invalidArgument provider = some (.invalidArgument, provider) :=
    if_pos consistent.debugCheck
  rw [allocationMerge]
  split
  · rfl
  · rw [consistent.debugCheck, Bool.not_true, if_neg Bool.false_ne_true]
    -- Each check may fail; the last one cannot pass, as the blocks would be mergeable.
    cases found : lookup byData (atData lowPtr) provider.allBlocks with
    | none => exact checked
    | some a =>
      obtain ⟨rfl, before, rest, place⟩ := exists_of_lookup found
      have layout := consistent.blocks
      rw [place] at layout
      have member : a ∈ provider.allBlocks := place ▸ List.mem_append_right _ List.mem_cons_self
      have following : next byData (atData a.data) provider.allBlocks = rest.head? := by
        rw [place, next_at layout.ascending]
      simp only [following]
      split
      · exact checked
      · next used =>
        cases also : lookup byData (atData highPtr) provider.allBlocks with
        | none => exact checked
        | some b =>
          obtain ⟨rfl, front, back, placeNext⟩ := exists_of_lookup also
          have memberNext : b ∈ provider.allBlocks :=
            placeNext ▸ List.mem_append_right _ List.mem_cons_self
          dsimp only
          split
          · exact checked
          · next usedNext =>
            split
            · exact checked
            · next neighbour =>
              split
              · exact checked
              · split
                · exact checked
                · next sizes =>
                  split
                  · exact checked
                  · next contiguous =>
                    -- What is left to fail is that the upstream block is the same.
                    have separate : ¬Mergeable provider.upstreamBlocks true a b := by
                      cases rest with
                      | nil => exact absurd neighbour (by simp)
                      | cons next rest =>
                        rw [List.head?_cons, ne_eq, not_not, Option.some_inj] at neighbour
                        subst neighbour
                        intro mergeable
                        refine wrong before a next rest place rfl rfl ?_ mergeable
                        obtain ⟨origin, home, -, upper⟩ := consistent.inside next memberNext
                        have bounded := consistent.bounded origin home
                        have nonzero := consistent.blocks.nonzero a member
                        rw [ne_eq, not_not, Nat.mod_eq_of_lt (by omega)] at sizes
                        exact sizes
                    rw [consistent.userBlockMerge_false member memberNext separate]
                    exact checked

end SecretTyping.Umf.Coarse
