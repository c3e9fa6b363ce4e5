import SecretTyping.Umf.CoarseRuns

/-! How a provider is made and destroyed. -/

namespace SecretTyping.Umf.Coarse

open Sorted Segments Regions

variable {provider : Provider} {params : Params} {memory : InitMemory}

/-- A provider without memory is as it has to be. -/
theorem consistent_empty (params : Params) : Consistent (emptyProvider params) := by
  have layout : Layout [] := ⟨List.Pairwise.nil, fun _ none => absurd none List.not_mem_nil⟩
  exact ⟨⟨layout, layout, fun _ none => absurd none List.not_mem_nil,
    fun _ none => absurd none List.not_mem_nil, rfl, rfl,
    ⟨List.Pairwise.nil, fun _ none => absurd none List.not_mem_nil⟩, List.Perm.refl []⟩,
    fun _ none => absurd none List.not_mem_nil, fun _ none => absurd none List.not_mem_nil, rfl⟩

section Finalize

/-- The blocks are taken apart: nothing is used then, and nothing is listed. -/
theorem rmAllBlocks_spec (provider : Provider) {blocks : List Block}
    (lists : Lists provider.freeBlocks)
    (listed : (entries provider.freeBlocks).Perm (listedEntries blocks))
    (used : total (blocks.filter Block.used) = provider.usedSize) :
    ∃ free, rmAllBlocks provider blocks =
      some { provider with usedSize := 0, freeBlocks := free } := by
  -- By induction on the blocks, each of which is taken out of what is used, and of its list.
  induction blocks generalizing provider with
  | nil =>
    have zero : 0 = provider.usedSize := used
    exact ⟨provider.freeBlocks, by rw [rmAllBlocks, zero]⟩
  | cons block rest ih =>
    -- What is listed is what the block lists and what the others do.
    have split : listedEntries (block :: rest) = listedEntries [block] ++ listedEntries rest := by
      rw [← listedEntries_append]
      rfl
    rw [split] at listed
    obtain ⟨left, taken, lists, moved⟩ := unlist_spec lists listed
    cases flag : block.used with
    -- A used block leaves what is used smaller by its size, which is part of it.
    | true =>
      rw [List.filter_cons_of_pos flag, total_cons] at used
      have less : total (rest.filter Block.used) = provider.usedSize - block.size := by omega
      obtain ⟨free, done⟩ := ih { provider with
        usedSize := provider.usedSize - block.size, freeBlocks := left } lists moved less
      refine ⟨free, ?_⟩
      have enough : ¬provider.usedSize < block.size := by omega
      simp [rmAllBlocks, flag, enough, taken, done]
    -- A free block is only taken out of its list.
    | false =>
      rw [List.filter_cons_of_neg (by simp [flag])] at used
      obtain ⟨free, done⟩ := ih { provider with freeBlocks := left } lists moved used
      refine ⟨free, ?_⟩
      simp [rmAllBlocks, flag, taken, done]

/-- Does a provider give memory back to the upstream provider? -/
def givesBack (provider : Provider) : Bool :=
  provider.upstreamMemoryProvider && !provider.disableUpstreamProviderFree

/-- The upstream blocks are taken apart, and given back if that is possible. -/
theorem rmUpstreamBlocks_spec (provider : Provider) {blocks : List Block}
    (sizes : total blocks = provider.allocSize) :
    rmUpstreamBlocks provider blocks = some
      (if givesBack provider then blocks.map fun block => (block.data, block.size) else [],
        { provider with allocSize := 0 }) := by
  -- By induction on the blocks, each of which is taken out of what is allocated.
  induction blocks generalizing provider with
  | nil =>
    have zero : 0 = provider.allocSize := sizes
    rw [rmUpstreamBlocks, zero]
    split <;> rfl
  | cons block rest ih =>
    rw [total_cons] at sizes
    have less : total rest = provider.allocSize - block.size := by omega
    have done := ih { provider with allocSize := provider.allocSize - block.size } less
    have enough : ¬provider.allocSize < block.size := by omega
    -- Whether anything is given back does not depend on the sizes.
    have same : givesBack { provider with allocSize := provider.allocSize - block.size } =
        givesBack provider := rfl
    rw [same] at done
    rw [rmUpstreamBlocks, if_neg enough, Option.bind_eq_bind]
    simp only [done, Option.bind_some]
    cases back : givesBack provider with
    | true =>
      rw [givesBack] at back
      simp [back]
    | false =>
      rw [givesBack] at back
      simp [back]

/-- A provider that is as it has to be is destroyed, whatever is in use of it, and gives back the
upstream blocks if that is possible. -/
theorem Consistent.coarseFinalize_spec (consistent : Consistent provider) :
    coarseFinalize provider = some (if givesBack provider then
      provider.upstreamBlocks.map fun block => (block.data, block.size) else []) := by
  -- The blocks are taken apart first, and then the upstream blocks.
  obtain ⟨free, apart⟩ :=
    rmAllBlocks_spec provider consistent.lists consistent.listed consistent.usedSizes
  have given := rmUpstreamBlocks_spec { provider with usedSize := 0, freeBlocks := free }
    consistent.upstreamSizes
  have same : givesBack { provider with usedSize := 0, freeBlocks := free } =
      givesBack provider := rfl
  rw [same] at given
  simp [coarseFinalize, apart, given]

end Finalize

section Initialize

/-- What may be answered when a provider is made: memory that the upstream provider gives, or that
is given as a buffer, is in the range of addresses. -/
structure LegalInit (params : Params) (memory : InitMemory) : Prop where
  bounded : params.initBufferSize < sizeRange
  buffer : params.initBuffer ≠ 0 → params.initBuffer + params.initBufferSize < sizeRange
  upstream : memory.alloc.ptr ≠ 0 → memory.alloc.ptr + params.initBufferSize < sizeRange

/-- All that a provider needs before its first block is there, and its lock is made or not. -/
structure Prepared (params : Params) (memory : InitMemory) (lock : Bool) : Prop where
  valid : paramsValid params = true
  provider : memory.provider = true
  named : coarseSetName params memory = .success
  trees : memory.trees = true
  lock : memory.lock = lock

/-- The first allocation from the upstream provider is given back as there is no memory for the
block. -/
structure FirstLost (params : Params) (memory : InitMemory) : Prop where
  prepared : Prepared params memory true
  upstream : params.upstreamMemoryProvider = true
  immediate : params.immediateInitFromUpstream = true
  given : memory.alloc.ptr ≠ 0
  lost : memory.alloc.upstream.given = false

/-- The first block is added, but there is no memory to put it into the lists of free blocks. -/
structure FirstUnlisted (params : Params) (memory : InitMemory) : Prop where
  prepared : Prepared params memory true
  asked : params.initBufferSize ≠ 0
  given : params.initBuffer = 0 → memory.alloc.ptr ≠ 0
  added : memory.alloc.upstream.given = true
  unlisted : ¬memory.free.Given

/-- A new provider is as it has to be, and nothing of it is in use. -/
structure Ready (params : Params) (memory : InitMemory) (provider : Provider) : Prop extends
    Consistent provider where
  config : provider.config = (emptyProvider params).config
  unused : provider.allBlocks.filter Block.used = []
  size : provider.allocSize = params.initBufferSize
  covered : ∀ address, Covered provider.upstreamBlocks address ↔
    (if params.initBuffer = 0 then memory.alloc.ptr else params.initBuffer) ≤ address ∧
      address < (if params.initBuffer = 0 then memory.alloc.ptr else params.initBuffer) +
        params.initBufferSize

/-- The first upstream block is freed, which is in use as a whole. -/
theorem Consistent.free_first (consistent : Consistent provider) {data size : Nat}
    (inUse : ∃ curr : Block, curr.data = data ∧ curr.size = size ∧ curr.used = true ∧
      provider.allBlocks.filter Block.used = [curr])
    {memory : NewFree} (given : memory.Given) :
    ∃ changed, free provider data size memory = some (.success, changed) ∧ Consistent changed ∧
      changed.config = provider.config ∧ changed.upstreamBlocks = provider.upstreamBlocks ∧
      changed.allBlocks.filter Block.used = [] := by
  obtain ⟨curr, rfl, rfl, used, only⟩ := inUse
  -- The block is freed as any other one is.
  have member : curr ∈ provider.allBlocks := mem_of_filter_used only List.mem_cons_self
  obtain ⟨before, after, place⟩ := List.append_of_mem member
  obtain ⟨changed, done, whole, config, origins, rest⟩ :=
    consistent.free_success place used (Or.inr rfl) given
  refine ⟨changed, done, whole, config, origins, ?_⟩
  -- There was no other block in use.
  have count := congrArg List.length only
  rw [place, List.filter_append, List.filter_cons_of_pos used, List.length_append, List.length_cons,
    List.length_singleton] at count
  rw [rest, List.filter_append, ← List.length_eq_zero_iff, List.length_append]
  omega

/-- There are no lists if no block is listed. -/
-- What is listed is what the blocks say.
theorem Shape.freeBlocks_nil (shape : Shape provider)
    (none : listedEntries provider.allBlocks = []) : provider.freeBlocks = [] := by
  have listed := shape.listed
  rw [none] at listed
  have empty := listed.eq_nil
  cases lists : provider.freeBlocks with
  | nil => rfl
  | cons head rest =>
    -- The first list would have an element, which would be listed.
    have filled := shape.lists.filled head (lists ▸ List.mem_cons_self)
    rw [lists, entries, List.flatMap_cons, List.append_eq_nil_iff, headEntries,
      List.map_eq_nil_iff] at empty
    exact absurd empty.1 filled

/-- A block that is as large as all blocks is the only one. -/
theorem Shape.only_block (shape : Shape provider) {curr : Block}
    (member : curr ∈ provider.allBlocks) (whole : curr.size = provider.allocSize) :
    provider.allBlocks = [curr] := by
  obtain ⟨before, after, place⟩ := List.append_of_mem member
  have sizes := shape.sizes
  -- The sizes of the other blocks sum up to zero.
  rw [place, total_append, total_cons] at sizes
  -- Each other block would have a size.
  have none : ∀ blocks : List Block, (∀ block ∈ blocks, block ∈ provider.allBlocks) →
      total blocks = 0 → blocks = [] := by
    intro blocks inside zero
    cases blocks with
    | nil => rfl
    | cons block rest =>
      have positive := (shape.blocks.nonzero block (inside block List.mem_cons_self)).2
      rw [total_cons] at zero
      omega
  rw [place] at none ⊢
  have front := none before (fun _ early => List.mem_append_left _ early) (by omega)
  have back := none after (fun _ late => List.mem_append_right _ (List.mem_cons_of_mem _ late))
    (by omega)
  rw [front, back]
  rfl

/-- The only block has no neighbour that it could be merged with. -/
theorem merge_only {block : Block} (only : provider.allBlocks = [block]) :
    freeBlockMergeWithPrev provider block.data = some (block.data, provider) ∧
      freeBlockMergeWithNext provider block.data = some (block.data, provider) := by
  -- It is found by its address, and so is what would be in front of it and behind it.
  have order : Ascending byData ([] ++ block :: []) := List.pairwise_singleton _ block
  have noPrev : previous byData (atData block.data) provider.allBlocks = none := by
    rw [only]
    exact previous_at order
  have noNext : next byData (atData block.data) provider.allBlocks = none := by
    rw [only]
    exact next_at order
  have here : lookup byData (atData block.data) provider.allBlocks = some block := by
    rw [only]
    exact lookup_at order
  apply And.intro
  · rw [freeBlockMergeWithPrev, noPrev, here]
  · rw [freeBlockMergeWithNext, noNext, here]

/-- The only block is freed, but there is no memory to put it into the lists, so that the provider
is not as it has to be. -/
theorem Consistent.free_unlisted (consistent : Consistent provider) {curr : Block}
    (only : provider.allBlocks = [curr]) (used : curr.used = true) {memory : NewFree}
    (unlisted : ¬memory.Given) :
    ∃ changed, free provider curr.data curr.size memory = some (.outOfHostMemory, changed) ∧
      Coarse.debugCheck changed = false := by
  -- The block is marked as free, but that is not listed.
  have order : Ascending byData ([] ++ curr :: []) := List.pairwise_singleton _ curr
  have place : provider.allBlocks = [] ++ curr :: [] := only
  obtain ⟨enough, pending⟩ := consistent.release place used
  have here : lookup byData (atData curr.data) provider.allBlocks = some curr := by
    rw [only]
    exact lookup_at order
  have unset : setBlock curr.data (fun block => { block with used := false }) provider.allBlocks =
      [{ curr with used := false }] := by
    rw [only]
    exact setBlock_at order _
  -- There is no list yet, so that all of a list is needed.
  have noLists : provider.freeBlocks = [] := by
    refine consistent.freeBlocks_nil ?_
    have flag := consistent.flags curr (only ▸ List.mem_cons_self)
    rw [used] at flag
    rw [only, listedEntries_cons, flag]
    rfl
  -- The one block is not merged with any other.
  have single : { provider with
      usedSize := provider.usedSize - curr.size
      allBlocks := [{ curr with used := false }] }.allBlocks = [{ curr with used := false }] := rfl
  obtain ⟨withPrev, withNext⟩ := merge_only single
  have refused : (listBlock { provider with
      usedSize := provider.usedSize - curr.size
      allBlocks := [{ curr with used := false }] } curr.data memory).1 = false := by
    rw [listBlock, noLists]
    exact freeBlocksAdd_nil_refused _ _ unlisted
  have missed := pending.listBlock_refused refused
  -- What the lists say afterwards misses the block.
  generalize result : listBlock { provider with
      usedSize := provider.usedSize - curr.size
      allBlocks := [{ curr with used := false }] } curr.data memory = listed at refused
  obtain ⟨added, changed⟩ := listed
  subst refused
  refine ⟨changed, ?_, ?_⟩
  · rw [Coarse.free, consistent.debugCheck, here]
    simp [used, unset, Nat.not_lt.mpr enough, withPrev, withNext, result]
  · rw [← missed]
    exact congrArg (fun listed => Coarse.debugCheck listed.2) result.symm

/-- No range is in use or given by the upstream provider at first. -/
theorem fresh_nil {addr size : Nat} (address : addr ≠ 0) (positive : size ≠ 0)
    (bounded : addr + size < sizeRange) : Fresh [] addr size :=
  ⟨Nat.pos_of_ne_zero address, Nat.pos_of_ne_zero positive, bounded,
    fun _ none => absurd none List.not_mem_nil⟩

/-- A provider whose first upstream block is in use as a whole is ready when that is freed, or it is
not as it has to be if there is no memory to put the block into the lists. -/
theorem Consistent.ready (consistent : Consistent provider) {data : Nat} (memory : InitMemory)
    (config : provider.config = (emptyProvider params).config)
    (inUse : ∃ curr : Block, curr.data = data ∧ curr.size = params.initBufferSize ∧
      curr.used = true ∧ provider.allBlocks.filter Block.used = [curr])
    (extended : Extended [] provider.upstreamBlocks data params.initBufferSize)
    (address : (if params.initBuffer = 0 then memory.alloc.ptr else params.initBuffer) = data) :
    (memory.free.Given ∧ ∃ changed,
      free provider data params.initBufferSize memory.free = some (.success, changed) ∧
      (changed.usedSize = 0 ∧ changed.allocSize = params.initBufferSize ∧
        Coarse.debugCheck changed = true) ∧ Ready params memory changed) ∨
    (¬memory.free.Given ∧ ∃ changed,
      free provider data params.initBufferSize memory.free = some (.outOfHostMemory, changed) ∧
      Coarse.debugCheck changed = false) := by
  -- The first upstream block is all that is allocated.
  have whole : provider.allocSize = params.initBufferSize := by
    rw [← consistent.upstreamSizes, extended.sizes]
    exact Nat.zero_add _
  by_cases given : memory.free.Given
  · -- There is memory, and the block is freed as any other one is.
    refine Or.inl ⟨given, ?_⟩
    obtain ⟨changed, done, whole, same, origins, unused⟩ := consistent.free_first inUse given
    have usedSize : changed.usedSize = 0 := by
      rw [← whole.usedSizes, unused]
      rfl
    have allocSize : changed.allocSize = params.initBufferSize := by
      rw [← whole.upstreamSizes, origins, extended.sizes]
      exact Nat.zero_add _
    refine ⟨changed, done, ⟨usedSize, allocSize, whole.debugCheck⟩, whole, same.trans config,
      unused,
      allocSize, fun other => ?_⟩
    rw [address, origins]
    apply Iff.intro
    · -- What the upstream blocks cover is the new range, as there were none before.
      intro covered
      rcases extended.within other covered with ⟨block, none, -⟩ | inside
      · exact absurd none List.not_mem_nil
      · exact inside
    · rintro ⟨lower, upper⟩
      obtain ⟨origin, home, left, right⟩ := extended.coversNew
      exact ⟨origin, home, by omega, by omega⟩
  · -- There is no memory, and the block that is freed is the only one.
    obtain ⟨curr, rfl, size, used, only⟩ := inUse
    have member : curr ∈ provider.allBlocks := mem_of_filter_used only List.mem_cons_self
    have single := consistent.only_block member (size.trans whole.symm)
    rw [← size]
    exact Or.inr ⟨given, consistent.free_unlisted single used given⟩

/-- The allocator has memory for a block and for its node. -/
def someBlock : NewBlock := ⟨some false, true⟩

/-- The same answers, but there is memory for all that is cut off from a free block. -/
def AllocMemory.enough (memory : AllocMemory) : AllocMemory :=
  { memory with
    aligned := someBlock
    padding := ⟨true, true, true⟩
    rest := someBlock
    restFree := ⟨true, true, true⟩ }

/-- A provider without memory has no free block to cut anything off. -/
theorem alloc_emptyProvider (params : Params) (size alignment : Nat) (memory : AllocMemory) :
    alloc (emptyProvider params) size alignment memory.enough =
      alloc (emptyProvider params) size alignment memory := by
  -- Whichever strategy is used, there is nothing to find.
  have missed : findFreeBlock (emptyProvider params).allBlocks (emptyProvider params).freeBlocks
      size alignment (emptyProvider params).allocationStrategy = (none, []) := by
    cases (emptyProvider params).allocationStrategy <;> rfl
  rw [Coarse.alloc, Coarse.alloc, missed]
  rfl

/-- What is asked for when a provider is made is legal. -/
theorem LegalInit.alloc (legal : LegalInit params memory) (positive : params.initBufferSize ≠ 0) :
    LegalAlloc (emptyProvider params) params.initBufferSize 0 memory.alloc.enough := by
  have given : memory.alloc.enough.Given := ⟨rfl, ⟨rfl, rfl, rfl⟩, rfl, ⟨rfl, rfl, rfl⟩⟩
  refine ⟨⟨Nat.pos_of_ne_zero positive, legal.bounded, Or.inl rfl, given, fun address => ?_⟩,
    (consistent_empty params).not_misfit (Or.inl rfl) legal.bounded (Or.inr (Nat.zero_le 1))⟩
  exact ⟨fresh_nil address positive (legal.upstream address), isAligned_of_le_one (Nat.zero_le 1)⟩

/-- The first allocation makes one used block of what the upstream provider gives, or fails: nothing
has been given, or it has been lost. -/
theorem alloc_first (legal : LegalInit params memory)
    (upstream : params.upstreamMemoryProvider = true) (positive : params.initBufferSize ≠ 0) :
    (∃ changed, alloc (emptyProvider params) params.initBufferSize 0 memory.alloc =
        some (.success, memory.alloc.ptr, changed) ∧
      Consistent changed ∧ changed.config = (emptyProvider params).config ∧
      memory.alloc.ptr ≠ 0 ∧ memory.alloc.upstream.given = true ∧
      (∃ curr : Block, curr.data = memory.alloc.ptr ∧ curr.size = params.initBufferSize ∧
        curr.used = true ∧ changed.allBlocks.filter Block.used = [curr]) ∧
      Extended [] changed.upstreamBlocks memory.alloc.ptr params.initBufferSize) ∨
    (∃ data, alloc (emptyProvider params) params.initBufferSize 0 memory.alloc =
        some (.outOfHostMemory, data, emptyProvider params) ∧
      (data ≠ 0 ↔ memory.alloc.ptr ≠ 0) ∧ (data ≠ 0 → memory.alloc.upstream.given = false)) := by
  rcases (consistent_empty params).alloc_spec (legal.alloc positive) with
    ⟨data, changed, before, after, done, taken, used, origins⟩ |
    ⟨data, refused, -, granted, refusedNode⟩
  · rw [alloc_emptyProvider] at done
    obtain ⟨curr, here, length, inUse, only⟩ := taken.inUse
    -- The block is all that is in use, as there was no other one.
    have none : before.filter Block.used = [] ∧ after.filter Block.used = [] :=
      List.append_eq_nil_iff.mp used.symm
    rw [none.1, none.2] at only
    have member : curr ∈ changed.allBlocks := mem_of_filter_used only List.mem_cons_self
    -- It lies in an upstream block, so that the upstream provider has just given one.
    rcases origins with same | ⟨-, rfl, given, extended⟩
    · obtain ⟨origin, home, -⟩ := taken.inside curr member
      rw [same] at home
      exact absurd home List.not_mem_nil
    · have nonzero := (taken.blocks.nonzero curr member).1
      rw [here] at nonzero
      exact Or.inl ⟨changed, done, taken.toConsistent, taken.config, Nat.ne_of_gt nonzero, given,
        ⟨curr, here, length, inUse, only⟩, extended⟩
  · rw [alloc_emptyProvider] at refused
    refine Or.inr ⟨data, refused, ?_, fun some => refusedNode (granted.mp some)⟩
    exact ⟨fun some => (granted.mp some).2, fun some => granted.mpr ⟨upstream, some⟩⟩

/-- There is an upstream provider or a buffer, and a size where something is allocated at once. -/
theorem paramsValid_spec (valid : paramsValid params = true) :
    (params.upstreamMemoryProvider = true ↔ params.initBuffer = 0) ∧
      (params.initBufferSize ≠ 0 ↔
        params.immediateInitFromUpstream = true ∨ params.initBuffer ≠ 0) := by
  -- Each of the four questions has two answers.
  rw [paramsValid] at valid
  cases upstream : params.upstreamMemoryProvider <;>
    cases immediate : params.immediateInitFromUpstream <;>
      by_cases buffer : params.initBuffer = 0 <;>
        by_cases size : params.initBufferSize = 0 <;> simp_all

/-- The lock is made, or it is not. -/
theorem Prepared.locked (prepared : Prepared params memory true) :
    ¬Prepared params memory false := fun other =>
  Bool.false_ne_true (other.lock.symm.trans prepared.lock)

/-- What a provider is made of, or why it is not made. -/
inductive Outcome (params : Params) (memory : InitMemory) :
    Option (Result × Option Provider) → Prop where
  /-- An assertion fails. -/
  | failed (lost : FirstLost params memory ∨ FirstUnlisted params memory) :
      Outcome params memory none
  /-- The lock is not made, and nothing tells that. -/
  | unlocked (prepared : Prepared params memory false) :
      Outcome params memory (some (.success, none))
  /-- It is told why the provider is not made. -/
  | refused {result : Result} (different : result ≠ .success)
      (kept : ¬(FirstLost params memory ∨ FirstUnlisted params memory))
      (locked : ¬Prepared params memory false) : Outcome params memory (some (result, none))
  /-- The provider is made. -/
  | made {provider : Provider} (ready : Ready params memory provider)
      (kept : ¬(FirstLost params memory ∨ FirstUnlisted params memory))
      (locked : ¬Prepared params memory false) :
      Outcome params memory (some (.success, some provider))

/-- A provider that allocates at once is ready, or is not made, or an assertion fails as its first
block is lost or not listed. -/
theorem outcome_immediate (legal : LegalInit params memory)
    (prepared : Prepared params memory true) (upstream : params.upstreamMemoryProvider = true)
    (immediate : params.immediateInitFromUpstream = true) :
    Outcome params memory (coarseInitialize params memory) := by
  -- There is no buffer, as there is an upstream provider.
  obtain ⟨noBuffer, someSize⟩ := paramsValid_spec prepared.valid
  have buffer := noBuffer.mp upstream
  have positive := someSize.mpr (Or.inl immediate)
  have address : (if params.initBuffer = 0 then memory.alloc.ptr else params.initBuffer) =
      memory.alloc.ptr := if_pos buffer
  rw [coarseInitialize]
  simp only [prepared.valid, prepared.provider, prepared.named, prepared.trees, prepared.lock,
    upstream, immediate, Bool.not_true, Bool.false_eq_true, if_false, Bool.and_self, if_true,
    ne_eq, not_true_eq_false]
  -- The first allocation succeeds or it does not.
  rcases alloc_first legal upstream positive with
    ⟨changed, done, whole, config, some, given, inUse, extended⟩ |
    ⟨data, refused, granted, refusedNode⟩
  · -- It is freed at once, which lists it or does not.
    rcases whole.ready memory config inUse extended address with
      ⟨givenFree, final, freed, checks, ready⟩ | ⟨unlisted, final, freed, checks⟩
    · simp only [done, freed, Option.bind_eq_bind, Option.bind_some, some, if_false, checks,
        decide_true, Bool.and_self, if_true]
      refine .made ready ?_ prepared.locked
      rintro (lost | lost)
      · exact Bool.false_ne_true (lost.lost.symm.trans given)
      · exact lost.unlisted givenFree
    · simp only [done, freed, Option.bind_eq_bind, Option.bind_some, some, if_false, checks,
        Bool.and_false, Bool.false_eq_true]
      exact .failed (Or.inr ⟨prepared, positive, fun _ => some, given, unlisted⟩)
  · -- Nothing has been given, or what was given has been lost.
    by_cases zero : data = 0
    · have notGranted : ¬(memory.alloc.ptr ≠ 0) := fun given => granted.mpr given zero
      simp only [refused, zero, Option.bind_eq_bind, Option.bind_some, if_true]
      refine .refused (by decide) ?_ prepared.locked
      rintro (lost | lost)
      · exact notGranted lost.given
      · exact notGranted (lost.given buffer)
    · -- What was given is taken for a success, and the free of it fails.
      have missing : ∀ block ∈ (emptyProvider params).allBlocks, block.data = data →
          block.used = true → params.initBufferSize ≠ 0 ∧ params.initBufferSize ≠ block.size :=
        fun _ none => absurd none List.not_mem_nil
      obtain ⟨result, failed, -⟩ := (consistent_empty params).free_failure missing memory.free
      have different : ¬(emptyProvider params).allocSize = params.initBufferSize := Ne.symm positive
      simp only [refused, zero, failed, different, Option.bind_eq_bind, Option.bind_some, if_false,
        decide_false, Bool.and_false, Bool.false_and, Bool.false_eq_true]
      exact .failed (Or.inl ⟨prepared, upstream, immediate, granted.mp zero, refusedNode zero⟩)

/-- A provider with a buffer is ready, or is not made, or an assertion fails as the buffer is not
listed. -/
theorem outcome_buffer (legal : LegalInit params memory) (prepared : Prepared params memory true)
    (buffer : params.initBuffer ≠ 0) :
    Outcome params memory (coarseInitialize params memory) := by
  -- There is no upstream provider, as there is a buffer.
  obtain ⟨noBuffer, someSize⟩ := paramsValid_spec prepared.valid
  have upstream : params.upstreamMemoryProvider = false := by
    rw [← Bool.not_eq_true]
    exact fun upstream => buffer (noBuffer.mp upstream)
  have positive := someSize.mpr (Or.inr buffer)
  have notLost : ¬FirstLost params memory := fun lost =>
    Bool.false_ne_true (upstream.symm.trans lost.upstream)
  have address : (if params.initBuffer = 0 then memory.alloc.ptr else params.initBuffer) =
      params.initBuffer := if_neg buffer
  rw [coarseInitialize]
  simp only [prepared.valid, prepared.provider, prepared.named, prepared.trees, prepared.lock,
    upstream, Bool.not_true, Bool.false_eq_true, if_false, Bool.false_and, ne_eq, buffer,
    not_false_eq_true, if_true, not_true_eq_false]
  -- The buffer becomes the first block, or there is no memory for that.
  rcases (consistent_empty params).addUpstream
    (fresh_nil buffer positive (legal.buffer buffer)) memory.alloc.upstream with
    ⟨changed, before, after, done, whole, config, place, only, extended, given⟩ | ⟨refused, lacking⟩
  · have none : before = [] ∧ after = [] := List.append_eq_nil_iff.mp place.symm
    rw [none.1, none.2] at only
    -- It is freed at once, which lists it or does not.
    rcases whole.ready memory config ⟨_, rfl, rfl, rfl, only⟩ extended address with
      ⟨givenFree, final, freed, checks, ready⟩ | ⟨unlisted, final, freed, checks⟩
    · simp only [done, freed, Option.bind_eq_bind, Option.bind_some, not_true_eq_false, if_false,
        checks, decide_true, Bool.and_self, if_true]
      exact .made ready (not_or.mpr ⟨notLost, fun lost => lost.unlisted givenFree⟩) prepared.locked
    · simp only [done, freed, Option.bind_eq_bind, Option.bind_some, not_true_eq_false, if_false,
        checks, Bool.and_false, Bool.false_eq_true]
      exact .failed (Or.inr ⟨prepared, positive, fun none => absurd none buffer, given, unlisted⟩)
  · have kept : ¬FirstUnlisted params memory := fun lost =>
      Bool.false_ne_true (lacking.symm.trans lost.added)
    have different : Result.outOfHostMemory ≠ .success := by decide
    simp only [refused, Option.bind_eq_bind, Option.bind_some, reduceCtorEq, not_false_eq_true,
      if_true]
    exact .refused different (not_or.mpr ⟨notLost, kept⟩) prepared.locked

/-- A provider that has nothing to allocate is ready. -/
theorem outcome_empty (prepared : Prepared params memory true) (buffer : params.initBuffer = 0)
    (later : params.immediateInitFromUpstream = false) :
    Outcome params memory (coarseInitialize params memory) := by
  -- Nothing is asked for, so that the provider stays without memory.
  obtain ⟨-, someSize⟩ := paramsValid_spec prepared.valid
  have zero : params.initBufferSize = 0 := by
    by_contra positive
    rcases someSize.mp positive with immediate | some
    · exact Bool.false_ne_true (later.symm.trans immediate)
    · exact some buffer
  have consistent := consistent_empty params
  have ready : Ready params memory (emptyProvider params) := by
    refine ⟨consistent, rfl, rfl, zero.symm, fun address => ?_⟩
    rw [zero]
    apply Iff.intro
    · rintro ⟨block, none, -⟩
      exact absurd none List.not_mem_nil
    · rintro ⟨lower, upper⟩
      omega
  have checks : (emptyProvider params).usedSize = 0 ∧ (emptyProvider params).allocSize = 0 :=
    ⟨rfl, rfl⟩
  rw [coarseInitialize]
  simp only [prepared.valid, prepared.provider, prepared.named, prepared.trees, prepared.lock,
    later, buffer, zero, checks, consistent.debugCheck, Bool.not_true, Bool.false_eq_true,
    Bool.and_false, if_false, ne_eq, not_true_eq_false, decide_true, Bool.and_self, if_true]
  refine .made ready ?_ prepared.locked
  -- There is no first block that could be lost or not listed.
  rintro (lost | lost)
  · exact Bool.false_ne_true (later.symm.trans lost.immediate)
  · exact lost.asked zero

/-- A provider that is not prepared is not made, and nothing tells that if only its lock is not
made. -/
theorem outcome_unprepared (unprepared : ¬Prepared params memory true) :
    Outcome params memory (coarseInitialize params memory) := by
  -- Neither is lost or not listed what has not been asked for.
  have kept : ¬(FirstLost params memory ∨ FirstUnlisted params memory) := by
    rintro (lost | lost)
    · exact unprepared lost.prepared
    · exact unprepared lost.prepared
  have refuse : ∀ {result : Result}, result ≠ .success →
      (Prepared params memory false → False) →
      coarseInitialize params memory = some (result, none) →
      Outcome params memory (coarseInitialize params memory) := by
    intro result different locked done
    rw [done]
    exact .refused different kept locked
  -- The checks are made one after another, and the first one that fails decides.
  cases valid : paramsValid params with
  | false =>
    refine @refuse .invalidArgument (by decide) (fun other => ?_) ?_
    · exact Bool.false_ne_true (valid.symm.trans other.valid)
    · rw [coarseInitialize, valid]
      rfl
  | true =>
    cases made : memory.provider with
    | false =>
      refine @refuse .outOfHostMemory (by decide) (fun other => ?_) ?_
      · exact Bool.false_ne_true (made.symm.trans other.provider)
      · rw [coarseInitialize, valid, made]
        rfl
    | true =>
      by_cases named : coarseSetName params memory = .success
      · cases trees : memory.trees with
        | false =>
          refine @refuse .outOfHostMemory (by decide) (fun other => ?_) ?_
          · exact Bool.false_ne_true (trees.symm.trans other.trees)
          · rw [coarseInitialize, valid, made, named, trees]
            rfl
        | true =>
          cases lock : memory.lock with
          | false =>
            have done : coarseInitialize params memory = some (.success, none) := by
              rw [coarseInitialize, valid, made, named, trees, lock]
              rfl
            rw [done]
            exact .unlocked ⟨valid, made, named, trees, lock⟩
          | true => exact absurd ⟨valid, made, named, trees, lock⟩ unprepared
      · refine refuse named (fun other => named other.named) ?_
        rw [coarseInitialize, valid, made]
        exact if_pos named

/-- A provider is ready, or it is not made, or an assertion fails for the first block. -/
theorem coarseInitialize_spec (legal : LegalInit params memory) :
    Outcome params memory (coarseInitialize params memory) := by
  by_cases prepared : Prepared params memory true
  · by_cases buffer : params.initBuffer = 0
    · cases immediate : params.immediateInitFromUpstream with
      | false => exact outcome_empty prepared buffer immediate
      | true =>
        have upstream := (paramsValid_spec prepared.valid).1.mpr buffer
        exact outcome_immediate legal prepared upstream immediate
    · exact outcome_buffer legal prepared buffer
  · exact outcome_unprepared prepared

end Initialize

end SecretTyping.Umf.Coarse
