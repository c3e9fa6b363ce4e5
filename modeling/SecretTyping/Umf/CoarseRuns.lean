import SecretTyping.Umf.CoarseTiling

/-! Runs of the provider, and the runs of a heap that they are. -/

namespace SecretTyping.Umf.Coarse

open Sorted Segments Regions

/-- An operation of the provider, with what the allocator and the upstream provider answer. -/
inductive Operation where
  | alloc (size alignment : Nat) (memory : AllocMemory)
  | free (ptr bytes : Nat) (memory : NewFree)
  | allocationSplit (ptr totalSize firstSize : Nat) (memory : NewBlock)
  | allocationMerge (lowPtr highPtr totalSize : Nat)

/-- Perform an operation: its result, the address that is returned, and the provider after it. There
is no result where an assertion fails. -/
def perform (provider : Provider) : Operation → Option (Result × Nat × Provider)
  | .alloc size alignment memory => alloc provider size alignment memory
  | .free ptr bytes memory =>
    (free provider ptr bytes memory).map fun (result, provider) => (result, 0, provider)
  | .allocationSplit ptr totalSize firstSize memory =>
    (allocationSplit provider ptr totalSize firstSize memory).map fun (result, provider) =>
      (result, 0, provider)
  | .allocationMerge lowPtr highPtr totalSize =>
    (allocationMerge provider lowPtr highPtr totalSize).map fun (result, provider) =>
      (result, 0, provider)

/-- Perform operations one after another. -/
def performAll (provider : Provider) :
    List Operation → Option (List (Result × Nat) × Provider)
  | [] => some ([], provider)
  | operation :: rest => do
    let (result, ptr, provider) ← perform provider operation
    let (replies, provider) ← performAll provider rest
    return ((result, ptr) :: replies, provider)

/-- What an operation may be asked for, and be answered: there is memory for what is cut off from a
free block and for what is put into a list, and a free block that is found has room. -/
def Legal (provider : Provider) : Operation → Prop
  | .alloc size alignment memory => LegalAlloc provider size alignment memory
  | .free _ _ memory => memory.Given
  | _ => True

/-- What operations may be asked for one after another, and be answered. -/
def LegalRun (provider : Provider) : List Operation → Prop
  | [] => True
  | operation :: rest => Legal provider operation ∧ ∀ result ptr changed,
    perform provider operation = some (result, ptr, changed) → LegalRun changed rest

/-- The memory of a provider: what is in use, and what the upstream provider has given. -/
structure Memory where
  regions : Occupancy
  origins : List Block

/-- A range is inside of what the upstream provider has given without a gap. -/
def Memory.Has (memory : Memory) (start size : Nat) : Prop :=
  ∃ origin ∈ memory.origins, origin.data ≤ start ∧ start + size ≤ origin.data + origin.size

/-- A range has a part of a region that is in use. -/
def Memory.Occupied (memory : Memory) (start size : Nat) : Prop :=
  ∃ region ∈ memory.regions.live, start < region.1 + region.2 ∧ region.1 < start + size

/-- What an operation may make of a memory, and return. -/
inductive MemoryStep (before : Memory) : Operation → Result × Nat → Memory → Prop where
  /-- Memory is used that the upstream provider has given earlier. -/
  | reuse {size alignment data : Nat} {memory : AllocMemory} {after : Memory}
      (exchanged : Exchanged before.regions ∅ {(data, size)} after.regions)
      (aligned : isAligned data alignment = true) (inside : before.Has data size)
      (origins : after.origins = before.origins) :
      MemoryStep before (.alloc size alignment memory) (.success, data) after
  /-- The upstream provider gives memory, as what is free is not enough anywhere. -/
  | extend {size alignment : Nat} {memory : AllocMemory} {after : Memory}
      (exchanged : Exchanged before.regions ∅ {(memory.ptr, size)} after.regions)
      (aligned : isAligned memory.ptr alignment = true)
      (full : ∀ start, before.Has start (size + alignment) →
        before.Occupied start (size + alignment))
      (extended : Extended before.origins after.origins memory.ptr size) :
      MemoryStep before (.alloc size alignment memory) (.success, memory.ptr) after
  /-- There is no memory, as what is free is not enough anywhere. -/
  | exhausted {size alignment data : Nat} {memory : AllocMemory}
      (full : ∀ start, before.Has start (size + alignment) →
        before.Occupied start (size + alignment)) :
      MemoryStep before (.alloc size alignment memory) (.outOfHostMemory, data) before
  /-- Memory is no longer in use. -/
  | free {ptr size bytes : Nat} {memory : NewFree} {after : Memory}
      (exchanged : Exchanged before.regions {(ptr, size)} ∅ after.regions)
      (fits : bytes = 0 ∨ bytes = size) (origins : after.origins = before.origins) :
      MemoryStep before (.free ptr bytes memory) (.success, 0) after
  /-- There is nothing to free. -/
  | notFreed {ptr bytes : Nat} {memory : NewFree} {result : Result}
      (missing : ∀ size, (ptr, size) ∈ before.regions.live → bytes ≠ 0 ∧ bytes ≠ size)
      (failed : result ≠ .success) :
      MemoryStep before (.free ptr bytes memory) (result, 0) before
  /-- Memory in use is split in two. -/
  | split {ptr totalSize firstSize : Nat} {memory : NewBlock} {after : Memory}
      (exchanged : Exchanged before.regions {(ptr, totalSize)}
        {(ptr, firstSize), (ptr + firstSize, totalSize - firstSize)} after.regions)
      (positive : 0 < firstSize) (less : firstSize < totalSize)
      (origins : after.origins = before.origins) :
      MemoryStep before (.allocationSplit ptr totalSize firstSize memory) (.success, 0) after
  /-- There is nothing to split, or no memory for the second part. -/
  | notSplit {ptr totalSize firstSize : Nat} {memory : NewBlock} {result : Result}
      (missing : (ptr, totalSize) ∈ before.regions.live → 0 < firstSize →
        firstSize < totalSize → memory.given = false) (failed : result ≠ .success) :
      MemoryStep before (.allocationSplit ptr totalSize firstSize memory) (result, 0) before
  /-- Two parts of one upstream block that touch are merged. -/
  | merge {lowPtr lowSize highSize : Nat} {after : Memory}
      (exchanged : Exchanged before.regions {(lowPtr, lowSize), (lowPtr + lowSize, highSize)}
        {(lowPtr, lowSize + highSize)} after.regions)
      (joint : Joint before.origins (lowPtr + lowSize))
      (origins : after.origins = before.origins) :
      MemoryStep before (.allocationMerge lowPtr (lowPtr + lowSize) (lowSize + highSize))
        (.success, 0) after
  /-- There is nothing to merge. -/
  | notMerged {lowPtr highPtr totalSize : Nat}
      (missing : ∀ lowSize highSize, (lowPtr, lowSize) ∈ before.regions.live →
        (highPtr, highSize) ∈ before.regions.live → lowPtr + lowSize = highPtr →
          lowSize + highSize = totalSize → ¬Joint before.origins highPtr) :
      MemoryStep before (.allocationMerge lowPtr highPtr totalSize) (.invalidArgument, 0) before

/-- What operations may make of a memory, one after another, and return. -/
def MemoryRun : Memory → List Operation → List (Result × Nat) → Memory → Prop
  | before, [], [], after => after = before
  | before, operation :: operations, reply :: replies, after =>
    ∃ middle, MemoryStep before operation reply middle ∧
      MemoryRun middle operations replies after
  | _, _, _, _ => False

/-- The memory of a provider. -/
def memoryOf (provider : Provider) (layout : Layout provider.allBlocks) : Memory :=
  ⟨heap provider layout, provider.upstreamBlocks⟩

variable {provider changed : Provider} {size alignment : Nat}

/-- The regions of a single block. -/
theorem regionsOf_singleton (block : Block) : regionsOf [block] = {(block.data, block.size)} := by
  ext region
  simp [regionsOf, eq_comm]

/-- There are no regions of no blocks. -/
theorem regionsOf_nil : regionsOf [] = ∅ := by
  ext region
  simp [regionsOf]

/-- If no free block is large enough, each range that is has a part that is in use. -/
theorem Consistent.full (consistent : Consistent provider) (positive : 0 < size)
    (exhausted : Exhausted provider size alignment) (start : Nat)
    (has : (memoryOf provider consistent.blocks).Has start (size + alignment)) :
    (memoryOf provider consistent.blocks).Occupied start (size + alignment) := by
  -- Otherwise a range without such a part would be inside of one free block.
  obtain ⟨origin, home, lower, upper⟩ := has
  obtain ⟨block, member, used, ends, begins⟩ :=
    consistent.occupied positive exhausted home lower upper
  have live : (block.data, block.size) ∈ (heap provider consistent.blocks).live :=
    (mem_heap consistent.blocks).mpr ⟨block, member, rfl, rfl, used⟩
  exact ⟨_, live, ends, begins⟩

/-- An allocation makes of the memory what it may. -/
theorem Consistent.alloc_step (consistent : Consistent provider) {memory : AllocMemory}
    (legal : LegalAlloc provider size alignment memory) :
    ∃ result ptr changed, ∃ whole : Consistent changed,
      alloc provider size alignment memory = some (result, ptr, changed) ∧
      changed.config = provider.config ∧
      MemoryStep (memoryOf provider consistent.blocks) (.alloc size alignment memory) (result, ptr)
        (memoryOf changed whole.blocks) := by
  -- The cases are those of how the allocation ends.
  rcases consistent.alloc_spec legal with
    ⟨data, changed, before, after, done, taken, used, origins⟩ | ⟨data, refused, exhausted, -, -⟩
  · -- The block that is returned is all that is new in use.
    obtain ⟨curr, address, length, inUse, usedAfter⟩ := taken.inUse
    have exchanged := heap_exchanged [] [curr] consistent.blocks taken.blocks used usedAfter
    rw [regionsOf_nil, regionsOf_singleton, address, length] at exchanged
    refine ⟨.success, data, changed, taken.toConsistent, done, taken.config, ?_⟩
    -- It has been there, or the upstream provider has given it.
    rcases origins with same | ⟨exhausted, rfl, -, extended⟩
    · refine .reuse exchanged taken.aligned ?_ same
      have member : curr ∈ changed.allBlocks :=
        mem_of_filter_used usedAfter (List.mem_append_right _ List.mem_cons_self)
      obtain ⟨origin, home, lower, upper⟩ := taken.inside curr member
      rw [same] at home
      rw [address] at lower
      rw [address, length] at upper
      exact ⟨origin, home, lower, upper⟩
    · exact .extend exchanged taken.aligned (consistent.full legal.positive exhausted) extended
  · exact ⟨.outOfHostMemory, data, provider, consistent, refused, rfl,
      .exhausted (consistent.full legal.positive exhausted)⟩

/-- A call that frees makes of the memory what it may. -/
theorem Consistent.free_step (consistent : Consistent provider) (ptr bytes : Nat)
    {memory : NewFree} (given : memory.Given) :
    ∃ result changed, ∃ whole : Consistent changed,
      free provider ptr bytes memory = some (result, changed) ∧ changed.config = provider.config ∧
      MemoryStep (memoryOf provider consistent.blocks) (.free ptr bytes memory) (result, 0)
        (memoryOf changed whole.blocks) := by
  -- A block is freed exactly if one is in use at the address, with the size if that is told.
  by_cases found : ∃ block ∈ provider.allBlocks, block.data = ptr ∧ block.used = true ∧
      (bytes = 0 ∨ bytes = block.size)
  · obtain ⟨block, member, rfl, used, fits⟩ := found
    obtain ⟨before, after, place⟩ := List.append_of_mem member
    obtain ⟨changed, done, whole, config, origins, usedAfter⟩ :=
      consistent.free_success place used fits given
    have usedBefore : provider.allBlocks.filter Block.used =
        before.filter Block.used ++ ([block] ++ after.filter Block.used) := by
      rw [place, List.filter_append, List.filter_cons_of_pos used]
      rfl
    rw [List.filter_append] at usedAfter
    have exchanged := heap_exchanged [block] [] consistent.blocks whole.blocks usedBefore usedAfter
    rw [regionsOf_nil, regionsOf_singleton] at exchanged
    exact ⟨.success, changed, whole, done, config, .free exchanged fits origins⟩
  · -- No block in use fits what is asked for.
    have missing : ∀ block ∈ provider.allBlocks, block.data = ptr → block.used = true →
        bytes ≠ 0 ∧ bytes ≠ block.size := by
      intro block member address used
      by_contra fits
      exact found ⟨block, member, address, used, by omega⟩
    obtain ⟨result, failed, different⟩ := consistent.free_failure missing memory
    refine ⟨result, provider, consistent, failed, rfl, .notFreed (fun size live => ?_) different⟩
    obtain ⟨block, member, address, rfl, used⟩ := (mem_heap consistent.blocks).mp live
    exact missing block member address used

/-- A split makes of the memory what it may. -/
theorem Consistent.split_step (consistent : Consistent provider) (ptr totalSize firstSize : Nat)
    (memory : NewBlock) :
    ∃ result changed, ∃ whole : Consistent changed,
      allocationSplit provider ptr totalSize firstSize memory = some (result, changed) ∧
      changed.config = provider.config ∧
      MemoryStep (memoryOf provider consistent.blocks)
        (.allocationSplit ptr totalSize firstSize memory) (result, 0)
        (memoryOf changed whole.blocks) := by
  -- A split succeeds exactly if the block is there, both parts are not empty, and there is memory.
  by_cases possible : (∃ block ∈ provider.allBlocks, block.data = ptr ∧ block.used = true ∧
      block.size = totalSize) ∧ 0 < firstSize ∧ firstSize < totalSize ∧ memory.given = true
  · obtain ⟨⟨block, member, rfl, used, rfl⟩, lower, upper, given⟩ := possible
    obtain ⟨before, after, place⟩ := List.append_of_mem member
    obtain ⟨changed, done, whole, config, origins, blocks⟩ :=
      consistent.split_success place used lower upper given
    have usedBefore : provider.allBlocks.filter Block.used =
        before.filter Block.used ++ ([block] ++ after.filter Block.used) := by
      rw [place, List.filter_append, List.filter_cons_of_pos used]
      rfl
    -- The two parts are in use in the place of the block.
    have usedAfter : changed.allBlocks.filter Block.used =
        before.filter Block.used ++ (splitParts block firstSize ++ after.filter Block.used) := by
      rw [blocks, List.filter_append, List.filter_append]
      simp [splitParts, used]
    have exchanged := heap_exchanged [block] (splitParts block firstSize) consistent.blocks
      whole.blocks usedBefore usedAfter
    have parts : regionsOf (splitParts block firstSize) =
        {(block.data, firstSize), (block.data + firstSize, block.size - firstSize)} := by
      ext region
      simp [regionsOf, splitParts, eq_comm]
    rw [regionsOf_singleton, parts] at exchanged
    exact ⟨.success, changed, whole, done, config, .split exchanged lower upper origins⟩
  · -- What is missing for the provider is missing in the memory.
    have wrong : ∀ block ∈ provider.allBlocks, block.data = ptr → block.used = true →
        block.size = totalSize → 0 < firstSize → firstSize < totalSize → memory.given = false := by
      intro block member address used size lower upper
      rw [← Bool.not_eq_true]
      exact fun given => possible ⟨⟨block, member, address, used, size⟩, lower, upper, given⟩
    obtain ⟨result, failed, different⟩ := consistent.split_failure wrong
    refine ⟨result, provider, consistent, failed, rfl, .notSplit (fun live => ?_) different⟩
    obtain ⟨block, member, address, size, used⟩ := (mem_heap consistent.blocks).mp live
    exact wrong block member address used size

/-- Two blocks that touch are neighbours. -/
theorem Layout.adjacent {blocks : List Block} {a b : Block} (layout : Layout blocks)
    (first : a ∈ blocks) (second : b ∈ blocks) (contiguous : a.data + a.size = b.data) :
    ∃ before after, blocks = before ++ a :: b :: after := by
  -- The second block is behind the first one, as it begins where that ends.
  obtain ⟨before, rest, rfl⟩ := List.append_of_mem first
  have size := (layout.nonzero a first).2
  obtain ⟨-, right, across⟩ := List.pairwise_append.mp layout.apart
  obtain ⟨behind, apart⟩ := List.pairwise_cons.mp right
  rcases List.mem_append.mp second with early | late
  · have ends := across b early a List.mem_cons_self
    omega
  · rcases List.mem_cons.mp late with rfl | late
    · omega
    · cases rest with
      | nil => exact absurd late List.not_mem_nil
      | cons next rest =>
        -- A block in between would begin where the second one does.
        rcases List.mem_cons.mp late with rfl | late
        · exact ⟨before, rest, rfl⟩
        · have begins := behind next List.mem_cons_self
          have ends := (List.pairwise_cons.mp apart).1 b late
          have positive := (layout.nonzero next
            (List.mem_append_right _ (List.mem_cons_of_mem _ List.mem_cons_self))).2
          omega

/-- A merge makes of the memory what it may. -/
theorem Consistent.merge_step (consistent : Consistent provider)
    (lowPtr highPtr totalSize : Nat) :
    ∃ result changed, ∃ whole : Consistent changed,
      allocationMerge provider lowPtr highPtr totalSize = some (result, changed) ∧
      changed.config = provider.config ∧
      MemoryStep (memoryOf provider consistent.blocks)
        (.allocationMerge lowPtr highPtr totalSize) (result, 0)
        (memoryOf changed whole.blocks) := by
  -- A merge succeeds exactly if the two blocks are neighbours that may be merged.
  by_cases possible : ∃ before a b after, provider.allBlocks = before ++ a :: b :: after ∧
      a.data = lowPtr ∧ b.data = highPtr ∧ a.size + b.size = totalSize ∧
      Mergeable provider.upstreamBlocks true a b
  · obtain ⟨before, a, b, after, place, rfl, rfl, rfl, mergeable⟩ := possible
    obtain ⟨changed, done, whole, config, origins, blocks⟩ :=
      consistent.merge_success place mergeable
    have usedBefore : provider.allBlocks.filter Block.used =
        before.filter Block.used ++ ([a, b] ++ after.filter Block.used) := by
      rw [place, List.filter_append, List.filter_cons_of_pos mergeable.first,
        List.filter_cons_of_pos mergeable.second]
      rfl
    -- The one block is in use in the place of the two.
    have usedAfter : changed.allBlocks.filter Block.used =
        before.filter Block.used ++ ([mergedBlock a b] ++ after.filter Block.used) := by
      have used : (mergedBlock a b).used = true := mergeable.first
      rw [blocks, List.filter_append, List.filter_cons_of_pos used]
      rfl
    have exchanged := heap_exchanged [a, b] [mergedBlock a b] consistent.blocks whole.blocks
      usedBefore usedAfter
    have pair : regionsOf [a, b] = {(a.data, a.size), (a.data + a.size, b.size)} := by
      rw [mergeable.contiguous]
      ext region
      simp [regionsOf, eq_comm]
    rw [regionsOf_singleton, pair] at exchanged
    -- The two are parts of one upstream block.
    have joint := mergeable.joint
    refine ⟨.success, changed, whole, done, config, ?_⟩
    rw [← mergeable.contiguous] at joint ⊢
    exact .merge exchanged joint origins
  · -- Regions in use that touch are blocks that are neighbours.
    have wrong : ∀ before a b after, provider.allBlocks = before ++ a :: b :: after →
        a.data = lowPtr → b.data = highPtr → a.size + b.size = totalSize →
          ¬Mergeable provider.upstreamBlocks true a b :=
      fun before a b after place low high size mergeable =>
        possible ⟨before, a, b, after, place, low, high, size, mergeable⟩
    have failed := consistent.merge_failure wrong
    refine ⟨.invalidArgument, provider, consistent, failed, rfl,
      .notMerged fun lowSize highSize low high contiguous size joint => ?_⟩
    obtain ⟨a, first, rfl, rfl, used⟩ := (mem_heap consistent.blocks).mp low
    obtain ⟨b, second, rfl, rfl, usedNext⟩ := (mem_heap consistent.blocks).mp high
    obtain ⟨before, after, place⟩ := consistent.blocks.adjacent first second contiguous
    exact possible ⟨before, a, b, after, place, rfl, rfl, size, used, usedNext, contiguous, joint⟩

/-- An operation is possible, and makes of the memory what it may. -/
theorem Consistent.perform_step (consistent : Consistent provider) {operation : Operation}
    (legal : Legal provider operation) :
    ∃ result ptr changed, ∃ whole : Consistent changed,
      perform provider operation = some (result, ptr, changed) ∧
      changed.config = provider.config ∧
      MemoryStep (memoryOf provider consistent.blocks) operation (result, ptr)
        (memoryOf changed whole.blocks) := by
  -- Each operation has its own lemma; all but an allocation return no address.
  cases operation with
  | alloc size alignment memory => exact consistent.alloc_step legal
  | free ptr bytes memory =>
    obtain ⟨result, changed, whole, done, config, step⟩ := consistent.free_step ptr bytes legal
    exact ⟨result, 0, changed, whole, by rw [perform, done]; rfl, config, step⟩
  | allocationSplit ptr totalSize firstSize memory =>
    obtain ⟨result, changed, whole, done, config, step⟩ :=
      consistent.split_step ptr totalSize firstSize memory
    exact ⟨result, 0, changed, whole, by rw [perform, done]; rfl, config, step⟩
  | allocationMerge lowPtr highPtr totalSize =>
    obtain ⟨result, changed, whole, done, config, step⟩ :=
      consistent.merge_step lowPtr highPtr totalSize
    exact ⟨result, 0, changed, whole, by rw [perform, done]; rfl, config, step⟩

/-- Operations one after another are possible, and make of the memory what they may. -/
theorem Consistent.performAll_run (consistent : Consistent provider) {operations : List Operation}
    (legal : LegalRun provider operations) :
    ∃ replies changed, ∃ whole : Consistent changed,
      performAll provider operations = some (replies, changed) ∧
      changed.config = provider.config ∧
      MemoryRun (memoryOf provider consistent.blocks) operations replies
        (memoryOf changed whole.blocks) := by
  -- By induction on the operations, each of which leaves the provider as it has to be.
  induction operations generalizing provider with
  | nil => exact ⟨[], provider, consistent, rfl, rfl, rfl⟩
  | cons operation rest ih =>
    obtain ⟨result, ptr, middle, whole, done, config, step⟩ := consistent.perform_step legal.1
    obtain ⟨replies, changed, final, doneRest, configRest, run⟩ :=
      ih whole (legal.2 result ptr middle done)
    refine ⟨(result, ptr) :: replies, changed, final, ?_, configRest.trans config,
      memoryOf middle whole.blocks, step, run⟩
    simp [performAll, done, doneRest]

end SecretTyping.Umf.Coarse
