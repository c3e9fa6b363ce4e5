import SecretTyping.Umf.CoarseLife

/-! The life of a provider from when it is made until it is destroyed, and what the upstream
provider gives and is given back. -/

namespace SecretTyping.Umf.Coarse

open Segments Regions

variable {provider changed : Provider} {params : Params} {memory : InitMemory}
  {operations : List Operation} {replies : List (Result × Nat)} {address : Nat}

section Ledger

/-- What the upstream provider gives to an operation, by what that returns. -/
def grant : Operation → Result × Nat → List (Nat × Nat)
  | .alloc size _ memory, (.success, ptr) => if ptr = memory.ptr then [(ptr, size)] else []
  | _, _ => []

/-- What the upstream provider gives to operations, by what they return. -/
def grants : List Operation → List (Result × Nat) → List (Nat × Nat)
  | operation :: operations, reply :: replies => grant operation reply ++ grants operations replies
  | _, _ => []

/-- An address is in one of the regions. -/
def InRegions (regions : List (Nat × Nat)) (address : Nat) : Prop :=
  ∃ region ∈ regions, region.1 ≤ address ∧ address < region.1 + region.2

/-- The sum of the sizes of regions. -/
def sumRegions (regions : List (Nat × Nat)) : Nat := (regions.map Prod.snd).sum

/-- Upstream blocks have grown by what has been given, and by nothing else. -/
structure Grown (before after : List Block) (given : List (Nat × Nat)) : Prop where
  sizes : total after = total before + sumRegions given
  covered : ∀ address, Covered after address ↔ Covered before address ∨ InRegions given address

/-- The regions of upstream blocks have the same addresses. -/
theorem inRegions_map (blocks : List Block) (address : Nat) :
    InRegions (blocks.map fun block => (block.data, block.size)) address ↔
      Covered blocks address := by
  simp [InRegions, Covered]

/-- The regions of upstream blocks have the same sizes. -/
theorem sumRegions_map (blocks : List Block) :
    sumRegions (blocks.map fun block => (block.data, block.size)) = total blocks := by
  rw [sumRegions, List.map_map]
  rfl

/-- Upstream blocks that are the same have grown by nothing. -/
theorem grown_nil (blocks : List Block) : Grown blocks blocks [] := by
  refine ⟨rfl, fun address => ?_⟩
  simp [InRegions]

/-- Upstream blocks grow one time after the other. -/
theorem Grown.trans {before middle after : List Block} {first second : List (Nat × Nat)}
    (early : Grown before middle first) (late : Grown middle after second) :
    Grown before after (first ++ second) := by
  -- What has been given is put together, and so is what it covers.
  refine ⟨?_, fun address => ?_⟩
  · rw [late.sizes, early.sizes, sumRegions, sumRegions, sumRegions, List.map_append,
      List.sum_append, Nat.add_assoc]
  · rw [late.covered, early.covered, or_assoc]
    simp only [InRegions, List.mem_append, or_and_right, exists_or]

/-- Upstream blocks that are extended have grown by the new range. -/
theorem Extended.grown {before after : List Block} {data size : Nat}
    (extended : Extended before after data size) : Grown before after [(data, size)] := by
  refine ⟨?_, fun other => ?_⟩
  · rw [extended.sizes]
    rfl
  · have single : InRegions [(data, size)] other ↔ data ≤ other ∧ other < data + size := by
      simp [InRegions]
    rw [single]
    -- The extended blocks cover the old ones and the new range, and nothing else.
    apply Iff.intro
    · exact extended.within other
    · rintro (⟨block, member, lower, upper⟩ | ⟨lower, upper⟩)
      · obtain ⟨home, inside, left, right⟩ := extended.covers block member
        exact ⟨home, inside, by omega, by omega⟩
      · obtain ⟨home, inside, left, right⟩ := extended.coversNew
        exact ⟨home, inside, by omega, by omega⟩

/-- The upstream blocks grow by what the upstream provider gives to an operation. -/
theorem Consistent.grown_step (consistent : Consistent provider) {operation : Operation}
    {reply : Result × Nat} {after : Memory} (legal : Legal provider operation)
    (step : MemoryStep (memoryOf provider consistent.blocks) operation reply after) :
    Grown provider.upstreamBlocks after.origins (grant operation reply) := by
  -- Only an allocation may be given something.
  have same : ∀ origins, origins = provider.upstreamBlocks →
      Grown provider.upstreamBlocks origins [] := by
    rintro origins rfl
    exact grown_nil _
  cases step with
  | reuse exchanged aligned inside origins =>
    -- What is reused is inside of an upstream block, and what is given is not.
    next data memory =>
    obtain ⟨home, member, lower, upper⟩ := inside
    have positive := legal.positive
    have different : data ≠ memory.ptr := by
      rintro rfl
      have begins := (consistent.upstream.nonzero home member).1
      obtain ⟨fresh, -⟩ := legal.upstream (by omega)
      rcases fresh.beside home member with front | behind <;> omega
    rw [grant, if_neg different]
    exact same _ origins
  | extend exchanged aligned full extended =>
    rw [grant, if_pos rfl]
    exact extended.grown
  | exhausted full => exact grown_nil _
  | free exchanged fits origins => exact same _ origins
  | notFreed missing failed => exact grown_nil _
  | split exchanged positive less origins => exact same _ origins
  | notSplit missing failed => exact grown_nil _
  | merge exchanged joint origins => exact same _ origins
  | notMerged missing => exact grown_nil _

/-- The upstream blocks grow by what the upstream provider gives to operations. -/
theorem Consistent.grown_run (consistent : Consistent provider)
    (legal : LegalRun provider operations)
    (done : performAll provider operations = some (replies, changed)) :
    Grown provider.upstreamBlocks changed.upstreamBlocks (grants operations replies) := by
  -- By induction on the operations.
  induction operations generalizing provider replies with
  | nil =>
    cases done
    exact grown_nil _
  | cons operation rest ih =>
    -- The first operation gives its part, and the others give theirs.
    obtain ⟨result, ptr, middle, whole, performed, -, step⟩ := consistent.perform_step legal.1
    rw [performAll, performed, Option.bind_eq_bind, Option.bind_some] at done
    obtain ⟨⟨repliesRest, last⟩, doneRest, same⟩ := Option.bind_eq_some_iff.mp done
    cases same
    exact (consistent.grown_step legal.1 step).trans
      (ih whole (legal.2 result ptr middle performed) doneRest)

end Ledger

section Life

/-- A provider that has been made is ready. -/
theorem LegalInit.ready (legal : LegalInit params memory)
    (made : coarseInitialize params memory = some (.success, some provider)) :
    Ready params memory provider := by
  have outcome := coarseInitialize_spec legal
  rw [made] at outcome
  cases outcome with
  | made ready => exact ready

/-- A provider is only made of parameters that are valid. -/
theorem valid_of_made (made : coarseInitialize params memory = some (.success, some provider)) :
    paramsValid params = true := by
  by_contra invalid
  rw [Bool.not_eq_true] at invalid
  rw [coarseInitialize, invalid] at made
  cases made

/-- A provider that has been made stays as it has to be. -/
theorem LegalInit.reached (legal : LegalInit params memory)
    (made : coarseInitialize params memory = some (.success, some provider))
    (run : LegalRun provider operations)
    (done : performAll provider operations = some (replies, changed)) :
    Consistent changed ∧ changed.config = (emptyProvider params).config := by
  -- The run that is known to exist is the one that has been made.
  have ready := legal.ready made
  obtain ⟨others, other, whole, performed, config, -⟩ := ready.performAll_run run
  rw [performed] at done
  cases done
  exact ⟨whole, config.trans ready.config⟩

/-- The allocator has memory for all that is asked for, and the upstream provider gives memory at an
address, if it is not zero. -/
def somewhere (ptr : Nat) : AllocMemory where
  aligned := someBlock
  padding := ⟨true, true, true⟩
  rest := someBlock
  restFree := ⟨true, true, true⟩
  ptr := ptr
  upstream := ⟨someBlock, someBlock, true, true⟩

/-- All that a provider needs is there, and the upstream provider gives memory at an address, if it
is not zero. -/
def everything (ptr : Nat) : InitMemory where
  provider := true
  upstreamName := true
  name := true
  trees := true
  lock := true
  alloc := somewhere ptr
  free := ⟨true, true, true⟩

/-- Parameters for a buffer of eight bytes that is not aligned to them. -/
def bufferParams : Params where
  upstreamMemoryProvider := false
  disableUpstreamProviderFree := false
  allocationStrategy := .checkAllSize
  initBuffer := 12
  initBufferSize := 8
  immediateInitFromUpstream := false
  destroyUpstreamMemoryProvider := false

/-- Parameters for eight bytes from an upstream provider. -/
def upstreamParams : Params where
  upstreamMemoryProvider := true
  disableUpstreamProviderFree := false
  allocationStrategy := .fastest
  initBuffer := 0
  initBufferSize := 8
  immediateInitFromUpstream := true
  destroyUpstreamMemoryProvider := false

/-- The provider of the buffer. -/
def bufferProvider : Provider :=
  { emptyProvider bufferParams with
    allocSize := 8
    upstreamBlocks := [⟨12, 8, false, false⟩]
    allBlocks := [⟨12, 8, false, true⟩]
    freeBlocks := [⟨8, [12]⟩] }

/-- The provider of the memory from an upstream provider. -/
def upstreamProvider : Provider :=
  { emptyProvider upstreamParams with
    allocSize := 8
    upstreamBlocks := [⟨16, 8, false, false⟩]
    allBlocks := [⟨16, 8, false, true⟩]
    freeBlocks := [⟨8, [16]⟩] }

/-- The allocator has memory for all that is asked for, wherever the upstream provider gives it. -/
theorem somewhere_given (ptr : Nat) : (somewhere ptr).Given :=
  ⟨rfl, ⟨rfl, rfl, rfl⟩, rfl, ⟨rfl, rfl, rfl⟩⟩

/-- A buffer may be used for a provider. -/
theorem legalInit_buffer : LegalInit bufferParams (everything 0) :=
  ⟨by decide, fun _ => by decide, fun some => absurd rfl some⟩

/-- An upstream provider may be used for a provider. -/
theorem legalInit_upstream : LegalInit upstreamParams (everything 16) :=
  ⟨by decide, fun _ => by decide, fun _ => by decide⟩

/-- The provider of the buffer is made. -/
theorem made_buffer : coarseInitialize bufferParams (everything 0) =
    some (.success, some bufferProvider) := rfl

/-- The provider of the memory from an upstream provider is made. -/
theorem made_upstream : coarseInitialize upstreamParams (everything 16) =
    some (.success, some upstreamProvider) := rfl

/-- Four bytes of a buffer may be asked for, be split and merged, and freed. -/
theorem legalRun_buffer : LegalRun bufferProvider [.alloc 4 0 (somewhere 0),
    .allocationSplit 12 4 1 someBlock, .allocationMerge 12 13 4,
    .free 12 0 ⟨true, true, true⟩] := by
  -- Nothing is aligned, so nothing can be a misfit.
  have consistent := (legalInit_buffer.ready made_buffer).toConsistent
  refine ⟨⟨⟨by decide, by decide, Or.inl rfl, somewhere_given 0, fun some => absurd rfl some⟩,
    consistent.not_misfit (Or.inl rfl) (by decide) (Or.inr (Nat.zero_le 1))⟩, ?_⟩
  exact fun _ _ _ _ => ⟨trivial, fun _ _ _ _ => ⟨trivial, fun _ _ _ _ =>
    ⟨⟨rfl, rfl, rfl⟩, fun _ _ _ _ => trivial⟩⟩⟩

/-- More memory may be asked for than the upstream provider has given at once. -/
theorem legalRun_upstream : LegalRun upstreamProvider [.alloc 16 0 (somewhere 24)] := by
  have consistent := (legalInit_upstream.ready made_upstream).toConsistent
  refine ⟨⟨⟨by decide, by decide, Or.inl rfl, somewhere_given 24, fun _ => ⟨?_, rfl⟩⟩,
    consistent.not_misfit (Or.inl rfl) (by decide) (Or.inr (Nat.zero_le 1))⟩, ?_⟩
  · exact ⟨by decide, by decide, by decide, by decide⟩
  · exact fun _ _ _ _ => trivial

/-- Whatever has been asked of a provider, and is still in use of it, it can be destroyed, and gives
back each address once that the upstream provider has given, unless that frees nothing. -/
theorem coarse_returns_memory (legal : LegalInit params memory)
    (made : coarseInitialize params memory = some (.success, some provider))
    (run : LegalRun provider operations) :
    ∃ replies changed freed, performAll provider operations = some (replies, changed) ∧
      coarseFinalize changed = some freed ∧
      if params.upstreamMemoryProvider && !params.disableUpstreamProviderFree then
        freed.Pairwise (fun first second => first.1 + first.2 ≤ second.1) ∧
        sumRegions freed =
          sumRegions ((memory.alloc.ptr, params.initBufferSize) :: grants operations replies) ∧
        ∀ address, InRegions freed address ↔
          InRegions ((memory.alloc.ptr, params.initBufferSize) :: grants operations replies) address
      else freed = [] := by
  -- What the upstream blocks have become is the ledger of what has been given.
  have ready := legal.ready made
  obtain ⟨replies, changed, whole, done, config, -⟩ := ready.performAll_run run
  have grown := ready.grown_run run done
  refine ⟨replies, changed, _, done, whole.coarseFinalize_spec, ?_⟩
  -- Whether memory is given back is told by the parameters.
  have same : givesBack changed =
      (params.upstreamMemoryProvider && !params.disableUpstreamProviderFree) := by
    have config := config.trans ready.config
    simp only [Provider.config, Prod.mk.injEq, emptyProvider] at config
    rw [givesBack, config.1, config.2.1]
    cases params.upstreamMemoryProvider <;> rfl
  rw [same]
  split
  · next back =>
    rw [Bool.and_eq_true] at back
    have buffer := (paramsValid_spec (valid_of_made made)).1.mp back.1
    -- The blocks are apart, their sizes are those given, and so are their addresses.
    refine ⟨List.pairwise_map.mpr whole.upstream.apart, ?_, fun address => ?_⟩
    · have first := ready.upstreamSizes.trans ready.size
      rw [sumRegions_map, grown.sizes, first]
      rfl
    · have start := ready.covered address
      rw [if_pos buffer] at start
      rw [inRegions_map, grown.covered, start]
      simp only [InRegions, List.mem_cons, or_and_right, exists_or, exists_eq_left]
  · rfl

/-- The memory that is given at once and what is given later are given back. -/
theorem coarse_returns_memory_upstream :
    ∃ replies changed freed,
      performAll upstreamProvider [.alloc 16 0 (somewhere 24)] = some (replies, changed) ∧
      coarseFinalize changed = some freed ∧ sumRegions freed =
        sumRegions ((16, 8) :: grants [.alloc 16 0 (somewhere 24)] replies) := by
  obtain ⟨replies, changed, freed, done, destroyed, back⟩ :=
    coarse_returns_memory legalInit_upstream made_upstream legalRun_upstream
  exact ⟨replies, changed, freed, done, destroyed, back.2.1⟩

/-- Whatever has been asked of a provider that there was memory for, each range of an upstream block
that nothing is in use of is inside of one free block; if nothing at all is in use, the blocks are
the upstream blocks. -/
theorem coarse_keeps_whole (legal : LegalInit params memory)
    (made : coarseInitialize params memory = some (.success, some provider))
    (run : LegalRun provider operations)
    (done : performAll provider operations = some (replies, changed)) :
    (∀ origin ∈ changed.upstreamBlocks, ∀ low high, origin.data ≤ low → low < high →
      high ≤ origin.data + origin.size →
      (∀ block ∈ changed.allBlocks, block.used = true →
        block.data + block.size ≤ low ∨ high ≤ block.data) →
      ∃ block ∈ changed.allBlocks, block.used = false ∧ block.data ≤ low ∧
        high ≤ block.data + block.size) ∧
    (changed.usedSize = 0 →
      regionsOf changed.allBlocks = regionsOf changed.upstreamBlocks) := by
  obtain ⟨whole, -⟩ := legal.reached made run done
  -- What is not occupied is inside of one free block.
  refine ⟨fun origin home low high lower some upper unoccupied =>
    whole.free_range home lower some upper unoccupied, fun zero => whole.whole_free ?_⟩
  intro block member
  rw [← Bool.not_eq_true]
  intro used
  -- A used block would be part of the used size.
  have sum := whole.usedSizes
  obtain ⟨before, after, place⟩ := List.append_of_mem (List.mem_filter.mpr ⟨member, used⟩)
  rw [place, total_append, total_cons, zero] at sum
  have positive := (whole.blocks.nonzero block member).2
  omega

/-- The provider of a buffer is one free block again when all has been freed. -/
theorem coarse_keeps_whole_buffer :
    ∃ replies changed, performAll bufferProvider [.alloc 4 0 (somewhere 0),
        .allocationSplit 12 4 1 someBlock, .allocationMerge 12 13 4,
        .free 12 0 ⟨true, true, true⟩] = some (replies, changed) ∧
      regionsOf changed.allBlocks = regionsOf changed.upstreamBlocks :=
  ⟨_, _, rfl, (coarse_keeps_whole legalInit_buffer made_buffer legalRun_buffer rfl).2 rfl⟩

/-- An assertion fails when a provider is made exactly if there is no memory for its first block,
though the upstream provider has given that, or none to list it; success is told without a provider
exactly if only the lock is not made. -/
theorem coarseInitialize_fails (legal : LegalInit params memory) :
    (coarseInitialize params memory = none ↔
      FirstLost params memory ∨ FirstUnlisted params memory) ∧
    (coarseInitialize params memory = some (.success, none) ↔ Prepared params memory false) := by
  -- What is lost or not listed has a lock, and each outcome tells apart what it is of.
  have locked : FirstLost params memory ∨ FirstUnlisted params memory →
      ¬Prepared params memory false := by
    rintro (lost | lost)
    · exact lost.prepared.locked
    · exact lost.prepared.locked
  have outcome := coarseInitialize_spec legal
  -- There is one case for each way that the initialization may end.
  generalize coarseInitialize params memory = result at outcome ⊢
  cases outcome with
  | failed lost =>
    exact ⟨iff_of_true rfl lost, iff_of_false (Option.some_ne_none _).symm (locked lost)⟩
  | unlocked prepared =>
    exact ⟨iff_of_false (Option.some_ne_none _) fun lost => locked lost prepared,
      iff_of_true rfl prepared⟩
  | refused different kept unlocked =>
    refine ⟨iff_of_false (Option.some_ne_none _) kept, iff_of_false (fun same => ?_) unlocked⟩
    exact different (congrArg Prod.fst (Option.some.inj same))
  | made ready kept unlocked =>
    refine ⟨iff_of_false (Option.some_ne_none _) kept, iff_of_false (fun same => ?_) unlocked⟩
    exact Option.some_ne_none _ (congrArg Prod.snd (Option.some.inj same))

/-- An assertion fails if there is no memory for the first block, or for the element that would list
it, and no provider is made if its lock is not. -/
theorem coarseInitialize_fails_upstream :
    coarseInitialize upstreamParams { everything 16 with
      alloc := { somewhere 16 with upstream := ⟨⟨none, true⟩, someBlock, true, true⟩ } } = none ∧
    coarseInitialize bufferParams { everything 0 with free := ⟨true, true, false⟩ } = none ∧
    coarseInitialize upstreamParams { everything 16 with lock := false } =
      some (.success, none) := by
  refine ⟨(coarseInitialize_fails ?_).1.mpr (Or.inl ⟨⟨rfl, rfl, rfl, rfl, rfl⟩, rfl, rfl, ?_, rfl⟩),
    (coarseInitialize_fails ?_).1.mpr (Or.inr ⟨⟨rfl, rfl, rfl, rfl, rfl⟩, ?_, ?_, rfl, ?_⟩),
    (coarseInitialize_fails ?_).2.mpr ⟨rfl, rfl, rfl, rfl, rfl⟩⟩
  · -- The conditions hold of the concrete parameters.
    exact ⟨by decide, fun _ => by decide, fun _ => by decide⟩
  · exact Nat.succ_ne_zero 15
  · exact ⟨by decide, fun _ => by decide, fun some => absurd rfl some⟩
  · exact Nat.succ_ne_zero 7
  · exact fun none => absurd none (Nat.succ_ne_zero 11)
  · exact fun given => Bool.false_ne_true given.elem
  · exact ⟨by decide, fun _ => by decide, fun _ => by decide⟩

end Life

end SecretTyping.Umf.Coarse
