import SecretTyping.Lib.Regions
import SecretTyping.Umf.CoarseUpstream

/-! The blocks in use as regions of memory, and what each operation makes of them. -/

namespace SecretTyping.Umf.Coarse

open Sorted Segments Regions

variable {provider changed : Provider} {before after : List Block} {block a b : Block}

/-- The regions of blocks. -/
def regionsOf (blocks : List Block) : Set (Nat × Nat) :=
  {region | ∃ block ∈ blocks, (block.data, block.size) = region}

/-- One of the blocks in use is one of the blocks. -/
theorem mem_of_filter_used {blocks used : List Block} {curr : Block}
    (inUse : blocks.filter Block.used = used) (member : curr ∈ used) : curr ∈ blocks := by
  rw [← inUse] at member
  exact List.mem_of_mem_filter member

/-- The regions that are in use. -/
def heap (provider : Provider) (layout : Layout provider.allBlocks) : Occupancy where
  live := regionsOf (provider.allBlocks.filter Block.used)
  positive := by
    rintro region ⟨block, member, rfl⟩
    exact (layout.nonzero block (List.mem_of_mem_filter member)).2
  apart := by
    rintro _ ⟨first, member, rfl⟩ _ ⟨second, also, rfl⟩
    rcases layout.apart.order (List.mem_of_mem_filter member) (List.mem_of_mem_filter also) with
      same | beside
    · exact Or.inl (by rw [same])
    · exact Or.inr beside

/-- The regions of blocks that are appended. -/
theorem regionsOf_append (first second : List Block) :
    regionsOf (first ++ second) = regionsOf first ∪ regionsOf second := by
  ext region
  simp [regionsOf, or_and_right, exists_or]

/-- A region in use is that of a used block. -/
theorem mem_heap (layout : Layout provider.allBlocks) {data size : Nat} :
    (data, size) ∈ (heap provider layout).live ↔
      ∃ block ∈ provider.allBlocks, block.data = data ∧ block.size = size ∧ block.used = true := by
  -- A region in use comes from a used block, and is told by its address and size.
  apply Iff.intro
  · rintro ⟨block, member, same⟩
    obtain ⟨rfl, rfl⟩ := Prod.mk.inj same
    obtain ⟨inside, used⟩ := List.mem_filter.mp member
    exact ⟨block, inside, rfl, rfl, used⟩
  · rintro ⟨block, inside, rfl, rfl, used⟩
    exact ⟨block, List.mem_filter.mpr ⟨inside, used⟩, rfl⟩

/-- Blocks that lie one behind the other have different regions. -/
theorem not_mem_regionsOf {first second : List Block}
    (apart : Apart Block.data Block.size (first ++ second))
    (positive : ∀ block ∈ first ++ second, 0 < block.size) :
    ∀ region ∈ regionsOf first, region ∉ regionsOf second := by
  -- Otherwise a block would begin before it ends.
  rintro _ ⟨block, member, rfl⟩ ⟨other, also, same⟩
  obtain ⟨sameData, -⟩ := Prod.mk.inj same
  have order := (List.pairwise_append.mp apart).2.2 block member other also
  have size := positive block (List.mem_append_left _ member)
  omega

/-- If used blocks are exchanged for others, so are their regions. -/
theorem heap_exchanged (old new : List Block) (layout : Layout provider.allBlocks)
    (layoutChanged : Layout changed.allBlocks)
    (usedBefore : provider.allBlocks.filter Block.used = before ++ (old ++ after))
    (usedAfter : changed.allBlocks.filter Block.used = before ++ (new ++ after)) :
    Exchanged (heap provider layout) (regionsOf old) (regionsOf new)
      (heap changed layoutChanged) := by
  -- What stays in use is in front of the blocks that are exchanged, or behind them.
  have stays : ∀ {provider : Provider} {blocks : List Block} (layout : Layout provider.allBlocks),
      provider.allBlocks.filter Block.used = before ++ (blocks ++ after) →
      (heap provider layout).live = (regionsOf before ∪ regionsOf after) ∪ regionsOf blocks ∧
        ∀ region ∈ regionsOf before ∪ regionsOf after, region ∉ regionsOf blocks := by
    intro provider blocks layout used
    have live : (heap provider layout).live =
        regionsOf (provider.allBlocks.filter Block.used) := rfl
    have apart : Apart Block.data Block.size (before ++ (blocks ++ after)) :=
      used ▸ layout.apart.filter _
    have positive : ∀ block ∈ before ++ (blocks ++ after), 0 < block.size := by
      intro block member
      rw [← used] at member
      exact (layout.nonzero block (List.mem_of_mem_filter member)).2
    have right := (List.pairwise_append.mp apart).2.1
    have front := not_mem_regionsOf apart positive
    have back := not_mem_regionsOf right fun block member =>
      positive block (List.mem_append_right _ member)
    rw [regionsOf_append] at front
    refine ⟨?_, ?_⟩
    · rw [live, used, regionsOf_append, regionsOf_append, Set.union_assoc,
        Set.union_comm (regionsOf blocks)]
    · rintro region (kept | kept) member
      · exact front region kept (Or.inl member)
      · exact back region member kept
  -- Before and after, the same blocks stay.
  obtain ⟨liveBefore, apartBefore⟩ := stays layout usedBefore
  obtain ⟨liveAfter, apartAfter⟩ := stays layoutChanged usedAfter
  exact exchanged_of_parts liveBefore liveAfter apartBefore apartAfter

end SecretTyping.Umf.Coarse
