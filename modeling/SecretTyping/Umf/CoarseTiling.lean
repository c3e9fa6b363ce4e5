import SecretTyping.Umf.CoarseSteps

/-! No memory is lost: the blocks are all of what the upstream provider has given, and what is free
of it is in one block as far as that is possible. -/

namespace SecretTyping.Umf.Coarse

open Segments

variable {provider : Provider} {low high size alignment address : Nat}

/-- Each address of an upstream block is one of a block. -/
theorem Shape.tiled (shape : Shape provider) (covered : Covered provider.upstreamBlocks address) :
    Covered provider.allBlocks address := by
  -- The blocks are inside of the upstream blocks, and as large as they are.
  have same := shape.blocks.apart.covered_eq shape.upstream.apart
    (shape.sizes.trans shape.upstreamSizes.symm) (by
      intro number member
      obtain ⟨block, inside, lower, upper⟩ := mem_covered.mp member
      obtain ⟨origin, home, below, above⟩ := shape.inside block inside
      exact mem_covered.mpr ⟨origin, home, by omega, by omega⟩)
  have member := mem_covered.mpr covered
  rw [← same] at member
  exact mem_covered.mp member

/-- What is free of an upstream block without a gap is in one free block. -/
theorem Consistent.free_range (consistent : Consistent provider) {origin : Block}
    (home : origin ∈ provider.upstreamBlocks) (lower : origin.data ≤ low) (some : low < high)
    (upper : high ≤ origin.data + origin.size)
    (unoccupied : ∀ block ∈ provider.allBlocks, block.used = true →
      block.data + block.size ≤ low ∨ high ≤ block.data) :
    ∃ block ∈ provider.allBlocks, block.used = false ∧ block.data ≤ low ∧
      high ≤ block.data + block.size := by
  -- The block that has the first address is free, as nothing is in use of the range.
  obtain ⟨block, member, begins, ends⟩ :=
    consistent.tiled ⟨origin, home, lower, by omega⟩
  have unused : block.used = false := by
    rw [← Bool.not_eq_true]
    intro used
    rcases unoccupied block member used with before | behind <;> omega
  by_cases whole : high ≤ block.data + block.size
  · exact ⟨block, member, unused, begins, whole⟩
  · -- The block where this one ends is free, too, and would have been merged with it.
    have covered : Covered provider.upstreamBlocks (block.data + block.size) :=
      ⟨origin, home, by omega, by omega⟩
    obtain ⟨next, also, beginsNext, endsNext⟩ := consistent.tiled covered
    have touching : block.data + block.size = next.data := by
      rcases consistent.blocks.apart.order member also with rfl | before | behind <;> omega
    have unusedNext : next.used = false := by
      rw [← Bool.not_eq_true]
      intro used
      rcases unoccupied next also used with before | behind <;> omega
    exact absurd ⟨unused, unusedNext, touching, origin, home, by omega, by omega⟩
      (consistent.merged block member next also)

/-- If no free block has a size and an alignment together, each range that has is occupied. -/
theorem Consistent.occupied (consistent : Consistent provider) (positive : 0 < size)
    (exhausted : Exhausted provider size alignment) {origin : Block}
    (home : origin ∈ provider.upstreamBlocks) (lower : origin.data ≤ low)
    (upper : low + (size + alignment) ≤ origin.data + origin.size) :
    ∃ block ∈ provider.allBlocks, block.used = true ∧ low < block.data + block.size ∧
      block.data < low + (size + alignment) := by
  -- If the range were free, one free block would have it, and would be large enough.
  by_contra none
  have unoccupied : ∀ block ∈ provider.allBlocks, block.used = true →
      block.data + block.size ≤ low ∨ low + (size + alignment) ≤ block.data := by
    intro block member used
    by_contra beside
    exact none ⟨block, member, used, by omega, by omega⟩
  obtain ⟨block, member, unused, begins, ends⟩ :=
    consistent.free_range home lower (by omega) upper unoccupied
  have small := exhausted block member unused
  omega

/-- If nothing is in use, each upstream block is one free block. -/
theorem Consistent.whole_free (consistent : Consistent provider)
    (unused : ∀ block ∈ provider.allBlocks, block.used = false) :
    regionsOf provider.allBlocks = regionsOf provider.upstreamBlocks := by
  -- There is a free block for all of an upstream block, and it is not larger.
  have whole : ∀ origin ∈ provider.upstreamBlocks, ∃ block ∈ provider.allBlocks,
      block.data = origin.data ∧ block.size = origin.size := by
    intro origin home
    have positive := (consistent.upstream.nonzero origin home).2
    obtain ⟨block, member, -, begins, ends⟩ := consistent.free_range home (Nat.le_refl _)
      (Nat.lt_add_of_pos_right positive) (Nat.le_refl _) fun block member used =>
        absurd ((unused block member).symm.trans used) Bool.false_ne_true
    obtain ⟨other, inside, lower, upper⟩ := consistent.inside block member
    have same : other = origin := consistent.upstream.eq_of_common origin.data inside home
      (by omega) (by omega)
    subst same
    exact ⟨block, member, by omega, by omega⟩
  -- Both have the same regions.
  ext region
  apply Iff.intro
  · rintro ⟨block, member, rfl⟩
    obtain ⟨origin, home, lower, upper⟩ := consistent.inside block member
    obtain ⟨other, also, begins, length⟩ := whole origin home
    have positive := (consistent.blocks.nonzero block member).2
    have same : block = other := consistent.blocks.eq_of_common block.data member also (by omega)
      (by omega)
    exact ⟨origin, home, by rw [same, begins, length]⟩
  · rintro ⟨origin, home, rfl⟩
    obtain ⟨block, member, begins, length⟩ := whole origin home
    exact ⟨block, member, by rw [begins, length]⟩

end SecretTyping.Umf.Coarse
