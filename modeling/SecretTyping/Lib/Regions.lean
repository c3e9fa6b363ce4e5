import Mathlib.Data.Set.Basic

/-! Regions of numbers that are in use, no two of which overlap, and how some are exchanged. -/

namespace SecretTyping.Regions

/-- One of two regions, each a start and a size, ends before the other one begins. -/
def Beside (first second : Nat × Nat) : Prop :=
  first.1 + first.2 ≤ second.1 ∨ second.1 + second.2 ≤ first.1

/-- The regions that are in use: none of them is empty, and no two of them overlap. -/
structure Occupancy where
  live : Set (Nat × Nat)
  positive : ∀ region ∈ live, 0 < region.2
  apart : ∀ first ∈ live, ∀ second ∈ live, first = second ∨ Beside first second

/-- Some regions are no longer in use, and others are instead. -/
structure Exchanged (regions : Occupancy) (old new : Set (Nat × Nat)) (after : Occupancy) :
    Prop where
  known : old ⊆ regions.live
  unused : ∀ region ∈ new, region ∈ regions.live → region ∈ old
  live : after.live = (regions.live \ old) ∪ new

/-- Regions have been exchanged if what is in use before and afterwards is the same but for them. -/
theorem exchanged_of_parts {regions after : Occupancy} {stays old new : Set (Nat × Nat)}
    (before : regions.live = stays ∪ old) (behind : after.live = stays ∪ new)
    (apartOld : ∀ region ∈ stays, region ∉ old) (apartNew : ∀ region ∈ stays, region ∉ new) :
    Exchanged regions old new after := by
  refine ⟨?_, fun region member live => ?_, ?_⟩
  · rw [before]
    exact Set.subset_union_right
  · rw [before] at live
    exact live.resolve_left fun kept => apartNew region kept member
  · -- What stays is what is left without the old regions.
    have rest : (stays ∪ old) \ old = stays := by
      ext region
      simp only [Set.mem_sdiff, Set.mem_union]
      apply Iff.intro
      · rintro ⟨member, other⟩
        exact member.resolve_right other
      · exact fun kept => ⟨Or.inl kept, apartOld region kept⟩
    rw [before, rest, behind]

end SecretTyping.Regions
