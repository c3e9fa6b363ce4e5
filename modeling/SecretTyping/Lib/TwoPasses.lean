import Mathlib.Data.List.Basic

/-! The order of a list that is passed over twice, each time for another part of its items. -/

namespace SecretTyping.TwoPasses

variable {Item : Type} {first second : Item → Bool} {items : List Item} {item other : Item}

/-- The items of the first pass and then those of the second. -/
def twoPasses (first second : Item → Bool) (items : List Item) : List Item :=
  items.filter first ++ items.filter second

/-- One item before another in two lists that follow each other. -/
theorem pair_sublist_append {earlier later : List Item} :
    [item, other].Sublist (earlier ++ later) ↔
      [item, other].Sublist earlier ∨ (item ∈ earlier ∧ other ∈ later) ∨
        [item, other].Sublist later := by
  rw [List.sublist_append_iff]
  constructor
  · -- The pair is split before, between or after its two items.
    intro ⟨before, after, split, inEarlier, inLater⟩
    cases before with
    | nil => exact .inr (.inr (split ▸ inLater))
    | cons one rest =>
      simp only [List.cons_append, List.cons.injEq] at split
      obtain ⟨rfl, others⟩ := split
      cases rest with
      | nil =>
        have last : [other] = after := others
        rw [← last] at inLater
        exact .inr (.inl ⟨List.singleton_sublist.mp inEarlier, List.singleton_sublist.mp inLater⟩)
      | cons two rest =>
        simp only [List.cons_append, List.cons.injEq] at others
        obtain ⟨rfl, none⟩ := others
        obtain ⟨rfl, -⟩ := List.append_eq_nil_iff.mp none.symm
        exact .inl inEarlier
  · rintro (inEarlier | ⟨inEarlier, inLater⟩ | inLater)
    · exact ⟨[item, other], [], rfl, inEarlier, List.nil_sublist _⟩
    · exact ⟨[item], [other], rfl, List.singleton_sublist.mpr inEarlier,
        List.singleton_sublist.mpr inLater⟩
    · exact ⟨[], [item, other], rfl, List.nil_sublist _, inLater⟩

/-- Two items of one part stand in it as they stand in the whole list. -/
theorem pair_sublist_filter {part : Item → Bool} (itemIn : part item = true)
    (otherIn : part other = true) :
    [item, other].Sublist (items.filter part) ↔ [item, other].Sublist items := by
  refine ⟨fun pair => pair.trans List.filter_sublist, fun pair => ?_⟩
  have kept := pair.filter part
  rwa [List.filter_cons_of_pos itemIn, List.filter_cons_of_pos otherIn, List.filter_nil] at kept

/-- An item of the first pass comes before every one of the second. -/
theorem pair_sublist_passes (itemIn : first item = true) (otherIn : second other = true) :
    [item, other].Sublist (twoPasses first second items) ↔ item ∈ items ∧ other ∈ items := by
  -- The second item cannot come in the first pass alone.
  rw [twoPasses, pair_sublist_append]
  constructor
  · rintro (pair | ⟨inFirst, inSecond⟩ | pair)
    · exact ⟨(List.mem_filter.mp (pair.subset (by simp))).1,
        (List.mem_filter.mp (pair.subset (by simp))).1⟩
    · exact ⟨(List.mem_filter.mp inFirst).1, (List.mem_filter.mp inSecond).1⟩
    · exact ⟨(List.mem_filter.mp (pair.subset (by simp))).1,
        (List.mem_filter.mp (pair.subset (by simp))).1⟩
  · exact fun members => .inr (.inl ⟨List.mem_filter.mpr ⟨members.1, itemIn⟩,
      List.mem_filter.mpr ⟨members.2, otherIn⟩⟩)

section Disjoint

variable (disjoint : ∀ item, first item = true → second item = false)

include disjoint

/-- Two items of one pass keep their order. -/
theorem pair_sublist_same (together : (first item = true ∧ first other = true) ∨
      (second item = true ∧ second other = true)) :
    [item, other].Sublist (twoPasses first second items) ↔ [item, other].Sublist items := by
  rw [twoPasses, pair_sublist_append]
  -- Neither of the two items is met in the other pass.
  rcases together with ⟨itemIn, otherIn⟩ | ⟨itemIn, otherIn⟩
  · rw [pair_sublist_filter itemIn otherIn]
    refine ⟨?_, .inl⟩
    rintro (pair | ⟨-, inSecond⟩ | pair)
    · exact pair
    · simp [disjoint other otherIn] at inSecond
    · exact pair.trans List.filter_sublist
  · rw [pair_sublist_filter itemIn otherIn]
    refine ⟨?_, fun pair => .inr (.inr pair)⟩
    rintro (pair | ⟨inFirst, -⟩ | pair)
    · exact pair.trans List.filter_sublist
    · have never := disjoint item (List.mem_filter.mp inFirst).2
      rw [itemIn] at never
      cases never
    · exact pair

/-- No item of the second pass comes before one of the first. -/
theorem not_pair_sublist (itemIn : second item = true) (otherIn : first other = true) :
    ¬ [item, other].Sublist (twoPasses first second items) := by
  have itemOut : first item = false := by
    cases inFirst : first item with
    | false => rfl
    | true => rw [disjoint item inFirst] at itemIn; cases itemIn
  rw [twoPasses, pair_sublist_append]
  -- Either the first item would be met in the first pass or the second one in the second.
  rintro (pair | ⟨inFirst, -⟩ | pair)
  · have inFirst := (List.mem_filter.mp (pair.subset (by simp : item ∈ [item, other]))).2
    rw [itemOut] at inFirst
    cases inFirst
  · have inFirst := (List.mem_filter.mp inFirst).2
    rw [itemOut] at inFirst
    cases inFirst
  · have inSecond := (List.mem_filter.mp (pair.subset (by simp : other ∈ [item, other]))).2
    rw [disjoint other otherIn] at inSecond
    cases inSecond

/-- The passes keep the order of all items exactly when no item of the second pass stands before
one of the first. -/
theorem order_kept_iff :
    (∀ item other, (first item = true ∨ second item = true) →
        (first other = true ∨ second other = true) → [item, other].Sublist items →
        [item, other].Sublist (twoPasses first second items)) ↔
      ∀ item other, second item = true → first other = true → ¬ [item, other].Sublist items := by
  constructor
  · intro kept item other itemIn otherIn pair
    have moved := kept item other (.inr itemIn) (.inl otherIn) pair
    exact not_pair_sublist disjoint itemIn otherIn moved
  · intro apart item other itemPass otherPass pair
    -- The two items are of one pass, or in the order of the passes.
    rcases itemPass with itemIn | itemIn
    · rcases otherPass with otherIn | otherIn
      · exact (pair_sublist_same disjoint (.inl ⟨itemIn, otherIn⟩)).mpr pair
      · exact (pair_sublist_passes itemIn otherIn).mpr
          ⟨pair.subset (by simp), pair.subset (by simp)⟩
    · rcases otherPass with otherIn | otherIn
      · exact absurd pair (apart item other itemIn otherIn)
      · exact (pair_sublist_same disjoint (.inr ⟨itemIn, otherIn⟩)).mpr pair

end Disjoint

end SecretTyping.TwoPasses
