import Mathlib.Algebra.Order.Ring.Nat
import Mathlib.Order.Interval.Finset.Nat

/-! Segments of numbers that lie one behind the other, and the exchange of some for others that fill
the same range. -/

namespace SecretTyping.Segments

variable {Item : Type}

section Definitions

variable (start size : Item → Nat)

/-- Each segment ends before the next ones begin. -/
def Apart (items : List Item) : Prop :=
  items.Pairwise fun first second => start first + size first ≤ start second

/-- The segments fill a range without gaps. -/
def Fills : List Item → Nat → Nat → Prop
  | [], low, high => low = high
  | item :: rest, low, high =>
    start item = low ∧ 0 < size item ∧ Fills rest (low + size item) high

/-- The numbers that are in one of the segments. -/
def covered : List Item → Finset Nat
  | [] => ∅
  | item :: rest => Finset.Ico (start item) (start item + size item) ∪ covered rest

end Definitions

variable {start size : Item → Nat} {items old new before after : List Item} {low middle high : Nat}

/-- Segments that fill a range are inside of it. -/
theorem Fills.inside (fills : Fills start size items low high) :
    low ≤ high ∧ ∀ item ∈ items, low ≤ start item ∧ start item + size item ≤ high := by
  -- By induction on the segments, the first of which begins where the range does.
  induction items generalizing low with
  | nil =>
    exact ⟨Nat.le_of_eq fills, fun item member => absurd member List.not_mem_nil⟩
  | cons first rest ih =>
    obtain ⟨begins, positive, fills⟩ := fills
    obtain ⟨ordered, inside⟩ := ih fills
    refine ⟨by omega, fun item member => ?_⟩
    rcases List.mem_cons.mp member with rfl | later
    · omega
    · have bounds := inside item later
      omega

/-- Segments that are appended fill a range if they fill the two parts of it. -/
theorem fills_append {first second : List Item} :
    Fills start size (first ++ second) low high ↔
      ∃ middle, Fills start size first low middle ∧ Fills start size second middle high := by
  -- By induction on the first segments.
  induction first generalizing low with
  | nil =>
    apply Iff.intro
    · intro fills
      exact ⟨low, rfl, fills⟩
    · rintro ⟨middle, rfl, fills⟩
      exact fills
  | cons item rest ih =>
    apply Iff.intro
    · rintro ⟨begins, positive, fills⟩
      obtain ⟨middle, front, back⟩ := ih.mp fills
      exact ⟨middle, ⟨begins, positive, front⟩, back⟩
    · rintro ⟨middle, ⟨begins, positive, front⟩, back⟩
      exact ⟨begins, positive, ih.mpr ⟨middle, front, back⟩⟩

/-- Segments that fill a range lie one behind the other. -/
theorem Fills.apart (fills : Fills start size items low high) : Apart start size items := by
  -- By induction on the segments; those behind the first one are inside of what is left.
  induction items generalizing low with
  | nil => exact List.Pairwise.nil
  | cons first rest ih =>
    obtain ⟨begins, positive, fills⟩ := fills
    refine List.pairwise_cons.mpr ⟨fun item member => ?_, ih fills⟩
    have bounds := fills.inside.2 item member
    omega

/-- Segments that fill a range are not empty. -/
theorem Fills.positive (fills : Fills start size items low high) :
    ∀ item ∈ items, 0 < size item := by
  -- By induction on the segments.
  induction items generalizing low with
  | nil => exact fun item member => absurd member List.not_mem_nil
  | cons first rest ih =>
    obtain ⟨begins, positive, fills⟩ := fills
    exact List.forall_mem_cons.mpr ⟨positive, ih fills⟩

/-- The sizes of segments that fill a range sum up to its size. -/
theorem Fills.sum (fills : Fills start size items low high) :
    low + (items.map size).sum = high := by
  -- By induction on the segments.
  induction items generalizing low with
  | nil => exact fills
  | cons first rest ih =>
    obtain ⟨begins, positive, fills⟩ := fills
    rw [List.map_cons, List.sum_cons, ← Nat.add_assoc]
    exact ih fills

/-- One of two segments lies behind the other one, unless they are the same. -/
theorem Apart.order {a b : Item} (apart : Apart start size items) (first : a ∈ items)
    (second : b ∈ items) :
    a = b ∨ start a + size a ≤ start b ∨ start b + size b ≤ start a := by
  -- By induction on the segments; one of the two may be the first one.
  induction items with
  | nil => exact absurd first List.not_mem_nil
  | cons item rest ih =>
    obtain ⟨across, apart⟩ := List.pairwise_cons.mp apart
    rcases List.mem_cons.mp first with rfl | early
    · rcases List.mem_cons.mp second with rfl | late
      · exact Or.inl rfl
      · exact Or.inr (Or.inl (across b late))
    · rcases List.mem_cons.mp second with rfl | late
      · exact Or.inr (Or.inr (across a early))
      · exact ih apart early late

/-- Two segments that have a number in common are the same. -/
theorem Apart.eq_of_common {a b : Item} {number : Nat} (apart : Apart start size items)
    (first : a ∈ items) (second : b ∈ items)
    (inFirst : start a ≤ number ∧ number < start a + size a)
    (inSecond : start b ≤ number ∧ number < start b + size b) : a = b := by
  rcases apart.order first second with same | before | behind
  · exact same
  · omega
  · omega

/-- The sizes of segments inside of a range sum up to no more than its size. -/
theorem Apart.sum_le (apart : Apart start size items) (ordered : low ≤ high)
    (inside : ∀ item ∈ items, low ≤ start item ∧ start item + size item ≤ high) :
    low + (items.map size).sum ≤ high := by
  -- By induction on the segments: those behind the first one are where it ends, or further.
  induction items generalizing low with
  | nil => exact ordered
  | cons item rest ih =>
    obtain ⟨across, apart⟩ := List.pairwise_cons.mp apart
    obtain ⟨first, later⟩ := List.forall_mem_cons.mp inside
    have rests := ih apart first.2 fun other member => ⟨across other member, (later other member).2⟩
    rw [List.map_cons, List.sum_cons]
    omega

/-- A number is covered if one of the segments has it. -/
theorem mem_covered {number : Nat} : number ∈ covered start size items ↔
    ∃ item ∈ items, start item ≤ number ∧ number < start item + size item := by
  induction items with
  | nil => simp [covered]
  | cons item rest ih => simp [covered, ih]

/-- As many numbers are covered as the sizes of the segments sum up to. -/
theorem Apart.card_covered (apart : Apart start size items) :
    (covered start size items).card = (items.map size).sum := by
  -- By induction on the segments: the first one has no number in common with the others.
  induction items with
  | nil => rfl
  | cons item rest ih =>
    obtain ⟨across, apart⟩ := List.pairwise_cons.mp apart
    have disjoint : Disjoint (Finset.Ico (start item) (start item + size item))
        (covered start size rest) := by
      rw [Finset.disjoint_left]
      intro number inFirst inRest
      obtain ⟨other, member, lower, -⟩ := mem_covered.mp inRest
      have upper := (Finset.mem_Ico.mp inFirst).2
      have order := across other member
      omega
    rw [covered, Finset.card_union_of_disjoint disjoint, Nat.card_Ico, ih apart,
      Nat.add_sub_cancel_left, List.map_cons, List.sum_cons]

/-- Segments that are inside of others, and are as large as those together, cover the same. -/
theorem Apart.covered_eq {others : List Item} (apart : Apart start size items)
    (apartOthers : Apart start size others) (sizes : (items.map size).sum = (others.map size).sum)
    (inside : covered start size items ⊆ covered start size others) :
    covered start size items = covered start size others := by
  apply Finset.eq_of_subset_of_card_le inside
  rw [apart.card_covered, apartOthers.card_covered, sizes]

/-- Segments may be exchanged for others that fill the same range. -/
theorem Apart.exchange (apart : Apart start size (before ++ (old ++ after)))
    (fillsOld : Fills start size old low high) (fillsNew : Fills start size new low high)
    (some : old ≠ []) : Apart start size (before ++ (new ++ after)) := by
  obtain ⟨left, right, across⟩ := List.pairwise_append.mp apart
  obtain ⟨-, last, beyond⟩ := List.pairwise_append.mp right
  -- The first of the old segments begins where the range does, and the last one ends there.
  have lower : ∀ first ∈ before, start first + size first ≤ low := by
    intro first member
    cases old with
    | nil => exact absurd rfl some
    | cons item rest =>
      rw [← fillsOld.1]
      exact across first member item (List.mem_append_left _ List.mem_cons_self)
  have upper : ∀ second ∈ after, high ≤ start second := by
    intro second member
    have ends : ∀ rest low, rest ≠ [] → Fills start size rest low high →
        (∀ item ∈ rest, start item + size item ≤ start second) → high ≤ start second := by
      intro rest
      induction rest with
      | nil => exact fun low none => absurd rfl none
      | cons item rest ih =>
        rintro low - ⟨begins, positive, fills⟩ bounded
        obtain ⟨first, later⟩ := List.forall_mem_cons.mp bounded
        cases rest with
        | nil =>
          have ends : low + size item = high := fills
          omega
        | cons next rest => exact ih _ (List.cons_ne_nil next rest) fills later
    exact ends old low some fillsOld fun item inside => beyond item inside second member
  rw [Apart, List.pairwise_append, List.pairwise_append]
  refine ⟨left, ⟨fillsNew.apart, last, ?_⟩, ?_⟩
  · intro item inside second member
    have bounds := fillsNew.inside.2 item inside
    have limit := upper second member
    omega
  · intro first member item inside
    rcases List.mem_append.mp inside with inside | later
    · have bounds := fillsNew.inside.2 item inside
      have limit := lower first member
      omega
    · exact across first member item (List.mem_append_right _ later)

end SecretTyping.Segments
