import Mathlib.Data.List.Induction
import Mathlib.Order.Lattice
import Mathlib.Order.Nat
import Mathlib.Order.Monotone.Basic

/-! Readings that pass boundaries, of which each reading can pass one. -/

namespace SecretTyping.Boundaries

variable {Time : Type} [LinearOrder Time] (bound : Nat → Time)

/-- How many boundaries the readings pass, when each reading is held against the next boundary only.
-/
def passed (readings : List Time) : Nat :=
  readings.foldl (fun count reading => if bound count ≤ reading then count + 1 else count) 0

/-- The last readings, as many as there are boundaries, are one by one behind the boundaries. -/
def Covers (count : Nat) (readings : List Time) : Prop :=
  ∀ i < count, ∃ position reading, position + count = readings.length + i ∧
    readings[position]? = some reading ∧ bound i ≤ reading

/-- One more reading may pass one more boundary. -/
@[simp] theorem passed_concat (readings : List Time) (reading : Time) :
    passed bound (readings ++ [reading]) =
      if bound (passed bound readings) ≤ reading then passed bound readings + 1
      else passed bound readings := by
  -- The last reading is held against the boundary that those before it have come to.
  rw [passed, List.foldl_append]
  rfl

/-- A boundary is passed when some reading is behind the first one. -/
theorem passed_pos_iff (readings : List Time) :
    0 < passed bound readings ↔ ∃ reading ∈ readings, bound 0 ≤ reading := by
  -- By induction on the readings, the last one first: once the first boundary is passed, it stays
  -- so.
  induction readings using List.reverseRecOn with
  | nil => simp [passed]
  | append_singleton readings reading ih =>
    simp only [passed_concat, List.mem_append, List.mem_singleton]
    rcases Nat.eq_zero_or_pos (passed bound readings) with none | some
    · -- Up to here no reading is behind the first boundary.
      have before : ∀ earlier ∈ readings, ¬ bound 0 ≤ earlier := fun earlier inside behind => by
        have positive := ih.mpr ⟨earlier, inside, behind⟩
        omega
      rw [none]
      split
      · next behind => exact iff_of_true Nat.one_pos ⟨reading, .inr rfl, behind⟩
      · next notYet =>
        refine iff_of_false (Nat.lt_irrefl 0) ?_
        rintro ⟨found, inside | rfl, behind⟩
        · exact before found inside behind
        · exact notYet behind
    · obtain ⟨found, inside, behind⟩ := ih.mp some
      refine iff_of_true ?_ ⟨found, .inl inside, behind⟩
      split <;> omega

/-- With one more reading, one more boundary is covered when the reading is behind it. -/
theorem covers_concat (count : Nat) (readings : List Time) (reading : Time) :
    Covers bound (count + 1) (readings ++ [reading]) ↔
      Covers bound count readings ∧ bound count ≤ reading := by
  -- The last reading stands for the last boundary, and those before it keep their places from
  -- behind.
  constructor
  · intro covers
    refine ⟨fun i below => ?_, ?_⟩
    · obtain ⟨position, found, place, there, behind⟩ := covers i (by omega)
      rw [List.length_append, List.length_singleton] at place
      refine ⟨position, found, by omega, ?_, behind⟩
      rwa [List.getElem?_append_left (by omega)] at there
    · obtain ⟨position, found, place, there, behind⟩ := covers count (by omega)
      rw [List.length_append, List.length_singleton] at place
      have last : position = readings.length := by omega
      subst last
      rw [List.getElem?_concat_length] at there
      cases there
      exact behind
  · intro ⟨covers, behind⟩ i below
    rcases Nat.lt_succ_iff_lt_or_eq.mp below with earlier | last
    · obtain ⟨position, found, place, there, passes⟩ := covers i earlier
      refine ⟨position, found, by rw [List.length_append, List.length_singleton]; omega, ?_, passes⟩
      rw [List.getElem?_append_left (by omega)]
      exact there
    · subst last
      refine ⟨readings.length, reading, by rw [List.length_append, List.length_singleton]; omega,
        List.getElem?_concat_length, behind⟩

/-- In readings that do not decrease, as many boundaries are passed as the last readings cover. -/
theorem le_passed_iff (rising : ∀ i, bound i ≤ bound (i + 1)) {readings : List Time}
    (sorted : readings.Pairwise (· ≤ ·)) (count : Nat) :
    count ≤ passed bound readings ↔ Covers bound count readings := by
  -- By induction on the readings, the last one first.
  induction readings using List.reverseRecOn generalizing count with
  | nil =>
    cases count with
    | zero => exact ⟨fun _ i below => absurd below (Nat.not_lt_zero i), fun _ => Nat.zero_le _⟩
    | succ count =>
      refine ⟨fun many => absurd many (by simp [passed]), fun covers => ?_⟩
      obtain ⟨position, reading, place, there, -⟩ := covers 0 (by omega)
      simp at there
  | append_singleton readings reading ih =>
    obtain ⟨earlier, -, latest⟩ := List.pairwise_append.mp sorted
    cases count with
    | zero => exact ⟨fun _ i below => absurd below (Nat.not_lt_zero i), fun _ => Nat.zero_le _⟩
    | succ count =>
      rw [covers_concat, ← ih earlier, passed_concat]
      constructor
      · intro enough
        split at enough
        · next behind =>
          exact ⟨by omega, (monotone_nat_of_le_succ rising (by omega)).trans behind⟩
        · -- The boundary had been passed before, and the last reading is no earlier.
          obtain ⟨position, found, place, there, behind⟩ :=
            (ih earlier _).mp enough count (by omega)
          exact ⟨by omega, behind.trans
            (latest found (List.mem_of_getElem? there) reading (List.mem_singleton_self _))⟩
      · intro ⟨enough, behind⟩
        split
        · omega
        · next notYet =>
          have more : count ≠ passed bound readings := fun same => notYet (same ▸ behind)
          omega

end SecretTyping.Boundaries
