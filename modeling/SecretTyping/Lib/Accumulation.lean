import Mathlib.Algebra.Order.BigOperators.Group.List

/-! Counters that are added to again and again, and never reset. -/

namespace SecretTyping.Accumulation

variable {Count : Type} [AddCommGroup Count]

/-- What a counter shows after each of the amounts has been added to it. -/
def shown (total : Count) : List Count → List Count
  | [] => []
  | amount :: rest => (total + amount) :: shown (total + amount) rest

/-- With one more amount the counter shows the sum of all. -/
theorem shown_concat (total : Count) (amounts : List Count) (amount : Count) :
    shown total (amounts ++ [amount]) = shown total amounts ++ [total + amounts.sum + amount] := by
  -- The amounts before it are, one by one, in the counter.
  induction amounts generalizing total with
  | nil => simp [shown]
  | cons first rest ih =>
    rw [List.cons_append, shown, ih, shown, List.sum_cons, List.cons_append, add_assoc total]

/-- A counter shows each amount alone exactly when it is zero before each. -/
theorem shown_eq_iff (total : Count) (amounts : List Count) : shown total amounts = amounts ↔
    amounts = [] ∨ total = 0 ∧ ∀ amount ∈ amounts.dropLast, amount = 0 := by
  -- By induction on the amounts, of which the first is in the counter from then on.
  induction amounts generalizing total with
  | nil => simp [shown]
  | cons first rest ih =>
    rw [shown, List.cons_eq_cons, add_eq_right]
    constructor
    · rintro ⟨rfl, later⟩
      rw [zero_add] at later
      refine .inr ⟨rfl, fun amount member => ?_⟩
      rcases (ih first).mp later with rfl | ⟨rfl, zeros⟩
      · cases member
      · cases rest with
        | nil => cases member
        | cons second rest =>
          rcases List.mem_cons.mp member with rfl | inside
          · rfl
          · exact zeros amount inside
    · rintro (absurd | ⟨rfl, zeros⟩)
      · cases absurd
      · refine ⟨rfl, ?_⟩
        rw [zero_add, ih]
        cases rest with
        | nil => exact .inl rfl
        | cons second rest =>
          exact .inr ⟨zeros first List.mem_cons_self,
            fun amount inside => zeros amount (List.mem_cons_of_mem _ inside)⟩

/-- A counter that starts at zero shows each amount alone exactly when all but the last are zero. -/
theorem shown_map_iff {Source : Type} (amount : Source → Count) (sources : List Source) :
    shown 0 (sources.map amount) = sources.map amount ↔
      ∀ source ∈ sources.dropLast, amount source = 0 := by
  -- Nothing is in the counter before the first amount.
  rw [shown_eq_iff, ← List.map_dropLast, List.forall_mem_map]
  cases sources with
  | nil => simp
  | cons first rest => simp

variable [PartialOrder Count] [IsOrderedAddMonoid Count]

/-- Amounts of which none is negative sum up to zero when they are all zero. -/
theorem sum_eq_zero_iff {amounts : List Count} (nonneg : ∀ amount ∈ amounts, 0 ≤ amount) :
    amounts.sum = 0 ↔ ∀ amount ∈ amounts, amount = 0 := by
  refine ⟨fun zero amount inside => ?_, List.sum_eq_zero⟩
  have most := List.single_le_sum nonneg amount inside
  exact le_antisymm (zero ▸ most) (nonneg amount inside)

/-- The sum of amounts is one of them exactly when no two of them count. -/
theorem sum_mem_iff {amounts : List Count} (nonneg : ∀ amount ∈ amounts, 0 ≤ amount)
    (some : amounts ≠ []) :
    amounts.sum ∈ amounts ↔ amounts.Pairwise fun first second => first = 0 ∨ second = 0 := by
  -- By induction on the amounts, of which the first is the sum, or zero.
  induction amounts with
  | nil => exact absurd rfl some
  | cons first rest ih =>
    have later := fun amount inside => nonneg amount (List.mem_cons_of_mem first inside)
    rw [List.sum_cons, List.mem_cons, List.pairwise_cons, add_eq_left]
    constructor
    · rintro (zero | inside)
      · have zeros := (sum_eq_zero_iff later).mp zero
        refine ⟨fun amount inside => .inr (zeros amount inside), ?_⟩
        exact List.pairwise_of_forall_mem_list fun amount inside _ _ => .inl (zeros amount inside)
      · have zero : first = 0 := by
          have bound := List.single_le_sum later _ inside
          exact le_antisymm (by simpa using bound) (nonneg first List.mem_cons_self)
        rw [zero, zero_add] at inside
        exact ⟨fun _ _ => .inl zero, (ih later (List.ne_nil_of_mem inside)).mp inside⟩
    · intro ⟨apart, rest'⟩
      by_cases zero : first = 0
      · by_cases empty : rest = []
        · exact .inl (by rw [empty, List.sum_nil])
        · rw [zero, zero_add]
          exact .inr ((ih later empty).mpr rest')
      · exact .inl (List.sum_eq_zero fun amount inside =>
          (apart amount inside).resolve_left zero)

end SecretTyping.Accumulation
