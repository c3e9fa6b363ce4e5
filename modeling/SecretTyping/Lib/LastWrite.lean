import Mathlib.Data.List.Induction
import Mathlib.Data.List.Perm.Basic

/-! Stores in which the last write to a key wins, filled by several writers one after another. -/

namespace SecretTyping.LastWrite

variable {Key Value Writer : Type} [DecidableEq Key]

/-- Store a value under a key. -/
def write (store : Key → Option Value) (entry : Key × Value) : Key → Option Value :=
  -- Every other key keeps what it holds.
  fun key => if key = entry.1 then some entry.2 else store key

/-- What a sequence of writes leaves in a store that was empty before. -/
def final (writes : List (Key × Value)) : Key → Option Value :=
  -- The writes are carried out from left to right.
  writes.foldl write fun _ => none

/-- Writes into a store that already holds something. -/
theorem foldl_write (writes : List (Key × Value)) (store : Key → Option Value) (key : Key) :
    writes.foldl write store key = (final writes key).or (store key) := by
  -- A key keeps its old value only when none of the writes touches it.
  induction writes generalizing store with
  | nil => rfl
  | cons entry rest ih =>
    have empty := ih (write (fun _ => none) entry)
    have filled := ih (write store entry)
    unfold final at empty filled ⊢
    rw [List.foldl_cons, List.foldl_cons, filled, empty, Option.or_assoc]
    congr 1
    unfold write
    split <;> rfl

/-- Later writes hide earlier ones. -/
theorem final_append (first second : List (Key × Value)) (key : Key) :
    final (first ++ second) key = (final second key).or (final first key) := by
  -- The second sequence is carried out in a store that the first one has filled.
  rw [final, List.foldl_append, foldl_write]
  rfl

/-- A key holds a value when that value was written to it and nothing was written after. -/
theorem final_eq_some_iff {writes : List (Key × Value)} {key : Key} {value : Value} :
    final writes key = some value ↔
      ∃ earlier later, writes = earlier ++ (key, value) :: later ∧
        ∀ entry ∈ later, entry.1 ≠ key := by
  -- The induction takes writes away from the end, where the last one decides.
  induction writes using List.reverseRecOn with
  | nil => simp [final]
  | append_singleton rest entry ih =>
    have single : final [entry] key = if key = entry.1 then some entry.2 else none := rfl
    rw [final_append, single]
    by_cases same : key = entry.1
    · rw [if_pos same, Option.some_or]
      constructor
      · intro found
        have equal : entry = (key, value) := Prod.ext same.symm (Option.some.inj found)
        exact ⟨rest, [], by simp [equal], by simp⟩
      · intro given
        obtain ⟨earlier, later, split, untouched⟩ := given
        rcases List.eq_nil_or_concat later with empty | ⟨front, last, snoc⟩
        · subst empty
          have ends := List.append_inj_right' split rfl
          simp only [List.cons.injEq, and_true] at ends
          rw [ends]
        · -- The last write would be one to the same key.
          rw [snoc, List.concat_eq_append, ← List.cons_append, ← List.append_assoc] at split
          have ends := List.append_inj_right' split rfl
          simp only [List.cons.injEq, and_true] at ends
          exact absurd (ends ▸ same.symm) (untouched last (by simp [snoc]))
    · rw [if_neg same, Option.none_or, ih]
      constructor
      · intro given
        obtain ⟨earlier, later, split, untouched⟩ := given
        refine ⟨earlier, later ++ [entry], by simp [split], fun other member => ?_⟩
        rcases List.mem_append.mp member with member | member
        · exact untouched other member
        · rw [List.mem_singleton.mp member]
          exact Ne.symm same
      · intro given
        obtain ⟨earlier, later, split, untouched⟩ := given
        rcases List.eq_nil_or_concat later with empty | ⟨front, last, snoc⟩
        · subst empty
          have ends := List.append_inj_right' split rfl
          simp only [List.cons.injEq, and_true] at ends
          exact absurd (congrArg Prod.fst ends).symm same
        · rw [snoc, List.concat_eq_append, ← List.cons_append, ← List.append_assoc] at split
          have starts := List.append_inj_left' split rfl
          exact ⟨earlier, front, starts, fun other member =>
            untouched other (by simp [snoc, member])⟩

/-- A key that no write touches stays empty. -/
theorem final_eq_none_iff {writes : List (Key × Value)} {key : Key} :
    final writes key = none ↔ ∀ entry ∈ writes, entry.1 ≠ key := by
  -- As before, the induction takes writes away from the end.
  induction writes using List.reverseRecOn with
  | nil => simp [final]
  | append_singleton rest entry ih =>
    have single : final [entry] key = if key = entry.1 then some entry.2 else none := rfl
    rw [final_append, single]
    by_cases same : key = entry.1
    · rw [if_pos same, Option.some_or]
      constructor
      · intro found
        cases found
      · intro untouched
        exact absurd same.symm (untouched entry (by simp))
    · rw [if_neg same, Option.none_or, ih]
      constructor
      · intro untouched other member
        rcases List.mem_append.mp member with member | member
        · exact untouched other member
        · rw [List.mem_singleton.mp member]
          exact Ne.symm same
      · exact fun untouched other member => untouched other (by simp [member])

/-- A key keeps a value that was written to it when nothing else was. -/
theorem final_of_unique {writes : List (Key × Value)} {key : Key} {value : Value}
    (member : (key, value) ∈ writes)
    (unique : ∀ entry ∈ writes, entry.1 = key → entry.2 = value) :
    final writes key = some value := by
  cases found : final writes key with
  | none => exact absurd rfl (final_eq_none_iff.mp found _ member)
  | some last =>
    obtain ⟨earlier, later, split, -⟩ := final_eq_some_iff.mp found
    have written : (key, last) ∈ writes := by
      rw [split]
      exact List.mem_append_right _ List.mem_cons_self
    exact congrArg some (unique _ written rfl)

section Writers

variable (writes : Writer → List (Key × Value))

end Writers

end SecretTyping.LastWrite
