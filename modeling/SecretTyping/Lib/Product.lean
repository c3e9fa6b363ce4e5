import Mathlib.Algebra.BigOperators.Ring.List
import Mathlib.Algebra.GroupWithZero.Nat
import Mathlib.Data.Fin.Tuple.Basic
import Mathlib.Data.List.FinRange
import Mathlib.Data.List.ProdSigma

/-! All ways to choose one value from each of several lists. -/

namespace SecretTyping.Product

variable {α β ι κ State : Type}

/-- A list consists of the members of a family, each of them once. -/
def Enumerates (items : List β) (member : ι → β) : Prop :=
  ∃ order : List ι, order.Nodup ∧ (∀ i, i ∈ order) ∧ order.map member = items

/-- A list consists of what stands at its positions. -/
theorem enumerates_get (items : List β) : Enumerates items items.get :=
  ⟨List.finRange items.length, List.nodup_finRange _, List.mem_finRange, List.map_get_finRange _⟩

/-- What is made of each item is made of each member. -/
theorem Enumerates.map {items : List α} {member : ι → α} (enumerates : Enumerates items member)
    (make : α → β) : Enumerates (items.map make) fun i => make (member i) := by
  obtain ⟨order, nodup, all, same⟩ := enumerates
  refine ⟨order, nodup, all, ?_⟩
  rw [← same, List.map_map]
  rfl

/-- The members may be named in another way. -/
theorem Enumerates.rename {items : List β} {member : ι → β} (enumerates : Enumerates items member)
    (name : κ ≃ ι) : Enumerates items fun k => member (name k) := by
  obtain ⟨order, nodup, all, same⟩ := enumerates
  -- The members come in the same order as before.
  refine ⟨order.map name.symm, nodup.map name.symm.injective, ?_, ?_⟩
  · intro k
    exact List.mem_map.mpr ⟨name k, all _, name.symm_apply_apply k⟩
  · rw [← same, List.map_map]
    apply List.map_congr_left
    intro i mem
    exact congrArg member (name.apply_symm_apply i)

/-- Two loops, one inside the other, come to each pair of members. -/
theorem Enumerates.pair {items : List α} {member : ι → α} {others : List β} {other : κ → β}
    (outer : Enumerates items member) (inner : Enumerates others other) (make : α → β → State) :
    Enumerates (items.flatMap fun item => others.map (make item))
      fun both : ι × κ => make (member both.1) (other both.2) := by
  obtain ⟨order, nodup, all, same⟩ := outer
  obtain ⟨order', nodup', all', same'⟩ := inner
  -- The pairs come in the order of the loops.
  refine ⟨order.product order', nodup.product nodup', ?_, ?_⟩
  · intro both
    exact List.mem_product.mpr ⟨all both.1, all' both.2⟩
  · rw [← same, ← same']
    simp only [List.product, List.map_flatMap, List.flatMap_map, List.map_map]
    rfl

/-- A choice of one position in each of several lists. -/
abbrev Choice (columns : List (List α)) : Type :=
  ∀ i : Fin columns.length, Fin (columns.get i).length

/-- The values that are chosen, from the first list on. -/
def chosen (columns : List (List α)) (choice : Choice columns) : List α :=
  List.ofFn fun i => (columns.get i).get (choice i)

/-- One value of each list, in all ways; the last value changes first. -/
def sequences : List (List α) → List (List α)
  | [] => [[]]
  | column :: rest => column.flatMap fun value => (sequences rest).map (value :: ·)

/-- There is one sequence for each choice. -/
theorem sequences_enumerates (columns : List (List α)) :
    Enumerates (sequences columns) (chosen columns) := by
  -- By induction on the lists; a choice is one in the first list and one in the others.
  induction columns with
  | nil =>
    refine ⟨[fun i => i.elim0], List.nodup_singleton _, ?_, rfl⟩
    intro choice
    exact List.mem_singleton.mpr (funext fun i => i.elim0)
  | cons column rest ih =>
    have pairs := (enumerates_get column).pair ih (· :: ·)
    have named := pairs.rename
      (Fin.consEquiv fun i => Fin ((column :: rest).get i).length).symm
    -- The first value and the others make up the values that are chosen.
    have split : ∀ choice : Choice (column :: rest), chosen (column :: rest) choice =
        column.get (choice 0) :: chosen rest fun i => choice i.succ := by
      intro choice
      exact List.ofFn_succ
    rw [funext split]
    exact named

/-- There are as many sequences as the numbers of values multiply to. -/
theorem length_sequences (columns : List (List α)) :
    (sequences columns).length = (columns.map List.length).prod := by
  -- By induction on the lists, each of which multiplies the number.
  induction columns with
  | nil => rfl
  | cons column rest ih =>
    rw [sequences, List.length_flatMap]
    simp [ih]

/-- The loop over the lists that extends each state by each value comes to every sequence. -/
theorem foldl_flatMap (extend : State → α → State) (columns : List (List α))
    (states : List State) :
    columns.foldl (fun states column => states.flatMap fun state => column.map (extend state))
        states =
      states.flatMap fun state => (sequences columns).map fun values =>
        values.foldl extend state := by
  -- By induction on the lists; a state that is extended is one to start from.
  induction columns generalizing states with
  | nil => simp [sequences]
  | cons column rest ih =>
    rw [List.foldl_cons, ih, sequences, List.flatMap_assoc]
    simp [List.flatMap_map, List.map_flatMap, Function.comp_def]

end SecretTyping.Product
