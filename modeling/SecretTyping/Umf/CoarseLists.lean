import Mathlib.Data.List.Perm.Basic
import SecretTyping.Umf.Coarse

/-! The lists of free blocks: what is put into them and taken out of them. -/

namespace SecretTyping.Umf.Coarse

open Sorted

/-- The compare function of the trees is an order. -/
instance {Item : Type} (key : Item → Nat) : Std.TransCmp (coarseRavlComp key) :=
  inferInstanceAs (Std.TransCmp (compareOn key))

section Compare

variable {Item : Type} {key : Item → Nat} {a b : Item}

/-- Items are equal if their keys are. -/
theorem coarseRavlComp_eq : coarseRavlComp key a b = .eq ↔ key a = key b := Nat.compare_eq_eq

/-- Items are in the order of their keys. -/
theorem coarseRavlComp_lt : coarseRavlComp key a b = .lt ↔ key a < key b := Nat.compare_eq_lt

/-- Items are in the order of their keys, also the other way round. -/
theorem coarseRavlComp_gt : coarseRavlComp key a b = .gt ↔ key b < key a := Nat.compare_eq_gt

end Compare

/-- What is in the list of a size: the size and the address of each block. -/
def headEntries (head : Head) : List (Nat × Nat) := head.head.map fun data => (head.size, data)

/-- What is in the lists of free blocks. -/
def entries (free : List Head) : List (Nat × Nat) := free.flatMap headEntries

/-- The lists are in the order of their sizes, and none of them is empty. -/
structure Lists (free : List Head) : Prop where
  ascending : Ascending bySize free
  filled : ∀ head ∈ free, head.head ≠ []

/-- The allocator has memory for an element of a list. -/
structure NewFree.Given (memory : NewFree) : Prop where
  head : memory.head = true
  node : memory.node = true
  elem : memory.elem = true

variable {free below beyond : List Head} {same : Option Head} {head : Head} {size data : Nat}

/-- What is in lists that are joined. -/
theorem entries_joined (below : List Head) (same : Option Head) (beyond : List Head) :
    entries (joined below same beyond) =
      entries below ++ (entries same.toList ++ entries beyond) := by
  rw [entries, joined, List.flatMap_append, List.flatMap_append]
  rfl

/-- What is in a single list. -/
theorem entries_singleton (head : Head) : entries [head] = headEntries head := by
  rw [entries, List.flatMap_cons, List.flatMap_nil, List.append_nil]

/-- An entry is in one of the lists. -/
theorem mem_entries {entry : Nat × Nat} :
    -- An entry tells the size of its list and an address in it.
    entry ∈ entries free ↔ ∃ head ∈ free, head.size = entry.1 ∧ entry.2 ∈ head.head := by
  apply Iff.intro
  · intro member
    obtain ⟨head, inside, member⟩ := List.mem_flatMap.mp member
    obtain ⟨data, listed, rfl⟩ := List.mem_map.mp member
    exact ⟨head, inside, rfl, listed⟩
  · rintro ⟨head, inside, equal, listed⟩
    refine List.mem_flatMap.mpr ⟨head, inside, List.mem_map.mpr ⟨entry.2, listed, ?_⟩⟩
    rw [equal]

/-- Lists stay as they have to be if one is put where they are cut. -/
theorem Lists.put (lists : Lists (joined below same beyond))
    (cut : Cut bySize (ofSize size) below same beyond) {list : List Nat} (some : list ≠ []) :
    Lists (joined below (Option.some ⟨size, list⟩) beyond) := by
  -- The list is where it would be inserted.
  have place : Cut bySize ⟨size, list⟩ below same beyond := ⟨cut.less, cut.equal, cut.greater⟩
  have ascending := ascending_insert lists.ascending ⟨size, list⟩
  rw [place.insert] at ascending
  refine ⟨ascending, fun head member => ?_⟩
  -- What is in the list is not empty, and the others are as before.
  rcases List.mem_append.mp member with inside | inside
  · exact lists.filled head (List.mem_append_left _ inside)
  · rcases List.mem_cons.mp inside with rfl | inside
    · exact some
    · exact lists.filled head (List.mem_append_right _ (List.mem_append_right _ inside))

/-- Lists stay as they have to be if the one is left out where they are cut. -/
theorem Lists.drop (lists : Lists (joined below same beyond))
    (cut : Cut bySize (ofSize size) below same beyond) :
    Lists (joined below none beyond) := by
  have ascending := ascending_erase lists.ascending (ofSize size)
  rw [cut.erase] at ascending
  refine ⟨ascending, fun head member => lists.filled head ?_⟩
  -- A list that is left is one of those in front or behind.
  rcases List.mem_append.mp member with inside | inside
  · exact List.mem_append_left _ inside
  · exact List.mem_append_right _ (List.mem_append_right _ inside)

/-- A list that has changed is where the lists are cut. -/
theorem setHead_cut (cut : Cut bySize (ofSize size) below (some head) beyond) (list : List Nat) :
    setHead size list (joined below (some head) beyond) =
      joined below (some ⟨size, list⟩) beyond := by
  have equal : size = head.size := coarseRavlComp_eq.mp (cut.equal head rfl)
  rw [setHead, cut.modify, equal]
  rfl

/-- A block that is added to the lists is in them, if there is memory for it. -/
theorem freeBlocksAdd_spec (lists : Lists free) (data size : Nat) {memory : NewFree}
    (given : memory.Given) :
    ∃ rest, freeBlocksAdd free data size memory = (true, rest) ∧ Lists rest ∧
      (entries rest).Perm ((size, data) :: entries free) := by
  -- There is a list for the size, or there is none yet.
  obtain ⟨below, same, beyond, rfl, cut⟩ := exists_cut lists.ascending (ofSize size)
  have moved : ∀ list, (entries below ++ ((size, data) :: list ++ entries beyond)).Perm
      ((size, data) :: (entries below ++ (list ++ entries beyond))) := fun list =>
    List.perm_middle
  rw [freeBlocksAdd, cut.lookup]
  cases same with
  -- The list is made with the block as its only element.
  | none =>
    have place : Cut bySize ⟨size, [data]⟩ below none beyond :=
      ⟨cut.less, cut.equal, cut.greater⟩
    refine ⟨joined below (some ⟨size, [data]⟩) beyond, ?_, lists.put cut (List.cons_ne_nil _ _), ?_⟩
    · simp only [given.head, given.node, given.elem, Bool.and_self, if_true, place.insert]
      rfl
    · rw [entries_joined, entries_joined]
      exact moved []
  | some head =>
    -- The block becomes the first element of its list.
    have equal : size = head.size := coarseRavlComp_eq.mp (cut.equal head rfl)
    refine ⟨joined below (some ⟨size, data :: head.head⟩) beyond, ?_,
      lists.put cut (List.cons_ne_nil _ _), ?_⟩
    · simp only [given.elem, if_true, setHead_cut cut]
    · rw [entries_joined, entries_joined, Option.toList, Option.toList, entries_singleton,
        entries_singleton, headEntries, headEntries, List.map_cons, ← equal]
      exact moved _

/-- No block is added where there is no list yet, if one of the three answers is a refusal. -/
theorem freeBlocksAdd_nil_refused (data size : Nat) {memory : NewFree} (missing : ¬memory.Given) :
    (freeBlocksAdd [] data size memory).1 = false := by
  -- All of a list is needed: its head, its node and the element for the block.
  have lacking : (memory.head && memory.node && memory.elem) = false := by
    rw [← Bool.not_eq_true]
    simp only [Bool.and_eq_true]
    rintro ⟨⟨head, node⟩, elem⟩
    exact missing ⟨head, node, elem⟩
  show (if memory.head && memory.node then
    if memory.elem then (true, _) else (false, _) else (false, _)).1 = false
  cases made : memory.head && memory.node with
  | false => rfl
  | true =>
    rw [made, Bool.true_and] at lacking
    rw [lacking]
    rfl

/-- A block that is not added to the lists, as there is no memory for it, may leave an empty list
behind. -/
theorem freeBlocksAdd_refused {data size : Nat} {memory : NewFree} {rest : List Head}
    (refused : freeBlocksAdd free data size memory = (false, rest)) :
    rest = free ∨ ∃ head ∈ rest, head.head = [] := by
  rw [freeBlocksAdd] at refused
  -- There is a list for the size, which stays as it is, or there is none yet.
  cases found : lookup bySize (ofSize size) free with
  | some head =>
    rw [found] at refused
    cases elem : memory.elem <;> simp_all
  | none =>
    rw [found] at refused
    cases made : memory.head && memory.node with
    | false =>
      rw [made] at refused
      cases refused
      exact Or.inl rfl
    | true =>
      rw [made] at refused
      cases elem : memory.elem with
      | false =>
        -- The list of a new size is there before its first element is.
        rw [elem] at refused
        cases refused
        exact Or.inr ⟨⟨size, []⟩, List.mem_append_right _ List.mem_cons_self, rfl⟩
      | true =>
        rw [elem] at refused
        cases refused

/-- What is left when a list has changed. -/
theorem leaveHead_spec (lists : Lists (joined below (some head) beyond))
    (cut : Cut bySize (ofSize size) below (some head) beyond) (list : List Nat) :
    Lists (leaveHead (joined below (some head) beyond) size list) ∧
      entries (leaveHead (joined below (some head) beyond) size list) =
        entries below ++ ((list.map fun data => (size, data)) ++ entries beyond) := by
  -- A list that has become empty is left out.
  by_cases empty : list = []
  · rw [leaveHead, if_pos empty, cut.erase, empty]
    refine ⟨lists.drop cut, ?_⟩
    rw [entries, List.flatMap_append]
    rfl
  · rw [leaveHead, if_neg empty, setHead_cut cut]
    refine ⟨lists.put cut empty, ?_⟩
    rw [entries_joined, Option.toList, entries_singleton]
    rfl

/-- What is in the lists is what is left, and the block that is taken out. -/
theorem leaveHead_erase (lists : Lists (joined below (some head) beyond))
    (cut : Cut bySize (ofSize size) below (some head) beyond) (member : data ∈ head.head) :
    (entries (joined below (some head) beyond)).Perm ((size, data) ::
      entries (leaveHead (joined below (some head) beyond) size (head.head.erase data))) := by
  have equal : size = head.size := coarseRavlComp_eq.mp (cut.equal head rfl)
  rw [(leaveHead_spec lists cut _).2, entries_joined, Option.toList, entries_singleton,
    headEntries, ← equal]
  -- The block is moved to the front of its list, and then of all.
  have taken := (List.perm_cons_erase member).map fun data => (size, data)
  exact ((taken.append_right _).append_left _).trans List.perm_middle

/-- A block that is in the lists can be taken out of them. -/
theorem freeBlocksRmNode_spec (lists : Lists free) (member : (size, data) ∈ entries free) :
    ∃ rest, freeBlocksRmNode free data size = some rest ∧ Lists rest ∧
      (entries free).Perm ((size, data) :: entries rest) := by
  -- The block is in the list of its size, where the lists are cut.
  obtain ⟨head, inside, equal, listed⟩ := mem_entries.mp member
  obtain ⟨below, beyond, rfl⟩ := List.append_of_mem inside
  have cut : Cut bySize (ofSize size) below (some head) beyond :=
    cut_of_mem lists.ascending (coarseRavlComp_eq.mpr equal.symm)
  refine ⟨_, ?_, (leaveHead_spec lists cut _).1, leaveHead_erase lists cut listed⟩
  have found := cut.lookup
  rw [joined, Option.toList, List.singleton_append] at found
  rw [freeBlocksRmNode, found]
  rfl

/-- A list without its first block whose size is aligned, and that block. -/
theorem nodeListRm_some {blocks : List Block} {list rest : List Nat} {alignment : Nat}
    {checkBlocks : CheckFreeBlocks}
    (taken : nodeListRm blocks list alignment checkBlocks = (some data, rest)) :
    data ∈ list ∧ rest = list.erase data ∧ isAligned (blockSize blocks data) alignment := by
  -- Only the first block is looked at, or all are until one is aligned.
  cases checkBlocks with
  | onlyTheFirstBlock =>
    cases list with
    | nil => cases taken
    | cons node next =>
      rw [nodeListRm, nodeListRmFirst] at taken
      split at taken
      · next aligned =>
        cases taken
        exact ⟨List.mem_cons_self, (List.erase_cons_head data rest).symm, aligned⟩
      · cases taken
  | allBlocksOfSize =>
    rw [nodeListRm, nodeListRmWithAlignment] at taken
    split at taken
    · cases taken
    · next found =>
      cases taken
      have aligned := List.find?_some found
      exact ⟨List.mem_of_find?_eq_some found, rfl, aligned⟩

/-- A list stays as it is if no block is taken from it. -/
theorem nodeListRm_none {blocks : List Block} {list rest : List Nat} {alignment : Nat}
    {checkBlocks : CheckFreeBlocks}
    (kept : nodeListRm blocks list alignment checkBlocks = (none, rest)) :
    rest = list ∧ (alignment = 0 → list = []) := by
  -- Only the first block has been looked at, or none is aligned.
  cases checkBlocks with
  | onlyTheFirstBlock =>
    cases list with
    | nil =>
      cases kept
      exact ⟨rfl, fun _ => rfl⟩
    | cons node next =>
      rw [nodeListRm, nodeListRmFirst] at kept
      split at kept
      · cases kept
      · next skewed =>
        cases kept
        refine ⟨rfl, fun zero => absurd ?_ skewed⟩
        simp [zero, isAligned]
  | allBlocksOfSize =>
    rw [nodeListRm, nodeListRmWithAlignment] at kept
    split at kept
    · next missing =>
      cases kept
      refine ⟨rfl, fun zero => ?_⟩
      rw [List.find?_eq_none] at missing
      rw [List.eq_nil_iff_forall_not_mem]
      intro data member
      exact missing data member (by simp [zero, isAligned])
    · cases kept

/-- The list that is looked at for a size is the first one whose size is not less. -/
theorem ceiling_spec (lists : Lists free) (found : ceiling bySize (ofSize size) free = some head) :
    ∃ below beyond, free = joined below (some head) beyond ∧
      Cut bySize (ofSize head.size) below (some head) beyond ∧ size ≤ head.size ∧
      ∀ entry ∈ entries free, size ≤ entry.1 → head.size ≤ entry.1 := by
  rw [ceiling, List.find?_eq_some_iff_append] at found
  obtain ⟨large, below, beyond, rfl, small⟩ := found
  have cut : Cut bySize (ofSize head.size) below (some head) beyond :=
    cut_of_mem lists.ascending (coarseRavlComp_eq.mpr rfl)
  have enough : size ≤ head.size := by
    rw [bne_iff_ne, ne_eq, coarseRavlComp_gt] at large
    exact Nat.le_of_not_lt large
  refine ⟨below, beyond, rfl, cut, enough, fun entry member fits => ?_⟩
  -- The lists below are too small, and those beyond are larger.
  obtain ⟨other, inside, equal, -⟩ := mem_entries.mp member
  rcases List.mem_append.mp inside with inside | inside
  · have less := small other inside
    rw [Bool.not_eq_true', bne_eq_false_iff_eq, coarseRavlComp_gt] at less
    exact absurd fits (Nat.not_le.mpr (equal ▸ less))
  · rcases List.mem_cons.mp inside with rfl | inside
    · exact Nat.le_of_eq equal
    · have greater := coarseRavlComp_lt.mp (cut.greater other inside)
      exact Nat.le_of_lt (equal ▸ greater)

/-- A block that is taken from the lists has the least size that is enough, and is aligned as it is
asked for. -/
theorem freeBlocksRmGe_some {blocks : List Block} {alignment : Nat}
    {checkBlocks : CheckFreeBlocks} {rest : List Head} (lists : Lists free)
    (taken : freeBlocksRmGe blocks free size alignment checkBlocks = (some data, rest)) :
    Lists rest ∧ ∃ found, (entries free).Perm ((found, data) :: entries rest) ∧ size ≤ found ∧
      (∀ entry ∈ entries free, size ≤ entry.1 → found ≤ entry.1) ∧
      isAligned (blockSize blocks data) alignment := by
  -- There is a list that is large enough, and it has an aligned block.
  rw [freeBlocksRmGe] at taken
  split at taken
  · cases taken
  · next head found =>
    obtain ⟨below, beyond, rfl, cut, enough, least⟩ := ceiling_spec lists found
    cases listed : nodeListRm blocks head.head alignment checkBlocks with
    | mk block list =>
      rw [listed] at taken
      cases taken
      obtain ⟨member, rfl, aligned⟩ := nodeListRm_some listed
      exact ⟨(leaveHead_spec lists cut _).1, head.size, leaveHead_erase lists cut member, enough,
        least, aligned⟩

/-- The lists stay as they are if no block is taken from them; if it does not have to be aligned,
none of them is large enough. -/
theorem freeBlocksRmGe_none {blocks : List Block} {alignment : Nat}
    {checkBlocks : CheckFreeBlocks} {rest : List Head} (lists : Lists free)
    (kept : freeBlocksRmGe blocks free size alignment checkBlocks = (none, rest)) :
    rest = free ∧ (alignment = 0 → ∀ entry ∈ entries free, entry.1 < size) := by
  -- There is no list that is large enough, or none of its blocks is aligned.
  rw [freeBlocksRmGe] at kept
  split at kept
  · next missing =>
    cases kept
    refine ⟨rfl, fun _ entry member => ?_⟩
    obtain ⟨head, inside, equal, -⟩ := mem_entries.mp member
    have less := List.find?_eq_none.mp missing head inside
    rw [bne_iff_ne, ne_eq, not_not, coarseRavlComp_gt] at less
    exact equal ▸ less
  · next head found =>
    obtain ⟨below, beyond, rfl, cut, enough, least⟩ := ceiling_spec lists found
    have filled : head.head ≠ [] := lists.filled head
      (List.mem_append_right _ List.mem_cons_self)
    cases listed : nodeListRm blocks head.head alignment checkBlocks with
    | mk block list =>
      rw [listed] at kept
      cases kept
      obtain ⟨rfl, empty⟩ := nodeListRm_none listed
      rw [leaveHead, if_neg filled, setHead_cut cut]
      exact ⟨rfl, fun zero => absurd (empty zero) filled⟩

end SecretTyping.Umf.Coarse
