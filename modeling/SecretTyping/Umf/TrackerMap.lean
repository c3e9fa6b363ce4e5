import SecretTyping.Umf.Tracker

/-! What the steps of the tracker make of its map. -/

namespace SecretTyping.Umf.Tracker

open Critnib

variable {map after : Map} {pool : Nat} {ptr size highPtr : Word} {value : Value}

/-- A region is added, or there is no memory for it, or there is one at its start. -/
theorem umfMemoryTrackerAdd_spec (shaped : map.Shaped) (address : ptr ≠ 0) (pool : Nat)
    (size : Word) (memory : AddMemory) :
    ∃ result after, umfMemoryTrackerAdd map pool ptr size memory = some (result, after) ∧
      after.Shaped ∧
      (result = .success ∧ contents map ptr = none ∧
          contents after = Function.update (contents map) ptr (some ⟨pool, size⟩) ∨
        result = .outOfHostMemory ∧ contents after = contents map ∨
        result = .unknown ∧ contents map ptr ≠ none ∧ contents after = contents map) := by
  -- There is a value for the region, or else the map is left alone.
  rw [umfMemoryTrackerAdd, if_neg address]
  cases given : memory.value with
  | false => exact ⟨_, map, rfl, shaped, Or.inr (Or.inl ⟨rfl, rfl⟩)⟩
  | true =>
    obtain ⟨outcome, last, inserted, way⟩ :=
      critnibInsert_cases shaped ptr ⟨pool, size⟩ false memory.map
    obtain ⟨shape, spec⟩ := way.spec shaped
    rw [Bool.not_true, if_neg Bool.false_ne_true, inserted]
    -- What the map answers is what the call returns.
    cases outcome with
    | success =>
      obtain ⟨free, changed⟩ := spec
      exact ⟨_, last, rfl, shape,
        Or.inl ⟨rfl, free.resolve_left Bool.false_ne_true, changed⟩⟩
    | noMemory => exact ⟨_, last, rfl, shape, Or.inr (Or.inl ⟨rfl, spec.2⟩)⟩
    | «exists» => exact ⟨_, last, rfl, shape, Or.inr (Or.inr ⟨rfl, spec.2⟩)⟩

/-- The region at an address is removed, if there is one. -/
theorem umfMemoryTrackerRemove_spec (shaped : map.Shaped) (address : ptr ≠ 0) :
    ∃ result after, umfMemoryTrackerRemove map ptr = some (result, after) ∧ after.Shaped ∧
      (result = .success ↔ contents map ptr ≠ none) ∧
      contents after = Function.update (contents map) ptr none := by
  -- The map returns the old value, if there was one.
  obtain ⟨found, last, removed, way⟩ := critnibRemove_cases shaped ptr
  obtain ⟨shape, same, changed⟩ := way.spec shaped
  rw [umfMemoryTrackerRemove, if_neg address, removed, ← same]
  cases found with
  | none => exact ⟨.unknown, last, rfl, shape, by simp, changed⟩
  | some value => exact ⟨.success, last, rfl, shape, by simp, changed⟩

/-- The way down to a key that is there ends at its leaf. -/
theorem descend_of_contents (shaped : map.Shaped) (present : contents map ptr ≠ none) :
    ∃ address old, descend ptr map.root = .leaf address ptr old := by
  -- If the way ended elsewhere, there would be nothing at the key.
  by_contra other
  refine present (contents_eq_none_of_descend shaped fun value held => ?_)
  cases reached : descend ptr map.root with
  | null =>
    rw [reached] at held
    exact held
  | leaf address found old =>
    rw [reached] at held
    have same : found = ptr := held.1
    exact other ⟨address, old, by rw [reached, same]⟩
  | node address child path shift =>
    -- The keys below a node are on its path, which is not that of the key.
    refine not_holds_descend shaped.wellFormed ?_ value held
    rw [reached]
    exact pathOf_descend_ne shaped.wellFormed reached

/-- The size of a region that is there is changed, unless there is no memory for a leaf, although
none is needed. -/
theorem updateValue_spec (shaped : map.Shaped) (present : contents map ptr ≠ none) (pool : Nat)
    (size : Word) (memory : Memory) :
    (allocLeaf map memory.leaf = none ∧ updateValue map pool ptr size memory = none) ∨
      (allocLeaf map memory.leaf ≠ none ∧
        ∃ after, updateValue map pool ptr size memory = some after ∧ after.Shaped ∧
          contents after = Function.update (contents map) ptr (some ⟨pool, size⟩)) := by
  obtain ⟨address, old, reached⟩ := descend_of_contents shaped present
  cases leaf : allocLeaf map memory.leaf with
  -- A leaf is taken first, although none is needed.
  | none =>
    refine Or.inl ⟨rfl, ?_⟩
    simp only [updateValue, critnibInsert, leaf]
  | some taken =>
    -- The leaf is given back, as the value of the one that is there is changed.
    obtain ⟨k, last⟩ := taken
    have root := allocLeaf_root leaf
    have way : Inserted map ptr ⟨pool, size⟩ true memory .success
        { freeLeaf last (some k) with
          root := store ptr (.leaf address ptr ⟨pool, size⟩) map.root } :=
      .updated leaf reached rfl
    obtain ⟨shape, -, changed⟩ := way.spec shaped
    refine Or.inr ⟨Option.some_ne_none _, _, ?_, shape, changed⟩
    simp [updateValue, critnibInsert, leaf, root, reached, pathOf, Node.isLeaf, Node.withValue,
      freeLeaf]

/-- The value of a region is removed that has been looked up. -/
theorem eraseValue_spec (shaped : map.Shaped) (found : contents map highPtr = some value) :
    ∃ after, eraseValue map highPtr value = some after ∧ after.Shaped ∧
      contents after = Function.update (contents map) highPtr none := by
  -- What is removed is what was found, so the assertion holds.
  obtain ⟨erased, last, removed, way⟩ := critnibRemove_cases shaped highPtr
  obtain ⟨shape, same, changed⟩ := way.spec shaped
  rw [found] at same
  subst same
  exact ⟨last, by simp [eraseValue, removed], shape, changed⟩

/-- The last region that does not begin behind a pointer. -/
theorem findLe_spec (shaped : map.Shaped) (ptr : Word) :
    (∃ rkey rvalue, critnibFind map ptr .le = some (rkey, rvalue) ∧
        contents map rkey = some rvalue ∧ rkey ≤ ptr ∧
        ∀ other, contents map other ≠ none → other ≤ ptr → other ≤ rkey) ∨
      critnibFind map ptr .le = none ∧ ∀ other, contents map other ≠ none → ¬other ≤ ptr := by
  have spec := critnibFind_mapFind shaped ptr .le
  cases found : critnibFind map ptr .le with
  | none =>
    -- Nothing is found exactly if no region begins before the pointer.
    rw [found, MapFind, Set.eq_empty_iff_forall_notMem] at spec
    exact Or.inr ⟨rfl, fun other there before => spec other ⟨there, before⟩⟩
  | some entry =>
    obtain ⟨rkey, rvalue⟩ := entry
    rw [found] at spec
    obtain ⟨stored, member, greatest⟩ := spec
    exact Or.inl ⟨rkey, rvalue, rfl, stored, member.2,
      fun other there before => greatest ⟨there, before⟩⟩

/-- The next region behind a key. -/
theorem findGreater_spec (shaped : map.Shaped) (key : Word) :
    (∃ rkey rvalue, critnibFind map key .g = some (rkey, rvalue) ∧
        contents map rkey = some rvalue ∧ key < rkey ∧
        ∀ other, contents map other ≠ none → key < other → rkey ≤ other) ∨
      critnibFind map key .g = none ∧ ∀ other, contents map other ≠ none → ¬key < other := by
  have spec := critnibFind_mapFind shaped key .g
  cases found : critnibFind map key .g with
  | none =>
    rw [found, MapFind, Set.eq_empty_iff_forall_notMem] at spec
    exact Or.inr ⟨rfl, fun other there behind => spec other ⟨there, behind⟩⟩
  -- Nothing is found exactly if no region is behind the key.
  | some entry =>
    obtain ⟨rkey, rvalue⟩ := entry
    rw [found] at spec
    obtain ⟨stored, member, least⟩ := spec
    exact Or.inl ⟨rkey, rvalue, rfl, stored, member.2,
      fun other there behind => least ⟨there, behind⟩⟩

/-- Is a region one of a pool, or are all? -/
def Cleared (pool : Option Nat) (value : Value) : Prop := pool = some value.pool ∨ pool = none

/-- The regions of a pool behind a key are removed, and no others, if there is enough fuel. -/
theorem clearLoop_spec (shaped : map.Shaped) (pool : Option Nat) (fuel : Nat) (lastKey : Word)
    (enough : 2 ^ 64 - lastKey.toNat < fuel) (nItems : Nat) :
    ∃ count after, clearLoop pool fuel map lastKey nItems = some (count, after) ∧ after.Shaped ∧
      ∀ key value, contents after key = some value ↔
        contents map key = some value ∧ ¬(lastKey < key ∧ Cleared pool value) := by
  -- By induction on the fuel: the keys that are found ascend.
  induction fuel generalizing map lastKey nItems with
  | zero => exact absurd enough (Nat.not_lt_zero _)
  | succ fuel ih =>
    have bounded := lastKey.isLt
    rw [clearLoop]
    rcases findGreater_spec shaped lastKey with
      ⟨rkey, rvalue, found, stored, behind, least⟩ | ⟨found, nothing⟩
    · have less : lastKey.toNat < rkey.toNat := BitVec.lt_def.mp behind
      -- There is no key between the last one and the one that is found.
      have between : ∀ key value, contents map key = some value → lastKey < key →
          rkey < key ∨ key = rkey := by
        intro key value there beyond
        have first := least key (by rw [there]; exact Option.some_ne_none _) beyond
        exact lt_or_eq_of_le first |>.imp_right Eq.symm
      simp only [found]
      split
      · next other =>
        -- The region is left, and the rest is done behind it.
        simp only [ne_eq, Bool.and_eq_true, decide_eq_true_eq] at other
        obtain ⟨count, after, done, shape, spec⟩ := ih shaped rkey (by omega) nItems
        refine ⟨count, after, done, shape, fun key value => ?_⟩
        rw [spec]
        refine and_congr_right fun there => not_congr (and_congr_left fun cleared => ?_)
        apply Iff.intro
        · exact fun beyond => lt_trans behind beyond
        · intro beyond
          rcases between key value there beyond with further | rfl
          · exact further
          · rw [stored] at there
            cases there
            exact absurd cleared (not_or.mpr other)
      · next mine =>
        -- The region is removed, and the rest is done behind it.
        have cleared : Cleared pool rvalue := by
          simp only [ne_eq, Bool.and_eq_true, decide_eq_true_eq, not_and, not_not] at mine
          exact or_iff_not_imp_left.mpr mine
        obtain ⟨middle, erased, shapeMiddle, changed⟩ := eraseValue_spec shaped stored
        obtain ⟨count, after, done, shape, spec⟩ := ih shapeMiddle rkey (by omega) (nItems + 1)
        refine ⟨count, after, by rw [erased, Option.bind_some, done], shape, fun key value => ?_⟩
        rw [spec, changed]
        by_cases same : key = rkey
        · subst same
          rw [Function.update_self, stored]
          refine iff_of_false (fun there => Option.some_ne_none _ there.1.symm) ?_
          rintro ⟨there, kept⟩
          cases there
          exact kept ⟨behind, cleared⟩
        · rw [Function.update_of_ne same]
          refine and_congr_right fun there => not_congr (and_congr_left fun _ => ?_)
          apply Iff.intro
          · exact fun beyond => lt_trans behind beyond
          · exact fun beyond => (between key value there beyond).resolve_right same
    · -- Nothing is behind the last key, so nothing is left to remove.
      refine ⟨nItems, map, by simp only [found], shaped, fun key value => ?_⟩
      refine ⟨fun there => ⟨there, fun cleared => ?_⟩, And.left⟩
      exact nothing key (by rw [there]; exact Option.some_ne_none _) cleared.1

end SecretTyping.Umf.Tracker
