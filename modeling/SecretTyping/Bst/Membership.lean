import SecretTyping.Bst.Levels
import SecretTyping.Bst.SetSemantics

/-! Trees built by insertions, and what a search in them says about membership. -/

namespace SecretTyping.Bst

open Memory

/-- The root stays the root, and in an empty tree the first key becomes the root. -/
theorem head_keys_insert (data : Int) (leafAddress : Nat) (shape : Shape Int) :
    (shape.insert data leafAddress).keys.head? = (shape.keys ++ [data]).head? := by
  cases shape with
  | leaf => rfl
  | node address left held right =>
    -- Each of the three branches rebuilds the same node.
    rw [Shape.insert]
    split
    · rfl
    · split <;> rfl

/-- A run of insertions ends on a tree that holds the keys inserted, the first of them at the root.
-/
theorem insertions_represents {tree : BinarySearchTree} {shape : Shape Int}
    (represents : Represents tree shape) (inserted : List Int) :
    ∃ after rest, runOperations tree (inserted.map .insert) = .ok after ∧ Represents after rest ∧
      (∀ key, key ∈ rest.keys ↔ key ∈ shape.keys ∨ key ∈ inserted) ∧
      rest.keys.head? = (shape.keys ++ inserted).head? := by
  -- By induction on the keys, each of which is inserted into a represented tree.
  induction inserted generalizing tree shape with
  | nil => exact ⟨tree, shape, rfl, represents, by simp, by simp⟩
  | cons data inserted ih =>
    -- The first key is inserted, and the others into what it leaves.
    obtain ⟨middle, done, again, -⟩ := insert_represents represents data
    obtain ⟨after, rest, run, last, keys, root⟩ := ih again
    refine ⟨after, rest, ?_, last, fun key => ?_, ?_⟩
    · simp only [List.map_cons, runOperations, perform, done, ok_bind]
      exact run
    · rw [keys, Shape.mem_keys_insert, List.mem_cons]
      tauto
    · have first := head_keys_insert data tree.heap.next shape
      simp only [List.head?_append] at root first ⊢
      rw [root, first]
      cases shape.keys.head? <;> rfl

/-- A search ends where it starts when the tree is empty or has the key at its root. -/
theorem searchLevel_eq_zero (data : Int) (shape : Shape Int) :
    searchLevel data shape 0 = 0 ↔ shape.keys = [] ∨ shape.keys.head? = some data := by
  cases shape with
  | leaf => simp [searchLevel, Shape.keys]
  | node address left held right =>
    -- Any other key is looked for one level down.
    have inLeft := le_searchLevel data left (0 + 1)
    have inRight := le_searchLevel data right (0 + 1)
    simp only [searchLevel, Shape.keys, List.head?_cons, reduceCtorEq, false_or,
      Option.some.injEq]
    split
    · next same => exact ⟨fun _ => same, fun _ => rfl⟩
    · next other =>
      refine ⟨fun zero => absurd zero ?_, fun same => absurd same other⟩
      split <;> omega

/-- The first key inserted into an empty tree is at its root. -/
theorem head_keys_grown (inserted : List Int) (shape : Shape Int) :
    (grown shape inserted).keys.head? = (shape.keys ++ inserted).head? := by
  -- By induction on the keys.
  induction inserted generalizing shape with
  | nil => simp [grown]
  | cons first rest ih =>
    have root := head_keys_insert first 0 shape
    show (grown (shape.insert first 0) rest).keys.head? = _
    simp only [List.head?_append] at root ⊢
    rw [ih, List.head?_append, root]
    cases shape.keys.head? <;> rfl

/-- A number is true unless it is zero. -/
def asBool (level : Nat) : Bool := level != 0

/-- The insertions end, and after them the result of a search is true exactly when the tree holds
the key. -/
def DecidesMembership (inserted : List Int) (key : Int) : Prop :=
  ∃ tree level, insertAllInt .new inserted = .ok tree ∧ lookupInt tree key = .ok level ∧
    (asBool level = true ↔ key ∈ storedKeys nodeLayout tree.heap tree.root)

/-- When the insertions end, the answer is right where the level of the search can be counted and is
zero just for missing keys. -/
theorem decidesMembership_of_run {inserted : List Int} {tree : BinarySearchTree}
    {shape : Shape Int} (run : insertAllInt .new inserted = .ok tree)
    (represents : Represents tree shape) (key : Int) :
    DecidesMembership inserted key ↔ searchLevel key shape 0 ≤ maxLevel ∧
      (asBool (searchLevel key shape 0) = true ↔ key ∈ shape.keys) := by
  have found := lookupInt_represents represents key
  rw [DecidesMembership, run]
  constructor
  · rintro ⟨other, result, again, done, iff⟩
    cases again
    rw [represents.storedKeys] at iff
    -- A level that cannot be counted would end the search without an answer.
    by_cases fits : searchLevel key shape 0 ≤ maxLevel
    · rw [found, counted_fits fits] at done
      cases done
      exact ⟨fits, iff⟩
    · rw [found, counted_beyond (Nat.lt_of_not_le fits)] at done
      cases done
  · intro counted
    obtain ⟨fits, iff⟩ := counted
    refine ⟨tree, _, rfl, found.trans (counted_fits fits), ?_⟩
    rwa [represents.storedKeys]

/-- A search says whether the key is there exactly when the tree is empty or has the key below its
root, and an int can count its levels: the level of the root counts as false, and that of a miss as
true. -/
theorem decidesMembership_iff (inserted : List Int) (key : Int) :
    DecidesMembership inserted key ↔
      inserted = [] ∨ (key ∈ inserted ∧ inserted.head? ≠ some key ∧
        (keyTree inserted).height ≤ maxLevel + 1) := by
  have empty : Represents .new .leaf := represents_leaf rfl
  obtain ⟨builds, overflows⟩ := insertAllInt_represents empty (Nat.zero_le _) inserted
  by_cases shallow : (keyTree inserted).height ≤ maxLevel + 1
  · -- All insertions can be counted, and the tree is that of the keys.
    obtain ⟨tree, shape, run, represents, same⟩ := builds shallow
    have level := searchLevel_eq_zero key shape
    have whole : unplaced shape = keyTree inserted := same
    -- The tree holds the keys that have been inserted, the first one at its root.
    have members : ∀ other, other ∈ shape.keys ↔ other ∈ inserted := fun other => by
      rw [← keys_unplaced, whole, keyTree, mem_keys_grown]
      simp [Shape.keys]
    have nothing : shape.keys = [] ↔ inserted = [] := by
      simp only [List.eq_nil_iff_forall_not_mem, members]
    have first : shape.keys.head? = inserted.head? := by
      rw [← keys_unplaced, whole, keyTree, head_keys_grown]
      rfl
    rw [nothing, first] at level
    have deepest : shape.height = (keyTree inserted).height := by rw [← whole, height_unplaced]
    rw [decidesMembership_of_run run represents, members, asBool, bne_iff_ne, ne_eq, level, not_or]
    -- Without keys the tree is empty, and the answer is right.
    cases inserted with
    | nil =>
      have none : shape.keys = [] := nothing.mpr rfl
      have root := (searchLevel_eq_zero key shape).mpr (.inl none)
      simp [root]
    | cons data rest =>
      -- The key at the root is one that has been inserted.
      have atRoot : (data :: rest).head? = some key → key ∈ data :: rest :=
        List.mem_of_mem_head?
      -- The level of a key that is there can be counted.
      have fits : key ∈ data :: rest → searchLevel key shape 0 ≤ maxLevel := fun member => by
        have above := searchLevel_lt represents.ordered ((members key).mpr member) 0
        omega
      simp only [reduceCtorEq, not_false_eq_true, true_and, false_or, shallow, and_true]
      refine ⟨fun given => ?_, fun given => ⟨fits given.1, fun _ => given.1, fun _ => given.2⟩⟩
      by_cases root : (data :: rest).head? = some key
      · exact absurd root (given.2.mpr (atRoot root))
      · exact ⟨given.2.mp root, root⟩
  · -- Some insertion overflows.
    have stopped := overflows (Nat.lt_of_not_le shallow)
    refine iff_of_false (fun decides => ?_) (fun given => ?_)
    · obtain ⟨tree, -, run, -⟩ := decides
      rw [stopped] at run
      cases run
    · rcases given with rfl | ⟨-, -, within⟩
      · exact shallow (Nat.zero_le _)
      · exact shallow within

/-- The key at the root is there, but its level counts as false. -/
theorem not_decidesMembership_root : ¬ DecidesMembership [5] 5 := by
  intro ⟨tree, level, run, found, decides⟩
  cases run
  cases found
  -- The tree has the key in its only node.
  exact absurd (decides.mpr ⟨[], 0, .new 5, .here 0, rfl, rfl⟩) (by decide)

end SecretTyping.Bst
