import SecretTyping.Bst.IntLevels
import SecretTyping.Bst.Runs

/-! The levels that insertion and search count, and the depth of the tree. -/

namespace SecretTyping.Bst

open Memory

/-- Inserting a key does not move the place where its own search ends. -/
theorem searchLevel_insert_same (data : Int) (leafAddress : Nat) (shape : Shape Int)
    (level : Nat) :
    searchLevel data (shape.insert data leafAddress) level = searchLevel data shape level := by
  -- By induction on the tree; at a leaf the new node stands where the search fell off before.
  induction shape generalizing level with
  | leaf => simp [Shape.insert, searchLevel]
  | node address left held right ihLeft ihRight =>
    rcases lt_trichotomy data held with below | same | above
    · simp only [Shape.insert, if_pos below, searchLevel]
      rw [ihLeft]
    · subst same
      simp only [Shape.insert, if_neg (lt_irrefl data)]
    · simp only [Shape.insert, if_neg (lt_asymm above), if_pos above, searchLevel]
      rw [ihRight]

/-- Inserting a key does not move the keys that are there already. -/
theorem searchLevel_insert_other (data : Int) (leafAddress : Nat) {shape : Shape Int}
    (ordered : shape.Ordered) {other : Int} (present : other ∈ shape.keys) (level : Nat) :
    searchLevel other (shape.insert data leafAddress) level = searchLevel other shape level := by
  -- By induction on the tree: the search for a present key never reaches the new leaf.
  induction shape generalizing level with
  | leaf => simp [Shape.keys] at present
  | node address left held right ihLeft ihRight =>
    obtain ⟨smaller, greater, orderedLeft, orderedRight⟩ := ordered
    simp only [Shape.keys, List.mem_cons, List.mem_append] at present
    rcases lt_trichotomy data held with below | same | above
    · -- The new key goes to the left, where the present one may be too.
      simp only [Shape.insert, if_pos below, searchLevel]
      split
      · rfl
      · split
        · next inLeft =>
          apply ihLeft orderedLeft
          rcases present with own | member | member
          · omega
          · exact member
          · exact absurd (greater other member) (by omega)
        · rfl
    · -- The new key is here, so the tree is as it was.
      subst same
      simp only [Shape.insert, if_neg (lt_irrefl data)]
    · -- The new key goes to the right.
      simp only [Shape.insert, if_neg (lt_asymm above), if_pos above, searchLevel]
      split
      · rfl
      · split
        · rfl
        · next notBelow =>
          apply ihRight orderedRight
          rcases present with own | member | member
          · omega
          · exact absurd (smaller other member) (by omega)
          · exact member

/-- No search goes deeper than the tree. -/
theorem searchLevel_le (data : Int) (shape : Shape Int) (level : Nat) :
    searchLevel data shape level ≤ level + shape.height := by
  -- By induction on the tree: each step down leaves one level of it behind.
  induction shape generalizing level with
  | leaf => exact Nat.le_refl _
  | node address left held right ihLeft ihRight =>
    have onLeft := ihLeft (level + 1)
    have onRight := ihRight (level + 1)
    simp only [searchLevel, Shape.height]
    split
    · omega
    · split <;> omega

/-- The search for a present key ends above the depth of the tree. -/
theorem searchLevel_lt {shape : Shape Int} (ordered : shape.Ordered) {data : Int}
    (present : data ∈ shape.keys) (level : Nat) :
    searchLevel data shape level < level + shape.height := by
  -- By induction on the tree: the search goes to the side that the key is on.
  induction shape generalizing level with
  | leaf => simp [Shape.keys] at present
  | node address left held right ihLeft ihRight =>
    obtain ⟨smaller, greater, orderedLeft, orderedRight⟩ := ordered
    simp only [Shape.keys, List.mem_cons, List.mem_append] at present
    simp only [searchLevel, Shape.height]
    rcases present with own | member | member
    · -- It is found here, at a level that the tree has.
      rw [if_pos own.symm]
      omega
    · -- It is further down on the left.
      have below := smaller data member
      have deeper := ihLeft orderedLeft member (level + 1)
      rw [if_neg (by omega), if_pos below]
      omega
    · -- It is further down on the right.
      have above := greater data member
      have deeper := ihRight orderedRight member (level + 1)
      rw [if_neg (by omega), if_neg (by omega)]
      omega

/-- Inserting a present key leaves the depth of the tree alone. -/
theorem height_insert_present {data : Int} (leafAddress : Nat) {shape : Shape Int}
    (ordered : shape.Ordered) (present : data ∈ shape.keys) :
    (shape.insert data leafAddress).height = shape.height := by
  -- By induction on the tree, down to the node of the key.
  induction shape with
  | leaf => simp [Shape.keys] at present
  | node address left held right ihLeft ihRight =>
    obtain ⟨smaller, greater, orderedLeft, orderedRight⟩ := ordered
    simp only [Shape.keys, List.mem_cons, List.mem_append] at present
    rcases present with own | member | member
    · subst own
      simp only [Shape.insert, if_neg (lt_irrefl data)]
    · have below := smaller data member
      simp only [Shape.insert, if_pos below, Shape.height, ihLeft orderedLeft member]
    · have above := greater data member
      simp only [Shape.insert, if_neg (lt_asymm above), if_pos above, Shape.height,
        ihRight orderedRight member]

/-- Inserting an absent key makes the tree as deep as its new leaf needs. -/
theorem height_insert_absent {data : Int} (leafAddress : Nat) {shape : Shape Int}
    (absent : data ∉ shape.keys) (level : Nat) :
    level + (shape.insert data leafAddress).height =
      max (level + shape.height) (searchLevel data shape level + 1) := by
  -- By induction on the tree; the side that the search does not take keeps its depth.
  induction shape generalizing level with
  | leaf => simp [Shape.insert, Shape.height, searchLevel]
  | node address left held right ihLeft ihRight =>
    simp only [Shape.keys, List.mem_cons, List.mem_append, not_or] at absent
    obtain ⟨notHere, notLeft, notRight⟩ := absent
    rcases lt_trichotomy data held with below | same | above
    · -- The leaf is further down on the left, and the right subtree is as deep as it was.
      have deeper := ihLeft notLeft (level + 1)
      simp only [Shape.insert, if_pos below, searchLevel, Shape.height, if_neg (Ne.symm notHere)]
      omega
    · exact absurd same notHere
    · -- The leaf is further down on the right.
      have deeper := ihRight notRight (level + 1)
      simp only [Shape.insert, if_neg (lt_asymm above), if_pos above, searchLevel, Shape.height,
        if_neg (Ne.symm notHere)]
      omega

/-- The depth grows by one exactly when an absent key is hung below the deepest level. -/
theorem height_insert (data : Int) (leafAddress : Nat) {shape : Shape Int}
    (ordered : shape.Ordered) :
    (shape.insert data leafAddress).height =
      if data ∉ shape.keys ∧ searchLevel data shape 0 = shape.height then shape.height + 1
      else shape.height := by
  -- A present key adds no node; an absent one is hung where its search ends.
  by_cases present : data ∈ shape.keys
  · rw [if_neg (fun given => given.1 present)]
    exact height_insert_present leafAddress ordered present
  · -- The new leaf is one level below the place where the search ended.
    have grown := height_insert_absent leafAddress present 0
    have bounded := searchLevel_le data shape 0
    simp only [present, not_false_eq_true, true_and]
    split <;> omega

/-- The keys that the search for a key passes on its way. -/
def passed (data : Int) : Shape Int → List Int
  | .leaf => []
  | .node _ left key right =>
    if key = data then []
    else if data < key then key :: passed data left
    else key :: passed data right

/-- A search counts the keys that it passes. -/
theorem searchLevel_eq (data : Int) (shape : Shape Int) (level : Nat) :
    searchLevel data shape level = level + (passed data shape).length := by
  -- By induction on the tree, one key for each step down.
  induction shape generalizing level with
  | leaf => rfl
  | node address left key right ihLeft ihRight =>
    simp only [searchLevel, passed]
    split
    · rfl
    · split
      · rw [ihLeft, List.length_cons]
        omega
      · rw [ihRight, List.length_cons]
        omega

section Insertions

/-- A tree of keys, wherever its nodes are. -/
def unplaced : Shape Int → Shape Int
  | .leaf => .leaf
  | .node _ left key right => .node 0 (unplaced left) key (unplaced right)

/-- The tree of keys that ordered insertion makes of a tree. -/
def grown (shape : Shape Int) (inserted : List Int) : Shape Int :=
  inserted.foldl (fun shape key => shape.insert key 0) shape

/-- The tree of keys that ordered insertion builds. -/
def keyTree (inserted : List Int) : Shape Int := grown .leaf inserted

/-- The places of nodes do not matter for where a key is inserted. -/
theorem unplaced_insert (key : Int) (leafAddress : Nat) (shape : Shape Int) :
    unplaced (shape.insert key leafAddress) = (unplaced shape).insert key 0 := by
  -- By induction on the tree: both make the same comparisons.
  induction shape with
  | leaf => rfl
  | node address left held right ihLeft ihRight =>
    simp only [Shape.insert, unplaced]
    split
    · simp only [unplaced, ihLeft]
    · split
      · simp only [unplaced, ihRight]
      · rfl

/-- The places of nodes do not matter for the height of a tree. -/
theorem height_unplaced (shape : Shape Int) : (unplaced shape).height = shape.height := by
  induction shape with
  | leaf => rfl
  | node address left held right ihLeft ihRight =>
    simp only [unplaced, Shape.height, ihLeft, ihRight]

/-- The places of nodes do not matter for the keys of a tree. -/
theorem keys_unplaced (shape : Shape Int) : (unplaced shape).keys = shape.keys := by
  induction shape with
  | leaf => rfl
  | node address left held right ihLeft ihRight =>
    simp only [unplaced, Shape.keys, ihLeft, ihRight]

/-- The places of nodes do not matter for the path to a key. -/
theorem passed_unplaced (data : Int) (shape : Shape Int) :
    passed data (unplaced shape) = passed data shape := by
  induction shape with
  | leaf => rfl
  | node address left held right ihLeft ihRight =>
    simp only [unplaced, passed, ihLeft, ihRight]

/-- Insertion makes no tree shallower. -/
theorem height_le_insert (key : Int) (leafAddress : Nat) (shape : Shape Int) :
    shape.height ≤ (shape.insert key leafAddress).height := by
  -- By induction on the tree, of which one side grows.
  induction shape with
  | leaf => exact Nat.zero_le _
  | node address left held right ihLeft ihRight =>
    simp only [Shape.insert]
    split
    · simp only [Shape.height]
      omega
    · split
      · simp only [Shape.height]
        omega
      · exact le_rfl

/-- Insertions make no tree shallower. -/
theorem height_le_grown (inserted : List Int) (shape : Shape Int) :
    shape.height ≤ (grown shape inserted).height := by
  -- By induction on the keys.
  induction inserted generalizing shape with
  | nil => exact le_rfl
  | cons key rest ih => exact (height_le_insert key 0 shape).trans (ih (shape.insert key 0))

/-- The level of a new key can be counted exactly if the tree with it is not too deep. -/
theorem level_fits_iff {shape : Shape Int} (ordered : shape.Ordered)
    (shallow : shape.height ≤ maxLevel + 1) (key : Int) (leafAddress : Nat) :
    searchLevel key shape 0 ≤ maxLevel ↔
      (shape.insert key leafAddress).height ≤ maxLevel + 1 := by
  by_cases present : key ∈ shape.keys
  · -- The key is above the depth of the tree.
    have above := searchLevel_lt ordered present 0
    rw [height_insert_present leafAddress ordered present]
    omega
  · have deeper := height_insert_absent leafAddress present 0
    omega

/-- Insertions build the tree of their keys if its levels can be counted, and overflow otherwise. -/
theorem insertAllInt_represents {tree : BinarySearchTree} {shape : Shape Int}
    (represents : Represents tree shape) (shallow : shape.height ≤ maxLevel + 1)
    (inserted : List Int) :
    ((grown (unplaced shape) inserted).height ≤ maxLevel + 1 →
      ∃ after rest, insertAllInt tree inserted = .ok after ∧ Represents after rest ∧
        unplaced rest = grown (unplaced shape) inserted) ∧
    (maxLevel + 1 < (grown (unplaced shape) inserted).height →
      insertAllInt tree inserted = .error .overflow) := by
  -- By induction on the keys, each of which is inserted into a represented tree or overflows.
  induction inserted generalizing tree shape with
  | nil =>
    -- No key is inserted, and the depth is as it was.
    refine ⟨fun _ => ⟨tree, shape, rfl, represents, rfl⟩, fun beyond => ?_⟩
    rw [grown, List.foldl_nil, height_unplaced] at beyond
    omega
  | cons key rest ih =>
    have step : grown (unplaced shape) (key :: rest) =
        grown (unplaced (shape.insert key tree.heap.next)) rest := by
      rw [unplaced_insert]
      rfl
    -- The first key can be inserted just where the tree is not too deep with it.
    have fits := level_fits_iff represents.ordered shallow key tree.heap.next
    have level := insertInt_represents represents key
    obtain ⟨after, done, again, -⟩ := insert_represents represents key
    rw [step]
    by_cases inRange : searchLevel key shape 0 ≤ maxLevel
    · -- The key is inserted, and the induction hypothesis goes on from there.
      rw [counted_fits inRange, ok_bind, done] at level
      have first : insertAllInt tree (key :: rest) = insertAllInt after rest := by
        rw [insertAllInt, List.foldlM_cons, level]
        rfl
      rw [first]
      exact ih again (fits.mp inRange)
    · -- The tree would be too deep, and stays so.
      have deeper := height_le_grown rest (unplaced (shape.insert key tree.heap.next))
      rw [height_unplaced] at deeper
      rw [counted_beyond (Nat.lt_of_not_le inRange)] at level
      have first : insertAllInt tree (key :: rest) = .error .overflow := by
        rw [insertAllInt, List.foldlM_cons, level]
        rfl
      exact ⟨fun within => absurd (deeper.trans within) fun small => inRange (fits.mpr small),
        fun _ => first⟩

/-- The keys of the tree that insertions build are those inserted. -/
theorem mem_keys_grown (inserted : List Int) (shape : Shape Int) (key : Int) :
    key ∈ (grown shape inserted).keys ↔ key ∈ shape.keys ∨ key ∈ inserted := by
  -- By induction on the keys.
  induction inserted generalizing shape with
  | nil => simp [grown]
  | cons first rest ih =>
    show key ∈ (grown (shape.insert first 0) rest).keys ↔ _
    rw [ih, Shape.mem_keys_insert, List.mem_cons]
    tauto

/-- A greater key is looked for one level further down when another greater one is inserted. -/
theorem length_passed_insert {data other : Int} {shape : Shape Int}
    (below : ∀ key ∈ shape.keys, key < data) (greater : data < other) (leafAddress : Nat) :
    (passed other (shape.insert data leafAddress)).length = (passed other shape).length + 1 := by
  -- By induction on the tree, always on its right side.
  induction shape with
  | leaf =>
    simp only [Shape.insert, passed, if_neg greater.ne, if_neg (not_lt_of_gt greater)]
    rfl
  | node address left held right ihLeft ihRight =>
    simp only [Shape.keys, List.mem_cons, List.mem_append] at below
    have here := below held (.inl rfl)
    have deeper := ihRight fun key member => below key (.inr (.inr member))
    have above := here.trans greater
    simp only [Shape.insert, if_neg (not_lt_of_gt here), if_pos here, passed, if_neg above.ne,
      if_neg (not_lt_of_gt above), List.length_cons, deeper]

/-- The first keys from zero on, in ascending order. -/
def ascending (count : Nat) : List Int := (List.range count).map Int.ofNat

/-- Keys inserted in ascending order are all on the path to any greater one. -/
theorem keyTree_ascending (count : Nat) :
    (∀ key ∈ (keyTree (ascending count)).keys, key < count) ∧
      (keyTree (ascending count)).height = count ∧
      ∀ other : Int, (count : Int) ≤ other →
        (passed other (keyTree (ascending count))).length = count := by
  -- By induction on the number of keys, each of which becomes the deepest one.
  induction count with
  -- Without keys there is no tree.
  | zero =>
    refine ⟨fun key none => ?_, rfl, fun _ _ => rfl⟩
    exact absurd none List.not_mem_nil
  | succ count ih =>
    obtain ⟨below, height, path⟩ := ih
    -- The last key comes behind all others.
    have step : keyTree (ascending (count + 1)) =
        (keyTree (ascending count)).insert (count : Int) 0 := by
      simp only [keyTree, grown, ascending, List.range_succ, List.map_append, List.foldl_append]
      rfl
    -- It is greater than all of them, so it goes below the deepest one.
    have absent : (count : Int) ∉ (keyTree (ascending count)).keys := fun member =>
      lt_irrefl _ (below _ member)
    have deeper := height_insert_absent 0 absent 0
    rw [searchLevel_eq, path _ le_rfl, height] at deeper
    rw [step]
    refine ⟨fun key member => ?_, by omega, fun other greater => ?_⟩
    · -- All keys are among those that have been inserted.
      rcases (Shape.mem_keys_insert _ _ _ _).mp member with rfl | older
      · omega
      · have smaller := below key older
        omega
    · rw [length_passed_insert below (by omega), path other (by omega)]

end Insertions

/-- Insertion, search and depth agree on a tree with the given keys: the level an insertion returns
is the level of its key afterwards, no present key moves, present keys lie above the depth and
absent ones not below it, and the depth grows by one exactly when an absent key is hung at the old
depth. -/
def LevelsAgree (tree : BinarySearchTree) (keys : List Int) (key : Int) : Prop :=
  ∃ level after depth, insertInt tree key = .ok (level, after) ∧ lookupInt after key = .ok level ∧
    getDepthInt tree = .ok depth ∧
    (key ∈ keys → after.root = tree.root ∧ after.heap.cells = tree.heap.cells ∧
      lookupInt tree key = .ok level) ∧
    (∀ other ∈ keys, ∃ held, lookupInt tree other = .ok held ∧
      lookupInt after other = .ok held ∧ held < depth) ∧
    (∀ other ∉ keys, ∃ held, lookupInt tree other = .ok held ∧ held ≤ depth) ∧
    getDepthInt after = .ok (if key ∉ keys ∧ level = depth then depth + 1 else depth)

/-- An int can count the depth of a tree and the path to where an absent key belongs. -/
def Countable (shape : Shape Int) (key : Int) : Prop :=
  shape.height ≤ maxLevel ∧ (key ∉ shape.keys → (passed key shape).length < maxLevel)

/-- Whether the levels can be counted can be computed. -/
instance (shape : Shape Int) (key : Int) : Decidable (Countable shape key) :=
  inferInstanceAs (Decidable (_ ∧ _))

/-- The depth of the tree with the key in it can be counted. -/
theorem countable_iff {shape : Shape Int} (ordered : shape.Ordered) (key : Int)
    (leafAddress : Nat) :
    Countable shape key ↔
      shape.height ≤ maxLevel ∧ (shape.insert key leafAddress).height ≤ maxLevel := by
  refine and_congr_right fun shallow => ?_
  by_cases present : key ∈ shape.keys
  · rw [height_insert_present leafAddress ordered present]
    exact iff_of_true (fun absent => absurd present absent) shallow
  · -- The new leaf is one level below the keys that are passed.
    have grown := height_insert_absent leafAddress present 0
    rw [searchLevel_eq] at grown
    simp only [present, not_false_eq_true, true_implies]
    omega

/-- Where the levels can be counted, insertion, search and depth agree. -/
theorem Countable.levelsAgree {tree : BinarySearchTree} {shape : Shape Int}
    (represents : Represents tree shape) {key : Int} (countable : Countable shape key) :
    LevelsAgree tree shape.keys key := by
  -- Every level is that of the search in the shape, before and after.
  obtain ⟨after, done, again, unchanged⟩ := insert_represents represents key
  have ordered := represents.ordered
  obtain ⟨shallow, shallowAfter⟩ := (countable_iff ordered key tree.heap.next).mp countable
  have grown := height_insert key tree.heap.next ordered
  have bounded := fun other => searchLevel_le other shape 0
  -- No search goes deeper than the tree, whose depth can be counted.
  have fits : ∀ other, searchLevel other shape 0 ≤ maxLevel := fun other => by
    have level := bounded other
    omega
  have level := insertInt_represents represents key
  rw [counted_fits (fits key), done] at level
  refine ⟨searchLevel key shape 0, after, shape.height, level, ?_, ?_, fun present => ?_,
    fun other present => ?_, fun other _ => ?_, ?_⟩
  · -- What is inserted is found at the level that the insertion has returned.
    rw [lookupInt_represents again, searchLevel_insert_same, counted_fits (fits key)]
  · rw [getDepthInt_represents represents, counted_fits shallow]
  · -- A key that was there before leaves the tree as it was.
    obtain ⟨sameRoot, sameCells⟩ := unchanged present
    exact ⟨sameRoot, sameCells, by rw [lookupInt_represents represents, counted_fits (fits key)]⟩
  · -- Any other key is found where it was, above the depth of the tree.
    refine ⟨searchLevel other shape 0, ?_, ?_, ?_⟩
    · rw [lookupInt_represents represents, counted_fits (fits other)]
    · rw [lookupInt_represents again, searchLevel_insert_other key _ ordered present,
        counted_fits (fits other)]
    · have above := searchLevel_lt ordered present 0
      omega
  · -- No key is looked for below the depth.
    have deep := bounded other
    exact ⟨_, by rw [lookupInt_represents represents, counted_fits (fits other)], by omega⟩
  · -- The depth grows to the level of the new key at most.
    rw [getDepthInt_represents again, counted_fits shallowAfter, grown]

/-- On every ordered tree insertion, search and depth agree if and only if the levels can be counted
in an int. -/
theorem levelsAgree_iff {tree : BinarySearchTree} {shape : Shape Int}
    (represents : Represents tree shape) (key : Int) :
    LevelsAgree tree shape.keys key ↔ Countable shape key := by
  refine ⟨fun agree => ?_, fun countable => countable.levelsAgree represents⟩
  -- The depths and levels that the calls return are those of the shape.
  obtain ⟨level, after, depth, done, -, deep, -, -, -, grown⟩ := agree
  obtain ⟨after', done', again, -⟩ := insert_represents represents key
  rw [countable_iff represents.ordered key tree.heap.next]
  -- What an int has counted is in its range.
  have inRange : ∀ count result, counted count = .ok result → count ≤ maxLevel :=
    fun count result given => by
      by_contra beyond
      rw [counted_beyond (Nat.lt_of_not_le beyond)] at given
      cases given
  refine ⟨inRange _ _ ((getDepthInt_represents represents).symm.trans deep), ?_⟩
  -- The insertion has counted its level too, and is the one without a bound.
  have whole := insertInt_represents represents key
  rw [done] at whole
  obtain ⟨_, _, same⟩ := bind_eq_ok whole.symm
  obtain ⟨-, rfl⟩ := Prod.mk.inj (Except.ok.inj (same.symm.trans done'))
  exact inRange _ _ ((getDepthInt_represents again).symm.trans grown)

/-- An int can count the levels when keys are inserted in ascending order, up to the last one. -/
theorem ascending_represents {count : Nat} (fits : count ≤ maxLevel) :
    ∃ tree shape, insertAllInt .new (ascending count) = .ok tree ∧ Represents tree shape ∧
      unplaced shape = keyTree (ascending count) := by
  have empty : Represents .new .leaf := represents_leaf rfl
  obtain ⟨below, height, -⟩ := keyTree_ascending count
  refine (insertAllInt_represents empty (Nat.zero_le _) (ascending count)).1 ?_
  -- The tree is as deep as there are keys.
  show (keyTree (ascending count)).height ≤ maxLevel + 1
  omega

/-- With one key more in ascending order than an int can count, insertion, search and depth do not
agree. -/
theorem not_levelsAgree_ascending :
    ∃ tree shape, insertAllInt .new (ascending maxLevel) = .ok tree ∧ Represents tree shape ∧
      ¬ LevelsAgree tree shape.keys maxLevel := by
  obtain ⟨tree, shape, run, represents, same⟩ := ascending_represents (Nat.le_refl maxLevel)
  obtain ⟨below, -, path⟩ := keyTree_ascending maxLevel
  refine ⟨tree, shape, run, represents, fun agree => ?_⟩
  obtain ⟨-, short⟩ := (levelsAgree_iff represents maxLevel).mp agree
  -- All the keys are on the path to the new one.
  rw [← passed_unplaced, same, path _ le_rfl, ← keys_unplaced, same] at short
  exact lt_irrefl _ (short fun member => lt_irrefl _ (below _ member))

/-- The keys of a tree with three nodes. -/
def threeKeys : Shape Int := .node 0 (.node 1 .leaf 2 .leaf) 4 (.node 2 .leaf 6 .leaf)

/-- A tree with three nodes. -/
def threeNodes : BinarySearchTree where
  root := some 0
  heap :=
    { cells := fun
        | 0 => some ⟨4, some 1, some 2⟩
        | 1 => some (.new 2)
        | 2 => some (.new 6)
        | _ => none
      next := 3
      beyond := fun
        | 0, far | 1, far | 2, far => absurd far (by decide)
        | _ + 3, _ => rfl }

/-- The tree with three nodes is laid out in its heap. -/
theorem threeNodes_represents : Represents threeNodes threeKeys where
  root := rfl
  -- Each node is read from its cell.
  stored := ⟨⟨_, rfl, rfl, rfl, rfl⟩, ⟨⟨_, rfl, rfl, rfl, rfl⟩, trivial, trivial⟩,
    ⟨_, rfl, rfl, rfl, rfl⟩, trivial, trivial⟩
  nodup := by decide
  ordered := by simp [threeKeys, Shape.Ordered, Shape.keys]

/-- On the tree with three nodes the calls agree, for a key that is there and one that is not. -/
theorem levelsAgree_three :
    LevelsAgree threeNodes threeKeys.keys 2 ∧ LevelsAgree threeNodes threeKeys.keys 5 :=
  ⟨(levelsAgree_iff threeNodes_represents 2).mpr (by decide),
    (levelsAgree_iff threeNodes_represents 5).mpr (by decide)⟩

end SecretTyping.Bst
