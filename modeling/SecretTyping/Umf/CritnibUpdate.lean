import SecretTyping.Umf.CritnibMap

/-! Insertion and removal as changes of a map from words to values. -/

namespace SecretTyping.Umf.Critnib

open Digits

variable {Value : Type}

/-- The bits of a word. -/
def wordBits : Nat := 64

/-- A tree that branches at each of its nodes, at slices of a word. -/
structure Tree.Shaped (tree : Tree Value) : Prop where
  wellFormed : tree.root.WellFormed
  below : tree.root.Below wordBits

/-- The map from words to values that a tree is for. -/
def contents (tree : Tree Value) : Word → Option Value := critnibGet tree

/-- The subtree at which a way down ends is well formed. -/
theorem wellFormed_descend {root : Node Value} (wellFormed : root.WellFormed) (key : Word) :
    (descend key root).WellFormed := by
  -- By induction on the node; the way goes on below a child, or ends.
  induction root with
  | null => exact wellFormed
  | leaf address found stored => exact wellFormed
  | node address child path shift ih =>
    rw [descend]
    split
    · exact ih _ (wellFormed.2 _)
    · exact wellFormed

/-- Where a way down ends at a node, the path of the node is not the key. -/
theorem pathOf_descend_ne {root : Node Value} (wellFormed : root.WellFormed) {key : Word}
    {address : Address} {child : Fin slnodes → Node Value} {path : Word} {shift : Sh}
    (reached : descend key root = .node address child path shift) : path ≠ key := by
  -- The path of a node has no bits in the slice and below it, so such a key would be on the path.
  rintro rfl
  have node := wellFormed_descend wellFormed path
  rw [reached] at node
  exact descend_ne reached node.1.masked

/-- What an insertion may make of a map, with the outcome that it tells. -/
def MapInsert (before : Word → Option Value) (key : Word) (value : Value) (update : Bool)
    (memory : Memory) : Outcome → (Word → Option Value) → Prop
  | .success, after =>
    (update = true ∨ before key = none) ∧ after = Function.update before key (some value)
  | .exists, after => update = false ∧ before key ≠ none ∧ after = before
  | .noMemory, after => (memory.leaf = none ∨ memory.node = none) ∧ after = before

/-- The root of a tree fits below the bits of a word, on the way to each key. -/
theorem Tree.Shaped.fits {tree : Tree Value} (shaped : tree.Shaped) (key : Word) :
    Fits wordBits key tree.root where
  aligned := by decide
  wellFormed := shaped.wellFormed
  below := shaped.below
  onWay := by
    -- There is nothing above the bits of a word.
    intro other value held
    have empty : ∀ word : Word, above wordBits word.toNat = 0 :=
      fun word => Nat.div_eq_of_lt word.isLt
    rw [empty, empty]

/-- A tree with a root that fits is shaped. -/
theorem Fits.shaped {tree : Tree Value} {key : Word} (fits : Fits wordBits key tree.root) :
    tree.Shaped :=
  ⟨fits.wellFormed, fits.below⟩

/-- The map has what the tree holds. -/
theorem contents_eq_some_iff {tree : Tree Value} (shaped : tree.Shaped) {key : Word}
    {value : Value} : contents tree key = some value ↔ tree.root.Holds key value :=
  critnibGet_eq_some_iff shaped.wellFormed

/-- The map has nothing for a key that the tree does not hold. -/
theorem contents_eq_none_iff {tree : Tree Value} (shaped : tree.Shaped) {key : Word} :
    contents tree key = none ↔ ∀ value, ¬ tree.root.Holds key value := by
  simp only [Option.eq_none_iff_forall_ne_some, ne_eq, contents_eq_some_iff shaped]

/-- Maps that have the same values are the same. -/
theorem contents_eq_of_holds {tree : Tree Value} (shaped : tree.Shaped)
    {map : Word → Option Value}
    (same : ∀ key value, tree.root.Holds key value ↔ map key = some value) :
    contents tree = map := by
  funext key
  apply Option.ext
  intro value
  rw [contents_eq_some_iff shaped, same]

/-- The map depends on the root alone. -/
theorem contents_congr {before after : Tree Value} (same : after.root = before.root) :
    contents after = contents before := by
  funext key
  simp only [contents, critnibGet, same]

/-- A tree with the root of a shaped tree is shaped. -/
theorem Tree.Shaped.congr {before after : Tree Value} (shaped : before.Shaped)
    (same : after.root = before.root) : after.Shaped := by
  refine ⟨?_, ?_⟩
  · -- Both conditions speak of the root alone.
    rw [same]
    exact shaped.wellFormed
  · rw [same]
    exact shaped.below

/-- A tree in which a key has been stored maps the key to its value, and the others as before. -/
theorem contents_store {before : Tree Value} {key : Word} (after : Tree Value) (value : Value)
    {subtree : Node Value} (shaped : before.Shaped)
    (stored : after.root = store key subtree before.root) (present : subtree.isNull = false)
    (replaces : ∀ high, Fits high key (descend key before.root) → Fits high key subtree)
    (holds : ∀ other found, subtree.Holds other found ↔
      (other = key ∧ found = value) ∨ (other ≠ key ∧ (descend key before.root).Holds other found)) :
    after.Shaped ∧ contents after = Function.update (contents before) key (some value) := by
  -- The tree fits as the subtree fits where it is put.
  have fits : Fits wordBits key after.root := by
    rw [stored]
    exact fits_store present (shaped.fits key) replaces
  have shape := fits.shaped
  refine ⟨shape, contents_eq_of_holds shape ?_⟩
  -- The key is held by the subtree alone, and the others are held where they were.
  intro other found
  rw [stored, holds_store, holds]
  by_cases same : other = key
  · subst same
    simp only [Function.update_self, Option.some.injEq, true_and, ne_eq, not_true_eq_false,
      false_and, or_false, eq_comm (a := value)]
    apply Iff.intro
    · rintro (aside | same)
      · exact absurd aside (not_besides_self shaped.wellFormed other found)
      · exact same
    · exact Or.inr
  · simp only [Function.update_of_ne same, same, false_and, false_or, ne_eq, not_false_eq_true,
      true_and, contents_eq_some_iff shaped]
    exact (holds_iff_besides key before.root other found).symm

/-- A leaf is allocated without a change of the tree. -/
theorem allocLeaf_root {tree after : Tree Value} {fresh : Option Address} {k : Address}
    (allocated : allocLeaf tree fresh = some (k, after)) : after.root = tree.root := by
  -- A leaf comes from those that have been deleted, or from the allocator.
  rw [allocLeaf] at allocated
  split at allocated
  · cases allocated
    rfl
  · cases fresh with
    | none => cases allocated
    | some address =>
      cases allocated
      rfl

/-- A node is allocated without a change of the tree. -/
theorem allocNode_root {tree after : Tree Value} {fresh : Option Address} {m : Address}
    (allocated : allocNode tree fresh = some (m, after)) : after.root = tree.root := by
  -- A node comes from those that have been deleted, or from the allocator.
  rw [allocNode] at allocated
  split at allocated
  · cases allocated
    rfl
  · cases fresh with
    | none => cases allocated
    | some address =>
      cases allocated
      rfl

/-- A leaf is refused only if the allocator refuses it. -/
theorem fresh_of_allocLeaf {tree : Tree Value} {fresh : Option Address}
    (refused : allocLeaf tree fresh = none) : fresh = none := by
  rw [allocLeaf] at refused
  split at refused
  · cases refused
  · exact Option.map_eq_none_iff.mp refused

/-- A node is refused only if the allocator refuses it. -/
theorem fresh_of_allocNode {tree : Tree Value} {fresh : Option Address}
    (refused : allocNode tree fresh = none) : fresh = none := by
  rw [allocNode] at refused
  split at refused
  · cases refused
  · exact Option.map_eq_none_iff.mp refused

/-- The ways in which an insertion ends. -/
inductive Inserted (tree : Tree Value) (key : Word) (value : Value) (update : Bool)
    (memory : Memory) : Outcome → Tree Value → Prop
  | noLeaf (refused : allocLeaf tree memory.leaf = none) :
    Inserted tree key value update memory .noMemory tree
  | empty {k : Address} {after : Tree Value} (leaf : allocLeaf tree memory.leaf = some (k, after))
    (reached : descend key tree.root = .null) :
    Inserted tree key value update memory .success
      { after with root := store key (.leaf k key value) tree.root }
  | updated {k address : Address} {old : Value} {after : Tree Value}
    (leaf : allocLeaf tree memory.leaf = some (k, after))
    (reached : descend key tree.root = .leaf address key old) (asked : update = true) :
    Inserted tree key value update memory .success
      { freeLeaf after (some k) with root := store key (.leaf address key value) tree.root }
  | present {k address : Address} {old : Value} {after : Tree Value}
    (leaf : allocLeaf tree memory.leaf = some (k, after))
    (reached : descend key tree.root = .leaf address key old) (asked : update = false) :
    Inserted tree key value update memory .exists (freeLeaf after (some k))
  | noNode {k : Address} {after : Tree Value} (leaf : allocLeaf tree memory.leaf = some (k, after))
    (refused : allocNode after memory.node = none) :
    Inserted tree key value update memory .noMemory (freeLeaf after (some k))
  | forked {k m : Address} {middle after : Tree Value}
    (leaf : allocLeaf tree memory.leaf = some (k, middle))
    (node : allocNode middle memory.node = some (m, after))
    (present : (descend key tree.root).isNull = false)
    (different : pathOf (descend key tree.root) ≠ key) :
    Inserted tree key value update memory .success
      { after with root := store key (newNode m key (pathOf (descend key tree.root))
        (shiftOf (pathOf (descend key tree.root) ^^^ key)) (.leaf k key value)
        (descend key tree.root)) tree.root }

/-- An insertion where the way down ends at something whose path is not the key. -/
theorem critnibInsert_apart {tree after : Tree Value} {key : Word} {k : Address} (value : Value)
    (update : Bool) {memory : Memory} (leaf : allocLeaf tree memory.leaf = some (k, after))
    (present : (descend key tree.root).isNull = false)
    (different : pathOf (descend key tree.root) ≠ key) :
    ∃ outcome last, critnibInsert tree key value update memory = some (outcome, last) ∧
      Inserted tree key value update memory outcome last := by
  -- A node is put above what is there, if there is memory for one.
  have bits : pathOf (descend key tree.root) ^^^ key ≠ 0 :=
    fun none => different (BitVec.xor_eq_zero_iff.mp none)
  have root := allocLeaf_root leaf
  simp only [critnibInsert, leaf, root]
  cases node : allocNode after memory.node with
  | none =>
    refine ⟨.noMemory, freeLeaf after (some k), ?_, .noNode leaf node⟩
    cases reached : descend key tree.root <;> simp_all [Node.isNull]
  | some result =>
    obtain ⟨m, last⟩ := result
    refine ⟨_, _, ?_, .forked leaf node present different⟩
    have lastRoot := allocNode_root node
    cases reached : descend key tree.root <;> simp_all [Node.isNull]

/-- An insertion into a shaped tree does not fail an assertion, and ends in one of the ways. -/
theorem critnibInsert_cases {tree : Tree Value} (shaped : tree.Shaped) (key : Word) (value : Value)
    (update : Bool) (memory : Memory) :
    ∃ outcome after, critnibInsert tree key value update memory = some (outcome, after) ∧
      Inserted tree key value update memory outcome after := by
  -- A leaf is taken first.
  cases leaf : allocLeaf tree memory.leaf with
  | none => exact ⟨_, _, by simp only [critnibInsert, leaf], .noLeaf leaf⟩
  | some result =>
    obtain ⟨k, after⟩ := result
    have root := allocLeaf_root leaf
    -- The cases are those of what the way down ends at.
    cases reached : descend key tree.root with
    | null =>
      refine ⟨_, _, ?_, .empty leaf reached⟩
      simp only [critnibInsert, leaf, root, reached]
    | leaf address found old =>
      by_cases same : found = key
      · subst same
        cases update with
        | true =>
          refine ⟨_, _, ?_, .updated leaf reached rfl⟩
          simp [critnibInsert, leaf, root, reached, pathOf, Node.isLeaf, Node.withValue, freeLeaf]
        | false =>
          refine ⟨_, _, ?_, .present leaf reached rfl⟩
          simp [critnibInsert, leaf, root, reached, pathOf, Node.isLeaf]
      · apply critnibInsert_apart value update leaf
        · rw [reached]
          rfl
        · rw [reached]
          exact same
    | node address child path shift =>
      apply critnibInsert_apart value update leaf
      · rw [reached]
        rfl
      · rw [reached]
        exact pathOf_descend_ne shaped.wellFormed reached

/-- Where a way down ends at something whose path is not the key, the key is not held there. -/
theorem not_holds_descend {root : Node Value} (wellFormed : root.WellFormed) {key : Word}
    (different : pathOf (descend key root) ≠ key) (value : Value) :
    ¬ (descend key root).Holds key value := by
  -- The keys below a node are on its path, on which the key is not.
  intro held
  -- What is at the end of the way is nothing, the leaf of another key, or such a node.
  have inner := wellFormed_descend wellFormed key
  cases reached : descend key root with
  | null =>
    rw [reached] at held
    exact held
  | leaf address found stored =>
    rw [reached] at held different
    exact different held.1
  | node address child path shift =>
    rw [reached] at held inner
    obtain ⟨i, inside⟩ := held
    exact descend_ne reached (inner.1.onPath i key value inside)

/-- Nothing is held for a key if it is not held at the end of the way to it. -/
theorem contents_eq_none_of_descend {tree : Tree Value} (shaped : tree.Shaped) {key : Word}
    (absent : ∀ value, ¬ (descend key tree.root).Holds key value) : contents tree key = none := by
  rw [contents_eq_none_iff shaped]
  intro value held
  -- It is held at the end of the way, or besides it, where the key is not.
  rcases (holds_iff_besides key tree.root key value).mp held with aside | inside
  · exact not_besides_self shaped.wellFormed key value aside
  · exact absent value inside

/-- An insertion changes the map as it tells. -/
theorem Inserted.spec {tree after : Tree Value} {key : Word} {value : Value} {update : Bool}
    {memory : Memory} {outcome : Outcome} (shaped : tree.Shaped)
    (inserted : Inserted tree key value update memory outcome after) :
    after.Shaped ∧ MapInsert (contents tree) key value update memory outcome (contents after) := by
  -- The map stays in the ways in which nothing is stored.
  cases inserted with
  | noLeaf refused => exact ⟨shaped, Or.inl (fresh_of_allocLeaf refused), rfl⟩
  | noNode leaf refused =>
    have root := allocLeaf_root leaf
    exact ⟨shaped.congr root, Or.inr (fresh_of_allocNode refused), contents_congr root⟩
  | present leaf reached asked =>
    have root := allocLeaf_root leaf
    have held := (holds_iff_besides key tree.root key _).mpr
      (Or.inr (by rw [reached]; exact ⟨rfl, rfl⟩))
    refine ⟨shaped.congr root, asked, ?_, contents_congr root⟩
    rw [(contents_eq_some_iff shaped).mpr held]
    exact Option.some_ne_none _
  | @empty k middle leaf reached =>
    -- In the other ways the key is stored; here there was nothing at the end of the way.
    have absent : contents tree key = none := by
      apply contents_eq_none_of_descend shaped
      rw [reached]
      exact fun _ => id
    have stored := contents_store
      { middle with root := store key (.leaf k key value) tree.root } value shaped rfl rfl
      (fun high fits => fits_leaf fits.aligned k key value) (by
        intro other found
        rw [reached, Node.Holds, Node.Holds, eq_comm (a := key), eq_comm (a := value)]
        exact (or_iff_left fun inside => inside.2).symm)
    exact ⟨stored.1, Or.inr absent, stored.2⟩
  | @updated k address old middle leaf reached asked =>
    -- Here the leaf of the key gets the new value.
    have stored := contents_store { freeLeaf middle (some k) with
        root := store key (.leaf address key value) tree.root } value shaped rfl rfl
      (fun high fits => fits_leaf fits.aligned address key value) (by
        intro other found
        rw [reached, Node.Holds, Node.Holds, eq_comm (a := key), eq_comm (a := value)]
        exact (or_iff_left fun inside => inside.1 inside.2.1).symm)
    exact ⟨stored.1, Or.inl asked, stored.2⟩
  | @forked k m middle last leaf node present different =>
    -- Here a node is put above what is there.
    have absent := not_holds_descend shaped.wellFormed different
    have stored := contents_store
      { last with root := store key (newNode m key (pathOf (descend key tree.root))
        (shiftOf (pathOf (descend key tree.root) ^^^ key)) (.leaf k key value)
        (descend key tree.root)) tree.root } value shaped rfl rfl
      (fun high fits => fits_newNode value fits present
        (fun address child path shift reached => descend_ne reached) different m k) (by
        intro other found
        rw [holds_newNode (sliceIndex_shiftOf different)]
        apply or_congr_right
        apply Iff.intro
        · intro held
          refine ⟨?_, held⟩
          rintro rfl
          exact absent found held
        · exact And.right)
    exact ⟨stored.1, Or.inr (contents_eq_none_of_descend shaped absent), stored.2⟩

/-- The children that there are. -/
theorem mem_children {child : Fin slnodes → Node Value} {i : Fin slnodes} :
    i ∈ children child ↔ (child i).isNull = false := by
  simp [children]

/-- What is held by a child that is there, and by no child besides it. -/
theorem children_holds {child : Fin slnodes → Node Value} {i : Fin slnodes} (key : Word)
    (value : Value) (held : (child i).Holds key value) : i ∈ children child := by
  rw [mem_children]
  -- An empty child holds nothing.
  cases reached : child i with
  | null =>
    rw [reached] at held
    exact absurd held id
  | leaf address found stored => rfl
  | node address below path shift => rfl

/-- A node without the child of a key branches if two children are left. -/
theorem Branching.clear {child : Fin slnodes → Node Value} {path : Word} {shift : Sh}
    {slot first second : Fin slnodes} {rest : List (Fin slnodes)}
    (branching : Branching child path shift)
    (left : children (Function.update child slot .null) = first :: second :: rest) :
    Branching (Function.update child slot .null) path shift := by
  -- What is said of the children is true of nothing, too.
  have each : ∀ (Property : Fin slnodes → Node Value → Prop), Property slot .null →
      (∀ i, Property i (child i)) → ∀ i, Property i (Function.update child slot .null i) := by
    intro Property cleared unchanged i
    by_cases same : i = slot
    · subst same
      rwa [Function.update_self]
    · rw [Function.update_of_ne same]
      exact unchanged i
  -- The two children that are left are different ones, so that the node still forks.
  have distinct : (first :: second :: rest).Nodup := by
    rw [← left]
    exact (List.nodup_finRange slnodes).filter _
  have firstLeft : first ∈ children (Function.update child slot .null) := by simp [left]
  have secondLeft : second ∈ children (Function.update child slot .null) := by simp [left]
  refine {
    aligned := branching.aligned
    masked := branching.masked
    forks := ⟨first, second, ?_, mem_children.mp firstLeft, mem_children.mp secondLeft⟩
    below := each (fun _ after => after.Below shift.toNat) trivial branching.below
    onPath := each
      (fun _ after => ∀ other value, after.Holds other value → other &&& pathMask shift = path)
      (fun _ _ held => absurd held id) branching.onPath
    inSlice := each
      (fun i after => ∀ other value, after.Holds other value → sliceIndex other shift = i)
      (fun _ _ held => absurd held id) branching.inSlice }
  rintro rfl
  simp at distinct

/-- A node whose child on the way to a key is exchanged holds what the other children hold, and what
the new child does. -/
theorem holds_exchange {address : Address} {child : Fin slnodes → Node Value} {path : Word}
    {shift : Sh} (slot : Fin slnodes) (subtree : Node Value) (other : Word) (found : Value) :
    (Node.node address (Function.update child slot subtree) path shift).Holds other found ↔
      (∃ i, i ≠ slot ∧ (child i).Holds other found) ∨ subtree.Holds other found := by
  rw [Node.Holds]
  apply Iff.intro
  · -- The child is the one that is exchanged, or another one.
    rintro ⟨i, held⟩
    by_cases same : i = slot
    · subst same
      rw [Function.update_self] at held
      exact Or.inr held
    · rw [Function.update_of_ne same] at held
      exact Or.inl ⟨i, same, held⟩
  · rintro (⟨i, different, held⟩ | held)
    · exact ⟨i, by rwa [Function.update_of_ne different]⟩
    · exact ⟨slot, by rwa [Function.update_self]⟩

/-- The keys besides the child on the way to a key are other keys. -/
theorem Branching.ne_of_aside {child : Fin slnodes → Node Value} {path : Word} {shift : Sh}
    (branching : Branching child path shift) {key other : Word} {i : Fin slnodes} {found : Value}
    (different : i ≠ sliceIndex key shift) (held : (child i).Holds other found) : other ≠ key := by
  rintro rfl
  exact different (branching.inSlice i other found held).symm

/-- A child that is left alone fits where its node did. -/
theorem fits_lone {high : Nat} {address : Address} {key path : Word} {shift : Sh}
    {child : Fin slnodes → Node Value} (fits : Fits high key (.node address child path shift))
    (i : Fin slnodes) : Fits high key (child i) where
  aligned := fits.aligned
  wellFormed := fits.wellFormed.2 i
  below := (fits.wellFormed.1.below i).mono
    (Nat.le_trans (Nat.le_add_right _ _) fits.below)
  onWay other value held := fits.onWay other value held.ofChild

/-- Nothing is well formed. -/
theorem wellFormed_null : (.null : Node Value).WellFormed := trivial

/-- Taking a leaf out of the node above it leaves all but its key. -/
theorem cut_leaf {high : Nat} {address leafAddress : Address} {key path : Word} {shift : Sh}
    {child : Fin slnodes → Node Value} {value : Value}
    (fits : Fits high key (.node address child path shift))
    (leaf : child (sliceIndex key shift) = .leaf leafAddress key value) :
    ∃ after removed, cut key (.node address child path shift) = some (after, removed) ∧
      after.isNull = false ∧ Fits high key after ∧ ∀ other found, after.Holds other found ↔
        (Node.node address child path shift).Holds other found ∧ other ≠ key := by
  -- The key is on the path of the node, as the node holds it.
  obtain ⟨branching, inner⟩ := fits.wellFormed
  have matched := branching.onPath _ key value (by rw [leaf]; exact ⟨rfl, rfl⟩)
  -- What is left is what the other children hold.
  have remaining : ∀ other found,
      (∃ i, i ≠ sliceIndex key shift ∧ (child i).Holds other found) ↔
        (Node.node address child path shift).Holds other found ∧ other ≠ key := by
    intro other found
    apply Iff.intro
    · rintro ⟨i, different, held⟩
      exact ⟨held.ofChild, branching.ne_of_aside different held⟩
    · rintro ⟨⟨i, held⟩, different⟩
      refine ⟨i, ?_, held⟩
      rintro rfl
      rw [leaf] at held
      exact different held.1.symm
  -- The code counts the children that are left.
  cases left : children (Function.update child (sliceIndex key shift) .null) with
  | nil =>
    -- A fork has a child besides the one that is taken out.
    obtain ⟨i, j, different, first, second⟩ := branching.forks
    have other : ∃ k, k ≠ sliceIndex key shift ∧ (child k).isNull = false := by
      by_cases same : i = sliceIndex key shift
      · exact ⟨j, fun again => different (same.trans again.symm), second⟩
      · exact ⟨i, same, first⟩
    obtain ⟨k, aside, present⟩ := other
    have there : k ∈ children (Function.update child (sliceIndex key shift) .null) := by
      rw [mem_children, Function.update_of_ne aside]
      exact present
    rw [left] at there
    cases there
  | cons first rest =>
    -- At least one child is left, which is not the one that is taken out.
    have there : first ∈ children (Function.update child (sliceIndex key shift) .null) := by
      simp [left]
    have aside : first ≠ sliceIndex key shift := by
      rintro rfl
      rw [mem_children, Function.update_self] at there
      cases there
    rw [mem_children, Function.update_of_ne aside] at there
    cases rest with
    | nil =>
      -- It is the only one, and takes the place of the node.
      refine ⟨child first, some address, ?_, there, fits_lone fits first, ?_⟩
      · simp only [cut, leaf, left, Function.update_of_ne aside]
      · -- No other child is left.
        intro other found
        rw [← remaining]
        apply Iff.intro
        · exact fun held => ⟨first, aside, held⟩
        · rintro ⟨i, different, held⟩
          have only : i ∈ children (Function.update child (sliceIndex key shift) .null) := by
            apply children_holds other found
            rwa [Function.update_of_ne different]
          rw [left, List.mem_singleton] at only
          rwa [← only]
    | cons second rest =>
      -- There are more, and the node stays.
      refine ⟨.node address (Function.update child (sliceIndex key shift) .null) path shift, none,
        ?_, rfl, ?_, ?_⟩
      · simp only [cut, leaf, left]
      · exact fits_node address fits.aligned (branching.clear left)
          (wellFormed_update inner wellFormed_null _) fits.below matched
      · intro other found
        rw [holds_exchange, ← remaining]
        exact or_iff_left id

/-- Taking the leaf of a key out of a node leaves all but the key. -/
theorem cut_spec {high : Nat} {key : Word} {value : Value} {node : Node Value}
    (fits : Fits high key node) (held : node.Holds key value) (inside : node.isLeaf = false) :
    ∃ after removed, cut key node = some (after, removed) ∧ after.isNull = false ∧
      Fits high key after ∧
        ∀ other found, after.Holds other found ↔ node.Holds other found ∧ other ≠ key := by
  -- By induction on the node; the leaf is below the child on the way, or it is that child.
  induction node generalizing high with
  | null => exact absurd held id
  | leaf address found stored => cases inside
  | node address child path shift ih =>
    obtain ⟨branching, inner⟩ := fits.wellFormed
    obtain ⟨i, below⟩ := held
    have matched := branching.onPath i key value below
    have onWay := branching.inSlice i key value below
    subst onWay
    -- What the child on the way is decides what the code does.
    cases reached : child (sliceIndex key shift) with
    | null =>
      rw [reached] at below
      exact absurd below id
    | leaf leafAddress found stored =>
      rw [reached] at below
      obtain ⟨rfl, rfl⟩ := below
      exact cut_leaf fits reached
    | node lower grandchild route height =>
      -- The key is further down, and the child is exchanged for what is left of it.
      obtain ⟨after, removed, taken, present, deeper, holds⟩ := ih (sliceIndex key shift)
        (fits_child branching inner matched) below (by rw [reached]; rfl)
      refine ⟨.node address (Function.update child (sliceIndex key shift) after) path shift,
        removed, ?_, rfl, ?_, ?_⟩
      · rw [reached] at taken
        simp only [cut, reached, taken, Option.map_some]
      · exact fits_node address fits.aligned (branching.exchange matched present deeper)
          (wellFormed_update inner deeper.wellFormed _) fits.below matched
      · intro other found
        rw [holds_exchange, holds]
        apply Iff.intro
        · rintro (⟨i, different, aside⟩ | ⟨within, different⟩)
          · exact ⟨aside.ofChild, branching.ne_of_aside different aside⟩
          · exact ⟨within.ofChild, different⟩
        · rintro ⟨⟨i, within⟩, different⟩
          by_cases same : i = sliceIndex key shift
          · subst same
            exact Or.inr ⟨within, different⟩
          · exact Or.inl ⟨i, same, within⟩

/-- The next slot is found without a change of the tree. -/
theorem nextSlot_root (tree : Tree Value) : (nextSlot tree).2.root = tree.root := by
  -- Neither a node nor a leaf that may be used again is in the tree.
  have node : ∀ (tree : Tree Value) address, (freeNode tree address).root = tree.root := by
    intro tree address
    cases address <;> rfl
  have leaf : ∀ (tree : Tree Value) address, (freeLeaf tree address).root = tree.root := by
    intro tree address
    cases address <;> rfl
  simp only [nextSlot, leaf, node]

/-- The ways in which a removal ends. -/
inductive Removed (tree : Tree Value) (key : Word) : Option Value → Tree Value → Prop
  | empty (root : tree.root = .null) : Removed tree key none tree
  | absent (root : tree.root.isNull = false) (missing : contents tree key = none) :
    Removed tree key none (nextSlot tree).2
  | last {k : Address} {value : Value} (root : tree.root = .leaf k key value) :
    Removed tree key (some value) { (nextSlot tree).2 with
      root := .null
      pendingDelLeaves :=
        Function.update (nextSlot tree).2.pendingDelLeaves (nextSlot tree).1 (some k) }
  | taken {k : Address} {value : Value} {root : Node Value} {removed : Option Address}
    (inside : tree.root.isLeaf = false) (leaf : dive key tree.root = .leaf k key value)
    (cutOut : cut key tree.root = some (root, removed)) :
    Removed tree key (some value) { (nextSlot tree).2 with
      root := root
      pendingDelNodes :=
        Function.update (nextSlot tree).2.pendingDelNodes (nextSlot tree).1 removed
      pendingDelLeaves :=
        Function.update (nextSlot tree).2.pendingDelLeaves (nextSlot tree).1 (some k) }

/-- A removal from a shaped tree does not fail an assertion, and ends in one of the ways. -/
theorem critnibRemove_cases {tree : Tree Value} (shaped : tree.Shaped) (key : Word) :
    ∃ value after, critnibRemove tree key = some (value, after) ∧ Removed tree key value after := by
  -- The root is nothing, a leaf, or a node.
  cases root : tree.root with
  | null => exact ⟨none, tree, by simp only [critnibRemove, root], .empty root⟩
  | leaf k found value =>
    by_cases same : found = key
    · subst same
      exact ⟨some value, _, by simp only [critnibRemove, root, if_true], .last root⟩
    · refine ⟨none, _, by simp only [critnibRemove, root, if_neg same], .absent ?_ ?_⟩
      · rw [root]
        rfl
      · simp only [contents, critnibGet, root, dive, if_neg same]
  | node address child path shift =>
    -- Below a node the way down is gone until it ends.
    have there : tree.root.isNull = false := by
      rw [root]
      rfl
    cases reached : dive key tree.root with
    | null =>
      refine ⟨none, (nextSlot tree).2, ?_, .absent there ?_⟩
      · rw [root] at reached
        simp only [critnibRemove, root, reached]
      · simp only [contents, critnibGet, reached]
    | node lower grandchild route height =>
      refine ⟨none, (nextSlot tree).2, ?_, .absent there ?_⟩
      · rw [root] at reached
        simp only [critnibRemove, root, reached]
      · simp only [contents, critnibGet, reached]
    | leaf k found value =>
      -- It ends at the leaf of the key, which is cut out, or at another one.
      by_cases same : found = key
      · subst same
        have inside : tree.root.isLeaf = false := by
          rw [root]
          rfl
        have held := (holds_iff_dive shaped.wellFormed found value).mpr ⟨k, reached⟩
        obtain ⟨after, removed, taken, -⟩ := cut_spec (shaped.fits found) held inside
        refine ⟨some value, _, ?_, .taken inside reached taken⟩
        rw [root] at reached taken
        simp only [critnibRemove, root, reached, taken, if_true, Option.map_some]
      · refine ⟨none, (nextSlot tree).2, ?_, .absent there ?_⟩
        · rw [root] at reached
          simp only [critnibRemove, root, reached, if_neg same]
        · simp only [contents, critnibGet, reached, if_neg same]

/-- A removal takes the key out of the map, and returns its value. -/
theorem Removed.spec {tree after : Tree Value} {key : Word} {value : Option Value}
    (shaped : tree.Shaped) (removal : Removed tree key value after) :
    after.Shaped ∧ value = contents tree key ∧
      contents after = Function.update (contents tree) key none := by
  -- Where the key is not there, the map stays.
  have unchanged : contents tree key = none →
      Function.update (contents tree) key none = contents tree := by
    intro missing
    rw [← missing, Function.update_eq_self]
  cases removal with
  | empty root =>
    have missing : contents tree key = none := by simp only [contents, critnibGet, root, dive]
    exact ⟨shaped, missing.symm, (unchanged missing).symm⟩
  | absent root missing =>
    have same := nextSlot_root tree
    exact ⟨shaped.congr same, missing.symm, (contents_congr same).trans (unchanged missing).symm⟩
  | last root =>
    refine ⟨⟨trivial, trivial⟩, ?_, ?_⟩
    · simp only [contents, critnibGet, root, dive, if_true]
    · funext other
      by_cases same : other = key
      · simp only [contents, critnibGet, dive, same, Function.update_self]
      · simp only [contents, critnibGet, root, dive, Function.update_of_ne same,
          if_neg (Ne.symm same)]
  | @taken k value root removed inside leaf cutOut =>
    -- The leaf is in the tree, and what is left fits as the tree did.
    have held := (holds_iff_dive shaped.wellFormed key value).mpr ⟨k, leaf⟩
    obtain ⟨last, freed, cutAgain, -, fits, holds⟩ := cut_spec (shaped.fits key) held inside
    rw [cutOut] at cutAgain
    cases cutAgain
    have shape : Tree.Shaped { (nextSlot tree).2 with
        root := root
        pendingDelNodes :=
          Function.update (nextSlot tree).2.pendingDelNodes (nextSlot tree).1 removed
        pendingDelLeaves :=
          Function.update (nextSlot tree).2.pendingDelLeaves (nextSlot tree).1 (some k) } :=
      Fits.shaped fits
    refine ⟨shape, ((contents_eq_some_iff shaped).mpr held).symm, contents_eq_of_holds shape ?_⟩
    intro other found
    rw [holds]
    by_cases same : other = key
    · simp [same]
    · rw [Function.update_of_ne same, contents_eq_some_iff shaped]
      exact and_iff_left same

end SecretTyping.Umf.Critnib
