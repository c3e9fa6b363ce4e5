import Mathlib.Tactic.Common
import SecretTyping.Umf.Critnib

/-! What the tree holds, the shape that its nodes keep, and what insertion and removal change. -/

namespace SecretTyping.Umf.Critnib

open Digits

variable {Value : Type}

/-- The tree has a leaf with a key and a value. -/
def Node.Holds (key : Word) (value : Value) : Node Value → Prop
  | .null => False
  | .leaf _ found stored => found = key ∧ stored = value
  | .node _ child _ _ => ∃ i, (child i).Holds key value

/-- A subtree whose slices are all below a bit. -/
def Node.Below (high : Nat) : Node Value → Prop
  | .node _ _ _ shift => shift.toNat + slice ≤ high
  | _ => True

/-- A node at the slice that its children differ in. -/
structure Branching (child : Fin slnodes → Node Value) (path : Word) (shift : Sh) : Prop where
  aligned : slice ∣ shift.toNat
  masked : path &&& pathMask shift = path
  /-- A node with one child would have been left out. -/
  forks : ∃ i j, i ≠ j ∧ (child i).isNull = false ∧ (child j).isNull = false
  below : ∀ i, (child i).Below shift.toNat
  onPath : ∀ i key value, (child i).Holds key value → key &&& pathMask shift = path
  inSlice : ∀ i key value, (child i).Holds key value → sliceIndex key shift = i

/-- A tree that branches at each of its nodes. -/
def Node.WellFormed : Node Value → Prop
  | .node _ child path shift => Branching child path shift ∧ ∀ i, (child i).WellFormed
  | _ => True

/-- A subtree that may stand below a bit on the way to a key. -/
structure Fits (high : Nat) (key : Word) (subtree : Node Value) : Prop where
  aligned : slice ∣ high
  wellFormed : subtree.WellFormed
  below : subtree.Below high
  onWay : ∀ other value, subtree.Holds other value → above high other.toNat = above high key.toNat

/-- What is held by a child is held by the node. -/
theorem Node.Holds.ofChild {key : Word} {value : Value} {address : Address}
    {child : Fin slnodes → Node Value} {path : Word} {shift : Sh} {i : Fin slnodes}
    (held : (child i).Holds key value) : (Node.node address child path shift).Holds key value :=
  ⟨i, held⟩

/-- Below a bit is below each that is higher. -/
theorem Node.Below.mono {subtree : Node Value} {low high : Nat} (below : subtree.Below low)
    (upward : low ≤ high) : subtree.Below high := by
  cases subtree with
  | node address child path shift => exact Nat.le_trans below upward
  | null => trivial
  | leaf address key value => trivial

/-- A tree that branches has a leaf, unless there is nothing. -/
theorem exists_holds {node : Node Value} (wellFormed : node.WellFormed)
    (present : node.isNull = false) : ∃ key value, node.Holds key value := by
  -- By induction on the node, whose first fork leads to a leaf.
  induction node with
  | null => cases present
  | leaf address key value => exact ⟨key, value, rfl, rfl⟩
  | node address child path shift ih =>
    obtain ⟨branching, inner⟩ := wellFormed
    obtain ⟨i, j, different, there, other⟩ := branching.forks
    obtain ⟨key, value, held⟩ := ih i (inner i) there
    exact ⟨key, value, i, held⟩

/-- The leaf of a key is where the slices of the key lead to. -/
theorem holds_iff_dive {node : Node Value} (wellFormed : node.WellFormed) (key : Word)
    (value : Value) :
    node.Holds key value ↔ ∃ address, dive key node = .leaf address key value := by
  -- By induction on the node; a key is held by no other child than the one of its slice.
  induction node with
  | null => simp [Node.Holds, dive]
  | leaf address found stored => simp [Node.Holds, dive]
  | node address child path shift ih =>
    obtain ⟨branching, inner⟩ := wellFormed
    rw [dive, ← ih (sliceIndex key shift) (inner _)]
    apply Iff.intro
    · rintro ⟨i, held⟩
      rwa [branching.inSlice i key value held]
    · intro held
      exact ⟨sliceIndex key shift, held⟩

/-- A key has one value. -/
theorem Node.Holds.unique {node : Node Value} (wellFormed : node.WellFormed) {key : Word}
    {first second : Value} (one : node.Holds key first) (two : node.Holds key second) :
    first = second := by
  -- Both are at the leaf that the slices lead to.
  obtain ⟨address, found⟩ := (holds_iff_dive wellFormed key first).mp one
  obtain ⟨other, again⟩ := (holds_iff_dive wellFormed key second).mp two
  rw [found] at again
  cases again
  rfl

/-- The search for a key finds what the tree holds. -/
theorem findEq_eq_some_iff {node : Node Value} (wellFormed : node.WellFormed) {key found : Word}
    {value : Value} :
    findEq key node = some (found, value) ↔ found = key ∧ node.Holds key value := by
  -- The leaf at the end of the way is looked at for its key.
  rw [holds_iff_dive wellFormed, findEq]
  cases reached : dive key node with
  | null => simp
  | node address child path shift => simp
  | leaf address other stored =>
    by_cases same : other = key
    · subst same
      simp only [if_true, Option.some.injEq, Prod.mk.injEq, Node.leaf.injEq, true_and,
        exists_and_right, exists_eq', eq_comm (a := found)]
    · simp [same]

/-- The value of a key is the one that the tree holds. -/
theorem critnibGet_eq_some_iff {tree : Tree Value} (wellFormed : tree.root.WellFormed) {key : Word}
    {value : Value} : critnibGet tree key = some value ↔ tree.root.Holds key value := by
  rw [holds_iff_dive wellFormed, critnibGet]
  cases reached : dive key tree.root with
  | null => simp
  | node address child path shift => simp
  | leaf address other stored =>
    by_cases same : other = key
    · simp [same]
    · simp [same]

/-- The bit above which the keys of a subtree are the same. -/
def level : Node Value → Nat
  | .node _ _ _ shift => shift.toNat + slice
  | _ => 0

/-- Above its level, the keys of a subtree are like its path. -/
theorem above_level {node : Node Value} (wellFormed : node.WellFormed) {key : Word} {value : Value}
    (held : node.Holds key value) :
    above (level node) key.toNat = above (level node) (pathOf node).toNat := by
  -- A leaf has one key, and the children of a node are on its path.
  cases node with
  | null => cases held
  | leaf address found stored =>
    obtain ⟨rfl, -⟩ := held
    rfl
  | node address child path shift =>
    obtain ⟨i, inside⟩ := held
    apply (and_pathMask_eq_iff key path shift).mp
    rw [wellFormed.1.onPath i key value inside, wellFormed.1.masked]

/-- A key of a subtree that fits has the way to the key above the bit, and so has the path. -/
theorem Fits.above_path {high : Nat} {key : Word} {subtree : Node Value}
    (fits : Fits high key subtree) (present : subtree.isNull = false) :
    above high (pathOf subtree).toNat = above high key.toNat := by
  -- The path is like each of the keys that the subtree holds.
  obtain ⟨other, value, held⟩ := exists_holds fits.wellFormed present
  rw [← fits.onWay other value held]
  have lower : level subtree ≤ high := by
    cases subtree with
    | node address child path shift => exact fits.below
    | null => exact Nat.zero_le high
    | leaf address found stored => exact Nat.zero_le high
  exact (above_eq_of_le lower (above_level fits.wellFormed held)).symm

/-- A leaf of the key itself fits everywhere. -/
theorem fits_leaf {high : Nat} (aligned : slice ∣ high) (address : Address) (key : Word)
    (value : Value) : Fits high key (.leaf address key value) where
  aligned := aligned
  wellFormed := trivial
  below := trivial
  onWay := by
    rintro other stored ⟨rfl, -⟩
    rfl

/-- The child in whose slice a key is fits there. -/
theorem fits_child {child : Fin slnodes → Node Value} {path : Word} {shift : Sh} {key : Word}
    (branching : Branching child path shift) (inner : ∀ i, (child i).WellFormed)
    (matched : key &&& pathMask shift = path) :
    Fits shift.toNat key (child (sliceIndex key shift)) where
  aligned := branching.aligned
  wellFormed := inner _
  below := branching.below _
  onWay := by
    -- The keys of the child have the path of the node, and the same slice.
    intro other value held
    rw [above_eq_iff slice]
    have onPath := branching.onPath _ other value held
    rw [← matched] at onPath
    have inSlice := branching.inSlice _ other value held
    exact ⟨(and_pathMask_eq_iff other key shift).mp onPath, (sliceIndex_eq_iff _ _ _).mp inSlice⟩

/-- Keys that are the same above the lowest bit of a slice are below the same child. -/
theorem onPath_of_above {key other path : Word} {shift : Sh}
    (matched : key &&& pathMask shift = path)
    (agree : above shift.toNat other.toNat = above shift.toNat key.toNat) :
    other &&& pathMask shift = path ∧ sliceIndex other shift = sliceIndex key shift := by
  rw [above_eq_iff slice] at agree
  rw [← matched, and_pathMask_eq_iff, sliceIndex_eq_iff]
  exact agree

/-- Where the way down to a key ends at a node, the path of the node is another. -/
theorem descend_ne {key : Word} {root : Node Value} {address : Address}
    {child : Fin slnodes → Node Value} {path : Word} {shift : Sh}
    (reached : descend key root = .node address child path shift) :
    key &&& pathMask shift ≠ path := by
  -- By induction on the node; the way goes on where the path is the same.
  induction root with
  | null => cases reached
  | leaf other found stored => cases reached
  | node other children route height ih =>
    rw [descend] at reached
    by_cases matched : key &&& pathMask height = route
    · rw [if_pos matched] at reached
      exact ih _ reached
    · rw [if_neg matched] at reached
      cases reached
      exact matched

/-- What the tree holds besides the subtree at which the way down to a key ends. -/
def Besides (key other : Word) (value : Value) : Node Value → Prop
  | .node _ child path shift =>
    if key &&& pathMask shift = path then
      (∃ i, i ≠ sliceIndex key shift ∧ (child i).Holds other value) ∨
        Besides key other value (child (sliceIndex key shift))
    else False
  | _ => False

/-- A subtree is stored in place of the one at which the way down to a key ends. -/
theorem holds_store (key : Word) (subtree root : Node Value) (other : Word) (value : Value) :
    (store key subtree root).Holds other value ↔
      Besides key other value root ∨ subtree.Holds other value := by
  -- By induction on the node, of whose children the one on the way is changed.
  induction root with
  | null => simp [store, Besides]
  | leaf address found stored => simp [store, Besides]
  | node address child path shift ih =>
    by_cases matched : key &&& pathMask shift = path
    · -- The node on the way is changed, or the way ends above it.
      simp only [store, Besides, if_pos matched, Node.Holds]
      apply Iff.intro
      · -- The child is the one that is changed, or one of the others.
        rintro ⟨i, held⟩
        by_cases onWay : i = sliceIndex key shift
        · subst onWay
          rw [Function.update_self, ih] at held
          tauto
        · rw [Function.update_of_ne onWay] at held
          exact Or.inl (Or.inl ⟨i, onWay, held⟩)
      · intro held
        -- What one of the others holds is held by it; the rest is in the child on the way.
        by_cases aside : ∃ i, i ≠ sliceIndex key shift ∧ (child i).Holds other value
        · obtain ⟨i, offWay, inside⟩ := aside
          exact ⟨i, by rwa [Function.update_of_ne offWay]⟩
        · refine ⟨sliceIndex key shift, ?_⟩
          rw [Function.update_self, ih]
          exact held.imp_left fun rest => rest.resolve_left aside
    · simp [store, Besides, matched]

/-- The tree holds what is in the subtree at which the way down to a key ends, and the rest. -/
theorem holds_iff_besides (key : Word) (root : Node Value) (other : Word) (value : Value) :
    root.Holds other value ↔
      Besides key other value root ∨ (descend key root).Holds other value := by
  -- The subtree may be stored again where it is.
  have same : store key (descend key root) root = root := by
    induction root with
    | null => rfl
    | leaf address found stored => rfl
    | node address child path shift ih =>
      by_cases matched : key &&& pathMask shift = path
      · simp only [store, descend, if_pos matched, ih, Function.update_eq_self]
      · simp only [store, descend, if_neg matched]
  rw [← holds_store, same]

/-- A key is not besides the end of the way to it. -/
theorem not_besides_self {root : Node Value} (wellFormed : root.WellFormed) (key : Word)
    (value : Value) : ¬ Besides key key value root := by
  -- By induction on the node; a child that holds the key is the one on the way.
  induction root with
  | null => simp [Besides]
  | leaf address found stored => simp [Besides]
  | node address child path shift ih =>
    obtain ⟨branching, inner⟩ := wellFormed
    -- The way ends here, or goes on with one child.
    rw [Besides]
    split
    · rintro (⟨i, offWay, held⟩ | deeper)
      · exact offWay (branching.inSlice i key value held).symm
      · exact ih _ (inner _) deeper
    · exact id

/-- Where something is stored, there is something. -/
theorem isNull_store (key : Word) {subtree : Node Value} (present : subtree.isNull = false)
    (root : Node Value) : (store key subtree root).isNull = false := by
  cases root with
  | null => exact present
  | leaf address found stored => exact present
  | node address child path shift =>
    rw [store]
    split
    · rfl
    · exact present

/-- A node fits below a bit on the way to a key if its slice is below, and its path is that of the
key. -/
theorem fits_node {high : Nat} {key path : Word} {shift : Sh} {child : Fin slnodes → Node Value}
    (address : Address) (aligned : slice ∣ high) (branching : Branching child path shift)
    (inner : ∀ i, (child i).WellFormed) (below : shift.toNat + slice ≤ high)
    (matched : key &&& pathMask shift = path) :
    Fits high key (.node address child path shift) where
  aligned := aligned
  wellFormed := ⟨branching, inner⟩
  below := below
  onWay := by
    -- The keys of the children have the path of the node.
    rintro other value ⟨i, held⟩
    apply above_eq_of_le below
    rw [← and_pathMask_eq_iff, branching.onPath i other value held, matched]

/-- One child of a node may be exchanged for a subtree that fits there. -/
theorem Branching.exchange {child : Fin slnodes → Node Value} {path key : Word} {shift : Sh}
    {subtree : Node Value} (branching : Branching child path shift)
    (matched : key &&& pathMask shift = path) (present : subtree.isNull = false)
    (fits : Fits shift.toNat key subtree) :
    Branching (Function.update child (sliceIndex key shift) subtree) path shift := by
  -- What is said of the children is true of those that stay, and of the one that is exchanged.
  have children : ∀ (Property : Fin slnodes → Node Value → Prop),
      Property (sliceIndex key shift) subtree → (∀ i, Property i (child i)) →
      ∀ i, Property i (Function.update child (sliceIndex key shift) subtree i) := by
    intro Property changed unchanged i
    by_cases onWay : i = sliceIndex key shift
    · subst onWay
      rwa [Function.update_self]
    · rw [Function.update_of_ne onWay]
      exact unchanged i
  have stays := children (fun i after => (child i).isNull = false → after.isNull = false)
    (fun _ => present) (fun _ before => before)
  -- Two children that were there are there afterwards.
  obtain ⟨i, j, different, first, second⟩ := branching.forks
  exact {
    aligned := branching.aligned
    masked := branching.masked
    forks := ⟨i, j, different, stays i first, stays j second⟩
    below := children (fun _ after => after.Below shift.toNat) fits.below branching.below
    onPath := children
      (fun _ after => ∀ other value, after.Holds other value → other &&& pathMask shift = path)
      (fun other value held => (onPath_of_above matched (fits.onWay other value held)).1)
      branching.onPath
    inSlice := children
      (fun i after => ∀ other value, after.Holds other value → sliceIndex other shift = i)
      (fun other value held => (onPath_of_above matched (fits.onWay other value held)).2)
      branching.inSlice }

/-- Children that are well formed are so with another one among them. -/
theorem wellFormed_update {child : Fin slnodes → Node Value} {subtree : Node Value}
    (inner : ∀ i, (child i).WellFormed) (wellFormed : subtree.WellFormed) (i j : Fin slnodes) :
    (Function.update child i subtree j).WellFormed := by
  by_cases same : j = i
  · subst same
    rwa [Function.update_self]
  · rw [Function.update_of_ne same]
    exact inner j

/-- A tree fits if the subtree that is stored in it fits where the one before it did. -/
theorem fits_store {key : Word} {subtree root : Node Value} {high : Nat}
    (present : subtree.isNull = false) (fits : Fits high key root)
    (replaces : ∀ high, Fits high key (descend key root) → Fits high key subtree) :
    Fits high key (store key subtree root) := by
  -- By induction on the node; the child on the way is the one that is changed.
  induction root generalizing high with
  | null => exact replaces high fits
  | leaf address found stored => exact replaces high fits
  | node address child path shift ih =>
    by_cases matched : key &&& pathMask shift = path
    · -- The way goes on, and the child on it fits by induction.
      simp only [descend, if_pos matched] at replaces
      obtain ⟨branching, inner⟩ := fits.wellFormed
      have deeper := ih _ (fits_child branching inner matched) replaces
      have there := isNull_store key present (child (sliceIndex key shift))
      rw [store, if_pos matched]
      exact fits_node address fits.aligned (branching.exchange matched there deeper)
        (wellFormed_update inner deeper.wellFormed _) fits.below matched
    · -- The way ends here.
      simp only [descend, if_neg matched] at replaces
      rw [store, if_neg matched]
      exact replaces high fits

/-- A new node holds the leaf and what is in the subtree. -/
theorem holds_newNode {key path : Word} {sh : Sh} {value : Value} {subtree : Node Value}
    (different : sliceIndex key sh ≠ sliceIndex path sh) (m k : Address) (other : Word)
    (stored : Value) :
    (newNode m key path sh (.leaf k key value) subtree).Holds other stored ↔
      (other = key ∧ stored = value) ∨ subtree.Holds other stored := by
  -- The other children are empty.
  rw [newNode, Node.Holds]
  apply Iff.intro
  · rintro ⟨i, held⟩
    -- The child is the old subtree, the leaf, or empty.
    by_cases old : i = sliceIndex path sh
    · subst old
      rw [Function.update_self] at held
      exact Or.inr held
    · rw [Function.update_of_ne old] at held
      by_cases new : i = sliceIndex key sh
      · subst new
        rw [Function.update_self] at held
        exact Or.inl ⟨held.1.symm, held.2.symm⟩
      · rw [Function.update_of_ne new] at held
        exact absurd held id
  · -- The leaf and the subtree are two of the children.
    rintro (⟨rfl, rfl⟩ | held)
    · exact ⟨sliceIndex other sh, by
        rw [Function.update_of_ne different, Function.update_self]
        exact ⟨rfl, rfl⟩⟩
    · exact ⟨sliceIndex path sh, by rwa [Function.update_self]⟩

/-- What is true of the leaf, of the subtree and of nothing is true of each child of a new node. -/
theorem newNode_children (key path : Word) (sh : Sh) (leaf subtree : Node Value)
    (Property : Fin slnodes → Node Value → Prop) (ofLeaf : Property (sliceIndex key sh) leaf)
    (ofSubtree : Property (sliceIndex path sh) subtree) (ofNull : ∀ i, Property i .null)
    (i : Fin slnodes) :
    Property i (Function.update (Function.update (fun _ => Node.null) (sliceIndex key sh) leaf)
      (sliceIndex path sh) subtree i) := by
  -- The child is the subtree, the leaf, or nothing.
  by_cases old : i = sliceIndex path sh
  · subst old
    rwa [Function.update_self]
  · rw [Function.update_of_ne old]
    by_cases new : i = sliceIndex key sh
    · subst new
      rwa [Function.update_self]
    · rw [Function.update_of_ne new]
      exact ofNull i

/-- The slice in which a path and a key differ: above it they are the same. -/
theorem above_shiftOf (path key : Word) :
    above ((shiftOf (path ^^^ key)).toNat + slice) path.toNat =
      above ((shiftOf (path ^^^ key)).toNat + slice) key.toNat := by
  rw [shiftOf_toNat]
  exact above_highestDifference (by decide) path.toNat key.toNat

/-- The slice in which a path and a key differ leads to two children. -/
theorem sliceIndex_shiftOf {path key : Word} (different : path ≠ key) :
    sliceIndex key (shiftOf (path ^^^ key)) ≠ sliceIndex path (shiftOf (path ^^^ key)) := by
  rw [ne_eq, sliceIndex_eq_iff, shiftOf_toNat]
  -- As numbers the two differ, too.
  have numbers : path.toNat ≠ key.toNat := fun same => different (BitVec.eq_of_toNat_eq same)
  exact (digit_highestDifference (by decide) numbers).symm

/-- Where the way down ends at something that is not of the key, its path differs from the key above
its level. -/
theorem level_le_shiftOf {key : Word} {subtree : Node Value} (wellFormed : subtree.WellFormed)
    (apart : ∀ address child path shift, subtree = .node address child path shift →
      key &&& pathMask shift ≠ path) :
    level subtree ≤ (shiftOf (pathOf subtree ^^^ key)).toNat := by
  -- A node has another path, which differs from the key in a slice above its own.
  cases subtree with
  | null => exact Nat.zero_le _
  | leaf address found stored => exact Nat.zero_le _
  | node address child path shift =>
    have branching := wellFormed.1
    rw [shiftOf_toNat]
    apply le_highestDifference (by decide)
    · exact Nat.dvd_add branching.aligned (Nat.dvd_refl slice)
    · intro same
      apply apart address child path shift rfl
      rw [← branching.masked, eq_comm]
      exact (and_pathMask_eq_iff path key shift).mpr same

/-- A new node fits where the subtree did that it is put above. -/
theorem fits_newNode {high : Nat} {key : Word} {subtree : Node Value} (value : Value)
    (fits : Fits high key subtree) (present : subtree.isNull = false)
    (apart : ∀ address child path shift, subtree = .node address child path shift →
      key &&& pathMask shift ≠ path)
    (different : pathOf subtree ≠ key) (m k : Address) :
    Fits high key (newNode m key (pathOf subtree) (shiftOf (pathOf subtree ^^^ key))
      (.leaf k key value) subtree) := by
  -- The slice is above the level of the subtree and below the bit.
  have lower := level_le_shiftOf fits.wellFormed apart
  have same := above_shiftOf (pathOf subtree) key
  have slices := sliceIndex_shiftOf different
  have aligned : slice ∣ (shiftOf (pathOf subtree ^^^ key)).toNat := by
    rw [shiftOf_toNat]
    exact Nat.dvd_mul_left slice _
  have upper : (shiftOf (pathOf subtree ^^^ key)).toNat + slice ≤ high := by
    rw [shiftOf_toNat]
    apply highestDifference_lt (by decide) fits.aligned
    · exact fun equal => different (BitVec.eq_of_toNat_eq equal)
    · exact fits.above_path present
  generalize shiftOf (pathOf subtree ^^^ key) = sh at lower same slices aligned upper
  -- The keys of the subtree are like its path from the lowest bit of the slice on.
  have onPath : ∀ other stored, subtree.Holds other stored →
      other &&& pathMask sh = key &&& pathMask sh ∧
        sliceIndex other sh = sliceIndex (pathOf subtree) sh := by
    intro other stored held
    apply onPath_of_above
    · exact (and_pathMask_eq_iff _ key sh).mpr same
    · exact above_eq_of_le lower (above_level fits.wellFormed held)
  have children := newNode_children key (pathOf subtree) sh (.leaf k key value) subtree
  -- The conditions of a branching are those of the two children.
  apply fits_node m fits.aligned ?_ ?_ upper rfl
  · exact {
      aligned := aligned
      masked := by rw [BitVec.and_assoc, BitVec.and_self]
      forks := ⟨sliceIndex key sh, sliceIndex (pathOf subtree) sh, slices,
        by rw [Function.update_of_ne slices, Function.update_self]; rfl,
        by rwa [Function.update_self]⟩
      below := children (fun _ after => after.Below sh.toNat) trivial
        (by
          cases subtree with
          | null => trivial
          | leaf address found stored => trivial
          | node address child path shift => exact lower)
        (fun _ => trivial)
      onPath := children
        (fun _ after => ∀ other stored, after.Holds other stored →
          other &&& pathMask sh = key &&& pathMask sh)
        (by rintro other stored ⟨rfl, -⟩; rfl)
        (fun other stored held => (onPath other stored held).1)
        (fun _ other stored held => absurd held id)
      inSlice := children
        (fun i after => ∀ other stored, after.Holds other stored → sliceIndex other sh = i)
        (by rintro other stored ⟨rfl, -⟩; rfl)
        (fun other stored held => (onPath other stored held).2)
        (fun _ other stored held => absurd held id) }
  · exact children (fun _ after => after.WellFormed) trivial fits.wellFormed (fun _ => trivial)

end SecretTyping.Umf.Critnib
