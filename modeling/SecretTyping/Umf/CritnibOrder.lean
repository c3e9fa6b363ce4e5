import Mathlib.Order.Bounds.Defs
import Mathlib.Order.Fin.Basic
import SecretTyping.Umf.CritnibUpdate

/-! The nearest keys in each direction. -/

namespace SecretTyping.Umf.Critnib

open Digits

variable {Value : Type} {direction : Direction}

/-- The keys that a tree holds. -/
def Node.keys (node : Node Value) : Set Word := {key | ∃ value, node.Holds key value}

/-- A direction in which the order of the children is that of the keys. -/
structure Direction.Lawful (direction : Direction) : Prop where
  all : ∀ i, i ∈ direction.slots
  outward : direction.slots.Pairwise fun i j => direction.beyond i j = true
  apart : ∀ i j, direction.beyond i j = true → ¬ direction.beyond j i = true
  other : ∀ i j, i ≠ j → direction.beyond i j = true ∨ direction.beyond j i = true
  within_iff : ∀ a b, direction.within a b = true ↔ ¬ direction.strictly b a = true
  irrefl : ∀ a, ¬ direction.strictly a a = true
  total : ∀ a b, a ≠ b → direction.strictly a b = true ∨ direction.strictly b a = true
  trans : ∀ a b c, direction.strictly a b = true → direction.strictly b c = true →
    direction.strictly a c = true
  /-- Words that differ above a bit are in the order that the bits above it are in. -/
  above : ∀ bits a b c, above bits a.toNat = above bits b.toNat →
    above bits b.toNat ≠ above bits c.toNat →
    (direction.strictly a c = true ↔ direction.strictly b c = true)
  /-- Words with the same bits above a slice are in the order of the children at it. -/
  slices : ∀ shift a b, Digits.above (shift.toNat + slice) a.toNat =
    Digits.above (shift.toNat + slice) b.toNat →
    direction.beyond (sliceIndex b shift) (sliceIndex a shift) = true →
    direction.strictly a b = true

/-- Words that differ above a bit are in the order of the bits above it. -/
theorem lt_iff_of_above {bits : Nat} {a b c : Word} (same : above bits a.toNat = above bits b.toNat)
    (different : above bits b.toNat ≠ above bits c.toNat) : (a < c ↔ b < c) ∧ (c < a ↔ c < b) := by
  have one : ∀ word : Word, above bits word.toNat = above bits b.toNat →
      ((word < c ↔ above bits b.toNat < above bits c.toNat) ∧
        (c < word ↔ above bits c.toNat < above bits b.toNat)) := by
    intro word like
    rw [← like] at different ⊢
    rw [BitVec.lt_def, BitVec.lt_def]
    refine ⟨⟨fun less => ?_, lt_of_above_lt bits⟩, ⟨fun less => ?_, lt_of_above_lt bits⟩⟩
    · exact lt_of_le_of_ne (above_mono bits (Nat.le_of_lt less)) different
    · exact lt_of_le_of_ne (above_mono bits (Nat.le_of_lt less)) different.symm
  rw [(one a same).1, (one a same).2, (one b rfl).1, (one b rfl).2]
  exact ⟨Iff.rfl, Iff.rfl⟩

/-- Words with the same bits above a slice are in the order of the children at it. -/
theorem lt_of_sliceIndex_lt {shift : Sh} {a b : Word}
    (same : above (shift.toNat + slice) a.toNat = above (shift.toNat + slice) b.toNat)
    (less : sliceIndex a shift < sliceIndex b shift) : a < b := by
  rw [Fin.lt_def, sliceIndex_val, sliceIndex_val] at less
  exact lt_of_digit_lt same less

/-- The search to the left goes along the order of the keys. -/
theorem lawful_le : Direction.le.Lawful where
  all i := by simp [Direction.le]
  outward := by
    simp only [Direction.le, decide_eq_true_eq]
    exact List.pairwise_reverse.mpr (List.pairwise_lt_finRange slnodes)
  apart i j := by
    simp only [Direction.le, decide_eq_true_eq]
    exact lt_asymm
  other i j different := by
    simp only [Direction.le, decide_eq_true_eq]
    exact (lt_or_gt_of_ne different).symm
  within_iff a b := by
    simp only [Direction.le, decide_eq_true_eq]
    exact not_lt.symm
  irrefl a := by
    simp only [Direction.le, decide_eq_true_eq]
    exact lt_irrefl a
  total a b different := by
    simp only [Direction.le, decide_eq_true_eq]
    exact lt_or_gt_of_ne different
  trans a b c := by
    simp only [Direction.le, decide_eq_true_eq]
    exact lt_trans
  above bits a b c same different := by
    simp only [Direction.le, decide_eq_true_eq]
    exact (lt_iff_of_above same different).1
  slices shift a b same := by
    simp only [Direction.le, decide_eq_true_eq]
    exact lt_of_sliceIndex_lt same

/-- The search to the right goes along the order of the keys. -/
theorem lawful_ge : Direction.ge.Lawful where
  all i := by simp [Direction.ge]
  outward := by
    simp only [Direction.ge, decide_eq_true_eq]
    exact List.pairwise_lt_finRange slnodes
  apart i j := by
    simp only [Direction.ge, decide_eq_true_eq]
    exact lt_asymm
  other i j different := by
    simp only [Direction.ge, decide_eq_true_eq]
    exact lt_or_gt_of_ne different
  within_iff a b := by
    simp only [Direction.ge, decide_eq_true_eq]
    exact not_lt.symm
  irrefl a := by
    simp only [Direction.ge, decide_eq_true_eq]
    exact lt_irrefl a
  total a b different := by
    simp only [Direction.ge, decide_eq_true_eq]
    exact (lt_or_gt_of_ne different).symm
  trans a b c := by
    simp only [Direction.ge, decide_eq_true_eq]
    exact fun first second => lt_trans second first
  above bits a b c same different := by
    simp only [Direction.ge, decide_eq_true_eq]
    exact (lt_iff_of_above same different).2
  slices shift a b same := by
    simp only [Direction.ge, decide_eq_true_eq]
    exact lt_of_sliceIndex_lt same.symm

/-- What is found first in an ordered list has nothing before it that could have been found. -/
theorem find?_first {Item : Type} {before : Item → Item → Prop} {items : List Item}
    {test : Item → Bool} {found other : Item} (ordered : items.Pairwise before)
    (asymmetric : ∀ a b, before a b → ¬ before b a) (first : items.find? test = some found)
    (member : other ∈ items) (earlier : before other found) : test other = false := by
  -- The list is what does not pass the test, what is found, and what is behind it.
  obtain ⟨-, front, rest, rfl, failing⟩ := List.find?_eq_some_iff_append.mp first
  rw [List.pairwise_append] at ordered
  rcases List.mem_append.mp member with inFront | behind
  · simpa using failing other inFront
  · rcases List.mem_cons.mp behind with rfl | later
    · exact absurd earlier (asymmetric other other earlier)
    · have late := (List.pairwise_cons.mp ordered.2.1).1 other later
      exact absurd earlier (asymmetric found other late)

/-- A child holds nothing if it is not there. -/
theorem not_mem_keys {node : Node Value} (absent : node.isNull = true) (key : Word) :
    -- Nothing has no keys.
    key ∉ node.keys := by
  cases node with
  | null => exact fun ⟨value, held⟩ => held
  | leaf address found stored => cases absent
  | node address child path shift => cases absent

/-- A key of a tree that no other of its keys is behind. -/
def Outermost (direction : Direction) (node : Node Value) (found : Word × Value) : Prop :=
  node.Holds found.1 found.2 ∧ ∀ key ∈ node.keys, ¬ direction.strictly found.1 key = true

/-- What a search for the nearest key may return. -/
def Nearest (direction : Direction) (node : Node Value) (key : Word) :
    Option (Word × Value) → Prop
  | some found => node.Holds found.1 found.2 ∧ direction.within found.1 key = true ∧
    ∀ other ∈ node.keys, direction.within other key = true →
      ¬ direction.strictly found.1 other = true
  | none => ∀ other ∈ node.keys, ¬ direction.within other key = true

/-- The keys below a child are strictly before those below a child that is beyond it. -/
theorem Branching.strictly {child : Fin slnodes → Node Value} {path : Word} {shift : Sh}
    (branching : Branching child path shift) (lawful : direction.Lawful) {i j : Fin slnodes}
    (beyond : direction.beyond i j = true) {a b : Word} (inner : a ∈ (child i).keys)
    (outer : b ∈ (child j).keys) : direction.strictly b a = true := by
  obtain ⟨first, inner⟩ := inner
  obtain ⟨second, outer⟩ := outer
  -- Above the slice the keys are the same.
  apply lawful.slices shift
  · apply (and_pathMask_eq_iff b a shift).mp
    rw [branching.onPath i a first inner, branching.onPath j b second outer]
  · rwa [branching.inSlice i a first inner, branching.inSlice j b second outer]

/-- The key of a leaf is its outermost one. -/
theorem outermost_leaf (lawful : direction.Lawful) (address : Address) (key : Word)
    (value : Value) : Outermost direction (.leaf address key value) (key, value) := by
  refine ⟨⟨rfl, rfl⟩, ?_⟩
  -- The other keys of a leaf are its own.
  rintro other ⟨stored, rfl, -⟩
  exact lawful.irrefl key

/-- The outermost key of the outermost child that is there is that of the node. -/
theorem Outermost.ofChild {address : Address} {child : Fin slnodes → Node Value} {path : Word}
    {shift : Sh} {i : Fin slnodes} {found : Word × Value} (lawful : direction.Lawful)
    (branching : Branching child path shift) (last : Outermost direction (child i) found)
    (empty : ∀ j, direction.beyond j i = true → (child j).isNull = true) :
    Outermost direction (.node address child path shift) found := by
  refine ⟨last.1.ofChild, ?_⟩
  rintro key ⟨value, j, held⟩ behind
  -- The children before it are not there, and the keys of those beyond it are before.
  by_cases same : i = j
  · subst same
    exact last.2 key ⟨value, held⟩ behind
  · rcases lawful.other i j same with beyond | before
    · have less := branching.strictly lawful beyond ⟨found.2, last.1⟩ ⟨value, held⟩
      exact lawful.irrefl key (lawful.trans _ _ _ less behind)
    · exact not_mem_keys (empty j before) key ⟨value, held⟩

/-- The outermost leaf of a subtree has its outermost key. -/
theorem outermost_spec (lawful : direction.Lawful) {node : Node Value}
    (wellFormed : node.WellFormed) (present : node.isNull = false) :
    ∃ found, outermost direction node = some found ∧ Outermost direction node found := by
  -- By induction on the node; the search goes on below the outermost child.
  induction node with
  | null => cases present
  | leaf address key value => exact ⟨(key, value), rfl, outermost_leaf lawful address key value⟩
  | node address child path shift ih =>
    obtain ⟨branching, inner⟩ := wellFormed
    rw [outermost]
    cases search : direction.slots.find? fun i => !(child i).isNull with
    | none =>
      -- A fork has a child, and all children are looked at.
      obtain ⟨i, j, -, there, -⟩ := branching.forks
      have missing := List.find?_eq_none.mp search i (lawful.all i)
      simp [there] at missing
    | some i =>
      have there : (child i).isNull = false := by simpa using List.find?_some search
      obtain ⟨found, reached, last⟩ := ih i (inner i) there
      refine ⟨found, reached, last.ofChild lawful branching ?_⟩
      intro j before
      have fails := find?_first lawful.outward lawful.apart search (lawful.all j) before
      simpa using fails

/-- A key that is strictly before another is not behind it. -/
theorem Direction.Lawful.asymm (lawful : direction.Lawful) {a b : Word}
    (before : direction.strictly a b = true) : ¬ direction.strictly b a = true :=
  fun behind => lawful.irrefl a (lawful.trans a b a before behind)

/-- A key that is strictly before a bound may be found for it. -/
theorem Direction.Lawful.within_of_strictly (lawful : direction.Lawful) {a b : Word}
    (before : direction.strictly a b = true) : direction.within a b = true :=
  (lawful.within_iff a b).mpr (lawful.asymm before)

/-- A key that is strictly behind a bound may not be found for it. -/
theorem Direction.Lawful.not_within (lawful : direction.Lawful) {a b : Word}
    (behind : direction.strictly b a = true) : ¬ direction.within a b = true :=
  fun within => (lawful.within_iff a b).mp within behind

/-- Where all keys may be found, the outermost one is the nearest. -/
theorem Outermost.nearest {node : Node Value} {key : Word} {found : Word × Value}
    (last : Outermost direction node found) (within : direction.within found.1 key = true) :
    Nearest direction node key (some found) :=
  ⟨last.1, within, fun other inside _ => last.2 other inside⟩

/-- The keys below a node are like its path above its slice. -/
theorem Branching.above_path {child : Fin slnodes → Node Value} {path : Word} {shift : Sh}
    (branching : Branching child path shift) {i : Fin slnodes} {other : Word}
    (held : other ∈ (child i).keys) :
    above (shift.toNat + slice) other.toNat = above (shift.toNat + slice) path.toNat := by
  obtain ⟨value, held⟩ := held
  -- The path has the bits of the key above the slice.
  apply (and_pathMask_eq_iff other path shift).mp
  rw [branching.onPath i other value held, branching.masked]

/-- Where the bound is outside of a subtree, either all of its keys may be found or none. -/
theorem nearest_outside (lawful : direction.Lawful) {address : Address}
    {child : Fin slnodes → Node Value} {path key : Word} {shift : Sh}
    (branching : Branching child path shift) (inner : ∀ i, (child i).WellFormed)
    (apart : outside key path shift = true) :
    Nearest direction (.node address child path shift) key
      (if direction.strictly path key then outermost direction (.node address child path shift)
        else none) := by
  -- All keys of the subtree are on the side of the bound that the path is on.
  have different := (outside_iff key path shift).mp apart
  have side : ∀ i, ∀ other ∈ (child i).keys,
      (direction.strictly other key = true ↔ direction.strictly path key = true) :=
    fun i other held => lawful.above _ other path key (branching.above_path held) different.symm
  -- The path is before the bound, with all keys, or behind it.
  split
  · next before =>
    have wellFormed : (Node.node address child path shift).WellFormed := ⟨branching, inner⟩
    obtain ⟨found, reached, last⟩ := outermost_spec lawful wellFormed rfl
    rw [reached]
    obtain ⟨i, held⟩ := last.1
    exact last.nearest (lawful.within_of_strictly ((side i _ ⟨found.2, held⟩).mpr before))
  · next behind =>
    rintro other ⟨value, i, held⟩
    apply lawful.not_within
    have unequal : other ≠ key := by
      rintro rfl
      exact different (branching.above_path ⟨value, held⟩)
    apply (lawful.total other key unequal).resolve_left
    exact fun before => behind ((side i other ⟨value, held⟩).mp before)

/-- Where the bound is on the path of a node, the keys below the children on the one side of its
slice are before it, and the others behind it. -/
theorem Branching.sides {child : Fin slnodes → Node Value} {path key : Word} {shift : Sh}
    (branching : Branching child path shift) (lawful : direction.Lawful)
    (inside : ¬ outside key path shift = true) {i : Fin slnodes} {other : Word}
    (held : other ∈ (child i).keys) :
    (direction.beyond (sliceIndex key shift) i = true → direction.strictly other key = true) ∧
      (direction.beyond i (sliceIndex key shift) = true → direction.strictly key other = true) := by
  -- The bound has the path of the node, so that only its slice counts.
  have onPath : above (shift.toNat + slice) key.toNat = above (shift.toNat + slice) path.toNat := by
    by_contra different
    exact inside ((outside_iff key path shift).mpr different)
  have same := branching.above_path held
  obtain ⟨value, held⟩ := held
  rw [← branching.inSlice i other value held]
  exact ⟨lawful.slices shift other key (same.trans onPath.symm),
    lawful.slices shift key other (onPath.trans same.symm)⟩

/-- What is found in the slice of the bound is the nearest, and so is what is found in the first
child that is there beyond it, if there is nothing to be found in those between. -/
theorem Nearest.ofChild {address : Address} {child : Fin slnodes → Node Value} {path key : Word}
    {shift : Sh} {i : Fin slnodes} {found : Word × Value} (lawful : direction.Lawful)
    (branching : Branching child path shift) (result : Nearest direction (child i) key (some found))
    (between : ∀ j, direction.beyond j i = true → ∀ other ∈ (child j).keys,
      ¬ direction.within other key = true) :
    Nearest direction (.node address child path shift) key (some found) := by
  obtain ⟨held, within, closest⟩ := result
  refine ⟨held.ofChild, within, ?_⟩
  -- The other key is in the same child, in one between, or in one beyond.
  rintro other ⟨value, j, below⟩ possible
  by_cases same : i = j
  · subst same
    exact closest other ⟨value, below⟩ possible
  · rcases lawful.other i j same with beyond | before
    · exact lawful.asymm (branching.strictly lawful beyond ⟨found.2, held⟩ ⟨value, below⟩)
    · exact absurd possible (between j before other ⟨value, below⟩)

/-- Where the bound is on the path of a node and nothing is found in its slice, the children beyond
it are searched. -/
theorem nearest_beyond (lawful : direction.Lawful) {address : Address}
    {child : Fin slnodes → Node Value} {path key : Word} {shift : Sh}
    (branching : Branching child path shift) (inner : ∀ i, (child i).WellFormed)
    (inside : ¬ outside key path shift = true)
    (nothing : Nearest direction (child (sliceIndex key shift)) key none) :
    Nearest direction (.node address child path shift) key
      (match (direction.slots.filter (direction.beyond (sliceIndex key shift))).find? fun i =>
        !(child i).isNull with
      | none => none
      | some i => outermost direction (child i)) := by
  -- Nothing may be found before the slice, nor in it.
  have before : ∀ j, ¬ direction.beyond (sliceIndex key shift) j = true →
      ∀ other ∈ (child j).keys, ¬ direction.within other key = true := by
    intro j notBeyond other held
    by_cases same : j = sliceIndex key shift
    · subst same
      exact nothing other held
    · have side := (lawful.other j (sliceIndex key shift) same).resolve_right notBeyond
      exact lawful.not_within ((branching.sides lawful inside held).2 side)
  have ordered := lawful.outward.filter (direction.beyond (sliceIndex key shift))
  cases search : (direction.slots.filter (direction.beyond (sliceIndex key shift))).find? fun i =>
      !(child i).isNull with
  -- No child beyond is there, so that nothing is found.
  | none =>
    rintro other ⟨value, j, held⟩
    by_cases beyond : direction.beyond (sliceIndex key shift) j = true
    · have missing := List.find?_eq_none.mp search j
        (List.mem_filter.mpr ⟨lawful.all j, beyond⟩)
      have absent : (child j).isNull = true := by simpa using missing
      exact absurd ⟨value, held⟩ (not_mem_keys absent other)
    · exact before j beyond other ⟨value, held⟩
  -- The first one that is there has the outermost key of all beyond.
  | some i =>
    have there : (child i).isNull = false := by simpa using List.find?_some search
    have beyond := (List.mem_filter.mp (List.mem_of_find?_eq_some search)).2
    obtain ⟨found, reached, last⟩ := outermost_spec lawful (inner i) there
    simp only [reached]
    have possible := lawful.within_of_strictly
      ((branching.sides lawful inside ⟨found.2, last.1⟩).1 beyond)
    apply (last.nearest possible).ofChild lawful branching
    intro j closer other held
    by_cases far : direction.beyond (sliceIndex key shift) j = true
    · have fails := find?_first ordered lawful.apart search
        (List.mem_filter.mpr ⟨lawful.all j, far⟩) closer
      have absent : (child j).isNull = true := by simpa using fails
      exact absurd held (not_mem_keys absent other)
    · exact before j far other held

/-- The search finds the nearest key in its direction. -/
theorem nearest_spec (lawful : direction.Lawful) {node : Node Value}
    (wellFormed : node.WellFormed) (key : Word) :
    Nearest direction node key (nearest direction key node) := by
  -- By induction on the node; the slice of the bound is searched first.
  induction node with
  | null => exact fun other ⟨value, held⟩ => absurd held id
  | leaf address found value =>
    rw [nearest]
    -- A leaf may be found if its key is within the bound.
    split
    · next within => exact (outermost_leaf lawful address found value).nearest within
    · next without =>
      rintro other ⟨stored, rfl, -⟩
      exact without
  | node address child path shift ih =>
    obtain ⟨branching, inner⟩ := wellFormed
    rw [nearest]
    -- The bound is outside of the node, or the child in its slice is searched first.
    by_cases apart : outside key path shift = true
    · rw [if_pos apart]
      exact nearest_outside lawful branching inner apart
    · rw [if_neg apart]
      have below := ih (sliceIndex key shift) (inner _)
      cases reached : nearest direction key (child (sliceIndex key shift)) with
      -- Something is found there, which is nearer than what is beyond.
      | some found =>
        rw [reached] at below
        simp only [reached]
        apply below.ofChild lawful branching
        intro j closer other held
        exact lawful.not_within ((branching.sides lawful apart held).2 closer)
      -- Nothing is found there, and the children beyond are searched.
      | none =>
        rw [reached] at below
        simp only [reached]
        exact nearest_beyond lawful branching inner apart below

end SecretTyping.Umf.Critnib
