import Mathlib.Data.Nat.Fib.Basic
import SecretTyping.Umf.RavlOrder

/-! The ranks of the nodes: balancing restores their order, and they keep the tree low. -/

namespace SecretTyping.Umf.Ravl

variable {Data : Type}

/-- The rank of each node is greater than those of its children. -/
def Ranked : Node Data → Prop
  | .null => True
  | .node _ rank left right =>
    nodeRank left < rank ∧ nodeRank right < rank ∧ Ranked left ∧ Ranked right

/-- The ranks go up along a path, and are greater than those of the siblings. -/
def RankedPath : Int → List (Frame Data) → Prop
  | _, [] => True
  | below, frame :: path =>
    below < frame.rank ∧ nodeRank frame.sibling < frame.rank ∧ Ranked frame.sibling ∧
      RankedPath frame.rank path

/-- The ranks go up along a path, where the first one may be the same. -/
def NearlyRanked : Int → List (Frame Data) → Prop
  | _, [] => True
  | below, frame :: path =>
    below ≤ frame.rank ∧ nodeRank frame.sibling < frame.rank ∧ Ranked frame.sibling ∧
      RankedPath frame.rank path

/-- The number of nodes on the longest way down. -/
def levels : Node Data → Nat
  | .null => 0
  | .node _ _ left right => max (levels left) (levels right) + 1

/-- The weight of a node, given its rank and those of its children: it is large where a child has
the rank of the node, which is what balancing removes. -/
def weight (rank : Nat) (first second : Int) : Nat :=
  if rank - first = 0 ∧ rank - second = 1 ∨ rank - first = 1 ∧ rank - second = 0 then
    Nat.fib (rank + 2)
  else if rank - first = 0 ∨ rank - second = 0 then Nat.fib (rank + 1)
  else if rank - first = 1 ∧ rank - second = 1 then Nat.fib rank
  else 0

/-- The sum of the weights of the nodes. -/
def potential : Node Data → Nat
  | .null => 0
  | .node _ rank left right =>
    weight rank (nodeRank left) (nodeRank right) + potential left + potential right

/-- The sum of the weights along a path and besides it. -/
def pathPotential : Int → List (Frame Data) → Nat
  | _, [] => 0
  | below, frame :: path =>
    weight frame.rank below (nodeRank frame.sibling) + potential frame.sibling +
      pathPotential frame.rank path

/-- A weight does not depend on which child is the left one. -/
theorem weight_comm (rank : Nat) (first second : Int) :
    weight rank first second = weight rank second first := by
  unfold weight
  congr 1
  · exact propext (by omega)
  · congr 1
    · exact propext (by omega)
    · congr 1
      exact propext (by omega)

/-- Where the ranks are in order, a node has a weight if both children are one below. -/
theorem weight_of_lt {rank : Nat} {first second : Int} (left : first < rank)
    (right : second < rank) :
    weight rank first second =
      if rank - first = 1 ∧ rank - second = 1 then Nat.fib rank else 0 := by
  rw [weight, if_neg (by omega), if_neg (by omega)]

/-- The rank of a missing node is the least one. -/
theorem neg_one_le_nodeRank (n : Node Data) : -1 ≤ nodeRank n := by
  cases n with
  | null => exact Int.le_refl _
  | node data rank left right =>
    show (-1 : Int) ≤ (rank : Int)
    omega

/-- A node that is joined has its rank. -/
@[simp] theorem nodeRank_join (slot : Slot) (data : Data) (rank : Nat) (inner outer : Node Data) :
    nodeRank (join slot data rank inner outer) = rank := by
  cases slot <;> rfl

/-- A frame is filled with a child. -/
theorem fill_mk (slot : Slot) (data : Data) (rank : Nat) (sibling n : Node Data) :
    Frame.fill ⟨slot, data, rank, sibling⟩ n = join slot data rank n sibling := rfl

/-- A node that is joined is ranked if its children are, and are below it. -/
theorem ranked_join (slot : Slot) (data : Data) (rank : Nat) (inner outer : Node Data) :
    Ranked (join slot data rank inner outer) ↔
      nodeRank inner < rank ∧ nodeRank outer < rank ∧ Ranked inner ∧ Ranked outer := by
  cases slot <;> simp only [join, Ranked]
  tauto

/-- A node that is joined has its weight and those of its children. -/
theorem potential_join (slot : Slot) (data : Data) (rank : Nat) (inner outer : Node Data) :
    potential (join slot data rank inner outer) =
      weight rank (nodeRank inner) (nodeRank outer) + potential inner + potential outer := by
  cases slot with
  | left => rfl
  | right =>
    rw [join, potential, weight_comm]
    omega

/-- The ranks of a tree are in order if those of a subtree are, and those on the path to it. -/
theorem ranked_plug (n : Node Data) (path : List (Frame Data)) :
    Ranked (plug n path) ↔ Ranked n ∧ RankedPath (nodeRank n) path := by
  -- By induction on the path, going up.
  induction path generalizing n with
  | nil => simp [plug, RankedPath]
  | cons frame path ih =>
    rw [plug, ih, Frame.fill, ranked_join, nodeRank_join, RankedPath]
    tauto

/-- The weights of a tree are those of a subtree, and those on the path to it. -/
theorem potential_plug (n : Node Data) (path : List (Frame Data)) :
    potential (plug n path) = potential n + pathPotential (nodeRank n) path := by
  -- By induction on the path, going up.
  induction path generalizing n with
  | nil => rfl
  | cons frame path ih =>
    rw [plug, ih, Frame.fill, potential_join, nodeRank_join, pathPotential]
    omega

/-- The rank of the root depends on the rank of a subtree if the subtree is the whole tree. -/
theorem nodeRank_plug {n n' : Node Data} (path : List (Frame Data))
    (bounded : nodeRank n' ≤ nodeRank n) : nodeRank (plug n' path) ≤ nodeRank (plug n path) := by
  -- By induction on the path, going up.
  induction path generalizing n n' with
  | nil => exact bounded
  | cons frame path ih =>
    apply ih
    rw [Frame.fill, Frame.fill, nodeRank_join, nodeRank_join]

/-- Where a subtree gets lower, the weights on the path to it do not get larger. -/
theorem pathPotential_mono {low high : Int} {path : List (Frame Data)} (lower : low ≤ high)
    (ranked : RankedPath high path) : pathPotential low path ≤ pathPotential high path := by
  cases path with
  | nil => exact Nat.le_refl _
  | cons frame path =>
    obtain ⟨below, sibling, -, -⟩ := ranked
    rw [pathPotential, pathPotential, weight_of_lt (by omega) sibling, weight_of_lt below sibling]
    split
    · rw [if_pos (by omega)]
    · omega

/-- Where the rank of a subtree goes up, the weights on the path to it do not get larger by more
than what a node with that rank had. -/
theorem pathPotential_succ {below : Nat} {path : List (Frame Data)}
    (ranked : RankedPath ((below : Int) - 1) path) :
    pathPotential below path ≤ pathPotential ((below : Int) - 1) path + Nat.fib (below + 1) := by
  cases path with
  | nil => exact Nat.zero_le _
  | cons frame path =>
    obtain ⟨lower, sibling, -, -⟩ := ranked
    have before := weight_of_lt lower sibling
    have step := Nat.fib_add_two (n := below)
    rw [pathPotential, pathPotential, before]
    -- The parent gets a child of its own rank, or one that is one below, or neither.
    rcases Nat.lt_trichotomy frame.rank below with less | same | greater
    · omega
    · rw [weight, same]
      split
      · rw [if_pos (by omega)]
        omega
      · rw [if_pos (by omega)]
        omega
    · rw [weight_of_lt (by omega) sibling]
      split
      · have one : frame.rank = below + 1 := by omega
        rw [one]
        omega
      · omega

/-- The rank of the root does not depend on a subtree that is not the whole tree. -/
theorem nodeRank_plug_cons (n n' : Node Data) (frame : Frame Data) (path : List (Frame Data)) :
    nodeRank (plug n' (frame :: path)) = nodeRank (plug n (frame :: path)) := by
  have same : nodeRank (frame.fill n') = nodeRank (frame.fill n) := by
    rw [Frame.fill, Frame.fill, nodeRank_join, nodeRank_join]
  exact Int.le_antisymm (nodeRank_plug path (le_of_eq same)) (nodeRank_plug path (ge_of_eq same))

/-- How much a node that is joined differs from its children. -/
theorem nodeIs_join (slot : Slot) (data : Data) (rank : Nat) (inner outer : Node Data) (i j : Int) :
    nodeIs (join slot data rank inner outer) i j = true ↔
      (rank - nodeRank inner = i ∧ rank - nodeRank outer = j) ∨
        (rank - nodeRank inner = j ∧ rank - nodeRank outer = i) := by
  cases slot with
  | left =>
    show ((decide ((rank : Int) - nodeRank inner = i) && decide (rank - nodeRank outer = j)) ||
      (decide ((rank : Int) - nodeRank inner = j) && decide (rank - nodeRank outer = i))) = true ↔ _
    simp only [Bool.or_eq_true, Bool.and_eq_true, decide_eq_true_eq]
  | right =>
    show ((decide ((rank : Int) - nodeRank outer = i) && decide (rank - nodeRank inner = j)) ||
      (decide ((rank : Int) - nodeRank outer = j) && decide (rank - nodeRank inner = i))) = true ↔ _
    simp only [Bool.or_eq_true, Bool.and_eq_true, decide_eq_true_eq]
    tauto

/-- A node from which balancing goes on: a new leaf, or a node that has been promoted. -/
structure Fresh (n : Node Data) : Prop where
  ranked : Ranked n
  kind : nodeRank n = 0 ∨ nodeIs n 1 2 = true
  present : n ≠ .null

/-- The rank of the root does not go up, unless the weights have allowed for it. -/
def Paid (before : Nat) (old new : Int) : Prop :=
  new ≤ old ∨ Nat.fib (new.toNat + 1) ≤ before

/-- What is paid for stays paid when the rank of the root goes down. -/
theorem Paid.trans {before middle : Nat} {old new last : Int} (paid : Paid before old new)
    (weights : middle ≤ before) (next : Paid middle new last) : Paid before old last := by
  rcases next with lower | next
  · apply paid.imp
    · exact Int.le_trans lower
    · intro enough
      have mono := Nat.fib_mono (show last.toNat + 1 ≤ new.toNat + 1 by omega)
      exact Nat.le_trans mono enough
  · exact Or.inr (Nat.le_trans next weights)

/-- A parent with the rank of its child and a sibling one below may be promoted. -/
theorem promote_spec {n : Node Data} {frame : Frame Data} {path : List (Frame Data)}
    (fresh : Fresh n) (nearly : NearlyRanked (nodeRank n) (frame :: path))
    (is : nodeIs (frame.fill n) 0 1 = true) :
    Fresh (nodePromote (frame.fill n)) ∧
      NearlyRanked (nodeRank (nodePromote (frame.fill n))) path ∧
      potential (plug (nodePromote (frame.fill n)) path) ≤ potential (plug n (frame :: path)) ∧
      Paid (potential (plug n (frame :: path))) (nodeRank (plug n (frame :: path)))
        (nodeRank (plug (nodePromote (frame.fill n)) path)) := by
  obtain ⟨slot, data, rank, sibling⟩ := frame
  obtain ⟨notAbove, sideBelow, sideRanked, ranked⟩ := nearly
  dsimp only at notAbove sideBelow sideRanked ranked
  have promoted : nodePromote (Frame.fill ⟨slot, data, rank, sibling⟩ n) =
      join slot data (rank + 1) n sibling := by
    cases slot <;> rfl
  rw [fill_mk, nodeIs_join] at is
  have zero : nodeRank n = rank := by omega
  have one : nodeRank sibling = (rank : Int) - 1 := by omega
  -- The weight of the parent is gone, and its own parent may get as much.
  have old : weight rank (nodeRank n) (nodeRank sibling) = Nat.fib (rank + 2) := by
    rw [weight, if_pos (by omega)]
  have new : weight (rank + 1) (nodeRank n) (nodeRank sibling) = 0 := by
    rw [weight_of_lt (by omega) (by omega), if_neg (by omega)]
  have above : pathPotential ((rank + 1 : Nat) : Int) path ≤
      pathPotential (rank : Int) path + Nat.fib (rank + 2) := by
    have same : (rank : Int) = ((rank + 1 : Nat) : Int) - 1 := by omega
    rw [same] at ranked ⊢
    exact pathPotential_succ ranked
  have weights : potential (plug n (⟨slot, data, rank, sibling⟩ :: path)) =
      Nat.fib (rank + 2) + potential n + potential sibling + pathPotential (rank : Int) path := by
    rw [plug, potential_plug, Frame.fill, potential_join, nodeRank_join, old]
  rw [promoted, weights, nodeRank_join, potential_plug, potential_join, nodeRank_join, new]
  refine ⟨⟨?_, ?_, ?_⟩, ?_, by omega, ?_⟩
  · -- The new rank of the parent is above both children.
    rw [ranked_join]
    exact ⟨by omega, by omega, fresh.ranked, sideRanked⟩
  · rw [nodeIs_join]
    omega
  · exact join_ne_null slot data (rank + 1) n sibling
  · -- The parent of the parent can be as low as before, by one rank less of distance.
    cases path with
    | nil => trivial
    | cons frame path =>
      obtain ⟨below, rest⟩ := ranked
      exact ⟨by omega, rest⟩
  · -- The tree gets a greater rank only where its root is the parent, and its weight pays for that.
    cases path with
    | nil =>
      apply Or.inr
      rw [plug, nodeRank_join, Int.toNat_natCast, Nat.add_assoc _ (potential n), Nat.add_assoc]
      exact Nat.le_add_right _ _
    | cons frame path =>
      exact Or.inl (le_of_eq (nodeRank_plug_cons _ _ frame path))

/-- Where balancing gets to by promoting parents. -/
structure Climbed (n : Node Data) (path : List (Frame Data)) (top : Node Data)
    (rest : List (Frame Data)) : Prop where
  fresh : Fresh top
  nearly : NearlyRanked (nodeRank top) rest
  stopped : ∀ y ∈ rest.head?, nodeIs (y.fill top) 0 1 = false
  weights : potential (plug top rest) ≤ potential (plug n path)
  paid : Paid (potential (plug n path)) (nodeRank (plug n path)) (nodeRank (plug top rest))

/-- Promoting parents goes on until one need not be promoted. -/
theorem climb_spec {n : Node Data} {path : List (Frame Data)} (fresh : Fresh n)
    (nearly : NearlyRanked (nodeRank n) path) :
    Climbed n path (climb n path).1 (climb n path).2 := by
  -- By induction on the path, one parent after another.
  induction path generalizing n with
  -- At the root there is no parent to promote.
  | nil => exact ⟨fresh, trivial, nofun, Nat.le_refl _, Or.inl (Int.le_refl _)⟩
  | cons frame path ih =>
    rw [climb]
    split
    · next is =>
      -- The parent is promoted, and the induction hypothesis goes on from there.
      obtain ⟨promoted, above, weights, paid⟩ := promote_spec fresh nearly is
      have climbed := ih promoted above
      exact ⟨climbed.fresh, climbed.nearly, climbed.stopped, climbed.weights.trans weights,
        paid.trans weights climbed.paid⟩
    · next is =>
      -- The parent need not be promoted, and the walk stops here.
      refine ⟨fresh, nearly, ?_, Nat.le_refl _, Or.inl (Int.le_refl _)⟩
      rintro y ⟨⟩
      exact Bool.eq_false_iff.mpr is

/-- What balancing makes of a tree. -/
structure Balanced (n : Node Data) (path : List (Frame Data)) (root : Node Data) : Prop where
  ranked : Ranked root
  weights : potential root ≤ potential (plug n path)
  paid : Paid (potential (plug n path)) (nodeRank (plug n path)) (nodeRank root)

/-- A subtree may be exchanged for one with the same rank, if the ranks in that one are in order and
its weights are not larger. -/
theorem Balanced.ofRotation {n top : Node Data} {y : Frame Data} {path rest : List (Frame Data)}
    (climbed : Climbed n path top (y :: rest)) (result : Option (Node Data))
    (rotates : ∃ rotated, result = some rotated ∧ Ranked rotated ∧ nodeRank rotated = y.rank ∧
      potential rotated ≤ potential (y.fill top)) :
    ∃ root, result.map (fun n => plug n rest) = some root ∧ Balanced n path root := by
  obtain ⟨rotated, rfl, ranked, rank, weights⟩ := rotates
  refine ⟨plug rotated rest, rfl, ?_⟩
  have same : nodeRank rotated = nodeRank (y.fill top) := by rw [rank, Frame.fill, nodeRank_join]
  have less : potential (plug rotated rest) ≤ potential (plug top (y :: rest)) := by
    rw [plug, potential_plug, potential_plug, same]
    exact Nat.add_le_add_right weights _
  refine ⟨?_, less.trans climbed.weights, climbed.paid.trans climbed.weights (Or.inl ?_)⟩
  · rw [ranked_plug, rank]
    exact ⟨ranked, climbed.nearly.2.2.2⟩
  · exact nodeRank_plug rest (le_of_eq same)

/-- A single rotation puts the ranks in order. -/
theorem rotateOnce_spec {data parent : Data} {slot : Slot} {rank level : Nat}
    {outer inner sibling : Node Data} (fresh : Ranked (join slot data rank outer inner))
    (sideRanked : Ranked sibling) (same : rank = level) (near : rank - nodeRank outer = 1)
    (far : rank - nodeRank inner = 2) (apart : 1 < level - nodeRank sibling) :
    ∃ rotated, rotateOnce (join slot data rank outer inner) ⟨slot, parent, level, sibling⟩ =
        some rotated ∧ Ranked rotated ∧ nodeRank rotated = level ∧
      potential rotated ≤ potential (Frame.fill ⟨slot, parent, level, sibling⟩
        (join slot data rank outer inner)) := by
  subst same
  rw [ranked_join] at fresh
  obtain ⟨-, -, outerRanked, innerRanked⟩ := fresh
  have positive := neg_one_le_nodeRank sibling
  obtain ⟨level, rfl⟩ : ∃ level, rank = level + 1 := ⟨rank - 1, by omega⟩
  rw [rotateOnce_join]
  refine ⟨_, rfl, ?_, ?_, ?_⟩
  · -- The node has the rank of its old parent, which is one lower now.
    rw [ranked_join, ranked_join, nodeRank_join]
    exact ⟨by omega, by omega, outerRanked, by omega, by omega, innerRanked, sideRanked⟩
  · rw [nodeRank_join]
  · -- The weight of the parent is enough for the node and for the parent in its new place.
    have before : weight (level + 1) (nodeRank (join slot data (level + 1) outer inner))
        (nodeRank sibling) = Nat.fib (level + 2) := by
      rw [nodeRank_join, weight, if_neg (by omega), if_pos (by omega)]
    have lowered : weight level (nodeRank inner) (nodeRank sibling) ≤ Nat.fib level := by
      rw [weight_of_lt (by omega) (by omega)]
      split
      · exact Nat.le_refl _
      · exact Nat.zero_le _
    have raised : weight (level + 1) (nodeRank outer) (level : Int) = Nat.fib (level + 1) := by
      rw [weight_of_lt (by omega) (by omega), if_pos (by omega)]
    have sum := Nat.fib_add_two (n := level)
    rw [fill_mk, potential_join, potential_join, nodeRank_join, raised, potential_join,
      potential_join, before]
    omega

/-- A double rotation puts the ranks in order. -/
theorem rotateTwice_spec {data parent child : Data} {slot : Slot} {rank level height : Nat}
    {outer near far sibling : Node Data}
    (fresh : Ranked (join slot data rank outer (join slot child height near far)))
    (sideRanked : Ranked sibling) (same : rank = level) (two : rank - nodeRank outer = 2)
    (one : rank = height + 1) (apart : 1 < level - nodeRank sibling) :
    ∃ rotated, rotateTwice (join slot data rank outer (join slot child height near far))
        ⟨slot, parent, level, sibling⟩ = some rotated ∧ Ranked rotated ∧ nodeRank rotated = level ∧
      potential rotated ≤ potential (Frame.fill ⟨slot, parent, level, sibling⟩
        (join slot data rank outer (join slot child height near far))) := by
  subst same one
  rw [ranked_join, ranked_join, nodeRank_join] at fresh
  obtain ⟨-, -, outerRanked, nearBelow, farBelow, nearRanked, farRanked⟩ := fresh
  rw [rotateTwice_join]
  refine ⟨_, rfl, ?_, ?_, ?_⟩
  · -- The inner child goes to the top, with the node and the parent one below.
    rw [ranked_join, ranked_join, ranked_join, nodeRank_join, nodeRank_join]
    exact ⟨by omega, by omega, ⟨by omega, nearBelow, outerRanked, nearRanked⟩, farBelow, by omega,
      farRanked, sideRanked⟩
  · rw [nodeRank_join]
  · -- The weights of the parent and of the child are enough for all three in their new places.
    have before : weight (height + 1)
        (nodeRank (join slot data (height + 1) outer (join slot child height near far)))
        (nodeRank sibling) = Nat.fib (height + 2) := by
      rw [nodeRank_join, weight, if_neg (by omega), if_pos (by omega)]
    have top : weight (height + 1) (height : Int) (height : Int) = Nat.fib (height + 1) := by
      rw [weight_of_lt (by omega) (by omega), if_pos (by omega)]
    have old := weight_of_lt nearBelow farBelow
    have first := weight_of_lt (show nodeRank outer < height by omega) nearBelow
    have second := weight_of_lt farBelow (show nodeRank sibling < height by omega)
    have inner : weight height (nodeRank outer) (nodeRank near) +
        weight height (nodeRank far) (nodeRank sibling) ≤
          weight height (nodeRank near) (nodeRank far) + Nat.fib height := by
      rw [old, first, second]
      split <;> split <;> split <;> omega
    have sum := Nat.fib_add_two (n := height)
    rw [fill_mk, potential_join, potential_join, potential_join, potential_join, potential_join,
      potential_join, before, nodeRank_join, nodeRank_join, nodeRank_join, top]
    omega

/-- The node at which balancing rotates has children one and two below, and its parent has its
rank. -/
theorem Climbed.rotates {n top : Node Data} {path rest : List (Frame Data)} {y : Frame Data}
    (climbed : Climbed n path top (y :: rest)) (apart : 1 < (y.rank : Int) - nodeRank y.sibling)
    (same : (y.rank : Int) - nodeRank top = 0) : nodeIs top 1 2 = true := by
  -- A new leaf with a parent of its rank has a sibling one below.
  have side := neg_one_le_nodeRank y.sibling
  rcases climbed.fresh.kind with zero | is
  · omega
  · exact is

/-- Where nothing is rotated, the ranks are in order. -/
theorem Climbed.balanced {n top : Node Data} {path rest : List (Frame Data)} {y : Frame Data}
    (climbed : Climbed n path top (y :: rest))
    (kept : ¬ ((y.rank : Int) - nodeRank top = 0 ∧ 1 < (y.rank : Int) - nodeRank y.sibling)) :
    Balanced n path (plug top (y :: rest)) := by
  obtain ⟨notAbove, sideBelow, sideRanked, ranked⟩ := climbed.nearly
  refine ⟨?_, climbed.weights, climbed.paid⟩
  rw [ranked_plug]
  refine ⟨climbed.fresh.ranked, ?_, sideBelow, sideRanked, ranked⟩
  -- A parent with the rank of the node and a sibling one below would have been promoted.
  have stopped := climbed.stopped y rfl
  obtain ⟨slot, data, rank, sibling⟩ := y
  by_contra equal
  have is : nodeIs (Frame.fill ⟨slot, data, rank, sibling⟩ top) 0 1 = true := by
    rw [fill_mk, nodeIs_join]
    dsimp only at notAbove sideBelow kept equal
    omega
  rw [stopped] at is
  cases is

/-- Balancing is possible, and puts the ranks in order. -/
theorem balance_spec {n : Node Data} {path : List (Frame Data)} (fresh : Fresh n)
    (nearly : NearlyRanked (nodeRank n) path) :
    ∃ root, balance n path = some root ∧ Balanced n path root := by
  have climbed := climb_spec fresh nearly
  rw [balance.eq_def]
  cases reached : climb n path with
  | mk top rest =>
    rw [reached] at climbed
    cases rest with
    -- The walk reached the root, and nothing is rotated.
    | nil => exact ⟨top, rfl, climbed.fresh.ranked, climbed.weights, climbed.paid⟩
    | cons y rest =>
      have ranks : ∀ child : Node Data,
          rankDifferenceParent (y.fill top) child = y.rank - nodeRank child := by
        intro child
        rw [rankDifferenceParent, Frame.fill, nodeRank_join]
      simp only [ranks, Bool.and_eq_true, decide_eq_true_eq]
      split
      · next rotates =>
        obtain ⟨same, apart⟩ := rotates
        have is := climbed.rotates apart same
        have ranked := climbed.fresh.ranked
        have sideRanked := climbed.nearly.2.2.1
        have turn := Balanced.ofRotation climbed
        obtain ⟨slot, parent, level, sibling⟩ := y
        -- The node is one that was promoted, so it is there and has its children one and two below.
        cases top with
        | null => exact absurd rfl climbed.fresh.present
        | node data rank left right =>
          dsimp only at same apart sideRanked turn ⊢
          rw [node_eq_join slot data rank left right] at is ranked turn ⊢
          rw [nodeIs_join] at is
          have same : (level : Int) - rank = 0 := same
          generalize (Node.node data rank left right).child slot = outer at *
          rw [child_join_opposite]
          generalize (Node.node data rank left right).child (slotOpposite slot) = inner at *
          have low := neg_one_le_nodeRank outer
          cases inner with
          | null =>
            have missing : nodeRank (Node.null : Node Data) = -1 := rfl
            -- The inner child is missing, so it is the lower one, and one rotation is enough.
            exact turn _ (rotateOnce_spec ranked sideRanked (by omega) (by omega) (by omega) apart)
          | node child height near far =>
            have there : nodeRank (Node.node child height near far) = height := rfl
            rw [there] at is
            have difference : rankDifferenceParent
                (join slot data rank outer (.node child height near far))
                (.node child height near far) = rank - height := by
              rw [rankDifferenceParent, nodeRank_join, there]
            simp only [difference]
            by_cases two : (rank : Int) - height = 2
            · -- The inner child is two below: one rotation.
              rw [if_pos two]
              exact turn _ (rotateOnce_spec ranked sideRanked (by omega) (by omega)
                (by omega) apart)
            · -- The inner child is one below: two rotations.
              rw [if_neg two, if_pos (by omega)]
              rw [node_eq_join slot child height near far] at ranked turn ⊢
              exact turn _ (rotateTwice_spec ranked sideRanked (by omega) (by omega)
                (by omega) apart)
      · next kept => exact ⟨_, rfl, climbed.balanced kept⟩

/-- A tree whose ranks are in order, and which is low for the number of items that have been
inserted. -/
structure Low (inserted : Nat) (root : Node Data) : Prop where
  ranked : Ranked root
  weights : potential root ≤ inserted
  low : root ≠ .null → Nat.fib ((nodeRank root).toNat + 1) ≤ inserted

/-- There are not more levels than the rank allows. -/
theorem levels_le {n : Node Data} (ranked : Ranked n) : (levels n : Int) ≤ nodeRank n + 1 := by
  -- By induction on the node, whose children have smaller ranks.
  induction n with
  | null => exact Int.le_refl _
  | node data rank left right ihLeft ihRight =>
    obtain ⟨leftBelow, rightBelow, leftRanked, rightRanked⟩ := ranked
    have first := ihLeft leftRanked
    have second := ihRight rightRanked
    rw [levels, nodeRank]
    omega

/-- The number of levels grows with the logarithm of the number of insertions. -/
theorem Low.levels {inserted : Nat} {root : Node Data} (low : Low inserted root) :
    Nat.fib (levels root) ≤ inserted := by
  cases root with
  | null => exact Nat.zero_le _
  | node data rank left right =>
    have bounded := levels_le low.ranked
    have enough := low.low (node_ne_null data rank left right)
    exact (Nat.fib_mono (by omega)).trans enough

/-- The empty tree is low. -/
theorem low_null : Low 0 (.null : Node Data) :=
  ⟨trivial, Nat.le_refl 0, fun present => absurd rfl present⟩

/-- The way down to a missing slot is in the tree. -/
theorem descend_plug {compare : Data → Data → Ordering} {data : Data} {n : Node Data}
    {path bottom : List (Frame Data)} (reached : descend compare data n path = some bottom) :
    plug .null bottom = plug n path := by
  -- By induction on the subtree, of whose children one is gone down to.
  induction n generalizing path with
  | null =>
    cases reached
    rfl
  | node other rank left right ihLeft ihRight =>
    rw [descend] at reached
    cases compared : compare data other with
    | lt =>
      rw [compared] at reached
      exact ihLeft reached
    | eq =>
      rw [compared] at reached
      cases reached
    | gt =>
      rw [compared] at reached
      exact ihRight reached

/-- A tree with a path in it has a root. -/
theorem plug_ne_null {n : Node Data} (path : List (Frame Data)) (present : n ≠ .null) :
    plug n path ≠ .null := by
  -- By induction on the path, whose frames are nodes.
  induction path generalizing n with
  | nil => exact present
  | cons frame path ih =>
    exact ih (join_ne_null frame.slot frame.data frame.rank n frame.sibling)

/-- A new leaf has no weight, and its parent gets a weight of one at most. -/
theorem potential_leaf (data : Data) {path : List (Frame Data)}
    (ranked : RankedPath (nodeRank (.null : Node Data)) path) :
    potential (plug (.node data 0 .null .null) path) ≤ potential (plug .null path) + 1 := by
  have above : pathPotential ((0 : Nat) : Int) path ≤ pathPotential (-1) path + 1 :=
    pathPotential_succ ranked
  rw [potential_plug, potential_plug]
  show 0 + pathPotential ((0 : Nat) : Int) path ≤ 0 + pathPotential (-1) path + 1
  omega

/-- An insertion is possible, and leaves the tree low for one item more. -/
theorem emplace_low {compare : Data → Data → Ordering} {inserted : Nat} {root : Node Data}
    (low : Low inserted root) (data : Data) (memory : Bool) :
    ∃ outcome after, emplace compare root data memory = some (outcome, after) ∧
      Low (if outcome = .success then inserted + 1 else inserted) after := by
  rw [emplace]
  cases memory with
  -- Without memory for the node nothing is changed.
  | false => exact ⟨.noMemory, root, rfl, low⟩
  | true =>
    rw [if_pos rfl]
    cases reached : descend compare data root [] with
    -- An item that is there already changes nothing.
    | none => exact ⟨.duplicate, root, rfl, low⟩
    | some path =>
      have whole : plug .null path = root := descend_plug reached
      let leaf : Node Data := .node data 0 .null .null
      have ranked := low.ranked
      rw [← whole, ranked_plug] at ranked
      -- The new leaf has the rank zero, with its missing children one below.
      have below : nodeRank (.null : Node Data) < ((0 : Nat) : Int) := by
        show (-1 : Int) < 0
        omega
      have fresh : Fresh leaf := ⟨⟨below, below, trivial, trivial⟩, Or.inl rfl,
        node_ne_null data 0 .null .null⟩
      have nearly : NearlyRanked (nodeRank leaf) path := by
        cases path with
        | nil => trivial
        | cons frame path =>
          obtain ⟨below, rest⟩ := ranked.2
          exact ⟨Int.natCast_nonneg _, rest⟩
      obtain ⟨after, result, balanced⟩ := balance_spec fresh nearly
      -- The leaf adds one to the weights at most.
      have weights : potential (plug leaf path) ≤ inserted + 1 := by
        have above := potential_leaf data ranked.2
        rw [whole] at above
        exact above.trans (Nat.succ_le_succ low.weights)
      have rank : Nat.fib ((nodeRank (plug leaf path)).toNat + 1) ≤ inserted + 1 := by
        -- The first node of a tree has the rank zero; otherwise the rank of the root is not
        -- changed.
        cases path with
        | nil => exact Nat.succ_le_succ (Nat.zero_le inserted)
        | cons frame path =>
          have present : root ≠ .null := by
            rw [← whole]
            exact plug_ne_null path
              (join_ne_null frame.slot frame.data frame.rank .null frame.sibling)
          have enough := low.low present
          rw [nodeRank_plug_cons .null, whole]
          exact enough.trans (Nat.le_succ _)
      refine ⟨.success, after, by rw [Option.map_eq_some_iff]; exact ⟨after, result, rfl⟩,
        balanced.ranked, balanced.weights.trans weights, fun _ => ?_⟩
      -- A greater rank of the root was paid for by the weights, which are bounded.
      rcases balanced.paid with lower | enough
      · exact (Nat.fib_mono (by omega)).trans rank
      · exact enough.trans weights

/-- A tree stays low where a subtree is exchanged for one of its children. -/
theorem Low.unlink {inserted : Nat} {n : Location Data} (low : Low inserted n.root) :
    Low inserted (unlink n) := by
  obtain ⟨ranked, weights, rank⟩ := low
  rw [Location.root, ranked_plug] at ranked
  obtain ⟨⟨leftBelow, rightBelow, leftRanked, rightRanked⟩, above⟩ := ranked
  -- Either child may take the place of the node, as its rank is lower and its weight is counted.
  have child : ∀ r, nodeRank r < n.rank → Ranked r → potential r ≤ potential n.node →
      Low inserted (plug r n.path) := by
    intro r below childRanked childWeights
    have path : RankedPath (nodeRank r) n.path := by
      cases reached : n.path with
      | nil => trivial
      | cons frame path =>
        rw [reached] at above
        obtain ⟨lower, rest⟩ := above
        exact ⟨below.trans lower, rest⟩
    have mono := pathPotential_mono (le_of_lt below) above
    have less : nodeRank (plug r n.path) ≤ nodeRank n.root := nodeRank_plug n.path (le_of_lt below)
    refine ⟨(ranked_plug r n.path).mpr ⟨childRanked, path⟩, ?_, fun present => ?_⟩
    · rw [Location.root, potential_plug] at weights
      rw [potential_plug]
      have same : nodeRank n.node = n.rank := rfl
      rw [same] at weights
      omega
    · have enough := rank (plug_ne_null n.path (node_ne_null n.data n.rank n.left n.right))
      exact (Nat.fib_mono (by omega)).trans enough
  have sum : potential n.node = weight n.rank (nodeRank n.left) (nodeRank n.right) +
      potential n.left + potential n.right := rfl
  rw [Ravl.unlink.eq_def]
  split
  · exact child n.right rightBelow rightRanked (by omega)
  · exact child n.left leftBelow leftRanked (by omega)

/-- A removal leaves the tree low. -/
theorem Low.remove {inserted : Nat} {n : Location Data} (low : Low inserted n.root) :
    Low inserted (remove n) := by
  rw [Ravl.remove.eq_def]
  split
  · exact low.unlink
  · exact low.unlink
  · split
    · exact low.unlink
    · next s reached =>
      -- The item of a node says nothing about its rank.
      have exchanged : Low inserted (Location.root { n with data := s.data }) := by
        obtain ⟨ranked, weights, rank⟩ := low
        rw [Location.root, ranked_plug] at ranked
        rw [Location.root, potential_plug] at weights
        refine ⟨?_, ?_, fun present => ?_⟩
        · rw [Location.root, ranked_plug]
          exact ranked
        · rw [Location.root, potential_plug]
          exact weights
        · have enough := rank (plug_ne_null n.path (node_ne_null n.data n.rank n.left n.right))
          have less : nodeRank (Location.root { n with data := s.data }) ≤ nodeRank n.root :=
            nodeRank_plug n.path (Int.le_refl _)
          exact (Nat.fib_mono (by omega)).trans enough
      dsimp only
      rcases nodeTypeMost_spec .left n.right (Location.down .right { n with data := s.data }) with
        -- The successor is found again, in the node with the exchanged item.
        ⟨leaf, none⟩ | ⟨s', again, most⟩
      · rw [none]
        exact exchanged.unlink
      · rw [again]
        have same : s'.root = Location.root { n with data := s.data } := by
          rw [most.root]
          exact Location.plug_down { n with data := s.data } .right
        rw [← same] at exchanged
        exact exchanged.unlink

end SecretTyping.Umf.Ravl
