import Mathlib.Data.Fintype.Basic
import Mathlib.Order.Fin.Basic
import Mathlib.Order.WellFounded
import SecretTyping.Lib.Serial
import SecretTyping.Bst.Runs

/-! The transactions that the benchmark threads run on two vectors of trees. -/

namespace SecretTyping.Bst

open Memory Locking

/-- A tree that represents an ordered binary tree, as every tree built by calls does. -/
structure SoundTree where
  tree : BinarySearchTree
  sound : ∃ shape, Represents tree shape

/-- The empty tree. -/
def SoundTree.new : SoundTree := ⟨.new, .leaf, represents_leaf rfl⟩

/-- Carry out a call on a sound tree, which always goes through. -/
def SoundTree.perform (operation : Operation) (sound : SoundTree) : Option Nat × SoundTree :=
  match done : Bst.perform sound.tree operation with
  | .ok (result, after) =>
    (result, ⟨after, by
      obtain ⟨shape, represents⟩ := sound.sound
      obtain ⟨_, _, run, again⟩ := perform_represents represents operation
      cases done.symm.trans run
      exact ⟨_, again⟩⟩)
  | .error fault =>
    absurd done (by
      obtain ⟨shape, represents⟩ := sound.sound
      obtain ⟨_, _, run, _⟩ := perform_represents represents operation
      simp [run])

/-- A call on a sound tree does what the call does. -/
theorem SoundTree.perform_spec (operation : Operation) (sound : SoundTree) :
    Bst.perform sound.tree operation =
      .ok ((sound.perform operation).1, (sound.perform operation).2.tree) := by
  rw [SoundTree.perform]
  split
  · next result after done => exact done
  · next fault done =>
    obtain ⟨shape, represents⟩ := sound.sound
    obtain ⟨_, _, run, _⟩ := perform_represents represents operation
    cases done.symm.trans run

/-- The two vectors of trees. -/
inductive Bsts where
  | bsts0
  | bsts1
  deriving DecidableEq

/-- A tree by its vector and its index; all vectors have the same length. -/
structure TreeName (numDs : Nat) where
  vector : Bsts
  index : Fin numDs
  deriving DecidableEq

/-- What a thread draws at random for one round. -/
structure Draw (numDs : Nat) where
  ds : Fin numDs
  key : Int
  op : Nat
  dsA : Fin numDs
  dsB : Fin numDs
  txn : Nat
  deriving DecidableEq

section Rounds

variable {Mutex : Type} {numDs : Nat}

/-- Look up a key in a tree under one mutex. -/
def lookupUnder (mutex : Mutex) (tree : TreeName numDs) (key : Int) :
    List (Action Mutex (TreeName numDs) Operation) :=
  [.lock mutex, .access tree (.lookup key), .unlock mutex]

/-- Remove a key from one tree and insert it into another one under two mutexes. -/
def moveUnder (first second : Mutex) (source target : TreeName numDs) (key : Int) :
    List (Action Mutex (TreeName numDs) Operation) :=
  [.lock first, .lock second, .access source (.remove key), .access target (.insert key),
    .unlock first, .unlock second]

/-- The move of one round, which is the same for both nodes. -/
def transaction (lk : Bsts → Fin numDs → Mutex) (draw : Draw numDs) :
    List (Action Mutex (TreeName numDs) Operation) :=
  let { key, dsA, dsB, txn, .. } := draw
  let lk1 := if dsA < dsB then dsA else dsB
  let lk2 := if dsA < dsB then dsB else dsA
  if txn % 4 = 0 then
    moveUnder (lk .bsts0 dsA) (lk .bsts1 dsB) ⟨.bsts0, dsA⟩ ⟨.bsts1, dsB⟩ key
  else if txn % 4 = 1 then
    moveUnder (lk .bsts0 dsA) (lk .bsts1 dsB) ⟨.bsts1, dsB⟩ ⟨.bsts0, dsA⟩ key
  else if txn % 4 = 2 then
    -- A round that drew the same tree twice goes on to the next one before it takes a lock.
    if dsA = dsB then []
    else moveUnder (lk .bsts0 lk1) (lk .bsts0 lk2) ⟨.bsts0, dsA⟩ ⟨.bsts0, dsB⟩ key
  else
    if dsA = dsB then []
    else moveUnder (lk .bsts1 lk1) (lk .bsts1 lk2) ⟨.bsts1, dsA⟩ ⟨.bsts1, dsB⟩ key

/-- One round of a thread's loop; the locks are those of the tree with the same vector and index. -/
def binarySearchTest (lk : Bsts → Fin numDs → Mutex) (node : Int) (draw : Draw numDs) :
    List (Action Mutex (TreeName numDs) Operation) :=
  if node = 0 then
    if draw.op ≤ 80 then lookupUnder (lk .bsts0 draw.ds) ⟨.bsts0, draw.ds⟩ draw.key
    else transaction lk draw
  else
    if draw.op ≤ 80 then lookupUnder (lk .bsts1 draw.ds) ⟨.bsts1, draw.ds⟩ draw.key
    else transaction lk draw

/-- The mutex of a tree. -/
def mutexOf (lk : Bsts → Fin numDs → Mutex) (tree : TreeName numDs) : Mutex :=
  lk tree.vector tree.index

/-- Every thread runs round after round with its own node and whatever it draws. -/
def testSystem {Thread : Type} (lk : Bsts → Fin numDs → Mutex) (node : Thread → Int) :
    System Thread Mutex (TreeName numDs) Operation SoundTree (Option Nat) where
  guard := mutexOf lk
  perform operation tree := tree.perform operation
  programs thread program := ∃ draw, program = binarySearchTest lk (node thread) draw

/-- The order of all trees, those of the first vector before those of the second. -/
def TreeName.rank (tree : TreeName numDs) : Fin (numDs + numDs) :=
  match tree.vector with
  | .bsts0 => Fin.castAdd numDs tree.index
  | .bsts1 => Fin.natAdd numDs tree.index

/-- A move between two trees of which the first comes before the second. -/
def MovesInOrder (lk : Bsts → Fin numDs → Mutex)
    (program : List (Action Mutex (TreeName numDs) Operation)) : Prop :=
  ∃ first second source target key, TreeName.rank first < second.rank ∧
    (source = first ∨ source = second) ∧ (target = first ∨ target = second) ∧
    program = moveUnder (mutexOf lk first) (mutexOf lk second) source target key

/-- A move across the vectors takes the mutex of the first vector first. -/
theorem movesInOrder_across (lk : Bsts → Fin numDs → Mutex) (dsA dsB : Fin numDs) (key : Int)
    {source target : TreeName numDs} (fromOne : source = ⟨.bsts0, dsA⟩ ∨ source = ⟨.bsts1, dsB⟩)
    (toOne : target = ⟨.bsts0, dsA⟩ ∨ target = ⟨.bsts1, dsB⟩) :
    MovesInOrder lk (moveUnder (lk .bsts0 dsA) (lk .bsts1 dsB) source target key) := by
  -- Every tree of the first vector comes before every tree of the second.
  refine ⟨⟨.bsts0, dsA⟩, ⟨.bsts1, dsB⟩, source, target, key, ?_, fromOne, toOne, rfl⟩
  simp only [TreeName.rank, Fin.lt_def, Fin.val_castAdd, Fin.val_natAdd]
  omega

/-- A move within a vector takes the mutex of the smaller index first. -/
theorem movesInOrder_within (lk : Bsts → Fin numDs → Mutex) (vector : Bsts) {dsA dsB : Fin numDs}
    (apart : dsA ≠ dsB) (key : Int) :
    MovesInOrder lk (moveUnder (lk vector (if dsA < dsB then dsA else dsB))
      (lk vector (if dsA < dsB then dsB else dsA)) ⟨vector, dsA⟩ ⟨vector, dsB⟩ key) := by
  -- The two indices are sorted, and the order of the trees follows them.
  have ordered : ∀ {one other : Fin numDs}, one < other →
      TreeName.rank ⟨vector, one⟩ < TreeName.rank ⟨vector, other⟩ := by
    intro one other below
    rw [Fin.lt_def] at below
    cases vector with
    | bsts0 => exact below
    | bsts1 =>
      simp only [TreeName.rank, Fin.lt_def, Fin.val_natAdd]
      omega
  -- The lesser index is locked first, whichever tree the key is moved from.
  by_cases below : dsA < dsB
  · rw [if_pos below, if_pos below]
    exact ⟨⟨vector, dsA⟩, ⟨vector, dsB⟩, _, _, key, ordered below, .inl rfl, .inr rfl, rfl⟩
  · -- The other one is the lesser one.
    have above : dsB < dsA := lt_of_le_of_ne (not_lt.mp below) (Ne.symm apart)
    rw [if_neg below, if_neg below]
    exact ⟨⟨vector, dsB⟩, ⟨vector, dsA⟩, _, _, key, ordered above, .inr rfl, .inl rfl, rfl⟩

/-- The move of a round takes two mutexes in order, or it is nothing. -/
theorem transaction_cases (lk : Bsts → Fin numDs → Mutex) (draw : Draw numDs) :
    MovesInOrder lk (transaction lk draw) ∨ transaction lk draw = [] := by
  -- The four kinds of a transaction are taken in turn.
  obtain ⟨ds, key, op, dsA, dsB, txn⟩ := draw
  simp only [transaction]
  split
  · exact .inl (movesInOrder_across lk dsA dsB key (.inl rfl) (.inr rfl))
  · split
    · exact .inl (movesInOrder_across lk dsA dsB key (.inr rfl) (.inl rfl))
    · -- The last two kinds move within a vector, unless both draws are the same tree.
      split
      · split
        · exact .inr rfl
        · next apart => exact .inl (movesInOrder_within lk .bsts0 apart key)
      · split
        · exact .inr rfl
        · next apart => exact .inl (movesInOrder_within lk .bsts1 apart key)

/-- A round is a lookup under the mutex of the tree, a move under two in order, or nothing. -/
theorem binarySearchTest_cases (lk : Bsts → Fin numDs → Mutex) (node : Int) (draw : Draw numDs) :
    (∃ tree key, binarySearchTest lk node draw = lookupUnder (mutexOf lk tree) tree key) ∨
      MovesInOrder lk (binarySearchTest lk node draw) ∨ binarySearchTest lk node draw = [] := by
  -- The two nodes differ in the vector their lookups read.
  simp only [binarySearchTest]
  split
  · split
    · exact .inl ⟨⟨.bsts0, draw.ds⟩, draw.key, rfl⟩
    · exact .inr (transaction_cases lk draw)
  · split
    · exact .inl ⟨⟨.bsts1, draw.ds⟩, draw.key, rfl⟩
    · exact .inr (transaction_cases lk draw)

section Discipline

variable [DecidableEq Mutex]

/-- A lookup holds the mutex of its tree. -/
theorem lookupUnder_twoPhase (lk : Bsts → Fin numDs → Mutex) (tree : TreeName numDs) (key : Int) :
    Obeys (TwoPhase (mutexOf lk)) [] (lookupUnder (mutexOf lk tree) tree key) ∧
      heldAfter (lookupUnder (mutexOf lk tree) tree key) = [] := by
  simp [lookupUnder, Obeys, TwoPhase, released, heldAfter, Action.held, Action.releases]

/-- A move holds the mutexes of its trees and gives both back afterwards. -/
theorem moveUnder_twoPhase (lk : Bsts → Fin numDs → Mutex)
    {first second source target : TreeName numDs} (fromOne : source = first ∨ source = second)
    (toOne : target = first ∨ target = second) (key : Int) :
    Obeys (TwoPhase (mutexOf lk)) []
        (moveUnder (mutexOf lk first) (mutexOf lk second) source target key) ∧
      heldAfter (moveUnder (mutexOf lk first) (mutexOf lk second) source target key) = [] := by
  -- Each tree is one of the two whose mutexes are held.
  -- The tree the key is moved from is one of the two whose mutexes are held.
  have fromHeld : mutexOf lk source = mutexOf lk second ∨ mutexOf lk source = mutexOf lk first := by
    rcases fromOne with same | same
    · exact .inr (same ▸ rfl)
    · exact .inl (same ▸ rfl)
  have toHeld : mutexOf lk target = mutexOf lk second ∨ mutexOf lk target = mutexOf lk first := by
    rcases toOne with same | same
    · exact .inr (same ▸ rfl)
    · exact .inl (same ▸ rfl)
  by_cases aliased : mutexOf lk second = mutexOf lk first
  · -- Even one mutex for both trees would be given back as often as it is taken.
    rw [aliased, or_self] at fromHeld toHeld
    simp [moveUnder, Obeys, TwoPhase, released, heldAfter, Action.held, Action.releases, fromHeld,
      toHeld, aliased]
  · -- Two mutexes are taken one after the other and given back.
    simp [moveUnder, Obeys, TwoPhase, released, heldAfter, Action.held, Action.releases, fromHeld,
      toHeld, aliased]

/-- Every round is in two phases and gives back all its mutexes. -/
theorem testSystem_disciplined {Thread : Type} (lk : Bsts → Fin numDs → Mutex)
    (node : Thread → Int) : Disciplined (testSystem lk node) := by
  -- A round is one of three programs, and each is checked as it stands.
  have both : ∀ thread program, (testSystem lk node).programs thread program →
      Obeys (TwoPhase (mutexOf lk)) [] program ∧ heldAfter program = [] := by
    intro thread program given
    obtain ⟨draw, same⟩ := given
    rw [same]
    rcases binarySearchTest_cases lk (node thread) draw with ⟨tree, key, looksUp⟩ | moves | nothing
    · -- A lookup under the mutex of its tree.
      rw [looksUp]
      exact lookupUnder_twoPhase lk tree key
    · -- A move under the mutexes of both trees.
      obtain ⟨first, second, source, target, key, -, fromOne, toOne, equal⟩ := moves
      rw [equal]
      exact moveUnder_twoPhase lk fromOne toOne key
    · -- Or nothing at all.
      rw [nothing]
      exact ⟨trivial, rfl⟩
  exact ⟨fun thread program known => (both thread program known).1,
    fun thread program known => (both thread program known).2⟩

end Discipline

end Rounds

end SecretTyping.Bst
