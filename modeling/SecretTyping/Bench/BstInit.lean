import SecretTyping.Bst.Insertion
import SecretTyping.Lib.Relays

/-! Two threads, one for each memory node, set up the trees of the benchmark and their mutexes. -/

namespace SecretTyping.Bench.BstInit

open Bst Phases

/-- The two memory nodes, each with an initialising thread of its own. -/
inductive Node where
  | node0
  | node1
  deriving DecidableEq

/-- The other one of the two nodes. -/
def Node.other : Node → Node
  | node0 => node1
  | node1 => node0

/-- There are no further nodes. -/
theorem Node.mem_both (node : Node) : node ∈ [node0, node1] := by
  cases node with
  | node0 => exact List.mem_cons_self
  | node1 => exact List.mem_cons_of_mem _ List.mem_cons_self

/-- The shared vectors, each for one of the nodes. -/
inductive Shared where
  | bsts (node : Node)
  | bstLk (node : Node)
  | bstReaderLk (node : Node)
  deriving DecidableEq

/-- The node that a vector is for. -/
def Shared.node : Shared → Node
  | bsts node | bstLk node | bstReaderLk node => node

/-- What a slot points to: a tree, with the node its class places it on, or a mutex. -/
inductive Item where
  | bst (placement : Option Node) (tree : BinarySearchTree)
  | mutex

/-- The slots of a vector, where no item stands for a null pointer. -/
abbrev Slots := List (Option Item)

/-- What can go wrong with a slot or with the tree that it points to. -/
inductive Fault where
  | outOfRange
  /-- A key was inserted through a pointer that is null or points to no tree. -/
  | noTree
  | tree (fault : Memory.Fault)

/-- What the threads do with the vectors. -/
inductive InitCall where
  | resize (vector : Shared) (size : Nat)
  | newTree (node : Node) (index : Nat) (placement : Option Node)
  | newMutex (vector : Shared) (index : Nat)
  | insert (node : Node) (index : Nat) (data : Int)

/-- A vector is cut off or filled up with null pointers. -/
def resizeSlots (slots : Slots) (size : Nat) : Slots :=
  slots.take size ++ List.replicate (size - slots.length) none

/-- A slot is made to point to a new item. -/
def setSlot (slots : Slots) (index : Nat) (item : Item) : Except Fault Slots :=
  if index < slots.length then .ok (slots.set index (some item)) else .error .outOfRange

/-- A key is inserted into the tree that a slot points to. -/
def insertAt (slots : Slots) (index : Nat) (data : Int) : Except Fault Slots :=
  match slots[index]? with
  | none => .error .outOfRange
  | some (some (.bst placement tree)) =>
    match Bst.insert tree data with
    | .ok (_, after) => .ok (slots.set index (some (.bst placement after)))
    | .error fault => .error (.tree fault)
  -- A null pointer has no tree, and neither has a mutex.
  | some _ => .error .noTree

namespace InitCall

/-- The vector that a call works on. -/
def target : InitCall → Shared
  | resize vector _ | newMutex vector _ => vector
  | newTree node _ _ | insert node _ _ => .bsts node

/-- The slot that a call indexes. -/
def slot : InitCall → Option (Shared × Nat)
  | resize _ _ => none
  | newTree node index _ | insert node index _ => some (.bsts node, index)
  | newMutex vector index => some (vector, index)

/-- What a call makes of the slots of its vector. -/
def act : InitCall → Slots → Except Fault Slots
  | resize _ size, slots => .ok (resizeSlots slots size)
  | newTree _ index placement, slots => setSlot slots index (.bst placement .new)
  | newMutex _ index, slots => setSlot slots index .mutex
  | insert _ index data, slots => insertAt slots index data

/-- What a call makes of a vector, unless something has gone wrong with it before. -/
def perform (call : InitCall) (held : Except Fault Slots) : Except Fault Slots :=
  held.bind call.act

end InitCall

/-- What the first of the two distributions gives. -/
abbrev Percent := {x : Int // 1 ≤ x ∧ x ≤ 100}

/-- What a thread draws from each of its distributions, in order. -/
structure Draws where
  xDist : Nat → Percent
  dist : Nat → Int

/-- All vectors are resized, by the thread of the first node. -/
def resizeAll (numDS : Nat) : Node → List InitCall
  | .node0 => [.resize (.bsts .node0) numDS, .resize (.bsts .node1) numDS,
      .resize (.bstLk .node0) numDS, .resize (.bstLk .node1) numDS,
      .resize (.bstReaderLk .node0) numDS, .resize (.bstReaderLk .node1) numDS]
  | .node1 => []

/-- Where a new tree is placed. -/
def placement (dsConfig : String) (node : Node) : Option Node :=
  if dsConfig = "numa" then some node else none

/-- The vectors that get a mutex. -/
def mutexVectors : Node → Node → List Shared
  | .node0, chosen => [.bstLk chosen, .bstReaderLk chosen]
  -- The thread of the second node leaves out the vectors for the readers.
  | .node1, chosen => [.bstLk chosen]

section Loops

variable (numDS : Nat) (node : Node) (crossover : Int) (draws : Draws)

/-- The node whose vectors are chosen by a draw. -/
def choose (x : Percent) : Node := if x.val ≤ crossover then node.other else node

/-- The loop that makes the trees. -/
def newTrees (dsConfig : String) : List InitCall :=
  (List.range numDS).map fun i =>
    let chosen := choose node crossover (draws.xDist i)
    .newTree chosen i (placement dsConfig chosen)

/-- The loop that makes the mutexes. -/
def newMutexes : List InitCall :=
  (List.range numDS).flatMap fun i =>
    let chosen := choose node crossover (draws.xDist (numDS + i))
    (mutexVectors node chosen).map fun vector => .newMutex vector i

/-- The loop that inserts a key into each tree, once in a round. -/
def insertKeys (rounds : Nat) : List InitCall :=
  (List.range rounds).flatMap fun i =>
    let chosen := choose node crossover (draws.xDist (numDS + numDS + i))
    (List.range numDS).map fun j => .insert chosen j (draws.dist (i * numDS + j))

end Loops

/-- What a thread does, before, between and after the three times it waits for the other one. -/
def numaBSTInit (dsConfig : String) (numDS : Nat) (keyspace : Int) (node : Node) (_crossover : Int)
    (draws : Draws) : List (List (Step Empty InitCall)) :=
  -- The argument is overwritten.
  let crossover := -1
  -- Behind the first barrier one thread resizes what both fill behind the second one.
  [[],
    (resizeAll numDS node).map .call,
    (newTrees numDS node crossover draws dsConfig ++ newMutexes numDS node crossover draws ++
      insertKeys numDS node crossover draws (keyspace.tdiv 2).toNat).map .call,
    []]

/-- The two threads on the shared vectors. -/
def initSystem (dsConfig : String) (numDS : Nat) (keyspace crossover : Int)
    (draws : Node → Draws) : System Node Empty InitCall Shared (Except Fault Slots) where
  program node := numaBSTInit dsConfig numDS keyspace node crossover (draws node)
  object := InitCall.target
  perform := InitCall.perform

section Programs

variable (numDS : Nat) (node : Node) (draws : Draws)

/-- No draw is as small as the crossover that the code sets. -/
@[simp] theorem choose_own (x : Percent) : choose node (-1) x = node := by
  -- All draws are at least one.
  have low := x.property.1
  exact if_neg (by omega)

/-- A thread makes the trees of its own node. -/
theorem newTrees_own (dsConfig : String) :
    newTrees numDS node (-1) draws dsConfig =
      (List.range numDS).map fun i => .newTree node i (placement dsConfig node) := by
  simp only [newTrees, choose_own]

/-- A thread makes mutexes for its own node. -/
theorem newMutexes_own :
    newMutexes numDS node (-1) draws =
      (List.range numDS).flatMap fun i =>
        (mutexVectors node node).map fun vector => .newMutex vector i := by
  simp only [newMutexes, choose_own]

/-- The keys that are inserted in some rounds, each with the index of its tree. -/
def keysDrawn (rounds : Nat) : List (Nat × Int) :=
  (List.range rounds).flatMap fun i =>
    (List.range numDS).map fun j => (j, draws.dist (i * numDS + j))

/-- A thread inserts keys into the trees of its own node. -/
theorem insertKeys_own (rounds : Nat) :
    insertKeys numDS node (-1) draws rounds =
      (keysDrawn numDS draws rounds).map fun drawn => .insert node drawn.1 drawn.2 := by
  simp only [insertKeys, choose_own, keysDrawn, List.map_flatMap, List.map_map]
  rfl

/-- The mutexes of a thread are in vectors of its own node. -/
theorem node_of_mem_mutexVectors {vector : Shared} (member : vector ∈ mutexVectors node node) :
    vector.node = node := by
  cases node with
  | node0 =>
    -- The thread of the first node makes a second mutex, for the readers.
    rcases List.mem_cons.mp member with rfl | member
    · rfl
    · rw [List.mem_singleton.mp member]
      rfl
  | node1 =>
    rw [List.mem_singleton.mp member]
    rfl

/-- What a thread does behind the second barrier. -/
def work (dsConfig : String) (rounds : Nat) : List InitCall :=
  newTrees numDS node (-1) draws dsConfig ++ newMutexes numDS node (-1) draws ++
    insertKeys numDS node (-1) draws rounds

/-- All that a thread does behind the second barrier is done to slots of its own node. -/
theorem work_own {dsConfig : String} {rounds : Nat} {call : InitCall}
    (member : call ∈ work numDS node draws dsConfig rounds) :
    call.target.node = node ∧ ∃ index, call.slot = some (call.target, index) := by
  -- A call is in one of the three loops, and each of them chooses the own node.
  rw [work, newTrees_own, newMutexes_own, insertKeys_own] at member
  rcases List.mem_append.mp member with member | inserted
  · rcases List.mem_append.mp member with tree | mutex
    · obtain ⟨i, -, rfl⟩ := List.mem_map.mp tree
      exact ⟨rfl, i, rfl⟩
    · obtain ⟨i, -, member⟩ := List.mem_flatMap.mp mutex
      obtain ⟨vector, own, rfl⟩ := List.mem_map.mp member
      exact ⟨node_of_mem_mutexVectors node own, i, rfl⟩
  · obtain ⟨drawn, -, rfl⟩ := List.mem_map.mp inserted
    exact ⟨rfl, drawn.1, rfl⟩

/-- The first thread resizes every vector. -/
theorem resize_mem_resizeAll (vector : Shared) :
    .resize vector numDS ∈ resizeAll numDS .node0 := by
  cases vector with
  | bsts node => cases node <;> simp [resizeAll]
  | bstLk node => cases node <;> simp [resizeAll]
  | bstReaderLk node => cases node <;> simp [resizeAll]

/-- Nothing but resizing is done before the second barrier, and by the first thread only. -/
theorem mem_resizeAll {call : InitCall} (member : call ∈ resizeAll numDS node) :
    node = .node0 ∧ ∃ vector, call = .resize vector numDS := by
  cases node with
  | node0 =>
    simp only [resizeAll, List.mem_cons, List.not_mem_nil, or_false] at member
    rcases member with rfl | rfl | rfl | rfl | rfl | rfl <;> exact ⟨rfl, _, rfl⟩
  | node1 => exact absurd member List.not_mem_nil

end Programs

section Threads

variable {dsConfig : String} {numDS : Nat} {keyspace crossover : Int} {draws : Node → Draws}

/-- The calls of a thread are all in two of its phases. -/
theorem calls_of_phase {thread : Node} {phase : Nat} {call : InitCall}
    (member : .call call ∈
      (initSystem dsConfig numDS keyspace crossover draws).steps thread phase) :
    phase = 1 ∧ call ∈ resizeAll numDS thread ∨
      phase = 2 ∧ call ∈ work numDS thread (draws thread) dsConfig (keyspace.tdiv 2).toNat := by
  -- Nothing is done in the first phase, in the last one, and behind it.
  match phase with
  | 0 => exact absurd member List.not_mem_nil
  -- In the second phase only the vectors are resized.
  | 1 =>
    obtain ⟨_, found, same⟩ := List.mem_map.mp member
    cases same
    exact .inl ⟨rfl, found⟩
  -- In the third phase the thread does its work.
  | 2 =>
    obtain ⟨_, found, same⟩ := List.mem_map.mp member
    cases same
    exact .inr ⟨rfl, found⟩
  | 3 => exact absurd member List.not_mem_nil
  | _ + 4 => exact absurd member List.not_mem_nil

/-- No locks are used. -/
theorem initSystem_tidy : (initSystem dsConfig numDS keyspace crossover draws).Tidy := by
  intro thread phase
  match phase with
  | 0 => rfl
  | 1 => exact tidy_calls _
  | 2 => exact tidy_calls _
  | 3 => rfl
  | _ + 4 => rfl

/-- A vector is resized by the first thread, and then only its own node's thread works on it. -/
theorem initSystem_relay (vector : Shared) :
    (initSystem dsConfig numDS keyspace crossover draws).Relay vector [.node0, .node1] := by
  constructor
  · decide
  · exact fun thread _ _ => thread.mem_both
  · -- The second thread works on the vector in the last busy phase if at all.
    apply List.pairwise_pair.mpr
    intro phase phase' works works'
    obtain ⟨call, member, same⟩ := System.exists_callOn works
    obtain ⟨call', member', same'⟩ := System.exists_callOn works'
    rcases calls_of_phase member' with ⟨-, resize⟩ | ⟨second, work'⟩
    · -- The second thread does not resize, so it is at work in the third phase.
      exact absurd resize List.not_mem_nil
    · rcases calls_of_phase member with ⟨first, -⟩ | ⟨-, work⟩
      · omega
      · -- Both would work on a vector of their own node.
        have own : vector.node = .node0 := same ▸ (work_own _ _ _ work).1
        have own' : vector.node = .node1 := same' ▸ (work_own _ _ _ work').1
        rw [own] at own'
        cases own'

end Threads

section Contents

variable (dsConfig : String) (numDS : Nat) (keyspace crossover : Int) (draws : Node → Draws)

/-- What a thread does with a vector. -/
theorem callsOn_program (vector : Shared) (thread : Node) :
    (initSystem dsConfig numDS keyspace crossover draws).callsOn vector
        ((initSystem dsConfig numDS keyspace crossover draws).program thread).flatten =
      ((resizeAll numDS thread).filter fun call => call.target = vector) ++
        (work numDS thread (draws thread) dsConfig (keyspace.tdiv 2).toNat).filter
          fun call => call.target = vector := by
  show System.callsOn _ vector ([] ++ ((resizeAll numDS thread).map .call ++
    ((work numDS thread (draws thread) dsConfig (keyspace.tdiv 2).toNat).map .call ++
      ([] ++ [])))) = _
  rw [List.nil_append, List.append_nil, List.append_nil, System.callsOn_append,
    System.callsOn_calls, System.callsOn_calls]
  rfl

/-- The first thread resizes a vector once. -/
theorem resizeAll_filter (vector : Shared) :
    ((resizeAll numDS .node0).filter fun call => call.target = vector) =
      [.resize vector numDS] := by
  cases vector with
  | bsts node => cases node <;> rfl
  | bstLk node => cases node <;> rfl
  | bstReaderLk node => cases node <;> rfl

/-- A thread leaves the vectors of the other node alone. -/
theorem work_filter_other {vector : Shared} {thread : Node} (differ : vector.node ≠ thread)
    (rounds : Nat) :
    ((work numDS thread (draws thread) dsConfig rounds).filter
      fun call => call.target = vector) = [] := by
  -- All its calls are on vectors of its own node.
  rw [List.filter_eq_nil_iff]
  intro call member
  have own := (work_own _ _ _ member).1
  have apart : call.target ≠ vector := fun same => differ (same ▸ own)
  simpa using apart

/-- A vector is resized, and then its own node's thread works on it. -/
theorem callsOn_both (vector : Shared) :
    [Node.node0, Node.node1].flatMap (fun thread =>
        (initSystem dsConfig numDS keyspace crossover draws).callsOn vector
          ((initSystem dsConfig numDS keyspace crossover draws).program thread).flatten) =
      .resize vector numDS ::
        (work numDS vector.node (draws vector.node) dsConfig (keyspace.tdiv 2).toNat).filter
          fun call => call.target = vector := by
  rw [List.flatMap_cons, List.flatMap_cons, List.flatMap_nil, List.append_nil, callsOn_program,
    callsOn_program, resizeAll_filter]
  -- The thread of the other node has no call on it, and the second thread resizes nothing.
  cases own : vector.node with
  -- The first thread is that of the node.
  | node0 =>
    have differ : vector.node ≠ .node1 := by simp [own]
    rw [work_filter_other dsConfig numDS draws differ]
    simp [resizeAll]
  -- The second thread is that of the node.
  | node1 =>
    have differ : vector.node ≠ .node0 := by simp [own]
    rw [work_filter_other dsConfig numDS draws differ]
    simp [resizeAll]

/-- The work on the trees of a node is to make them and to insert the keys. -/
theorem work_filter_bsts (node : Node) (rounds : Nat) :
    ((work numDS node (draws node) dsConfig rounds).filter
        fun call => call.target = .bsts node) =
      ((List.range numDS).map fun i => .newTree node i (placement dsConfig node)) ++
        (keysDrawn numDS (draws node) rounds).map fun drawn => .insert node drawn.1 drawn.2 := by
  -- No mutex goes into the vector of the trees.
  have mutexes : ((newMutexes numDS node (-1) (draws node)).filter
      fun call => call.target = .bsts node) = [] := by
    rw [List.filter_eq_nil_iff, newMutexes_own]
    intro call member
    obtain ⟨i, -, member⟩ := List.mem_flatMap.mp member
    obtain ⟨vector, own, rfl⟩ := List.mem_map.mp member
    cases node with
    | node0 =>
      rcases List.mem_cons.mp own with rfl | own
      · simp [InitCall.target]
      · rw [List.mem_singleton.mp own]
        simp [InitCall.target]
    | node1 =>
      rw [List.mem_singleton.mp own]
      simp [InitCall.target]
  -- The other two loops work on the trees only.
  rw [work, List.filter_append, List.filter_append, mutexes, List.append_nil, newTrees_own,
    insertKeys_own]
  congr 1
  · -- Every new tree goes there.
    rw [List.filter_eq_self]
    intro call member
    obtain ⟨i, -, rfl⟩ := List.mem_map.mp member
    simp [InitCall.target]
  · -- Every key is inserted into a tree there.
    rw [List.filter_eq_self]
    intro call member
    obtain ⟨drawn, -, rfl⟩ := List.mem_map.mp member
    simp [InitCall.target]

/-- The work on the mutexes of a node is to make them. -/
theorem work_filter_bstLk (node : Node) (rounds : Nat) :
    ((work numDS node (draws node) dsConfig rounds).filter
        fun call => call.target = .bstLk node) =
      (List.range numDS).map fun i => .newMutex (.bstLk node) i := by
  -- No tree goes into the vector of the mutexes, and neither does a key.
  have trees : ((newTrees numDS node (-1) (draws node) dsConfig).filter
      fun call => call.target = .bstLk node) = [] := by
    rw [List.filter_eq_nil_iff, newTrees_own]
    intro call member
    obtain ⟨i, -, rfl⟩ := List.mem_map.mp member
    simp [InitCall.target]
  have keys : ((insertKeys numDS node (-1) (draws node) rounds).filter
      fun call => call.target = .bstLk node) = [] := by
    rw [List.filter_eq_nil_iff, insertKeys_own]
    intro call member
    obtain ⟨drawn, -, rfl⟩ := List.mem_map.mp member
    simp [InitCall.target]
  rw [work, List.filter_append, List.filter_append, trees, keys, List.nil_append, List.append_nil,
    newMutexes_own, List.filter_flatMap, List.map_eq_flatMap]
  -- Of the mutexes made in a round, only one is not for the readers.
  congr 1
  funext i
  cases node <;> rfl

end Contents

/-- All slots of a vector point to ordered trees, each of exactly the keys said for its index. -/
structure HoldsTrees (size : Nat) (placement : Option Node) (keys : Nat → Int → Prop)
    (slots : Slots) : Prop where
  length : slots.length = size
  tree : ∀ index < size, ∃ tree shape, slots[index]? = some (some (.bst placement tree)) ∧
    Represents tree shape ∧ ∀ key, key ∈ shape.keys ↔ keys index key

/-- All slots of a vector point to mutexes. -/
structure HoldsMutexes (size : Nat) (slots : Slots) : Prop where
  length : slots.length = size
  mutex : ∀ index < size, slots[index]? = some (some .mutex)

/-- Whatever a vector has been before, it has the new size behind its resizing. -/
@[simp] theorem length_resizeSlots (slots : Slots) (size : Nat) :
    (resizeSlots slots size).length = size := by
  rw [resizeSlots, List.length_append, List.length_take, List.length_replicate]
  omega

section Filling

variable {system : System Node Empty InitCall Shared (Except Fault Slots)}
  (performs : system.perform = InitCall.perform)

include performs

/-- Items are made for the first slots of a vector, one after another. -/
theorem contents_setSlot (make : Nat → InitCall) (item : Item)
    (sets : ∀ index slots, (make index).act slots = setSlot slots index item) (slots : Slots)
    {count : Nat} (enough : count ≤ slots.length) :
    ∃ after, system.contents (.ok slots) ((List.range count).map make) = .ok after ∧
      after.length = slots.length ∧ ∀ index < count, after[index]? = some (some item) := by
  -- By induction on the slots that have been filled.
  induction count with
  | zero => exact ⟨slots, rfl, rfl, fun _ below => absurd below (Nat.not_lt_zero _)⟩
  | succ count ih =>
    obtain ⟨middle, run, length, filled⟩ := ih (by omega)
    -- The next slot is there, as the vector keeps its length.
    have within : count < middle.length := by omega
    refine ⟨middle.set count (some item), ?_, ?_, fun index below => ?_⟩
    · rw [List.range_succ, List.map_append, List.map_singleton, System.contents_concat, run,
        performs]
      show (make count).act middle = _
      rw [sets, setSlot, if_pos within]
    · rw [List.length_set, length]
    · by_cases last : index = count
      · rw [last, List.getElem?_set_self within]
      · rw [List.getElem?_set_ne (Ne.symm last)]
        exact filled index (by omega)

omit performs in
/-- An insertion adds its key to the tree of its slot and leaves the others as they are. -/
theorem HoldsTrees.insertAt {size : Nat} {placement : Option Node} {inserted : List (Nat × Int)}
    {slots : Slots}
    (holds : HoldsTrees size placement (fun index key => (index, key) ∈ inserted) slots)
    {index : Nat} (below : index < size) (data : Int) :
    ∃ after, insertAt slots index data = .ok after ∧
      HoldsTrees size placement (fun index' key => (index', key) ∈ inserted ++ [(index, data)])
        after := by
  obtain ⟨tree, shape, found, represents, keys⟩ := holds.tree index below
  -- The tree at the index takes the key, as an ordered tree does.
  obtain ⟨after, done, again, -⟩ := insert_represents represents data
  refine ⟨slots.set index (some (.bst placement after)), ?_, ?_, fun other within => ?_⟩
  · simp only [BstInit.insertAt, found, done]
  · rw [List.length_set, holds.length]
  · -- The tree at the index has the new one of its keys, and any other tree has those it had.
    by_cases same : other = index
    · subst same
      refine ⟨after, _, List.getElem?_set_self (by rw [holds.length]; exact below), again,
        fun key => ?_⟩
      rw [Memory.Shape.mem_keys_insert, keys, List.mem_append, List.mem_singleton, Prod.mk.injEq]
      simp [or_comm]
    · obtain ⟨tree', shape', found', represents', keys'⟩ := holds.tree other within
      refine ⟨tree', shape', ?_, represents', fun key => ?_⟩
      · rw [List.getElem?_set_ne (Ne.symm same), found']
      · rw [keys', List.mem_append, List.mem_singleton, Prod.mk.injEq]
        simp [same]

/-- Each tree of a vector gets the keys that are inserted at its index. -/
theorem HoldsTrees.contents {size : Nat} {placement : Option Node} (node : Node)
    {inserted drawn : List (Nat × Int)} {slots : Slots}
    (holds : HoldsTrees size placement (fun index key => (index, key) ∈ inserted) slots)
    (within : ∀ pair ∈ drawn, pair.1 < size) :
    ∃ after, system.contents (.ok slots)
        (drawn.map fun pair => .insert node pair.1 pair.2) = .ok after ∧
      HoldsTrees size placement (fun index key => (index, key) ∈ inserted ++ drawn) after := by
  -- By induction on the keys, the last of which is inserted when the others are there.
  induction drawn using List.reverseRecOn with
  | nil =>
    -- Without keys the slots stay as they are.
    rw [List.append_nil]
    exact ⟨slots, rfl, holds⟩
  | append_singleton rest pair ih =>
    obtain ⟨middle, run, holds'⟩ := ih fun other member =>
      within other (List.mem_append_left _ member)
    -- The last key goes to a tree that is there after the others.
    obtain ⟨after, done, holds''⟩ := holds'.insertAt
      (within pair (List.mem_append_right _ (List.mem_singleton.mpr rfl))) pair.2
    refine ⟨after, ?_, ?_⟩
    · rw [List.map_append, List.map_singleton, System.contents_concat, run, performs]
      exact done
    · rw [← List.append_assoc]
      exact holds''

end Filling

/-- A key is drawn for a tree in one of the rounds. -/
def DrawnFor (numDS : Nat) (keyspace : Int) (draws : Draws) (index : Nat) (key : Int) : Prop :=
  ∃ round < (keyspace.tdiv 2).toNat, draws.dist (round * numDS + index) = key

/-- The keys that are inserted into a tree are those drawn for it. -/
theorem mem_keysDrawn {numDS : Nat} {keyspace : Int} {draws : Draws} {index : Nat} {key : Int} :
    (index, key) ∈ keysDrawn numDS draws (keyspace.tdiv 2).toNat ↔
      index < numDS ∧ DrawnFor numDS keyspace draws index key := by
  -- The round and the index of a key tell its place among the draws.
  rw [keysDrawn, List.mem_flatMap]
  constructor
  · intro ⟨round, below, member⟩
    obtain ⟨j, within, same⟩ := List.mem_map.mp member
    cases same
    exact ⟨List.mem_range.mp within, round, List.mem_range.mp below, rfl⟩
  · intro ⟨within, round, below, drawn⟩
    refine ⟨round, List.mem_range.mpr below, List.mem_map.mpr ⟨index, ?_, ?_⟩⟩
    · exact List.mem_range.mpr within
    · rw [drawn]

section Results

variable {dsConfig : String} {numDS : Nat} {keyspace crossover : Int} {draws : Node → Draws}
  {slots : Shared → Slots}
  {state : State Node Empty InitCall Shared (Except Fault Slots)}

/-- A thread has made a call or is inside it. -/
def Made (system : System Node Empty InitCall Shared (Except Fault Slots))
    (state : State Node Empty InitCall Shared (Except Fault Slots)) (thread : Node)
    (call : InitCall) : Prop :=
  .call call ∈ state.history system thread ∨ state.InCall thread call

/-- No slot is accessed before its vector has been resized or by both threads, and in the end all
slots are filled as drawn. -/
structure Initialises (system : System Node Empty InitCall Shared (Except Fault Slots))
    (dsConfig : String) (numDS : Nat) (keyspace : Int) (draws : Node → Draws)
    (state : State Node Empty InitCall Shared (Except Fault Slots)) : Prop where
  resized : ∀ thread call vector index, Made system state thread call →
    call.slot = some (vector, index) →
      .call (.resize vector numDS) ∈ state.history system .node0 ∧
        ∀ other size, ¬ state.InCall other (.resize vector size)
  apart : ∀ thread other, thread ≠ other → ∀ call call', Made system state thread call →
    Made system state other call' → call.slot.isSome = true → call.slot ≠ call'.slot
  trees : state.Done system → ∀ node, ∃ trees, state.store (.bsts node) = .ok trees ∧
    HoldsTrees numDS (placement dsConfig node) (DrawnFor numDS keyspace (draws node)) trees
  mutexes : state.Done system → ∀ node, ∃ mutexes, state.store (.bstLk node) = .ok mutexes ∧
    HoldsMutexes numDS mutexes

/-- A call that a thread has made or is inside is in a phase up to the present one. -/
theorem Made.phase (sound : Sound (initSystem dsConfig numDS keyspace crossover draws) state)
    {thread : Node} {call : InitCall}
    (made : Made (initSystem dsConfig numDS keyspace crossover draws) state thread call) :
    ∃ phase ≤ state.phase, .call call ∈
      (initSystem dsConfig numDS keyspace crossover draws).steps thread phase := by
  rcases made with done | inCall
  · exact exists_phase_of_history (sound.whole thread) done
  · exact ⟨state.phase, Nat.le_refl _, sound.call_mem inCall⟩

/-- A slot is accessed in the last of the two busy phases, by the thread of its own node. -/
theorem Made.slot (sound : Sound (initSystem dsConfig numDS keyspace crossover draws) state)
    {thread : Node} {call : InitCall}
    (made : Made (initSystem dsConfig numDS keyspace crossover draws) state thread call)
    {vector : Shared} {index : Nat} (accesses : call.slot = some (vector, index)) :
    2 ≤ state.phase ∧ vector.node = thread := by
  obtain ⟨phase, past, member⟩ := made.phase sound
  rcases calls_of_phase member with ⟨-, resize⟩ | ⟨second, work⟩
  · -- A resizing accesses no slot.
    obtain ⟨-, other, rfl⟩ := mem_resizeAll _ _ resize
    cases accesses
  · obtain ⟨own, index', same⟩ := work_own _ _ _ work
    rw [accesses] at same
    cases same
    exact ⟨by omega, own⟩

/-- The contents of a vector in the end. -/
theorem store_done
    (reachable : Reachable (initSystem dsConfig numDS keyspace crossover draws)
      (fun vector => .ok (slots vector)) state)
    (done : state.Done (initSystem dsConfig numDS keyspace crossover draws)) (vector : Shared) :
    state.store vector = (initSystem dsConfig numDS keyspace crossover draws).contents
      (.ok (resizeSlots (slots vector) numDS))
      ((work numDS vector.node (draws vector.node) dsConfig (keyspace.tdiv 2).toNat).filter
        fun call => call.target = vector) := by
  have sound := reachable.sound initSystem_tidy
  -- The vector is handed on from the first thread to that of its own node.
  rw [reachable.store_relay initSystem_tidy (initSystem_relay vector)]
  simp only [sound.history_done done, callsOn_both]
  rfl

/-- A vector has been resized when a slot of it is accessed. -/
theorem resize_mem_history (late : 2 ≤ state.phase) (vector : Shared) :
    .call (.resize vector numDS) ∈
      state.history (initSystem dsConfig numDS keyspace crossover draws) .node0 := by
  -- It has been resized in the phase before, which is over.
  apply List.mem_append_left
  apply List.mem_flatten.mpr
  refine ⟨(resizeAll numDS .node0).map .call, ?_, ?_⟩
  · apply List.mem_iff_getElem?.mpr
    refine ⟨1, ?_⟩
    rw [List.getElem?_take, if_pos (by omega)]
    rfl
  · exact List.mem_map.mpr ⟨_, resize_mem_resizeAll numDS vector, rfl⟩

/-- Nobody is inside the resizing of a vector when a slot is accessed. -/
theorem not_inCall_resize
    (sound : Sound (initSystem dsConfig numDS keyspace crossover draws) state)
    (late : 2 ≤ state.phase) (thread : Node) (vector : Shared) (size : Nat) :
    ¬ state.InCall thread (.resize vector size) := by
  -- Resizing belongs to an earlier phase.
  intro inCall
  rcases calls_of_phase (sound.call_mem inCall) with ⟨first, -⟩ | ⟨-, work⟩
  · omega
  · obtain ⟨-, index, accesses⟩ := work_own _ _ _ work
    cases accesses

/-- In the end the slots for the trees of a node hold trees of the keys drawn for them. -/
theorem holdsTrees_done
    (reachable : Reachable (initSystem dsConfig numDS keyspace crossover draws)
      (fun vector => .ok (slots vector)) state)
    (done : state.Done (initSystem dsConfig numDS keyspace crossover draws)) (node : Node) :
    ∃ trees, state.store (.bsts node) = .ok trees ∧
      HoldsTrees numDS (placement dsConfig node) (DrawnFor numDS keyspace (draws node)) trees := by
  have performs : (initSystem dsConfig numDS keyspace crossover draws).perform =
      InitCall.perform := rfl
  rw [store_done reachable done, Shared.node, work_filter_bsts, System.contents_append]
  -- First there are empty trees everywhere.
  obtain ⟨middle, run, length, filled⟩ := contents_setSlot performs
    (fun i => .newTree node i (placement dsConfig node)) (.bst (placement dsConfig node) .new)
    (fun _ _ => rfl) (resizeSlots (slots (.bsts node)) numDS) (length_resizeSlots _ _).ge
  rw [length_resizeSlots] at length
  have fresh : HoldsTrees numDS (placement dsConfig node)
      (fun index key => (index, key) ∈ ([] : List (Nat × Int))) middle := by
    refine ⟨length, fun index below => ⟨.new, .leaf, filled index below, ?_, fun key => ?_⟩⟩
    · exact ⟨rfl, trivial, List.nodup_nil, trivial⟩
    · exact iff_of_false List.not_mem_nil List.not_mem_nil
  -- Then each key goes to the tree that it is drawn for.
  have within : ∀ pair ∈ keysDrawn numDS (draws node) (keyspace.tdiv 2).toNat,
      pair.1 < numDS := fun pair member => (mem_keysDrawn.mp member).1
  obtain ⟨after, run', holds⟩ := fresh.contents performs node within
  refine ⟨after, ?_, holds.length, fun index below => ?_⟩
  · -- The two parts of the work are done one after the other.
    rw [run]
    exact run'
  · obtain ⟨tree, shape, found, represents, keys⟩ := holds.tree index below
    refine ⟨tree, shape, found, represents, fun key => ?_⟩
    -- The keys of a tree are those that are drawn for its index.
    rw [keys, List.nil_append, mem_keysDrawn, and_iff_right below]

/-- In the end the slots for the mutexes of a node hold mutexes. -/
theorem holdsMutexes_done
    (reachable : Reachable (initSystem dsConfig numDS keyspace crossover draws)
      (fun vector => .ok (slots vector)) state)
    (done : state.Done (initSystem dsConfig numDS keyspace crossover draws)) (node : Node) :
    ∃ mutexes, state.store (.bstLk node) = .ok mutexes ∧ HoldsMutexes numDS mutexes := by
  have performs : (initSystem dsConfig numDS keyspace crossover draws).perform =
      InitCall.perform := rfl
  rw [store_done reachable done, Shared.node, work_filter_bstLk]
  obtain ⟨after, run, length, filled⟩ := contents_setSlot performs
    (fun i => .newMutex (.bstLk node) i) .mutex (fun _ _ => rfl)
    (resizeSlots (slots (.bstLk node)) numDS) (length_resizeSlots _ _).ge
  exact ⟨after, run, length.trans (length_resizeSlots _ _), filled⟩

/-- Every state of the two threads is as it should be, whatever they draw. -/
theorem numaBSTInit_initialises
    (reachable : Reachable (initSystem dsConfig numDS keyspace crossover draws)
      (fun vector => .ok (slots vector)) state) :
    Initialises (initSystem dsConfig numDS keyspace crossover draws) dsConfig numDS keyspace draws
      state := by
  -- Slots are accessed behind the second barrier only, each by the thread of its node.
  have sound := reachable.sound initSystem_tidy
  constructor
  · intro thread call vector index made accesses
    -- The access is behind the second barrier, and the resizing before it.
    have late := (made.slot sound accesses).1
    exact ⟨resize_mem_history late vector, fun other => not_inCall_resize sound late other vector⟩
  · -- A slot that both threads access would be one of both nodes.
    intro thread other differ call call' made made' some same
    obtain ⟨⟨vector, index⟩, accesses⟩ := Option.isSome_iff_exists.mp some
    apply differ
    rw [← (made.slot sound accesses).2, (made'.slot sound (same ▸ accesses)).2]
  · exact holdsTrees_done reachable
  · exact holdsMutexes_done reachable

end Results

/-- Both threads can come to the end of their programs. -/
theorem initSystem_exists_done (dsConfig : String) (numDS : Nat) (keyspace crossover : Int)
    (draws : Node → Draws) (slots : Shared → Slots) :
    ∃ state, Reachable (initSystem dsConfig numDS keyspace crossover draws)
        (fun vector => .ok (slots vector)) state ∧
      state.Done (initSystem dsConfig numDS keyspace crossover draws) :=
  exists_done initSystem_tidy _ Node.mem_both fun _ => (rfl : _ = 3 + 1)

/-- Draws that rise and start again. -/
def rising : Node → Draws := fun _ => ⟨fun k => ⟨k % 100 + 1, by omega⟩, fun k => k % 7⟩

/-- Both threads can come to an end with three trees and three keys for each of them, on each node,
and then the trees are as they should be. -/
theorem numaBSTInit_initialises_rising :
    ∃ state, Reachable (initSystem "numa" 3 6 50 rising) (fun _ => .ok []) state ∧
      state.Done (initSystem "numa" 3 6 50 rising) ∧
      Initialises (initSystem "numa" 3 6 50 rising) "numa" 3 6 rising state := by
  obtain ⟨state, reachable, done⟩ :=
    initSystem_exists_done "numa" 3 6 50 rising fun _ => []
  exact ⟨state, reachable, done, numaBSTInit_initialises reachable⟩

end SecretTyping.Bench.BstInit
