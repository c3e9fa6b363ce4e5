import SecretTyping.Lists.LinkedList

/-! The loops of the benchmark linked list over the chain that it holds. -/

namespace SecretTyping.Lists

open Memory

/-- A list stores the values along the chain from its head. -/
def Stores (list : LinkedList) (values : List Int) : Prop :=
  ∃ nodes, Chained nodeLinks list.heap nodes ∧ list.head = headPtr nodes ∧ valuesOf nodes = values

/-- A list stores one sequence of values only. -/
theorem Stores.unique {list : LinkedList} {first second : List Int} (one : Stores list first)
    (two : Stores list second) : first = second := by
  obtain ⟨nodes, chained, head, rfl⟩ := one
  obtain ⟨nodes', chained', head', rfl⟩ := two
  -- The chain from the head is unique.
  rw [chained.unique chained' (head.symm.trans head')]

/-- A list whose heap holds the given chain and nothing else, with its length. -/
structure Holds (list : LinkedList) (nodes : List (Nat × Int)) : Prop where
  only : HoldsOnly nodeLinks list.heap nodes
  head : list.head = headPtr nodes
  length : list.length = nodes.length
  room : (nodes.length : Int) ≤ intMax

/-- A list that holds a chain stores its values. -/
theorem Holds.stores {list : LinkedList} {nodes : List (Nat × Int)} (holds : Holds list nodes) :
    Stores list (valuesOf nodes) :=
  ⟨nodes, holds.only.chained, holds.head, rfl⟩

/-- A new list holds nothing. -/
theorem holds_new : Holds .new [] where
  only := HoldsOnly.empty
  head := rfl
  length := rfl
  room := by decide

/-- A list with another length, head and heap, as far as an int can hold the length. -/
def LinkedList.resize (list : LinkedList) (length : Int) (head : Ptr) (heap : NodeHeap) :
    Except Fault LinkedList := do
  let length ← checkedInt length
  return { list with head, length, heap }

/-- A call returns the given outcome and leaves the list with the given chain, as far as an int can
hold its length. -/
def Leaves (list : LinkedList) (result : Except Fault (Outcome × LinkedList)) (outcome : Outcome)
    (nodes : List (Nat × Int)) : Prop :=
  ∃ heap, result = (list.resize nodes.length (headPtr nodes) heap).map (outcome, ·) ∧
    HoldsOnly nodeLinks heap nodes

/-- A call that completes leaves the list with the chain it is said to. -/
theorem Leaves.holds {list after : LinkedList} {result : Except Fault (Outcome × LinkedList)}
    {outcome returned : Outcome} {nodes : List (Nat × Int)}
    (leaves : Leaves list result outcome nodes) (done : result = .ok (returned, after)) :
    returned = outcome ∧ Holds after nodes := by
  obtain ⟨heap, same, only⟩ := leaves
  rw [same, LinkedList.resize, checkedInt] at done
  -- The length has been checked.
  split at done
  · next fits =>
    cases done
    exact ⟨rfl, only, rfl, rfl, fits.2⟩
  · cases done

/-- A call that changes nothing leaves the list with its chain. -/
theorem Holds.leaves {list : LinkedList} {nodes : List (Nat × Int)} (holds : Holds list nodes)
    {result : Except Fault (Outcome × LinkedList)} {outcome : Outcome}
    (same : result = .ok (outcome, list)) : Leaves list result outcome nodes := by
  refine ⟨list.heap, ?_, holds.only⟩
  -- The length of the list is in range already.
  have fits : -intMax - 1 ≤ (nodes.length : Int) ∧ (nodes.length : Int) ≤ intMax :=
    ⟨by simp only [intMax]; omega, holds.room⟩
  rw [same, LinkedList.resize, checkedInt, if_pos fits, ← holds.head, ← holds.length]
  rfl

section Loops

variable {list : LinkedList} {before behind : List (Nat × Int)} {address : Nat} {value : Int}

/-- The loop of appending hangs a new node behind the last one. -/
theorem appendLoop_chained (chained : Chained nodeLinks list.heap (before ++ [(address, value)]))
    (data : Int) {fuel : Nat} (enough : before.length < fuel) :
    appendLoop list data fuel (headPtr (before ++ [(address, value)])) =
      list.resize (list.length + 1) list.head (splice list.heap address value data none) := by
  -- By induction on the nodes before the last one, which the loop passes.
  induction before generalizing fuel with
  | nil =>
    cases fuel with
    | zero => exact absurd enough (Nat.not_lt_zero _)
    | succ fuel =>
      -- The last node has no next one, so that it is linked to the new one.
      have written := setLink_alloc chained data
      rw [headPtr_nil] at written
      simp only [List.nil_append, headPtr_cons, appendLoop, getLink_chained chained, headPtr_nil,
        ok_bind, if_true, makeNode_eq, written]
      rfl
  | cons node before ih =>
    obtain ⟨own, held⟩ := node
    cases fuel with
    | zero => exact absurd enough (Nat.not_lt_zero _)
    | succ fuel =>
      have link : getLink list.heap (some own) = .ok (headPtr (before ++ [(address, value)])) :=
        getLink_chained chained
      -- There is a node behind this one, and the loop goes on with it.
      have more : headPtr (before ++ [(address, value)]) ≠ none := by
        rw [Ne, headPtr_eq_none]
        simp
      simp only [List.cons_append, headPtr_cons, appendLoop, link, ok_bind, if_neg more]
      exact ih chained.2 (Nat.lt_of_succ_lt_succ enough)

/-- The loop of inserting behind a value hangs a new node behind its first occurrence. -/
theorem insertAfterLoop_present {existData : Int}
    (chained : Chained nodeLinks list.heap (before ++ (address, existData) :: behind))
    (first : existData ∉ valuesOf before) (newData : Int) {fuel : Nat}
    (enough : before.length < fuel) :
    insertAfterLoop list existData newData fuel
        (headPtr (before ++ (address, existData) :: behind)) =
      list.resize (list.length + 1) list.head
        (splice list.heap address existData newData (headPtr behind)) := by
  -- By induction on the nodes before the occurrence, which the loop passes.
  induction before generalizing fuel with
  | nil =>
    cases fuel with
    | zero => exact absurd enough (Nat.not_lt_zero _)
    | succ fuel =>
      -- The first node has the value, and the new one is linked in behind it.
      simp only [List.nil_append, headPtr_cons, insertAfterLoop, getData_chained chained,
        getLink_chained chained, ok_bind, if_true, makeNode_eq, setLink_alloc chained newData]
      rfl
  | cons node before ih =>
    obtain ⟨own, held⟩ := node
    cases fuel with
    | zero => exact absurd enough (Nat.not_lt_zero _)
    | succ fuel =>
      -- The value is in none of the nodes that are passed.
      simp only [valuesOf_cons, List.mem_cons, not_or] at first
      simp only [List.cons_append, headPtr_cons, insertAfterLoop, getData_chained chained,
        getLink_chained chained, ok_bind, if_neg (Ne.symm first.1)]
      exact ih chained.2 first.2 (Nat.lt_of_succ_lt_succ enough)

/-- The loop of inserting behind a value that does not occur changes nothing. -/
theorem insertAfterLoop_absent {nodes : List (Nat × Int)}
    (chained : Chained nodeLinks list.heap nodes) {existData : Int}
    (absent : existData ∉ valuesOf nodes) (newData : Int) {fuel : Nat}
    (enough : nodes.length < fuel) :
    insertAfterLoop list existData newData fuel (headPtr nodes) = .ok list := by
  -- By induction on the chain, which the loop passes to its end.
  induction nodes generalizing fuel with
  | nil => cases fuel <;> rfl
  | cons node nodes ih =>
    obtain ⟨own, held⟩ := node
    cases fuel with
    | zero => exact absurd enough (Nat.not_lt_zero _)
    | succ fuel =>
      simp only [valuesOf_cons, List.mem_cons, not_or] at absent
      simp only [headPtr_cons, insertAfterLoop, getData_chained chained, getLink_chained chained,
        ok_bind, if_neg (Ne.symm absent.1)]
      exact ih chained.2 absent.2 (Nat.lt_of_succ_lt_succ enough)

/-- The loop of searching finds the values of the chain. -/
theorem lookUpLoop_chained {heap : NodeHeap} {nodes : List (Nat × Int)}
    (chained : Chained nodeLinks heap nodes) (data : Int) {fuel : Nat}
    (enough : nodes.length < fuel) :
    lookUpLoop heap data fuel (headPtr nodes) = .ok (decide (data ∈ valuesOf nodes)) := by
  induction nodes generalizing fuel with
  | nil => cases fuel <;> rfl
  | cons node nodes ih =>
    obtain ⟨own, held⟩ := node
    cases fuel with
    | zero => exact absurd enough (Nat.not_lt_zero _)
    | succ fuel =>
      simp only [headPtr_cons, lookUpLoop, getData_chained chained, getLink_chained chained,
        ok_bind, valuesOf_cons, List.mem_cons]
      -- The value is here or is looked for in the rest.
      split
      · next here =>
        rw [decide_eq_true (.inl here.symm)]
        rfl
      · next other =>
        rw [ih chained.2 (Nat.lt_of_succ_lt_succ enough)]
        simp [Ne.symm other]

/-- The loop of removing the last node unlinks and deletes it. -/
theorem removeTailLoop_chained {last : Nat} {lastValue : Int}
    (chained : Chained nodeLinks list.heap (before ++ [(address, value), (last, lastValue)]))
    {fuel : Nat} (enough : before.length + 1 < fuel) (prev : Ptr) :
    removeTailLoop list fuel (headPtr (before ++ [(address, value), (last, lastValue)])) prev =
      (list.resize (list.length - 1) list.head
        ((list.heap.put address ⟨value, some none⟩).kill last)).map (lastValue, ·) := by
  -- By induction on the nodes before the last two, which the loop passes.
  induction before generalizing fuel prev with
  | nil =>
    match fuel, enough with
    | fuel + 2, _ =>
      have apart : last ≠ address := by
        have distinct := chained.nodup
        simp only [List.nil_append, addressesOf_cons, addressesOf_nil, List.nodup_cons,
          List.mem_cons, List.not_mem_nil, or_false] at distinct
        exact Ne.symm distinct.1
      have liveLast := cells_chained chained.2
      have deleted := Heap.free_live ((Heap.put_other list.heap apart ⟨value, some none⟩).trans
        liveLast)
      have written := setLink_chained chained none
      have more : (some last : Ptr) ≠ none := by simp
      simp only [List.nil_append, headPtr_cons, removeTailLoop, getLink_chained chained,
        getLink_chained chained.2, getData_chained chained.2, headPtr_nil, ok_bind, if_neg more,
        if_true, written, deleted, LinkedList.resize]
      cases checkedInt (list.length - 1) <;> rfl
  | cons node before ih =>
    obtain ⟨own, held⟩ := node
    cases fuel with
    | zero => exact absurd enough (Nat.not_lt_zero _)
    | succ fuel =>
      have link : getLink list.heap (some own) =
          .ok (headPtr (before ++ [(address, value), (last, lastValue)])) := getLink_chained chained
      have more : headPtr (before ++ [(address, value), (last, lastValue)]) ≠ none := by
        rw [Ne, headPtr_eq_none]
        simp
      simp only [List.cons_append, headPtr_cons, removeTailLoop, link, ok_bind, if_neg more]
      exact ih chained.2 (Nat.lt_of_succ_lt_succ enough) (some own)

/-- The loop of removing the last node, when it is the only one, writes through null. -/
theorem removeTailLoop_single (chained : Chained nodeLinks list.heap [(address, value)])
    (fuel : Nat) :
    removeTailLoop list (fuel + 1) (some address) none = .error .nullDereference := by
  -- The first turn finds the end with no node before it.
  simp only [removeTailLoop, getLink_chained chained, getData_chained chained, headPtr_nil,
    ok_bind, if_true]
  rfl

/-- The loop of inserting at an index hangs a new node before the one there. -/
theorem insertAtLoop_inside {target : Nat} {targetValue index : Int}
    (chained : Chained nodeLinks list.heap
      (before ++ (address, value) :: (target, targetValue) :: behind)) (newData : Int) {i : Int}
    (there : i + before.length + 1 = index) (start : 0 ≤ i) (most : index ≤ intMax) {fuel : Nat}
    (enough : before.length + 1 < fuel) (prev : Ptr) :
    insertAtLoop list index newData fuel
        (headPtr (before ++ (address, value) :: (target, targetValue) :: behind)) prev i =
      list.resize (list.length + 1) list.head
        (splice list.heap address value newData (some target)) := by
  have next : ∀ j : Int, 0 ≤ j → j < index → checkedInt (j + 1) = .ok (j + 1) := by
    intro j least below
    rw [checkedInt, if_pos]
    simp only [intMax] at most ⊢
    omega
  -- By induction on the nodes before the one that the new node is linked behind.
  induction before generalizing i fuel prev with
  | nil =>
    match fuel, enough with
    | fuel + 2, _ =>
      simp only [List.length_nil] at there
      have written := setLink_alloc chained newData
      rw [headPtr_cons] at written
      simp only [List.nil_append, headPtr_cons, insertAtLoop, getLink_chained chained, ok_bind,
        next i start (by omega), if_neg (show i ≠ index by omega),
        if_pos (show i + 1 = index by omega), makeNode_eq, written]
      rfl
  | cons node before ih =>
    obtain ⟨own, held⟩ := node
    cases fuel with
    | zero => exact absurd enough (Nat.not_lt_zero _)
    | succ fuel =>
      simp only [List.length_cons] at there
      simp only [List.cons_append, headPtr_cons, insertAtLoop, getLink_chained chained, ok_bind,
        next i start (by omega), if_neg (show i ≠ index by omega)]
      exact ih chained.2 (by omega) (by omega) (Nat.lt_of_succ_lt_succ enough) (some own)

/-- The loop of inserting at an index that has been passed already changes nothing. -/
theorem insertAtLoop_passed {nodes : List (Nat × Int)}
    (chained : Chained nodeLinks list.heap nodes) {index : Int} (newData : Int) {i : Int}
    (passed : index < i) (start : 0 ≤ i) (most : i + nodes.length ≤ intMax) {fuel : Nat}
    (enough : nodes.length < fuel) (prev : Ptr) :
    insertAtLoop list index newData fuel (headPtr nodes) prev i = .ok list := by
  induction nodes generalizing i fuel prev with
  | nil => cases fuel <;> rfl
  | cons node nodes ih =>
    obtain ⟨own, held⟩ := node
    cases fuel with
    | zero => exact absurd enough (Nat.not_lt_zero _)
    | succ fuel =>
      simp only [List.length_cons] at most
      -- The counter stays within the number of nodes.
      have next : checkedInt (i + 1) = .ok (i + 1) := by
        rw [checkedInt, if_pos]
        simp only [intMax] at most ⊢
        omega
      simp only [headPtr_cons, insertAtLoop, getLink_chained chained, ok_bind, next,
        if_neg (show i ≠ index by omega)]
      exact ih chained.2 (by omega) (by omega) (by omega) (Nat.lt_of_succ_lt_succ enough) (some own)

/-- The loop of inserting at the index zero writes through null. -/
theorem insertAtLoop_zero (newData : Int) (fuel : Nat) :
    insertAtLoop list 0 newData (fuel + 1) (some address) none 0 = .error .nullDereference := by
  simp only [insertAtLoop, if_true, makeNode_eq, ok_bind]
  rfl

end Loops

end SecretTyping.Lists
