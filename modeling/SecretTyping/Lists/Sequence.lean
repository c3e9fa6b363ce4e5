import SecretTyping.Lists.Loops

/-! The benchmark linked list as a sequence of values. -/

namespace SecretTyping.Lists

open Memory

/-- Put a value behind the first occurrence of another. -/
def insertBehind (existData newData : Int) : List Int → List Int
  | [] => []
  | value :: rest =>
    if value = existData then value :: newData :: rest
    else value :: insertBehind existData newData rest

/-- A value is put behind the first occurrence, where nothing before it is one. -/
theorem insertBehind_first {existData : Int} {before : List Int} (first : existData ∉ before)
    (newData : Int) (behind : List Int) :
    insertBehind existData newData (before ++ existData :: behind) =
      before ++ existData :: newData :: behind := by
  -- By induction on the values before the first occurrence.
  induction before with
  | nil => simp [insertBehind]
  | cons value before ih =>
    simp only [List.mem_cons, not_or] at first
    simp only [List.cons_append, insertBehind, if_neg (Ne.symm first.1), ih first.2]

/-- A value that does not occur has nothing put behind it. -/
theorem insertBehind_absent {existData : Int} {values : List Int} (absent : existData ∉ values)
    (newData : Int) : insertBehind existData newData values = values := by
  -- By induction on the values, none of which is the one searched for.
  induction values with
  | nil => rfl
  | cons value values ih =>
    simp only [List.mem_cons, not_or] at absent
    simp only [insertBehind, if_neg (Ne.symm absent.1), ih absent.2]

/-- What a call on a sequence of values returns; an empty sequence has the value -1 to remove. -/
def Operation.outcome (values : List Int) : Operation → Outcome
  | .append _ | .prepend _ | .insertAfter _ _ | .insertAtIndex _ _ => .void
  | .removeHead => .int (values.headD (-1))
  | .removeTail => .int (values.getLastD (-1))
  | .lookUp data => .bool (decide (data ∈ values))

/-- What a call makes of a sequence of values. -/
def Operation.onSequence (values : List Int) : Operation → List Int
  | .append data => values ++ [data]
  | .prepend data => data :: values
  | .removeHead => values.tail
  | .removeTail => values.dropLast
  | .insertAfter existData newData => insertBehind existData newData values
  | .insertAtIndex index newData =>
    if 0 ≤ index ∧ index < values.length then values.insertIdx index.toNat newData else values
  | .lookUp _ => values

/-- What a call makes of a sequence in the list: both kinds of insertion make an empty list hold the
new value, by an index where it is negative. -/
def Operation.onValues (values : List Int) (operation : Operation) : List Int :=
  match values, operation with
  | [], .insertAfter _ newData => [newData]
  | [], .insertAtIndex index newData => if index < 0 then [newData] else []
  | values, operation => operation.onSequence values

/-- Inserting at an index beyond the range of an int goes wrong. -/
theorem insertAtIndex_overflows {list : LinkedList} {index : Int} (newData : Int)
    (beyond : ¬ (-intMax - 1 ≤ index + 1 ∧ index + 1 ≤ intMax)) :
    perform list (.insertAtIndex index newData) = .error .overflow := by
  rw [perform, insertAtIndex, checkedInt, if_neg beyond]
  rfl

/-- A chain with a value is split at its first occurrence. -/
theorem split_first {data : Int} {nodes : List (Nat × Int)} (present : data ∈ valuesOf nodes) :
    ∃ before address behind, nodes = before ++ (address, data) :: behind ∧
      data ∉ valuesOf before := by
  -- By induction on the chain up to the first node with the value.
  induction nodes with
  | nil => simp at present
  | cons node nodes ih =>
    obtain ⟨own, held⟩ := node
    by_cases here : held = data
    · subst here
      exact ⟨[], own, nodes, rfl, by simp⟩
    · rw [valuesOf_cons, List.mem_cons] at present
      obtain ⟨before, address, behind, split, first⟩ := ih (present.resolve_left (Ne.symm here))
      subst split
      exact ⟨(own, held) :: before, address, behind, rfl, by simp [first, Ne.symm here]⟩

/-- A chain with two nodes from a position on is split there. -/
theorem split_at {position : Nat} {nodes : List (Nat × Int)}
    (inside : position + 1 < nodes.length) :
    ∃ before address value target targetValue behind,
      nodes = before ++ (address, value) :: (target, targetValue) :: behind ∧
        before.length = position := by
  -- By induction on the position.
  induction position generalizing nodes with
  | zero =>
    match nodes, inside with
    | (address, value) :: (target, targetValue) :: behind, _ =>
      exact ⟨[], address, value, target, targetValue, behind, rfl, rfl⟩
  | succ position ih =>
    match nodes, inside with
    | node :: nodes, inside =>
      obtain ⟨before, address, value, target, targetValue, behind, split, counted⟩ :=
        ih (Nat.lt_of_succ_lt_succ inside)
      subst split
      exact ⟨node :: before, address, value, target, targetValue, behind, rfl,
        congrArg Nat.succ counted⟩

/-- A value is inserted behind the one at the position before. -/
theorem insertIdx_behind (before behind : List Int) (value newData : Int) :
    (before ++ value :: behind).insertIdx (before.length + 1) newData =
      before ++ value :: newData :: behind := by
  -- By induction on the values before the position.
  induction before with
  | nil => simp
  | cons first before ih => simp [ih]

section Calls

variable {list : LinkedList} {nodes : List (Nat × Int)} (holds : Holds list nodes)

include holds

/-- One more node makes the length one greater. -/
theorem length_grown {grown : List (Nat × Int)} (one : grown.length = nodes.length + 1) :
    list.length + 1 = grown.length := by
  have counted := holds.length
  omega

/-- One node less makes the length one smaller. -/
theorem length_shrunk {shrunk : List (Nat × Int)} (one : nodes.length = shrunk.length + 1) :
    list.length - 1 = shrunk.length := by
  have counted := holds.length
  omega

omit holds in
/-- A call that gives an empty list its first node leaves the chain of that node. -/
theorem first_leaves (holds : Holds list []) (data : Int) :
    Leaves list ((do
        let (head, heap) ← makeNode list.heap data none
        let length ← checkedInt (list.length + 1)
        return { list with head, length, heap } : Except Fault LinkedList).map (.void, ·)) .void
      [(list.heap.next, data)] := by
  -- The new node is pushed onto the empty chain.
  refine ⟨(list.heap.alloc ⟨data, some none⟩).2, ?_, holds.only.push rfl⟩
  have length : list.length + 1 = [(list.heap.next, data)].length := length_grown holds rfl
  rw [makeNode_eq, ok_bind, LinkedList.resize, length]
  cases checkedInt _ <;> rfl

omit holds in
/-- A call that links a new node in leaves the chain with it. -/
theorem splice_leaves {before behind : List (Nat × Int)} {address : Nat} {value : Int}
    (holds : Holds list (before ++ (address, value) :: behind)) (data : Int) :
    Leaves list ((list.resize (list.length + 1) list.head
        (splice list.heap address value data (headPtr behind))).map (.void, ·)) .void
      (before ++ (address, value) :: (list.heap.next, data) :: behind) := by
  -- The node behind which the new one is linked keeps its place, and so does the head.
  refine ⟨splice list.heap address value data (headPtr behind), ?_, splice_only holds.only data⟩
  have length : list.length + 1 =
      (before ++ (address, value) :: (list.heap.next, data) :: behind).length :=
    length_grown holds (by simp only [List.length_append, List.length_cons]; omega)
  have sameHead : headPtr (before ++ (address, value) :: (list.heap.next, data) :: behind) =
      list.head := by
    rw [holds.head]
    cases before <;> rfl
  rw [length, sameHead]

/-- Prepending leaves the chain with a new first node. -/
theorem prepend_leaves (data : Int) :
    Leaves list (perform list (.prepend data)) .void ((list.heap.next, data) :: nodes) := by
  -- The new node is linked to the old head.
  refine ⟨(list.heap.alloc ⟨data, some (headPtr nodes)⟩).2, ?_, holds.only.push rfl⟩
  have length : list.length + 1 = ((list.heap.next, data) :: nodes).length :=
    length_grown holds rfl
  rw [perform, prepend, holds.head, makeNode_eq, ok_bind, LinkedList.resize, length]
  cases checkedInt _ <;> rfl

/-- Appending leaves the chain with a new last node. -/
theorem append_leaves (data : Int) :
    Leaves list (perform list (.append data)) .void (nodes ++ [(list.heap.next, data)]) := by
  -- The loop ends at the last node, behind which the new one is linked.
  rcases List.eq_nil_or_concat nodes with empty | ⟨before, last, split⟩
  · -- The new node is the first one as well.
    subst empty
    have noHead : list.head = none := holds.head
    rw [perform, append, if_pos noHead]
    exact first_leaves holds data
  · obtain ⟨address, value⟩ := last
    rw [List.concat_eq_append] at split
    subst split
    have someHead : list.head ≠ none := by simp [holds.head, headPtr_eq_none]
    have enough : before.length < loopBound list.heap := by
      have bounded := chained_bounded holds.only.chained
      rw [List.length_append] at bounded
      omega
    have loop := appendLoop_chained holds.only.chained data enough
    rw [← holds.head] at loop
    rw [perform, append, if_neg someHead, loop]
    simpa using splice_leaves holds data

/-- Removing the first value leaves the chain without its first node. -/
theorem removeHead_leaves :
    Leaves list (perform list .removeHead) (.int ((valuesOf nodes).headD (-1))) nodes.tail := by
  -- The first node is read before it is deleted.
  cases nodes with
  | nil =>
    have noHead : list.head = none := holds.head
    have same : perform list .removeHead = .ok (.int (-1), list) := by
      rw [perform, removeHead, if_pos noHead]
      rfl
    exact holds.leaves same
  | cons node rest =>
    obtain ⟨address, value⟩ := node
    have head : list.head = some address := holds.head
    have someHead : list.head ≠ none := by simp [head]
    have length : list.length - 1 = rest.length := length_shrunk holds rfl
    have chained := holds.only.chained
    refine ⟨list.heap.kill address, ?_, holds.only.pop⟩
    rw [perform, removeHead, if_neg someHead, head, getLink_chained chained, ok_bind,
      getData_chained chained, ok_bind, free_chained chained, ok_bind, length, List.tail_cons,
      LinkedList.resize]
    cases checkedInt _ <;> rfl

/-- Removing the last of several values leaves the chain without its last node. -/
theorem removeTail_leaves (several : nodes.length ≠ 1) :
    Leaves list (perform list .removeTail) (.int ((valuesOf nodes).getLastD (-1)))
      nodes.dropLast := by
  -- The loop ends with the last two nodes, unless there are none at all.
  rcases List.eq_nil_or_concat nodes with empty | ⟨most, last, split⟩
  · subst empty
    have noHead : list.head = none := holds.head
    have same : perform list .removeTail = .ok (.int (-1), list) := by
      rw [perform, removeTail, if_pos noHead]
      rfl
    exact holds.leaves same
  · rcases List.eq_nil_or_concat most with single | ⟨before, node, split'⟩
    · subst split single
      exact absurd rfl several
    · -- The two last nodes are the one deleted and the one unlinked from it.
      obtain ⟨last, lastValue⟩ := last
      obtain ⟨address, value⟩ := node
      rw [List.concat_eq_append] at split split'
      subst split'
      rw [List.append_assoc, List.singleton_append] at split
      subst split
      have someHead : list.head ≠ none := by simp [holds.head, headPtr_eq_none]
      have enough : before.length + 1 < loopBound list.heap := by
        have bounded := chained_bounded holds.only.chained
        simp only [List.length_append, List.length_cons, List.length_nil] at bounded
        omega
      have loop := removeTailLoop_chained holds.only.chained enough none
      have shorter : (before ++ [(address, value), (last, lastValue)]).dropLast =
          before ++ [(address, value)] := by simp
      have returned : (valuesOf (before ++ [(address, value), (last, lastValue)])).getLastD (-1) =
          lastValue := by simp
      have length : list.length - 1 = (before ++ [(address, value)]).length :=
        length_shrunk holds (by simp)
      have sameHead : headPtr (before ++ [(address, value)]) = list.head := by
        rw [holds.head]
        cases before <;> rfl
      rw [shorter, returned]
      refine ⟨(list.heap.put address ⟨value, some none⟩).kill last, ?_,
        holds.only.dropLast rfl rfl⟩
      rw [← holds.head] at loop
      rw [perform, removeTail, if_neg someHead, loop, length, sameHead, LinkedList.resize]
      cases checkedInt _ <;> rfl

/-- Removing the only value from the end writes through null. -/
theorem removeTail_falls (single : nodes.length = 1) :
    perform list .removeTail = .error .nullDereference := by
  -- The node before the only one is null.
  obtain ⟨⟨address, value⟩, only⟩ := List.length_eq_one_iff.mp single
  subst only
  have head : list.head = some address := holds.head
  have someHead : list.head ≠ none := by simp [head]
  have loop := removeTailLoop_single holds.only.chained list.heap.next
  rw [perform, removeTail, if_neg someHead, head, loopBound, loop]
  rfl

/-- Inserting behind a value leaves the chain with a new node behind its first occurrence; an empty
chain gets the new node in any case. -/
theorem insertAfter_leaves (existData newData : Int) :
    ∃ changed, Leaves list (perform list (.insertAfter existData newData)) .void changed ∧
      valuesOf changed =
        (Operation.insertAfter existData newData).onValues (valuesOf nodes) := by
  -- The loop ends at the first occurrence of the value, or behind the last node.
  by_cases empty : nodes = []
  · subst empty
    have noHead : list.head = none := holds.head
    refine ⟨[(list.heap.next, newData)], ?_, rfl⟩
    rw [perform, insertAfter, if_pos noHead]
    exact first_leaves holds newData
  · have someHead : list.head ≠ none := by simp [holds.head, headPtr_eq_none, empty]
    have values : (Operation.insertAfter existData newData).onValues (valuesOf nodes) =
        insertBehind existData newData (valuesOf nodes) := by
      cases nodes with
      | nil => exact absurd rfl empty
      | cons node rest => rfl
    have bounded := chained_bounded holds.only.chained
    rw [values]
    by_cases present : existData ∈ valuesOf nodes
    · -- The chain is split at the first occurrence.
      obtain ⟨before, address, behind, split, first⟩ := split_first present
      subst split
      have enough : before.length < loopBound list.heap := by
        rw [List.length_append] at bounded
        omega
      have loop := insertAfterLoop_present holds.only.chained first newData enough
      rw [← holds.head] at loop
      refine ⟨before ++ (address, existData) :: (list.heap.next, newData) :: behind, ?_, ?_⟩
      · rw [perform, insertAfter, if_neg someHead, loop]
        exact splice_leaves holds newData
      · simp only [valuesOf_append, valuesOf_cons]
        rw [insertBehind_first first]
    · have loop := insertAfterLoop_absent holds.only.chained present newData bounded
      rw [← holds.head] at loop
      refine ⟨nodes, ?_, (insertBehind_absent present newData).symm⟩
      have same : perform list (.insertAfter existData newData) = .ok (.void, list) := by
        rw [perform, insertAfter, if_neg someHead, loop]
        rfl
      exact holds.leaves same

/-- Searching returns whether a value occurs and leaves the list as it is. -/
theorem lookUp_leaves (data : Int) :
    Leaves list (perform list (.lookUp data)) (.bool (decide (data ∈ valuesOf nodes))) nodes := by
  -- The loop ends at the value or behind the last node.
  have loop := lookUpLoop_chained holds.only.chained data (chained_bounded holds.only.chained)
  rw [← holds.head] at loop
  have same : perform list (.lookUp data) =
      .ok (.bool (decide (data ∈ valuesOf nodes)), list) := by
    rw [perform, lookUp, loop]
    rfl
  exact holds.leaves same

/-- Inserting at the index zero of a list that is not empty writes through null. -/
theorem insertAtIndex_falls (some : nodes ≠ []) (newData : Int) :
    perform list (.insertAtIndex 0 newData) = .error .nullDereference := by
  -- The node before the first one is null.
  obtain ⟨⟨address, value⟩, rest, split⟩ := List.exists_cons_of_ne_nil some
  subst split
  have head : list.head = Option.some address := holds.head
  have someHead : list.head ≠ none := by simp [head]
  have counted := holds.length
  rw [List.length_cons] at counted
  have loop : insertAtLoop list 0 newData (list.heap.next + 1) (Option.some address) none 0 =
      .error .nullDereference := insertAtLoop_zero newData list.heap.next
  have first : checkedInt (0 + 1) = .ok 1 := rfl
  rw [perform, insertAtIndex, first, ok_bind, if_neg (by omega), if_neg someHead, head, loopBound,
    loop]
  rfl

/-- Inserting at an index into an empty list makes a new node for a negative index only. -/
theorem insertAtIndex_empty {index : Int} (newData : Int)
    (checked : checkedInt (index + 1) = .ok (index + 1)) (empty : nodes = []) :
    ∃ changed, Leaves list (perform list (.insertAtIndex index newData)) .void changed ∧
      valuesOf changed = if index < 0 then [newData] else [] := by
  -- No index is beyond the length of a list but for one that is not negative.
  subst empty
  have counted := holds.length
  have noHead : list.head = none := holds.head
  rw [List.length_nil] at counted
  by_cases negative : index < 0
  · refine ⟨[(list.heap.next, newData)], ?_, (if_pos negative).symm⟩
    rw [perform, insertAtIndex, checked, ok_bind, if_neg (by omega), if_pos noHead]
    exact first_leaves holds newData
  · refine ⟨[], holds.leaves ?_, (if_neg negative).symm⟩
    rw [perform, insertAtIndex, checked, ok_bind, if_pos (by omega)]
    rfl

/-- The loop is entered for every index that is not beyond the length of the list. -/
theorem insertAtIndex_enters {index : Int} (newData : Int)
    (checked : checkedInt (index + 1) = .ok (index + 1)) (some : nodes ≠ [])
    (small : index < nodes.length) : insertAtIndex list index newData =
      insertAtLoop list index newData (loopBound list.heap) (headPtr nodes) none 0 := by
  have someHead : list.head ≠ none := by simp [holds.head, headPtr_eq_none, some]
  have counted := holds.length
  rw [insertAtIndex, checked, ok_bind, if_neg (by omega), if_neg someHead, holds.head]

/-- An index outside a list that is not empty leaves the list as it is. -/
theorem insertAtIndex_outside {index : Int} (newData : Int)
    (checked : checkedInt (index + 1) = .ok (index + 1)) (some : nodes ≠ [])
    (outside : ¬ (0 ≤ index ∧ index < nodes.length)) :
    Leaves list (perform list (.insertAtIndex index newData)) .void nodes := by
  -- An index beyond the length is refused first; the loop passes by a negative one.
  have counted := holds.length
  have same : insertAtIndex list index newData = .ok list := by
    by_cases large : index + 1 > nodes.length
    · rw [insertAtIndex, checked, ok_bind, if_pos (by omega)]
      rfl
    · rw [insertAtIndex_enters holds newData checked some (by omega)]
      have room := holds.room
      exact insertAtLoop_passed holds.only.chained newData (by omega) (by omega) (by omega)
        (chained_bounded holds.only.chained) none
  refine holds.leaves ?_
  rw [perform, same]
  rfl

/-- An index inside the list, but for zero, leaves the chain with a new node there. -/
theorem insertAtIndex_inside {index : Int} (newData : Int)
    (fits : -intMax - 1 ≤ index + 1 ∧ index + 1 ≤ intMax) (positive : 0 < index)
    (small : index < nodes.length) :
    ∃ changed, Leaves list (perform list (.insertAtIndex index newData)) .void changed ∧
      valuesOf changed = (valuesOf nodes).insertIdx index.toNat newData := by
  -- The chain is split at the node before the index.
  have checked : checkedInt (index + 1) = .ok (index + 1) := if_pos fits
  have some : nodes ≠ [] := by
    rintro rfl
    rw [List.length_nil] at small
    omega
  have enters := insertAtIndex_enters holds newData checked some small
  have bounded := chained_bounded holds.only.chained
  have position : index.toNat - 1 + 1 < nodes.length := by omega
  obtain ⟨before, address, value, target, targetValue, behind, split, at'⟩ := split_at position
  subst split
  have enough : before.length + 1 < loopBound list.heap := by omega
  have loop := insertAtLoop_inside holds.only.chained newData
    (show 0 + (before.length : Int) + 1 = index by omega) (by omega)
    (by simp only [intMax] at fits ⊢; omega) enough none
  refine ⟨before ++ (address, value) :: (list.heap.next, newData) ::
    (target, targetValue) :: behind, ?_, ?_⟩
  · rw [perform, enters, loop]
    exact splice_leaves holds newData
  · have index' : index.toNat = (valuesOf before).length + 1 := by
      rw [length_valuesOf]
      omega
    simp only [valuesOf_append, valuesOf_cons, index', insertIdx_behind]

/-- Inserting at any other index leaves the chain with a new node there, where there is one; only an
empty chain gets the new node for a negative index. -/
theorem insertAtIndex_leaves {index : Int} (newData : Int)
    (fits : -intMax - 1 ≤ index + 1 ∧ index + 1 ≤ intMax) (safe : index ≠ 0 ∨ nodes = []) :
    ∃ changed, Leaves list (perform list (.insertAtIndex index newData)) .void changed ∧
      valuesOf changed =
        (Operation.insertAtIndex index newData).onValues (valuesOf nodes) := by
  -- The list is empty, or the index is inside or outside.
  have checked : checkedInt (index + 1) = .ok (index + 1) := if_pos fits
  by_cases empty : nodes = []
  · obtain ⟨changed, leaves, values⟩ := insertAtIndex_empty holds newData checked empty
    refine ⟨changed, leaves, values.trans ?_⟩
    rw [empty]
    rfl
  · have values : (Operation.insertAtIndex index newData).onValues (valuesOf nodes) =
        if 0 ≤ index ∧ index < nodes.length then (valuesOf nodes).insertIdx index.toNat newData
        else valuesOf nodes := by
      rw [← length_valuesOf nodes]
      cases nodes with
      | nil => exact absurd rfl empty
      | cons node rest => rfl
    have notZero : index ≠ 0 := safe.resolve_right empty
    rw [values]
    by_cases inside : 0 ≤ index ∧ index < nodes.length
    · rw [if_pos inside]
      exact insertAtIndex_inside holds newData fits (by omega) inside.2
    · rw [if_neg inside]
      exact ⟨nodes, insertAtIndex_outside holds newData checked empty inside, rfl⟩

end Calls

/-- A call that writes through null: removing the only value from the end, or inserting at the index
zero of a list that is not empty. -/
def Operation.FallsOnNull (values : List Int) : Operation → Prop
  | .removeTail => values.length = 1
  | .insertAtIndex index _ => index = 0 ∧ values ≠ []
  | _ => False

/-- A call whose index, if it has one, has a successor among the ints. -/
def Operation.InRange : Operation → Prop
  | .insertAtIndex index _ => -intMax - 1 ≤ index + 1 ∧ index + 1 ≤ intMax
  | _ => True

/-- A call that writes through null goes wrong there. -/
theorem perform_falls {list : LinkedList} {nodes : List (Nat × Int)} (holds : Holds list nodes)
    {operation : Operation} (falls : operation.FallsOnNull (valuesOf nodes)) :
    perform list operation = .error .nullDereference := by
  -- Only two kinds of calls can.
  cases operation with
  | removeTail => exact removeTail_falls holds ((length_valuesOf nodes).symm.trans falls)
  | insertAtIndex index newData =>
    obtain ⟨zero, some⟩ := falls
    subst zero
    have some : nodes ≠ [] := fun none => some (by rw [none, valuesOf_nil])
    exact insertAtIndex_falls holds some newData
  | append => exact falls.elim
  | prepend => exact falls.elim
  | removeHead => exact falls.elim
  | insertAfter => exact falls.elim
  | lookUp => exact falls.elim

/-- A call whose index has no successor overflows. -/
theorem perform_overflows (list : LinkedList) {operation : Operation}
    (beyond : ¬ operation.InRange) : perform list operation = .error .overflow := by
  -- No other call has an index.
  cases operation with
  | insertAtIndex index newData => exact insertAtIndex_overflows newData beyond
  | append => exact absurd trivial beyond
  | prepend => exact absurd trivial beyond
  | removeHead => exact absurd trivial beyond
  | removeTail => exact absurd trivial beyond
  | insertAfter => exact absurd trivial beyond
  | lookUp => exact absurd trivial beyond

/-- A call that neither writes through null nor has an index out of range leaves the list with the
chain of what it makes of the sequence. -/
theorem perform_leaves_safe {list : LinkedList} {nodes : List (Nat × Int)}
    (holds : Holds list nodes) {operation : Operation}
    (safe : ¬ operation.FallsOnNull (valuesOf nodes)) (inRange : operation.InRange) :
    ∃ changed, Leaves list (perform list operation) (operation.outcome (valuesOf nodes)) changed ∧
      valuesOf changed = operation.onValues (valuesOf nodes) := by
  -- Only insertions treat an empty sequence in a way of their own.
  have plain : ∀ operation : Operation, (∀ e d, operation ≠ .insertAfter e d) →
      (∀ i d, operation ≠ .insertAtIndex i d) →
      operation.onValues (valuesOf nodes) = operation.onSequence (valuesOf nodes) := by
    intro operation notAfter notAt
    cases operation <;> cases nodes <;> first | rfl | exact absurd rfl (notAfter _ _) |
      exact absurd rfl (notAt _ _)
  cases operation with
  | append data =>
    refine ⟨_, append_leaves holds data, ?_⟩
    rw [plain _ (by simp) (by simp)]
    simp [Operation.onSequence]
  | prepend data =>
    refine ⟨_, prepend_leaves holds data, ?_⟩
    rw [plain _ (by simp) (by simp)]
    rfl
  | removeHead =>
    refine ⟨_, removeHead_leaves holds, ?_⟩
    rw [plain _ (by simp) (by simp)]
    exact List.map_tail
  | removeTail =>
    have several : nodes.length ≠ 1 := fun single => safe ((length_valuesOf nodes).trans single)
    refine ⟨_, removeTail_leaves holds several, ?_⟩
    rw [plain _ (by simp) (by simp)]
    exact List.map_dropLast
  | insertAfter existData newData => exact insertAfter_leaves holds existData newData
  | insertAtIndex index newData =>
    have elsewhere : index ≠ 0 ∨ nodes = [] := by
      by_cases empty : nodes = []
      · exact .inr empty
      · exact .inl fun zero => safe ⟨zero, fun none => empty (List.map_eq_nil_iff.mp none)⟩
    exact insertAtIndex_leaves holds newData inRange elsewhere
  | lookUp data =>
    refine ⟨_, lookUp_leaves holds data, ?_⟩
    rw [plain _ (by simp) (by simp)]
    rfl

/-- A call writes through null, or it overflows, or it leaves the list with the chain of what it
makes of the sequence. -/
theorem perform_leaves {list : LinkedList} {nodes : List (Nat × Int)} (holds : Holds list nodes)
    (operation : Operation) :
    (operation.FallsOnNull (valuesOf nodes) ∧ perform list operation = .error .nullDereference) ∨
      perform list operation = .error .overflow ∨
      ∃ changed, Leaves list (perform list operation) (operation.outcome (valuesOf nodes)) changed ∧
        valuesOf changed = operation.onValues (valuesOf nodes) := by
  by_cases falls : operation.FallsOnNull (valuesOf nodes)
  · exact .inl ⟨falls, perform_falls holds falls⟩
  · by_cases inRange : operation.InRange
    · exact .inr (.inr (perform_leaves_safe holds falls inRange))
    · exact .inr (.inl (perform_overflows list inRange))

/-- A call that completes returns what it says and holds what it makes of the sequence. -/
theorem perform_holds {list after : LinkedList} {nodes : List (Nat × Int)}
    (holds : Holds list nodes) {operation : Operation} {outcome : Outcome}
    (done : perform list operation = .ok (outcome, after)) :
    outcome = operation.outcome (valuesOf nodes) ∧
      ∃ changed, Holds after changed ∧
        valuesOf changed = operation.onValues (valuesOf nodes) := by
  -- Of the three ways a call can go, only the last completes.
  rcases perform_leaves holds operation with ⟨-, fault⟩ | fault | ⟨changed, leaves, values⟩
  · rw [fault] at done
    cases done
  · rw [fault] at done
    cases done
  · obtain ⟨same, held⟩ := leaves.holds done
    exact ⟨same, changed, held, values⟩

/-- Calls that complete one after another leave a list that holds a chain. -/
theorem runOperations_holds {operations : List Operation} {list after : LinkedList}
    {nodes : List (Nat × Int)} (holds : Holds list nodes)
    (run : runOperations list operations = .ok after) : ∃ changed, Holds after changed := by
  -- By induction on the calls, each of which leaves a list with a chain.
  induction operations generalizing list nodes with
  | nil =>
    cases run
    exact ⟨nodes, holds⟩
  | cons operation rest ih =>
    obtain ⟨⟨outcome, middle⟩, done, run⟩ := bind_eq_ok run
    obtain ⟨-, changed, held, -⟩ := perform_holds holds done
    exact ih held run

/-- Every list that calls leave stores a sequence of values, and every further call that completes
returns and stores what it makes of this sequence; nothing is said of an insertion into the empty
list at a negative index. -/
theorem perform_sequence {operations : List Operation} {list : LinkedList}
    (run : runOperations .new operations = .ok list) :
    ∃ values, Stores list values ∧
      ∀ operation outcome after, perform list operation = .ok (outcome, after) →
        outcome = operation.outcome values ∧
          ((∀ index newData, operation = .insertAtIndex index newData → values = [] → 0 ≤ index) →
            Stores after (operation.onValues values)) := by
  -- The values of the sequence are those of the chain.
  obtain ⟨nodes, holds⟩ := runOperations_holds holds_new run
  refine ⟨valuesOf nodes, holds.stores, fun operation outcome after done => ?_⟩
  obtain ⟨same, changed, held, values⟩ := perform_holds holds done
  exact ⟨same, fun _ => values ▸ held.stores⟩

/-- After two calls, the calls that complete act on a sequence. -/
theorem perform_sequence_two :
    ∃ list values, runOperations .new [.append 2, .prepend 1] = .ok list ∧ Stores list values ∧
      ∀ after, perform list (.append 3) = .ok (.void, after) → Stores after (values ++ [3]) := by
  obtain ⟨list, run⟩ : ∃ list, runOperations .new [.append 2, .prepend 1] = .ok list := ⟨_, rfl⟩
  obtain ⟨values, stores, calls⟩ := perform_sequence run
  refine ⟨list, values, run, stores, fun after done => ?_⟩
  have appended := (calls (.append 3) .void after done).2 (fun _ _ same => by cases same)
  cases values <;> exact appended

/-- Inserting behind a value that does not occur in the empty list makes the list hold the new
value, and so does inserting there at a negative index. -/
theorem insert_empty :
    runOperations .new [] = .ok .new ∧ Stores .new [] ∧
      (∃ after, perform .new (.insertAfter 1 2) = .ok (.void, after) ∧
        ¬ Stores after ((Operation.insertAfter 1 2).onSequence [])) ∧
      ∃ after, perform .new (.insertAtIndex (-1) 2) = .ok (.void, after) ∧
        ¬ Stores after ((Operation.insertAtIndex (-1) 2).onSequence []) := by
  -- In both lists the head leads to a node, so that they do not store the empty sequence.
  have some : ∀ after : LinkedList, after.head = some 0 → ¬ Stores after [] := by
    intro after head stores
    obtain ⟨nodes, -, head', empty⟩ := stores
    rw [List.map_eq_nil_iff.mp empty, head] at head'
    cases head'
  exact ⟨rfl, holds_new.stores, ⟨_, rfl, some _ rfl⟩, ⟨_, rfl, some _ rfl⟩⟩

end SecretTyping.Lists
