import SecretTyping.Lists.LinkedList
import SecretTyping.Lib.Lifo

/-! The benchmark stack, on an explicit heap of its nodes. -/

namespace SecretTyping.Lists

open Memory Lifo

/-- A stack: its top and the heap of its nodes. -/
structure Stack where
  top : Ptr
  heap : NodeHeap

namespace Stack

/-- A stack as its constructor leaves it. -/
def new : Stack := ⟨none, Heap.empty⟩

/-- Remove the value on top, with the address of the node deleted for it. -/
def pop (stack : Stack) : Except Fault (Int × List Nat × Stack) := do
  if stack.top = none then return (-1, [], stack)
  else
    let top ← getLink stack.heap stack.top
    let data ← getData stack.heap stack.top
    let heap ← stack.heap.free stack.top
    return (data, stack.top.toList, ⟨top, heap⟩)

/-- Put a value on top. -/
def push (stack : Stack) (data : Int) : Except Fault Stack := do
  -- An allocation that fails throws, so that the test of the source for null never holds.
  let (newN, heap) ← makeNode stack.heap data stack.top
  return ⟨newN, heap⟩

/-- The loop that prints the nodes of a stack, counting them in an int. -/
def displayLoop (heap : NodeHeap) : Nat → Ptr → Int → Except Fault (List String)
  | _, none, _ => .ok []
  | 0, some _, _ => .error .endless
  | fuel + 1, some temp, i => do
    let title := if i = 0 then ["TOP "] else []
    let data ← getData heap (some temp)
    let link ← getLink heap (some temp)
    let rest ← displayLoop heap fuel link (← checkedInt (i + 1))
    return title ++ toString data :: rest

/-- Print a stack from its top. -/
def display (stack : Stack) : Except Fault (List String) :=
  if stack.top = none then .ok ["Stack Empty!!"]
  else displayLoop stack.heap (loopBound stack.heap) stack.top 0

/-- The loop that deletes the nodes of a stack, with the addresses it deletes, in this order. -/
def destroyLoop (heap : NodeHeap) : Nat → Ptr → Except Fault (List Nat × NodeHeap)
  | _, none => .ok ([], heap)
  | 0, some _ => .error .endless
  | fuel + 1, some temp => do
    let top ← getLink heap (some temp)
    let (deleted, heap) ← destroyLoop (← heap.free (some temp)) fuel top
    return (temp :: deleted, heap)

/-- Delete a stack; what is left is the heap. -/
def destroy (stack : Stack) : Except Fault (List Nat × NodeHeap) :=
  destroyLoop stack.heap (loopBound stack.heap) stack.top

/-- Carry out calls one after another; the result lists what the removals return and the addresses
of the nodes that they delete. -/
def runCalls (stack : Stack) : List (Call Int) → Except Fault (List Int × List Nat × Stack)
  | [] => .ok ([], [], stack)
  | .push data :: rest => do runCalls (← push stack data) rest
  | .pop :: rest => do
    let (data, deleted, stack) ← pop stack
    let (results, others, stack) ← runCalls stack rest
    return (data :: results, deleted ++ others, stack)

/-- A stack whose heap holds the given chain and nothing else, from its top. -/
structure Piled (stack : Stack) (nodes : List (Nat × Int)) : Prop where
  only : HoldsOnly nodeLinks stack.heap nodes
  top : stack.top = headPtr nodes

/-- A new stack is piled up without nodes. -/
theorem piled_new : Piled new [] where
  only := HoldsOnly.empty
  top := rfl

/-- What is printed of the values on a stack. -/
def shown : List Int → List String
  | [] => ["Stack Empty!!"]
  | value :: rest => "TOP " :: toString value :: rest.map toString

section Piled

variable {stack : Stack} {nodes : List (Nat × Int)} (piled : Piled stack nodes)

include piled

/-- Putting a value on top piles up one more node, at the next address. -/
theorem push_piled (data : Int) :
    ∃ after, push stack data = .ok after ∧ Piled after ((stack.heap.next, data) :: nodes) ∧
      after.heap.next = stack.heap.next + 1 := by
  -- The new node is linked to the old top before it becomes the top itself.
  refine ⟨⟨some stack.heap.next, (stack.heap.alloc ⟨data, some (headPtr nodes)⟩).2⟩, ?_,
    ⟨piled.only.push rfl, rfl⟩, rfl⟩
  rw [push, piled.top, makeNode_eq, ok_bind]
  rfl

/-- Removing the value on top deletes its node and leaves the others piled up. -/
theorem pop_piled :
    ∃ after, pop stack =
        .ok ((valuesOf nodes).headD (-1), (addressesOf nodes).take 1, after) ∧
      Piled after nodes.tail ∧ after.heap.next = stack.heap.next := by
  -- The top node is read before it is deleted, and what is below it is the chain that is left.
  cases nodes with
  -- There is nothing to pop, and the result says so.
  | nil =>
    have noTop : stack.top = none := piled.top
    refine ⟨stack, ?_, piled, rfl⟩
    rw [pop, if_pos noTop]
    rfl
  | cons node rest =>
    obtain ⟨address, value⟩ := node
    have top : stack.top = some address := piled.top
    have someTop : stack.top ≠ none := by simp [top]
    have chained := piled.only.chained
    refine ⟨⟨headPtr rest, stack.heap.kill address⟩, ?_, ⟨piled.only.pop, rfl⟩, rfl⟩
    rw [pop, if_neg someTop, top, getLink_chained chained, ok_bind, getData_chained chained,
      ok_bind, free_chained chained, ok_bind]
    rfl

end Piled

/-- The loop of deleting deletes the nodes of the chain from the top on. -/
theorem destroyLoop_chained {heap : NodeHeap} {nodes : List (Nat × Int)}
    (only : HoldsOnly nodeLinks heap nodes) {fuel : Nat} (enough : nodes.length < fuel) :
    ∃ freed, destroyLoop heap fuel (headPtr nodes) = .ok (addressesOf nodes, freed) ∧
      HoldsOnly nodeLinks freed ([] : List (Nat × Int)) := by
  -- By induction on the chain, whose first node is deleted in each turn.
  induction nodes generalizing heap fuel with
  | nil =>
    refine ⟨heap, ?_, only⟩
    cases fuel <;> rfl
  | cons node rest ih =>
    obtain ⟨address, value⟩ := node
    cases fuel with
    | zero => exact absurd enough (Nat.not_lt_zero _)
    | succ fuel =>
      have chained := only.chained
      -- What is left is deleted in the remaining turns.
      obtain ⟨freed, done, nothing⟩ := ih only.pop (Nat.lt_of_succ_lt_succ enough)
      refine ⟨freed, ?_, nothing⟩
      rw [headPtr_cons, destroyLoop, getLink_chained chained, ok_bind, free_chained chained,
        ok_bind, done]
      rfl

/-- The loop of printing, below the top, prints the values of the chain, as far as an int can count
them. -/
theorem displayLoop_chained {heap : NodeHeap} {nodes : List (Nat × Int)}
    (chained : Chained nodeLinks heap nodes) {fuel : Nat} (enough : nodes.length < fuel) {i : Nat}
    (below : 0 < i) (counted : (i : Int) ≤ intMax) :
    displayLoop heap fuel (headPtr nodes) i =
      if (i + nodes.length : Int) ≤ intMax then .ok ((valuesOf nodes).map toString)
      else .error .overflow := by
  -- By induction on the chain, with the counter one further in each turn.
  induction nodes generalizing fuel i with
  | nil =>
    have none : ((i : Int) + ([] : List (Nat × Int)).length) ≤ intMax := by
      rw [List.length_nil]
      omega
    rw [if_pos none]
    cases fuel <;> rfl
  | cons node rest ih =>
    obtain ⟨address, value⟩ := node
    cases fuel with
    | zero => exact absurd enough (Nat.not_lt_zero _)
    | succ fuel =>
      have notTop : (i : Int) ≠ 0 := by omega
      rw [headPtr_cons, displayLoop, getData_chained chained, ok_bind, getLink_chained chained,
        ok_bind, if_neg notTop, List.length_cons]
      by_cases next : (i : Int) + 1 ≤ intMax
      · have checked : checkedInt ((i : Int) + 1) = .ok ((i + 1 : Nat) : Int) := by
          apply if_pos
          unfold intMax at next ⊢
          omega
        have room : ((i + 1 : Nat) : Int) ≤ intMax := by omega
        have sum : ((i + 1 : Nat) : Int) + (rest.length : Int) =
            (i : Int) + ((rest.length + 1 : Nat) : Int) := by omega
        rw [checked, ok_bind, ih chained.2 (Nat.lt_of_succ_lt_succ enough) (by omega) room, sum]
        -- The rest of the chain decides whether the counter stays in range.
        by_cases all : (i : Int) + ((rest.length + 1 : Nat) : Int) ≤ intMax
        · rw [if_pos all, if_pos all]
          rfl
        · rw [if_neg all, if_neg all]
          rfl
      · -- The counter overflows at this node already.
        have checked : checkedInt ((i : Int) + 1) = .error .overflow := by
          apply if_neg
          omega
        have beyond : ¬ ((i : Int) + ((rest.length + 1 : Nat) : Int) ≤ intMax) := by omega
        rw [checked, if_neg beyond]
        rfl

section Whole

variable {stack : Stack} {nodes : List (Nat × Int)} (piled : Piled stack nodes)

include piled

/-- A stack prints its values from the top, as far as an int can count them. -/
theorem display_piled :
    display stack = if (nodes.length : Int) ≤ intMax then .ok (shown (valuesOf nodes))
      else .error .overflow := by
  have bounded := chained_bounded piled.only.chained
  cases nodes with
  -- An empty stack prints a text of its own.
  | nil =>
    have noTop : stack.top = none := piled.top
    rw [display, if_pos noTop]
    rfl
  | cons node rest =>
    obtain ⟨address, value⟩ := node
    have top : stack.top = some address := piled.top
    have someTop : stack.top ≠ none := by simp [top]
    have chained := piled.only.chained
    have first : checkedInt (0 + 1) = .ok ((1 : Nat) : Int) := rfl
    -- Only at the first node is the counter zero.
    have loop := displayLoop_chained chained.2 (Nat.lt_of_succ_lt_succ bounded) (i := 1)
      (by omega) (by decide)
    have sum : ((rest.length + 1 : Nat) : Int) = ((1 : Nat) : Int) + (rest.length : Int) := by omega
    rw [loopBound] at bounded
    rw [display, if_neg someTop, top, loopBound, displayLoop, getData_chained chained, ok_bind,
      getLink_chained chained, ok_bind, first, ok_bind, loop, List.length_cons, sum]
    -- The length of the chain decides, as the loop counts every node.
    by_cases all : ((1 : Nat) : Int) + (rest.length : Int) ≤ intMax
    · rw [if_pos all, if_pos all]
      rfl
    · rw [if_neg all, if_neg all]
      rfl

/-- Deleting a stack deletes each of its nodes once, and nothing is left. -/
theorem destroy_piled :
    ∃ freed, destroy stack = .ok (addressesOf nodes, freed) ∧
      ∀ address, freed.cells address = none := by
  obtain ⟨freed, done, nothing⟩ :=
    destroyLoop_chained piled.only (chained_bounded piled.only.chained)
  rw [← piled.top] at done
  refine ⟨freed, done, fun address => ?_⟩
  -- A cell still live would be one of the chain, of which nothing is left.
  cases live : freed.cells address with
  | none => rfl
  | some cell => exact absurd (nothing.only address cell live) List.not_mem_nil

/-- Calls leave a stack that is piled up with the values they make; the nodes that they have deleted
and those that are left are the ones before and a new one for each value put on top. -/
theorem runCalls_piled (calls : List (Call Int)) :
    ∃ deleted after left, runCalls stack calls =
        .ok (results (-1) (valuesOf nodes) calls, deleted, after) ∧
      Piled after left ∧ valuesOf left = contentsAfter (valuesOf nodes) calls ∧
      (deleted ++ addressesOf left).Perm
        (addressesOf nodes ++ List.range' stack.heap.next (pushes calls)) := by
  -- By induction on the calls, from the stack that the first one leaves.
  induction calls generalizing stack nodes with
  | nil => exact ⟨[], stack, nodes, rfl, piled, rfl, by simp [pushes]⟩
  | cons call rest ih =>
    cases call with
    | push data =>
      obtain ⟨middle, done, piledMiddle, next⟩ := push_piled piled data
      obtain ⟨deleted, after, left, run, piledAfter, values, same⟩ := ih piledMiddle
      refine ⟨deleted, after, left, ?_, piledAfter, values, ?_⟩
      · rw [runCalls, done, ok_bind, run]
        rfl
      · -- The new address is the next one of the heap.
        rw [next, addressesOf_cons, List.cons_append] at same
        show List.Perm _ (addressesOf nodes ++
          stack.heap.next :: List.range' (stack.heap.next + 1) (pushes rest))
        exact same.trans List.perm_middle.symm
    | pop =>
      obtain ⟨middle, done, piledMiddle, next⟩ := pop_piled piled
      obtain ⟨deleted, after, left, run, piledAfter, values, same⟩ := ih piledMiddle
      have below : valuesOf nodes.tail = (valuesOf nodes).tail := List.map_tail
      refine ⟨(addressesOf nodes).take 1 ++ deleted, after, left, ?_, piledAfter, ?_, ?_⟩
      · rw [runCalls, done, ok_bind]
        show (runCalls middle rest >>= _) = _
        rw [run, below]
        rfl
      · rw [values, below]
        rfl
      · -- The node that is popped is the first that is deleted.
        have split : addressesOf nodes = (addressesOf nodes).take 1 ++ addressesOf nodes.tail := by
          cases nodes <;> rfl
        rw [next] at same
        rw [split, List.append_assoc, List.append_assoc]
        refine List.Perm.append ?_ same
        rw [← split]

end Whole

/-- A stack after calls on a new one: the removals have returned the values last in, first out, the
chain from the top is live, without a cycle, and holds the values left, and when the stack is
deleted every node that was ever made has been deleted once. -/
def LeftBy (calls : List (Call Int)) (stack : Stack) : Prop :=
  ∃ deleted nodes destroyed freed,
    runCalls new calls = .ok (results (-1) [] calls, deleted, stack) ∧
    Chained nodeLinks stack.heap nodes ∧ stack.top = headPtr nodes ∧ (addressesOf nodes).Nodup ∧
    valuesOf nodes = contentsAfter [] calls ∧ destroy stack = .ok (destroyed, freed) ∧
    (deleted ++ destroyed).Perm (List.range (pushes calls)) ∧
    ∀ address, freed.cells address = none

/-- Calls on a new stack behave last in, first out, and what they leave is printed from the value
last put on top to the first. -/
def IsLifo (calls : List (Call Int)) : Prop :=
  ∃ stack, LeftBy calls stack ∧ display stack = .ok (shown (contentsAfter [] calls))

/-- Calls leave a stack as they should, and it is printed as far as an int can count its nodes. -/
theorem runCalls_leftBy (calls : List (Call Int)) :
    ∃ stack, LeftBy calls stack ∧
      display stack = if ((contentsAfter [] calls).length : Int) ≤ intMax
        then .ok (shown (contentsAfter [] calls)) else .error .overflow := by
  -- What is on the stack after the calls is freed in the end.
  -- The destructor frees what the calls have left.
  obtain ⟨deleted, stack, nodes, run, piled, values, same⟩ := runCalls_piled piled_new calls
  obtain ⟨freed, done, dead⟩ := destroy_piled piled
  rw [valuesOf_nil] at run values
  rw [addressesOf_nil, List.nil_append] at same
  have all : List.range' new.heap.next (pushes calls) = List.range (pushes calls) :=
    (List.range_eq_range' ..).symm
  rw [all] at same
  refine ⟨stack, ⟨deleted, nodes, addressesOf nodes, freed, run, piled.only.chained, piled.top,
    piled.only.chained.nodup, values, done, same, dead⟩, ?_⟩
  rw [display_piled piled, ← values, length_valuesOf]

/-- Calls leave one stack only. -/
theorem LeftBy.unique {calls : List (Call Int)} {first second : Stack} (one : LeftBy calls first)
    (two : LeftBy calls second) : first = second := by
  obtain ⟨_, _, _, _, run, _⟩ := one
  obtain ⟨_, _, _, _, run', _⟩ := two
  rw [run] at run'
  cases run'
  rfl

/-- Calls whose values an int cannot count leave a stack that is not printed. -/
theorem not_isLifo {calls : List (Call Int)}
    (many : intMax < ((contentsAfter [] calls).length : Int)) : ¬ IsLifo calls := by
  intro ⟨stack, left, printed⟩
  obtain ⟨stack', left', display'⟩ := runCalls_leftBy calls
  have beyond : ¬ ((contentsAfter [] calls).length : Int) ≤ intMax := by omega
  rw [if_neg beyond, ← left.unique left', printed] at display'
  cases display'

/-- On every sequence of calls a stack is last in, first out, with each node deleted once, and it is
printed from the last value to the first if and only if an int can count its nodes. -/
theorem isLifo_iff (calls : List (Call Int)) :
    (∃ stack, LeftBy calls stack) ∧
      (IsLifo calls ↔ ((contentsAfter [] calls).length : Int) ≤ intMax) := by
  obtain ⟨stack, left, printed⟩ := runCalls_leftBy calls
  refine ⟨⟨stack, left⟩, fun lifo => ?_, fun few => ⟨stack, left, ?_⟩⟩
  · -- A stack that is too high is not displayed at all.
    by_contra many
    exact not_isLifo (by omega) lifo
  · rw [printed, if_pos few]

/-- With one value more than an int can count, printing goes wrong. -/
theorem not_isLifo_many : ¬ IsLifo ((List.replicate 2147483648 0).map Call.push) := by
  apply not_isLifo
  rw [contentsAfter_pushes, List.append_nil, List.length_reverse, List.length_replicate]
  decide

end Stack

end SecretTyping.Lists
