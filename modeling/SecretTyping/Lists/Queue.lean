import SecretTyping.Lists.Node
import SecretTyping.Lib.Fifo

/-! The queues of the two suites, on an explicit heap of their nodes. -/

namespace SecretTyping.Lists

open Memory Fifo

/-- A queue: its front, its rear and the heap of its nodes. -/
structure Queue where
  front : Ptr
  rear : Ptr
  heap : NodeHeap

/-- A queue as its constructor leaves it. -/
def Queue.new : Queue := ⟨none, none, Heap.empty⟩

/-- Add a value at the rear. -/
def add (queue : Queue) (initData : Int) : Except Fault Queue := do
  if queue.front = none then
    -- The first node is linked to the rear, which is meant to be null then.
    let (front, heap) ← makeNode queue.heap initData queue.rear
    return ⟨front, front, heap⟩
  else
    let (newNode, heap) := queue.heap.alloc (.new initData)
    let heap ← setLink heap queue.rear (some newNode)
    let heap ← setLink heap (some newNode) none
    return ⟨queue.front, some newNode, heap⟩

/-- Remove the value at the front; the suites differ in whether an emptied queue loses its rear. -/
def delWith (losesRear : Bool) (queue : Queue) : Except Fault (Int × Queue) := do
  if queue.front = none then return (-1, queue)
  else
    let front ← getLink queue.heap queue.front
    let data ← getData queue.heap queue.front
    let heap ← queue.heap.free queue.front
    let rear := if losesRear ∧ front = none then none else queue.rear
    return (data, ⟨front, rear, heap⟩)

/-- Remove the value at the front, in the benchmark. -/
def Exprs.del : Queue → Except Fault (Int × Queue) := delWith true

/-- Remove the value at the front, in the multi-threaded suite. -/
def MultiThreaded.del : Queue → Except Fault (Int × Queue) := delWith false

/-- The loop that prints the nodes of a queue, line by line. -/
def displayLoop (heap : NodeHeap) (front : Ptr) : Nat → Ptr → Except Fault (List String)
  | _, none => .ok []
  | 0, some _ => .error .endless
  | fuel + 1, some temp => do
    let title := if some temp = front then ["FRONT "] else []
    let data ← getData heap (some temp)
    let rest ← displayLoop heap front fuel (← getLink heap (some temp))
    return title ++ toString data :: rest

/-- Print a queue from front to rear. -/
def display (queue : Queue) : Except Fault (List String) :=
  displayLoop queue.heap queue.front (loopBound queue.heap) queue.front

/-- The loop that deletes the nodes of a queue. -/
def destroyLoop (heap : NodeHeap) : Nat → Ptr → Except Fault NodeHeap
  | _, none => .ok heap
  | 0, some _ => .error .endless
  | fuel + 1, some temp => do
    let front ← getLink heap (some temp)
    let _data ← getData heap (some temp)
    destroyLoop (← heap.free (some temp)) fuel front

/-- Delete a queue; what is left is the heap. -/
def destroy (queue : Queue) : Except Fault NodeHeap :=
  destroyLoop queue.heap (loopBound queue.heap) queue.front

/-- Carry out calls one after another; the result lists what the removals return. -/
def runCalls (del : Queue → Except Fault (Int × Queue)) (queue : Queue) :
    List (Call Int) → Except Fault (List Int × Queue)
  | [] => .ok ([], queue)
  | .add initData :: rest => do runCalls del (← add queue initData) rest
  | .del :: rest => do
    let (data, queue) ← del queue
    let (results, queue) ← runCalls del queue rest
    return (data :: results, queue)

/-- The pointer to the last node of a chain. -/
def lastPtr (nodes : List (Nat × Int)) : Ptr := (nodes.getLast?).map Prod.fst

/-- A queue whose heap holds the given chain and nothing else, from its front to its rear; on the
rear of an empty queue nothing depends. -/
structure Lined (queue : Queue) (nodes : List (Nat × Int)) : Prop where
  only : HoldsOnly nodeLinks queue.heap nodes
  front : queue.front = headPtr nodes
  rear : nodes ≠ [] → queue.rear = lastPtr nodes

/-- A new queue is lined up without nodes. -/
theorem lined_new : Lined .new [] where
  only := HoldsOnly.empty
  front := rfl
  rear some := absurd rfl some

/-- One more call after a run. -/
theorem runCalls_concat (del : Queue → Except Fault (Int × Queue)) (queue : Queue)
    (calls : List (Call Int)) (call : Call Int) :
    runCalls del queue (calls ++ [call]) = do
      let (results, middle) ← runCalls del queue calls
      let (last, after) ← runCalls del middle [call]
      return (results ++ last, after) := by
  -- By induction on the calls before it, of which any may fail.
  induction calls generalizing queue with
  | nil =>
    show runCalls del queue [call] = (runCalls del queue [call] >>= _)
    cases runCalls del queue [call] <;> rfl
  | cons first rest ih =>
    cases first with
    | add initData =>
      simp only [List.cons_append, runCalls]
      -- Where the call goes wrong, so do both runs.
      cases add queue initData with
      | error fault => rfl
      | ok middle => exact ih middle
    | del =>
      simp only [List.cons_append, runCalls]
      cases del queue with
      | error fault => rfl
      | ok step =>
        simp only [ok_bind, ih]
        -- The rest may go wrong as well.
        cases runCalls del step.2 rest with
        | error fault => rfl
        | ok done =>
          show (runCalls del done.2 [call] >>= fun last => pure (done.1 ++ last.1, last.2)) >>=
            (fun all => pure (step.1 :: all.1, all.2)) =
              runCalls del done.2 [call] >>= fun last => pure (step.1 :: done.1 ++ last.1, last.2)
          cases runCalls del done.2 [call] <;> rfl

section Calls

variable {queue : Queue} {nodes : List (Nat × Int)} (lined : Lined queue nodes)

include lined

/-- Adding to an empty queue without a rear lines up one node. -/
theorem add_first (empty : nodes = []) (noRear : queue.rear = none) (initData : Int) :
    ∃ after, add queue initData = .ok after ∧ Lined after [(queue.heap.next, initData)] := by
  -- The new node becomes both the front and the rear.
  subst empty
  have noFront : queue.front = none := lined.front
  refine ⟨⟨some queue.heap.next, some queue.heap.next,
    (queue.heap.alloc ⟨initData, some none⟩).2⟩, ?_, lined.only.push rfl, rfl, fun _ => rfl⟩
  rw [add, if_pos noFront, makeNode_eq, noRear]
  rfl

/-- Adding to a queue that is not empty lines up one more node. -/
theorem add_behind (more : nodes ≠ []) (initData : Int) :
    ∃ after, add queue initData = .ok after ∧
      Lined after (nodes ++ [(queue.heap.next, initData)]) := by
  -- The rear is the last node of the chain, and the new node is linked in behind it.
  rcases List.eq_nil_or_concat nodes with empty | ⟨before, last, split⟩
  · exact absurd empty more
  · obtain ⟨address, value⟩ := last
    rw [List.concat_eq_append] at split
    subst split
    have someFront : queue.front ≠ none := by simp [lined.front, headPtr_eq_none]
    have rear : queue.rear = some address := by
      rw [lined.rear more, lastPtr, List.getLast?_append_cons]
      rfl
    have chained : Chained nodeLinks queue.heap [(address, value)] := lined.only.chained.suffix
    have linked := splice_late chained initData
    refine ⟨⟨queue.front, some queue.heap.next, splice queue.heap address value initData none⟩, ?_,
      ?_, ?_, fun _ => by simp [lastPtr]⟩
    · -- The rear node is linked to the new one, which is the rear from then on.
      rw [add, if_neg someFront, rear]
      show (setLink (queue.heap.alloc (.new initData)).2 (some address) (some queue.heap.next) >>=
        fun heap => setLink heap (some queue.heap.next) none >>= fun heap =>
          pure (⟨queue.front, some queue.heap.next, heap⟩ : Queue)) = _
      rw [← bind_assoc, linked]
      rfl
    · simpa using splice_only lined.only initData
    · rw [lined.front]
      cases before <;> rfl

/-- Removing the front node leaves the others lined up, and the rear is lost where the suite says
so. -/
theorem del_lined (losesRear : Bool) :
    ∃ after, delWith losesRear queue = .ok ((valuesOf nodes).headD (-1), after) ∧
      Lined after nodes.tail ∧ after.heap.next = queue.heap.next ∧
      after.rear = if losesRear ∧ nodes ≠ [] ∧ nodes.tail = [] then none else queue.rear := by
  -- The front node is read before it is deleted, and what is behind it is the chain that is left.
  cases nodes with
  | nil =>
    -- There is nothing to remove, and the result says so.
    have noFront : queue.front = none := lined.front
    refine ⟨queue, ?_, lined, rfl, ?_⟩
    · rw [delWith, if_pos noFront]
      rfl
    · rw [if_neg (by simp)]
  | cons node rest =>
    obtain ⟨address, value⟩ := node
    have front : queue.front = some address := lined.front
    have someFront : queue.front ≠ none := by simp [front]
    have chained := lined.only.chained
    have rear : queue.rear = lastPtr ((address, value) :: rest) := lined.rear (by simp)
    -- The rear is lost if that was the only node.
    have rear' : (if losesRear ∧ headPtr rest = none then none else queue.rear) =
        if losesRear ∧ rest = [] then none else queue.rear := by
      simp only [headPtr_eq_none]
    refine ⟨⟨headPtr rest, if losesRear ∧ rest = [] then none else queue.rear,
      queue.heap.kill address⟩, ?_, ⟨lined.only.pop, rfl, fun some => ?_⟩, rfl,
      by simp⟩
    · rw [delWith, if_neg someFront, front, getLink_chained chained, ok_bind,
        getData_chained chained, ok_bind, free_chained chained, ok_bind, rear']
      rfl
    · -- The last node of the rest is the last one of all.
      have kept : rest ≠ [] := some
      rw [if_neg (fun both => kept both.2), rear, lastPtr, lastPtr, List.tail_cons,
        List.getLast?_cons_of_ne_nil kept]

end Calls

/-- What is printed of the values of a queue. -/
def printed : List Int → List String
  | [] => []
  | value :: rest => "FRONT " :: toString value :: rest.map toString

/-- Behind the front, the loop of printing prints the values of the chain. -/
theorem displayLoop_chained {heap : NodeHeap} {nodes : List (Nat × Int)}
    (chained : Chained nodeLinks heap nodes) {front : Nat} (behind : front ∉ addressesOf nodes)
    {fuel : Nat} (enough : nodes.length < fuel) :
    displayLoop heap (some front) fuel (headPtr nodes) = .ok ((valuesOf nodes).map toString) := by
  -- By induction on the chain, no node of which is the front.
  induction nodes generalizing fuel with
  | nil => cases fuel <;> rfl
  | cons node rest ih =>
    obtain ⟨address, value⟩ := node
    cases fuel with
    | zero => exact absurd enough (Nat.not_lt_zero _)
    | succ fuel =>
      rw [addressesOf_cons, List.mem_cons, not_or] at behind
      have other : (some address : Ptr) ≠ some front := fun same =>
        behind.1 (Option.some.inj same).symm
      rw [headPtr_cons, displayLoop, getData_chained chained, ok_bind, getLink_chained chained,
        ok_bind, ih chained.2 behind.2 (Nat.lt_of_succ_lt_succ enough), ok_bind, if_neg other]
      rfl

/-- The loop of deleting leaves a heap without the nodes of the chain. -/
theorem destroyLoop_chained {heap : NodeHeap} {nodes : List (Nat × Int)}
    (only : HoldsOnly nodeLinks heap nodes) {fuel : Nat} (enough : nodes.length < fuel) :
    ∃ freed, destroyLoop heap fuel (headPtr nodes) = .ok freed ∧
      HoldsOnly nodeLinks freed ([] : List (Nat × Int)) := by
  -- By induction on the chain, whose first node is deleted in each turn.
  induction nodes generalizing heap fuel with
  | nil => exact ⟨heap, by cases fuel <;> rfl, only⟩
  | cons node rest ih =>
    obtain ⟨address, value⟩ := node
    cases fuel with
    | zero => exact absurd enough (Nat.not_lt_zero _)
    | succ fuel =>
      have chained := only.chained
      -- What is left is deleted in the remaining turns.
      obtain ⟨freed, done, nothing⟩ := ih only.pop (Nat.lt_of_succ_lt_succ enough)
      refine ⟨freed, ?_, nothing⟩
      rw [headPtr_cons, destroyLoop, getLink_chained chained, ok_bind, getData_chained chained,
        ok_bind, free_chained chained, ok_bind, done]

section Lined

variable {queue : Queue} {nodes : List (Nat × Int)} (lined : Lined queue nodes)

include lined

/-- A queue prints its values from front to rear. -/
theorem display_lined : display queue = .ok (printed (valuesOf nodes)) := by
  have bounded := chained_bounded lined.only.chained
  have distinct := lined.only.chained.nodup
  rw [display, lined.front]
  cases nodes with
  | nil => rfl
  | cons node rest =>
    obtain ⟨address, value⟩ := node
    have chained := lined.only.chained
    -- The front is none of the nodes behind it.
    rw [addressesOf_cons, List.nodup_cons] at distinct
    -- Only the first node is the front.
    have loop := displayLoop_chained chained.2 distinct.1 (Nat.lt_of_succ_lt_succ bounded)
    rw [loopBound] at bounded ⊢
    rw [headPtr_cons, displayLoop, getData_chained chained, ok_bind, getLink_chained chained,
      ok_bind, loop, ok_bind, if_pos rfl]
    rfl

/-- Deleting a queue deletes every node once: afterwards no node is live, and deleting one again
would have been a fault. -/
theorem destroy_lined : ∃ freed, destroy queue = .ok freed ∧ ∀ a, freed.cells a = none := by
  -- The nodes of the queue are all that is in the heap.
  obtain ⟨freed, done, nothing⟩ :=
    destroyLoop_chained lined.only (chained_bounded lined.only.chained)
  rw [← lined.front] at done
  refine ⟨freed, done, fun a => ?_⟩
  cases live : freed.cells a with
  | none => rfl
  | some cell => exact absurd (nothing.only a cell live) (by simp)

end Lined

/-- Calls on an empty queue of the benchmark leave a queue that is lined up, and a rear only where
there is a node. -/
theorem runCalls_lined (calls : List (Call Int)) :
    ∃ queue nodes, runCalls Exprs.del .new calls = .ok (results (-1) [] calls, queue) ∧
      Lined queue nodes ∧ queue.rear = lastPtr nodes ∧ valuesOf nodes = contentsAfter [] calls := by
  -- By induction on the calls, the last one first.
  induction calls using List.reverseRecOn with
  | nil => exact ⟨.new, [], rfl, lined_new, rfl, rfl⟩
  | append_singleton calls call ih =>
    obtain ⟨queue, nodes, run, lined, rear, values⟩ := ih
    rw [runCalls_concat, run, ok_bind, results_concat, contentsAfter_concat, ← values]
    cases call with
    | add initData =>
      obtain ⟨after, done, linedAfter⟩ : ∃ after, add queue initData = .ok after ∧
          Lined after (nodes ++ [(queue.heap.next, initData)]) := by
        -- The first node is the front as well, and any other is linked in at the rear.
        by_cases empty : nodes = []
        · have noRear : queue.rear = none := by
            rw [rear, empty]
            rfl
          subst empty
          exact add_first lined rfl noRear initData
        · exact add_behind lined empty initData
      refine ⟨after, _, ?_, linedAfter, linedAfter.rear (by simp), by simp [afterCall]⟩
      show (add queue initData >>= _) >>= _ = _
      rw [done]
      rfl
    | del =>
      obtain ⟨after, done, linedAfter, -, rearAfter⟩ := del_lined lined true
      refine ⟨after, nodes.tail, ?_, linedAfter, ?_, List.map_tail⟩
      · show (delWith true queue >>= _) >>= _ = _
        rw [done]
        rfl
      · -- The rear is lost exactly when the last node is removed.
        by_cases more : nodes.tail = []
        · rw [rearAfter, more]
          by_cases some : nodes = []
          · rw [if_neg (by simp [some]), rear, some]
          · rw [if_pos ⟨rfl, some, rfl⟩]
            rfl
        · exact linedAfter.rear more

/-- A queue of the benchmark is first in, first out: on every sequence of calls, the removals return
what those of a queue return, front and rear are null together, the chain from the front is live,
without a cycle, with the values of the queue, and ends at the rear, and deleting the queue deletes
each node once. -/
theorem runCalls_fifo (calls : List (Call Int)) :
    ∃ queue nodes, runCalls Exprs.del .new calls = .ok (results (-1) [] calls, queue) ∧
      (queue.front = none ↔ queue.rear = none) ∧ queue.front = headPtr nodes ∧
      queue.rear = lastPtr nodes ∧ Chained nodeLinks queue.heap nodes ∧
      (addressesOf nodes).Nodup ∧ valuesOf nodes = contentsAfter [] calls ∧
      ∃ freed, destroy queue = .ok freed ∧ ∀ a, freed.cells a = none := by
  obtain ⟨queue, nodes, run, lined, rear, values⟩ := runCalls_lined calls
  refine ⟨queue, nodes, run, ?_, lined.front, rear, lined.only.chained, lined.only.chained.nodup,
    values, destroy_lined lined⟩
  -- Both are null on the empty chain only.
  rw [lined.front, rear, lastPtr, headPtr_eq_none, Option.map_eq_none_iff,
    List.getLast?_eq_none_iff]

end SecretTyping.Lists
