import SecretTyping.Lists.Sequence

/-! The nodes of the benchmark linked list from their allocation to their deletion. -/

namespace SecretTyping.Lists

open Memory

/-- The loop that deletes the nodes of a list, with the addresses it deletes, in this order. -/
def deleteLoop (list : LinkedList) : Nat → Ptr → Except Fault (List Nat × LinkedList)
  | _, none => .ok ([], list)
  | 0, some _ => .error .endless
  | fuel + 1, some temp => do
    -- The link is read through the head, which is the node about to be deleted.
    let head ← getLink list.heap list.head
    let heap ← list.heap.free (some temp)
    let length ← checkedInt (list.length - 1)
    let (deleted, list) ← deleteLoop { list with head, length, heap } fuel head
    return (temp :: deleted, list)

/-- Delete a list. -/
def LinkedList.delete (list : LinkedList) : Except Fault (List Nat × LinkedList) :=
  deleteLoop list (loopBound list.heap) list.head

/-- The loop of deleting a list deletes the nodes of its chain from first to last. -/
theorem deleteLoop_holds {list : LinkedList} {nodes : List (Nat × Int)} (holds : Holds list nodes)
    {fuel : Nat} (enough : nodes.length < fuel) :
    ∃ after, deleteLoop list fuel (headPtr nodes) = .ok (addressesOf nodes, after) ∧
      Holds after [] := by
  -- By induction on the chain; without its first node the list holds the rest of it.
  induction nodes generalizing list fuel with
  | nil =>
    refine ⟨list, ?_, holds⟩
    cases fuel <;> rfl
  | cons node rest ih =>
    obtain ⟨address, value⟩ := node
    cases fuel with
    | zero => exact absurd enough (Nat.not_lt_zero _)
    | succ fuel =>
      have chained := holds.only.chained
      have head : list.head = some address := holds.head
      have counted := holds.length
      have room := holds.room
      rw [List.length_cons] at counted room
      have shorter : list.length - 1 = (rest.length : Int) := by omega
      have room : (rest.length : Int) ≤ intMax := by omega
      have fits : checkedInt (list.length - 1) = .ok (list.length - 1) := by
        apply if_pos
        unfold intMax at room ⊢
        omega
      have popped : Holds { list with
          head := headPtr rest, length := list.length - 1, heap := list.heap.kill address } rest :=
        ⟨holds.only.pop, rfl, shorter, room⟩
      obtain ⟨after, done, nothing⟩ := ih popped (Nat.lt_of_succ_lt_succ enough)
      refine ⟨after, ?_, nothing⟩
      rw [headPtr_cons, deleteLoop, head, getLink_chained chained, ok_bind, free_chained chained,
        ok_bind, fits, ok_bind, done]
      rfl

/-- Deleting a list deletes the nodes of its chain once each, with no length and no node left. -/
theorem delete_holds {list : LinkedList} {nodes : List (Nat × Int)} (holds : Holds list nodes) :
    ∃ after, list.delete = .ok (addressesOf nodes, after) ∧ after.head = none ∧
      after.length = 0 ∧ ∀ address, after.heap.cells address = none := by
  obtain ⟨after, done, nothing⟩ := deleteLoop_holds holds (chained_bounded holds.only.chained)
  rw [← holds.head] at done
  refine ⟨after, done, nothing.head, nothing.length, fun address => ?_⟩
  -- A cell still live would be one of the chain, of which nothing is left.
  cases live : after.heap.cells address with
  | none => rfl
  | some cell => exact absurd (nothing.only.only address cell live) List.not_mem_nil

/-- Whichever calls have completed on a new list, the chain from its head ends at null and has no
cycle, the live nodes are those of the chain, and the length is their number; deleting the list
then deletes each of them once, and its length ends at zero. -/
theorem runOperations_deletes {operations : List Operation} {list : LinkedList}
    (run : runOperations .new operations = .ok list) :
    ∃ nodes, Chained nodeLinks list.heap nodes ∧ list.head = headPtr nodes ∧
      (addressesOf nodes).Nodup ∧
      (∀ address, (∃ node, list.heap.cells address = some node) ↔ address ∈ addressesOf nodes) ∧
      list.length = nodes.length ∧
      ∃ after, list.delete = .ok (addressesOf nodes, after) ∧ after.length = 0 ∧
        ∀ address, after.heap.cells address = none := by
  -- The chain holds all live nodes, and deleting follows it.
  obtain ⟨nodes, holds⟩ := runOperations_holds holds_new run
  have chained := holds.only.chained
  have reachable : ∀ address, (∃ node, list.heap.cells address = some node) ↔
      address ∈ addressesOf nodes := by
    intro address
    constructor
    · intro ⟨node, live⟩
      exact holds.only.only address node live
    · exact chained.live
  obtain ⟨after, done, -, length, dead⟩ := delete_holds holds
  exact ⟨nodes, chained, holds.head, chained.nodup, reachable, holds.length, after, done, length,
    dead⟩

/-- After calls that grow a list at both ends and in between, and shrink it again, it is deleted
with a length of zero. -/
theorem runOperations_deletes_five :
    ∃ list, runOperations .new
        [.append 2, .prepend 1, .insertAfter 1 5, .insertAtIndex 1 7, .removeTail] = .ok list ∧
      ∃ deleted after, list.delete = .ok (deleted, after) ∧ after.length = 0 := by
  obtain ⟨list, run⟩ : ∃ list, runOperations .new
      [.append 2, .prepend 1, .insertAfter 1 5, .insertAtIndex 1 7, .removeTail] = .ok list :=
    ⟨_, rfl⟩
  obtain ⟨nodes, -, -, -, -, -, after, done, length, -⟩ := runOperations_deletes run
  exact ⟨list, run, addressesOf nodes, after, done, length⟩

end SecretTyping.Lists
