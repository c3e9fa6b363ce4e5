import SecretTyping.Lists.Queue

/-! The queue of the multi-threaded suite keeps its rear when it is emptied. -/

namespace SecretTyping.Lists

open Memory Fifo

/-- After calls on an empty queue of the multi-threaded suite the removals have returned what those
of a queue return, the chain from the front is live and ends at null, and the queue can be printed
and deleted. -/
def Sound (calls : List (Call Int)) : Prop :=
  ∃ queue nodes, runCalls MultiThreaded.del .new calls = .ok (results (-1) [] calls, queue) ∧
    Chained nodeLinks queue.heap nodes ∧ queue.front = headPtr nodes ∧
    -- A deleted node that is read or written is a fault.
    (∃ lines, display queue = .ok lines) ∧ ∃ freed, destroy queue = .ok freed

/-- Calls refill a queue when they add to it after they have added and removed everything. -/
def Refills (calls : List (Call Int)) : Prop :=
  ∃ before value, before ++ [Call.add value] <+: calls ∧ contentsAfter [] before = [] ∧
    ∃ earlier, Call.add earlier ∈ before

/-- A queue after calls that do not refill it: it is lined up with its values, and once it has had a
node, its rear leads to a node even when it is empty. -/
structure Stale (calls : List (Call Int)) (queue : Queue) (nodes : List (Nat × Int)) : Prop where
  lined : Lined queue nodes
  values : valuesOf nodes = contentsAfter [] calls
  unused : (∀ value, Call.add value ∉ calls) → queue.rear = none
  used : ∀ value, Call.add value ∈ calls → nodes = [] →
    ∃ address, queue.rear = some address ∧ address < queue.heap.next

/-- Without a refill, every call goes well. -/
theorem runCalls_stale {calls : List (Call Int)} (once : ¬ Refills calls) :
    ∃ queue nodes, runCalls MultiThreaded.del .new calls = .ok (results (-1) [] calls, queue) ∧
      Stale calls queue nodes := by
  -- By induction on the calls, the last one first.
  induction calls using List.reverseRecOn with
  | nil => exact ⟨.new, [], rfl, lined_new, rfl, fun _ => rfl, fun _ member => by simp at member⟩
  | append_singleton calls call ih =>
    have before : ¬ Refills calls := by
      intro ⟨first, value, within, empty, earlier⟩
      exact once ⟨first, value, within.trans (List.prefix_append _ _), empty, earlier⟩
    obtain ⟨queue, nodes, run, stale⟩ := ih before
    rw [runCalls_concat, run, ok_bind, results_concat, ← stale.values]
    cases call with
    | add initData =>
      obtain ⟨after, done, linedAfter⟩ : ∃ after, add queue initData = .ok after ∧
          Lined after (nodes ++ [(queue.heap.next, initData)]) := by
        by_cases empty : nodes = []
        · -- This is the first addition of all, so that there is no rear yet.
          have noRear : queue.rear = none := stale.unused fun earlier member =>
            once ⟨calls, initData, List.prefix_rfl, by rw [← stale.values, empty]; rfl,
              earlier, member⟩
          subst empty
          exact add_first stale.lined rfl noRear initData
        · exact add_behind stale.lined empty initData
      refine ⟨after, _, ?_, linedAfter, ?_, fun none => absurd (none initData) (by simp),
        fun _ _ empty => by simp at empty⟩
      · show (add queue initData >>= _) >>= _ = _
        rw [done]
        rfl
      · simp [afterCall, ← stale.values]
    | del =>
      obtain ⟨after, done, linedAfter, sameNext, rearAfter⟩ := del_lined stale.lined false
      have sameRear : after.rear = queue.rear := rearAfter
      refine ⟨after, nodes.tail, ?_, linedAfter, ?_, fun none => ?_, fun value member empty => ?_⟩
      · show (delWith false queue >>= _) >>= _ = _
        rw [done]
        rfl
      · rw [contentsAfter_concat, ← stale.values]
        exact List.map_tail
      · rw [sameRear]
        exact stale.unused fun value member => none value (by simp [member])
      · rw [sameRear, sameNext]
        have earlier : Call.add value ∈ calls := by simpa using member
        by_cases gone : nodes = []
        · exact stale.used value earlier gone
        · -- The last node has just been removed, and the rear still leads to it.
          obtain ⟨⟨address, held⟩, split⟩ : ∃ node, nodes = [node] := by
            cases nodes with
            | nil => exact absurd rfl gone
            | cons node rest => exact ⟨node, by rw [← empty, List.tail_cons]⟩
          refine ⟨address, ?_, ?_⟩
          · rw [stale.lined.rear gone, split]
            rfl
          · exact stale.lined.only.chained.lt_next (by simp [split])

/-- A refill links the new front to a deleted node. -/
theorem not_sound_refill {calls : List (Call Int)} (once : ¬ Refills calls) {value : Int}
    (empty : contentsAfter [] calls = []) {earlier : Int} (member : Call.add earlier ∈ calls) :
    ¬ Sound (calls ++ [.add value]) := by
  obtain ⟨queue, nodes, run, stale⟩ := runCalls_stale once
  have gone : nodes = [] := List.map_eq_nil_iff.mp (stale.values.trans empty)
  subst gone
  obtain ⟨address, rear, old⟩ := stale.used earlier member rfl
  have noFront : queue.front = none := stale.lined.front
  have added : runCalls MultiThreaded.del queue [.add value] = .ok ([], ⟨some queue.heap.next,
      some queue.heap.next, (queue.heap.alloc ⟨value, some (some address)⟩).2⟩) := by
    show (add queue value >>= _) = _
    rw [add, if_pos noFront, makeNode_eq, rear]
    rfl
  rintro ⟨after, line, again, chained, front, -⟩
  rw [runCalls_concat, run, ok_bind] at again
  replace again : (runCalls MultiThreaded.del queue [.add value] >>= _) = _ := again
  rw [added] at again
  have same := congrArg Prod.snd (Except.ok.inj again)
  subst same
  -- The chain from the front would go on at the rear, which is dead.
  cases line with
  | nil => cases front
  | cons node rest =>
    obtain ⟨own, held⟩ := node
    cases front
    have cell := (Heap.alloc_same queue.heap ⟨value, some (some address)⟩).symm.trans
      (cells_chained chained)
    have next : some address = headPtr rest := by
      simpa using congrArg Node.link (Option.some.inj cell)
    cases rest with
    | nil => cases next
    | cons second rest =>
      obtain ⟨target, targetValue⟩ := second
      cases next
      have live := cells_chained chained.2
      rw [Heap.alloc_other queue.heap old.ne] at live
      exact absurd (stale.lined.only.only _ _ live) (by simp)

/-- The queue of the multi-threaded suite is first in, first out and touches no deleted node in
every state of a run exactly when the run does not add to the queue after having emptied it. -/
theorem sound_iff (calls : List (Call Int)) :
    (∀ before, before <+: calls → Sound before) ↔ ¬ Refills calls := by
  constructor
  · -- By induction on the calls: the first refill would be the last of the calls.
    induction calls using List.reverseRecOn with
    | nil =>
      rintro - ⟨before, value, within, -⟩
      simp at within
    | append_singleton calls call ih =>
      intro sound refills
      have once := ih fun before within => sound before (within.trans (List.prefix_append _ _))
      obtain ⟨before, value, within, empty, earlier, member⟩ := refills
      rcases List.prefix_concat_iff.mp within with whole | inside
      · obtain ⟨same, last⟩ := List.append_inj' whole rfl
        subst same
        cases last
        exact not_sound_refill once empty member (sound _ List.prefix_rfl)
      · exact once ⟨before, value, inside, empty, earlier, member⟩
  · intro once before within
    have onceBefore : ¬ Refills before := by
      intro ⟨first, value, inside, rest⟩
      exact once ⟨first, value, inside.trans within, rest⟩
    obtain ⟨queue, nodes, run, stale⟩ := runCalls_stale onceBefore
    obtain ⟨freed, deleted, -⟩ := destroy_lined stale.lined
    exact ⟨queue, nodes, run, stale.lined.only.chained, stale.lined.front,
      ⟨_, display_lined stale.lined⟩, freed, deleted⟩

/-- Adding, removing and adding again leaves a queue whose printing reads a deleted node. -/
theorem not_sound_refilled : ¬ Sound [.add 1, .del, .add 2] := by
  rintro ⟨queue, nodes, run, -, -, ⟨lines, shown⟩, -⟩
  have fault : (runCalls MultiThreaded.del .new [.add 1, .del, .add 2] >>= fun after =>
      display after.2) = .error .deadAccess := rfl
  rw [run, ok_bind, shown] at fault
  cases fault

end SecretTyping.Lists
