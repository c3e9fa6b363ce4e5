import Mathlib.Algebra.GroupWithZero.Nat
import Mathlib.Algebra.Order.BigOperators.Group.List
import Mathlib.Algebra.Order.Ring.Nat
import SecretTyping.Lib.Heap
import SecretTyping.Lib.Sections

/-! The numbers of operations that the lock-based tests add up, in counters of fixed width. -/

namespace SecretTyping.Bench

open Sections

/-- The tests that count operations in a local counter and add it to a shared one. -/
inductive CountingTest where
  | arrayTest
  | stackTest
  | queueTest
  | linkedListTest
  deriving DecidableEq

/-- The declared width of the counter of a test: an int, but for the test of the stacks. -/
def CountingTest.opsBits : CountingTest → Nat
  | .arrayTest => 32
  | .stackTest => 64
  | .queueTest => 32
  | .linkedListTest => 32

/-- The declared width of the shared counters. -/
def totalBits : Nat := 64

/-- The result of signed arithmetic of a width, which the language leaves undefined out of range. -/
def checkedBits (bits : Nat) (value : Int) : Except Memory.Fault Int :=
  if -2 ^ (bits - 1) ≤ value ∧ value < 2 ^ (bits - 1) then .ok value else .error .overflow

/-- The local counter after a number of iterations of the loop. -/
def countIterations (bits : Nat) : Nat → Except Memory.Fault Int
  | 0 => .ok 0
  | iterations + 1 => do checkedBits bits ((← countIterations bits iterations) + 1)

/-- The shared counters. -/
inductive Total where
  | ops0
  | ops1
  deriving DecidableEq

/-- The shared counter of a node. -/
def totalOf (node : Int) : Total := if node = 0 then .ops0 else .ops1

/-- Add the local counter of a thread to a shared one. -/
def addTotal (ops total : Except Memory.Fault Int) : Except Memory.Fault Int := do
  checkedBits totalBits ((← total) + (← ops))

variable {Thread : Type}

/-- The threads of a run of a test: their nodes, and how often each goes through its loop. -/
structure Counting (Thread : Type) where
  test : CountingTest
  threads : List Thread
  node : Thread → Int
  iterations : Thread → Nat

namespace Counting

/-- The section at the end of a thread, under the lock of the shared counters. -/
def aggregate (run : Counting Thread) (thread : Thread) :
    Section Unit Total (Except Memory.Fault Int) :=
  ⟨(), totalOf (run.node thread), countIterations run.test.opsBits (run.iterations thread)⟩

/-- The threads of a run at the shared counters, in any interleaving. -/
def system (run : Counting Thread) :
    System Thread Unit Total (Except Memory.Fault Int) (Except Memory.Fault Int) where
  perform := addTotal
  -- Each thread of the run goes through one section.
  programs thread works := thread ∈ run.threads ∧ works = [run.aggregate thread]

/-- The shared counters with given numbers. -/
def start (first other : Nat) : Total → Except Memory.Fault Int
  | .ops0 => .ok first
  | .ops1 => .ok other

/-- All threads have passed the last barrier, which each of them gets to only after it has given
back the lock of the shared counters. -/
def Passed [DecidableEq Thread] (run : Counting Thread)
    (state : State Thread Unit Total (Except Memory.Fault Int) (Except Memory.Fault Int)) : Prop :=
  ∀ thread ∈ run.threads, state.phase thread = .idle ∧ history thread state.taken ≠ []

/-- The iterations of the threads that add to a shared counter. -/
def grown (run : Counting Thread) (total : Total) : Nat :=
  ((run.threads.filter fun thread => totalOf (run.node thread) = total).map run.iterations).sum

end Counting

/-- A number that is not negative is in range below the greatest power of two of the width. -/
theorem checkedBits_natCast (bits value : Nat) :
    checkedBits bits value =
      if value < 2 ^ (bits - 1) then .ok (value : Int) else .error .overflow := by
  have bound : ((2 ^ (bits - 1) : Nat) : Int) = 2 ^ (bits - 1) := by
    rw [Int.natCast_pow]
    rfl
  -- The lower end of the range does not matter.
  unfold checkedBits
  by_cases fits : value < 2 ^ (bits - 1)
  · rw [if_pos fits, if_pos (by omega)]
  · rw [if_neg fits, if_neg (by omega)]

/-- The local counter is the number of iterations as far as its width goes. -/
theorem countIterations_eq (bits iterations : Nat) :
    countIterations bits iterations =
      if iterations < 2 ^ (bits - 1) then .ok (iterations : Int) else .error .overflow := by
  -- By induction on the iterations; once it has overflown, the counter is lost.
  induction iterations with
  | zero =>
    have positive : 0 < 2 ^ (bits - 1) := Nat.two_pow_pos _
    rw [if_pos positive]
    rfl
  | succ iterations ih =>
    rw [countIterations, ih]
    by_cases before : iterations < 2 ^ (bits - 1)
    · rw [if_pos before]
      exact checkedBits_natCast bits (iterations + 1)
    · rw [if_neg before, if_neg (by omega)]
      rfl

/-- Local counters within their width add up while their sum is within that of the shared one. -/
theorem contents_addTotal (bits : Nat) {counts : List Nat}
    (within : ∀ count ∈ counts, count < 2 ^ (bits - 1)) {initial : Nat}
    (room : initial + counts.sum < 2 ^ (totalBits - 1)) :
    contents addTotal (.ok initial) (counts.map (countIterations bits)) =
      .ok ((initial + counts.sum : Nat) : Int) := by
  -- By induction on the counters, from the sum that the first one makes.
  induction counts generalizing initial with
  | nil => rfl
  | cons count counts ih =>
    rw [List.sum_cons] at room
    -- The first counter fits into the sum, as all of them do.
    have fits : initial + count < 2 ^ (totalBits - 1) := by
      apply Nat.lt_of_le_of_lt _ room
      exact Nat.add_le_add_left (Nat.le_add_right count counts.sum) initial
    have first : addTotal (countIterations bits count) (.ok initial) =
        .ok ((initial + count : Nat) : Int) := by
      rw [countIterations_eq, if_pos (within count List.mem_cons_self), addTotal, Memory.ok_bind,
        Memory.ok_bind, ← Int.natCast_add, checkedBits_natCast, if_pos fits]
    -- The others are added to it by the induction hypothesis.
    have rest := ih (fun other member => within other (List.mem_cons_of_mem _ member))
      ((Nat.add_assoc initial count counts.sum).trans_lt room)
    show contents addTotal (addTotal (countIterations bits count) (.ok initial))
      (counts.map (countIterations bits)) = _
    rw [first, rest, List.sum_cons, Nat.add_assoc]

/-- A shared counter that is lost stays lost. -/
theorem contents_lost (fault : Memory.Fault) (addends : List (Except Memory.Fault Int)) :
    contents addTotal (.error fault) addends = .error fault := by
  -- No addition brings it back.
  induction addends with
  | nil => rfl
  | cons addend addends ih => exact ih

/-- Local counters that add up to something are within their width. -/
theorem within_of_contents (bits : Nat) {counts : List Nat} {initial : Except Memory.Fault Int}
    {total : Int}
    (done : contents addTotal initial (counts.map (countIterations bits)) = .ok total) :
    ∀ count ∈ counts, count < 2 ^ (bits - 1) := by
  -- By induction on the counters; one that has overflown would lose the shared one.
  induction counts generalizing initial with
  | nil => exact fun count member => nomatch member
  | cons first counts ih =>
    intro count member
    rcases List.mem_cons.mp member with here | later
    · subst here
      -- If it had overflown, it would be lost, and so would every sum with it.
      by_contra beyond
      have lost : countIterations bits count = .error .overflow := by
        rw [countIterations_eq, if_neg beyond]
      have sum : ∃ fault, addTotal (countIterations bits count) initial = .error fault := by
        rw [lost]
        cases initial with
        | error fault => exact ⟨fault, rfl⟩
        | ok value => exact ⟨.overflow, rfl⟩
      obtain ⟨fault, sum⟩ := sum
      have all : contents addTotal (addTotal (countIterations bits count) initial)
          (counts.map (countIterations bits)) = .ok total := done
      rw [sum, contents_lost] at all
      cases all
    · -- The counters behind the first one are added to what it has made of the sum.
      exact ih done count later

section Runs

variable [DecidableEq Thread] {run : Counting Thread} {first other : Nat}
  {state : State Thread Unit Total (Except Memory.Fault Int) (Except Memory.Fault Int)}

omit [DecidableEq Thread] in
/-- There is one lock for all shared counters. -/
theorem Counting.guarded (run : Counting Thread) : Guarded run.system fun _ => () :=
  fun _ _ _ _ _ => rfl

/-- When all threads have passed the last barrier, a shared counter holds what the local counters of
its threads make of it in some order. -/
theorem Counting.Passed.store_eq (nodup : run.threads.Nodup)
    (reachable : Reachable run.system (Counting.start first other) state)
    (passed : run.Passed state) :
    ∃ order : List Thread, order.Perm run.threads ∧ ∀ total,
      state.store total = contents addTotal (Counting.start first other total)
        (((order.filter fun thread => totalOf (run.node thread) = total).map run.iterations).map
          (countIterations run.test.opsBits)) := by
  -- Each thread has taken the lock once, in one order or another.
  obtain ⟨order, perm, taken⟩ := reachable.taken_order
    (fun _ _ known => known) nodup fun thread member => (passed thread member).2
  refine ⟨order, perm, fun total => ?_⟩
  -- No thread is inside its section any more.
  have settled : state.store total = contents addTotal (Counting.start first other total)
      (operationsOn total state.taken) := by
    apply reachable.store_eq run.guarded
    intro thread work inside
    obtain ⟨works, known, -⟩ := reachable.has_known inside.has
    rw [(passed thread known.1).1] at inside
    exact inside.elim
  rw [settled, taken, operationsOn, List.filter_map, List.map_map, List.map_map]
  rfl

/-- After the last barrier the shared counters have grown by the iterations of their threads if and
only if the number of iterations of every thread is within the declared width of its counter. -/
theorem ops_totals_iff (nodup : run.threads.Nodup)
    (fits : first + other + (run.threads.map run.iterations).sum < 2 ^ (totalBits - 1))
    (reachable : Reachable run.system (Counting.start first other) state)
    (passed : run.Passed state) :
    (state.store .ops0 = .ok ((first + run.grown .ops0 : Nat) : Int) ∧
      state.store .ops1 = .ok ((other + run.grown .ops1 : Nat) : Int)) ↔
      ∀ thread ∈ run.threads, run.iterations thread < 2 ^ (run.test.opsBits - 1) := by
  obtain ⟨order, perm, store⟩ := passed.store_eq nodup reachable
  -- The order in which the threads add is one of all threads, so it makes the same sums.
  have grown : ∀ total, run.grown total = ((order.filter fun thread =>
      totalOf (run.node thread) = total).map run.iterations).sum :=
    fun total => ((perm.filter _).map run.iterations).sum_eq.symm
  -- Each of the two sums is not more than all iterations.
  have most : ∀ total, run.grown total ≤ (run.threads.map run.iterations).sum :=
    fun total => (List.filter_sublist.map run.iterations).sum_le_sum fun _ _ => Nat.zero_le _
  constructor
  · intro ⟨ops0, ops1⟩ thread member
    -- Whichever counter the thread adds to has not been lost.
    have done : ∃ total, state.store (totalOf (run.node thread)) = .ok total := by
      cases totalOf (run.node thread) with
      | ops0 => exact ⟨_, ops0⟩
      | ops1 => exact ⟨_, ops1⟩
    obtain ⟨total, done⟩ := done
    rw [store] at done
    apply within_of_contents run.test.opsBits done
    apply List.mem_map_of_mem
    apply List.mem_filter.mpr
    exact ⟨perm.mem_iff.mpr member, by simp⟩
  · -- Then no local counter has overflown, and neither has a sum of them.
    intro within
    have inside : ∀ total, ∀ count ∈ (order.filter fun thread =>
        totalOf (run.node thread) = total).map run.iterations,
          count < 2 ^ (run.test.opsBits - 1) := by
      intro total count member
      obtain ⟨thread, chosen, rfl⟩ := List.mem_map.mp member
      exact within thread (perm.mem_iff.mp (List.mem_filter.mp chosen).1)
    constructor
    · rw [store, grown]
      apply contents_addTotal run.test.opsBits (inside .ops0)
      rw [← grown]
      have bound := most .ops0
      exact Nat.lt_of_le_of_lt (by omega) fits
    · rw [store, grown]
      apply contents_addTotal run.test.opsBits (inside .ops1)
      rw [← grown]
      have bound := most .ops1
      exact Nat.lt_of_le_of_lt (by omega) fits

omit [DecidableEq Thread] in
/-- The counters of the stack test are as wide as the shared ones, so that they never overflow while
the grand total is in range. -/
theorem stackTest_within (stack : run.test = .stackTest)
    (fits : (run.threads.map run.iterations).sum < 2 ^ (totalBits - 1)) :
    ∀ thread ∈ run.threads, run.iterations thread < 2 ^ (run.test.opsBits - 1) := by
  -- One thread has no more iterations than all of them.
  intro thread member
  rw [stack]
  exact (List.single_le_sum (fun _ _ => Nat.zero_le _) _
    (List.mem_map_of_mem member)).trans_lt fits

end Runs

/-- A run of one thread on the first node. -/
def soleRun (test : CountingTest) (iterations : Nat) : Counting Unit :=
  ⟨test, [()], fun _ => 0, fun _ => iterations⟩

/-- The thread of a run of its own gets to the last barrier and passes it. -/
theorem soleRun_passes (test : CountingTest) (iterations : Nat) :
    ∃ state, Reachable (soleRun test iterations).system (Counting.start 0 0) state ∧
      (soleRun test iterations).Passed state := by
  have start : Reachable (soleRun test iterations).system (Counting.start 0 0)
      (.initial (Counting.start 0 0)) := .initial
  have known : (soleRun test iterations).system.programs ()
      [(soleRun test iterations).aggregate ()] := ⟨List.mem_singleton_self (), rfl⟩
  obtain ⟨state, reachable, taken, idle, -⟩ := start.through rfl known rfl
  refine ⟨state, reachable, fun thread _ => ⟨idle, ?_⟩⟩
  rw [taken]
  exact List.cons_ne_nil _ _

/-- Three iterations in the test of the queues are counted. -/
theorem ops_totals_three :
    ∃ state, Reachable (soleRun .queueTest 3).system (Counting.start 0 0) state ∧
      (soleRun .queueTest 3).Passed state ∧ state.store .ops0 = .ok 3 := by
  obtain ⟨state, reachable, passed⟩ := soleRun_passes .queueTest 3
  have totals := (ops_totals_iff (List.nodup_singleton ()) (by decide) reachable passed).mpr
    fun _ _ => show 3 < 2 ^ 31 by decide
  exact ⟨state, reachable, passed, totals.1⟩

/-- One iteration more than an int can count, in the test of the queues, is not counted. -/
theorem not_ops_totals_int :
    ∃ state, Reachable (soleRun .queueTest 2147483648).system (Counting.start 0 0) state ∧
      (soleRun .queueTest 2147483648).Passed state ∧ state.store .ops0 ≠ .ok 2147483648 := by
  -- The one thread counts all iterations, and an int does not hold their number.
  obtain ⟨state, reachable, passed⟩ := soleRun_passes .queueTest 2147483648
  refine ⟨state, reachable, passed, fun counted => ?_⟩
  obtain ⟨order, perm, store⟩ := passed.store_eq (List.nodup_singleton ()) reachable
  have alone : order = [()] := List.perm_singleton.mp perm
  rw [store, alone] at counted
  have within := within_of_contents _ counted 2147483648 (List.mem_singleton_self _)
  revert within
  decide

end SecretTyping.Bench
