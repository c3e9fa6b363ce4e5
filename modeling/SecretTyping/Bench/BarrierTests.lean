import Mathlib.Data.List.FinRange
import SecretTyping.Lib.Phases

/-! The multi-threaded suite of the data structures: who is inside an operation at the same time. -/

namespace SecretTyping.Bench.Suite

open Phases

/-- The shared structures, each with a mutex of its own. -/
inductive Structure where
  | stack
  | queue
  | bst
  | ll
  deriving DecidableEq

/-- The calls that the tests make, with their arguments. -/
inductive StructureCall where
  | push (data : Int)
  | pop
  | displayStack
  | add (data : Int)
  | del
  | displayQueue
  | insert (data : Int)
  | lookup (data : Int)
  | preOrderPrint
  | postOrderPrint
  | inOrderPrint
  | append (data : Int)
  | prepend (data : Int)
  | insertAfter (existData newData : Int)
  | displayList
  deriving DecidableEq

namespace StructureCall

/-- The structure that a call is made on. -/
def target : StructureCall → Structure
  | push _ | pop | displayStack => .stack
  | add _ | del | displayQueue => .queue
  | insert _ | lookup _ | preOrderPrint | postOrderPrint | inOrderPrint => .bst
  | append _ | prepend _ | insertAfter _ _ | displayList => .ll

/-- Whether a call changes its structure. -/
def mutates : StructureCall → Bool
  | push _ | pop | add _ | del | insert _ | append _ | prepend _ | insertAfter _ _ => true
  | displayStack | displayQueue | displayList | lookup _ | preOrderPrint | postOrderPrint
  | inOrderPrint => false

/-- Two calls are made on one structure, and one of them changes it. -/
def Conflicts (call other : StructureCall) : Prop :=
  call.target = other.target ∧ (call.mutates = true ∨ other.mutates = true)

end StructureCall

/-- What a thread of the suite does between two barriers. -/
abbrev Steps := List (Step Structure StructureCall)

/-- A call under the mutex of its structure. -/
def locked (call : StructureCall) : Steps :=
  [.lock call.target, .call call, .unlock call.target]

/-- Calls that only the first thread makes. -/
def onlyFirst (tid : Nat) (calls : List StructureCall) : Steps :=
  if tid = 1 then calls.map .call else []

/-- What a thread does in the test of the stack. -/
def stackTest (tid : Nat) : List Steps :=
  [[], [],
    locked (.push (tid * 10)), onlyFirst tid [.displayStack],
    locked (.push (tid * 100)), onlyFirst tid [.displayStack],
    locked .pop, onlyFirst tid [.displayStack],
    locked .pop, onlyFirst tid [.displayStack], []]

/-- What a thread does in the test of the queue. -/
def queueTest (tid : Nat) : List Steps :=
  [[],
    locked (.add (tid * 10)), onlyFirst tid [.displayQueue],
    locked (.add (tid * 100)), onlyFirst tid [.displayQueue],
    locked .del, onlyFirst tid [.displayQueue],
    locked .del, onlyFirst tid [.displayQueue], [], []]

/-- What a thread does in the test of the tree. -/
def binarySearchTest (tid : Nat) : List Steps :=
  [[], [],
    locked (.insert (tid * 10)),
    onlyFirst tid [.preOrderPrint, .postOrderPrint, .inOrderPrint],
    -- The mutex is taken for the output only, after the lookup.
    [.call (.lookup 20), .lock .bst, .unlock .bst], [], []]

/-- What a thread does in the test of the list. -/
def linkedListTest (tid : Nat) : List Steps :=
  [[],
    locked (.append (tid * 10)), onlyFirst tid [.displayList],
    locked (.prepend (tid * 100)), onlyFirst tid [.displayList],
    -- This call is made without the mutex.
    [.call (.insertAfter 10 20)], onlyFirst tid [.displayList], [], []]

/-- The tests of the suite. -/
inductive Test where
  | stackTest
  | queueTest
  | binarySearchTest
  | linkedListTest
  deriving DecidableEq

/-- What a thread does in a test. -/
def Test.run : Test → Nat → List Steps
  | .stackTest => Suite.stackTest
  | .queueTest => Suite.queueTest
  | .binarySearchTest => Suite.binarySearchTest
  | .linkedListTest => Suite.linkedListTest

/-- The threads of a test are the one that starts the others, and one for each further number. -/
abbrev TestThread (numThreads : Nat) : Type := Fin (numThreads - 1 + 1)

/-- A test with the threads of the suite, whatever the calls make of the structures. -/
def Test.system {Value : Type} (test : Test) (numThreads : Nat)
    (perform : StructureCall → Value → Value) :
    System (TestThread numThreads) Structure StructureCall Structure Value where
  program thread := test.run (thread.val + 1)
  object := StructureCall.target
  perform

/-- No two threads are at the same time inside calls on one structure of which one changes it. -/
def Test.Excludes {Value : Type} (test : Test) (numThreads : Nat)
    (perform : StructureCall → Value → Value) (store : Structure → Value) : Prop :=
  ∀ state, Reachable (test.system numThreads perform) store state →
    ∀ thread other, thread ≠ other → ∀ call call', state.InCall thread call →
      state.InCall other call' → ¬ call.Conflicts call'

/-- What two threads do between two barriers is apart: calls that conflict share a mutex. -/
def StepsApart (steps other : Steps) : Prop :=
  ∀ site ∈ sites [] steps, ∀ site' ∈ sites [] other, site.2.Conflicts site'.2 →
    ∃ lock ∈ site.1, lock ∈ site'.1

/-- A thread that calls nothing is apart from the others. -/
theorem StepsApart.nothing : StepsApart [] [] :=
  fun _ member => absurd member List.not_mem_nil

/-- Calls on one structure under its mutex are apart. -/
theorem StepsApart.locked {call other : StructureCall} (same : call.target = other.target) :
    StepsApart (locked call) (locked other) := by
  -- Each of the two threads makes one call, around which it holds the mutex.
  intro site member site' member' _
  rw [List.mem_singleton.mp member, List.mem_singleton.mp member']
  exact ⟨call.target, List.mem_cons_self, List.mem_singleton.mpr same⟩

/-- Calls that only one of the threads makes are apart. -/
theorem StepsApart.onlyFirst {tid other : Nat} (differ : tid ≠ other)
    (calls : List StructureCall) : StepsApart (onlyFirst tid calls) (onlyFirst other calls) := by
  -- One of the two threads is not the first one.
  intro site member site' member'
  unfold Suite.onlyFirst at member member'
  by_cases first : tid = 1
  · rw [if_neg (first ▸ differ.symm)] at member'
    exact absurd member' List.not_mem_nil
  · rw [if_neg first] at member
    exact absurd member List.not_mem_nil

/-- Lookups are apart, as none of them changes the tree. -/
theorem StepsApart.lookup (data : Int) :
    StepsApart [.call (.lookup data), .lock .bst, .unlock .bst]
      [.call (.lookup data), .lock .bst, .unlock .bst] := by
  intro site member site' member' conflicts
  rw [List.mem_singleton.mp member, List.mem_singleton.mp member'] at conflicts
  rcases conflicts.2 with changes | changes
  · cases changes
  · cases changes

/-- In every test but that of the list, what two threads do between two barriers is apart. -/
theorem Test.run_apart {test : Test} (other : test ≠ .linkedListTest) {tid tid' : Nat}
    (differ : tid ≠ tid') : List.Forall₂ StepsApart (test.run tid) (test.run tid') := by
  -- The phases are gone through in the order of the tests.
  cases test with
  -- Every phase is empty, under the mutex of the stack, or for the first thread only.
  | stackTest =>
    exact .cons .nothing (.cons .nothing (.cons (.locked rfl) (.cons (.onlyFirst differ _)
      (.cons (.locked rfl) (.cons (.onlyFirst differ _) (.cons (.locked rfl)
        (.cons (.onlyFirst differ _) (.cons (.locked rfl) (.cons (.onlyFirst differ _)
          (.cons .nothing .nil))))))))))
  | queueTest =>
    exact .cons .nothing (.cons (.locked rfl) (.cons (.onlyFirst differ _)
      (.cons (.locked rfl) (.cons (.onlyFirst differ _) (.cons (.locked rfl)
        (.cons (.onlyFirst differ _) (.cons (.locked rfl) (.cons (.onlyFirst differ _)
          (.cons .nothing (.cons .nothing .nil))))))))))
  | binarySearchTest =>
    -- The lookup of the tree is made without its mutex, but it changes nothing.
    exact .cons .nothing (.cons .nothing (.cons (.locked rfl) (.cons (.onlyFirst differ _)
      (.cons (.lookup 20) (.cons .nothing (.cons .nothing .nil))))))
  | linkedListTest => exact absurd rfl other

/-- Between two barriers every mutex is given back that has been taken. -/
theorem Test.run_tidy (test : Test) (tid : Nat) :
    ∀ steps ∈ test.run tid, tidy [] steps = true := by
  -- There are five kinds of phases.
  have first : ∀ calls, tidy [] (onlyFirst tid calls) = true := by
    intro calls
    unfold onlyFirst
    split
    · exact tidy_calls calls
    · rfl
  have under : ∀ call, tidy [] (locked call) = true := by
    intro call
    simp [locked, tidy]
  have lookup : tidy [] ([.call (.lookup 20), .lock .bst, .unlock .bst] : Steps) = true := rfl
  have after : tidy [] ([.call (.insertAfter 10 20)] : Steps) = true := rfl
  have nothing : tidy [] ([] : Steps) = true := rfl
  -- Each test is made up of phases of these kinds.
  cases test with
  | stackTest => simp [Test.run, Suite.stackTest, first, under, nothing]
  | queueTest => simp [Test.run, Suite.queueTest, first, under, nothing]
  | binarySearchTest => simp [Test.run, Suite.binarySearchTest, first, under, nothing, lookup]
  | linkedListTest => simp [Test.run, Suite.linkedListTest, first, under, nothing, after]

section Runs

variable {Value : Type} (test : Test) (numThreads : Nat)
  (perform : StructureCall → Value → Value) (store : Structure → Value)

/-- The mutexes are used properly. -/
theorem Test.tidy : (test.system numThreads perform).Tidy := by
  intro thread phase
  -- Behind the last phase there are no steps.
  unfold System.steps
  cases found : ((test.system numThreads perform).program thread)[phase]? with
  | none => rfl
  | some steps => exact test.run_tidy _ steps (List.mem_of_getElem? found)

/-- In every test but that of the list, calls that conflict share a mutex within a phase. -/
theorem Test.apart {test : Test} (other : test ≠ .linkedListTest) :
    (test.system numThreads perform).Apart StructureCall.Conflicts := by
  intro thread running differ phase
  -- Different threads have different numbers, and equally many phases.
  have distinct : thread.val + 1 ≠ running.val + 1 := by
    intro same
    exact differ (Fin.ext (Nat.succ.inj same))
  have apart := Test.run_apart other distinct
  show StepsApart (((test.run (thread.val + 1))[phase]?).getD [])
    (((test.run (running.val + 1))[phase]?).getD [])
  -- Both threads have the phase, or neither has it.
  by_cases within : phase < (test.run (thread.val + 1)).length
  · have within' : phase < (test.run (running.val + 1)).length := apart.length_eq ▸ within
    rw [List.getElem?_eq_getElem within, List.getElem?_eq_getElem within']
    exact apart.get within within'
  · have within' : ¬ phase < (test.run (running.val + 1)).length := apart.length_eq ▸ within
    rw [List.getElem?_eq_none (Nat.le_of_not_lt within),
      List.getElem?_eq_none (Nat.le_of_not_lt within')]
    exact StepsApart.nothing

/-- All threads of a test can come to its end. -/
theorem Test.exists_done :
    ∃ state, Reachable (test.system numThreads perform) store state ∧
      state.Done (test.system numThreads perform) := by
  -- All threads go through the same number of phases.
  have phases : ∃ phase, ∀ thread,
      ((test.system numThreads perform).program thread).length = phase + 1 := by
    cases test with
    | stackTest => exact ⟨10, fun _ => rfl⟩
    | queueTest => exact ⟨10, fun _ => rfl⟩
    | binarySearchTest => exact ⟨6, fun _ => rfl⟩
    | linkedListTest => exact ⟨8, fun _ => rfl⟩
  obtain ⟨phase, phases⟩ := phases
  exact Phases.exists_done (test.tidy numThreads perform) store List.mem_finRange phases

/-- In the test of the list any two threads can be inside the insertion behind a node at once. -/
theorem exists_both_insertAfter {thread other : TestThread numThreads} (differ : thread ≠ other) :
    ∃ state, Reachable (Test.linkedListTest.system numThreads perform) store state ∧
      state.InCall thread (.insertAfter 10 20) ∧ state.InCall other (.insertAfter 10 20) := by
  -- Five barriers are passed before the insertion.
  have reaches : ∀ running, 5 < ((Test.linkedListTest.system numThreads perform).program
      running).length := fun _ => show 5 < 9 by decide
  obtain ⟨state, reachable, -, fresh, -⟩ :=
    exists_begin (Test.linkedListTest.tidy numThreads perform) store List.mem_finRange reaches
  -- At the phase of the insertion, both threads have it before them and are outside of any call.
  have next : ∀ running, (state.progress running).remaining = [.call (.insertAfter 10 20)] := by
    intro running
    rw [fresh]
    rfl
  have outside : ∀ running, (state.progress running).inside = none := by
    intro running
    rw [fresh]
    rfl
  -- The second one enters while the first one is inside.
  have entered := reachable.move (.enter (next thread) (outside thread))
  have other' : ∀ value, ((state.read thread value).progress other) = state.progress other :=
    fun value => State.put_other state differ.symm _
  have both := entered.move (.enter (by rw [other']; exact next other)
    (by rw [other']; exact outside other))
  refine ⟨_, both, ⟨?_, [], ?_⟩, ?_, [], ?_⟩
  · -- The first one is still inside after the other has entered.
    rw [State.read, State.put_other _ differ, State.read_inside]
    rfl
  · rw [State.read, State.put_other _ differ, State.read_remaining]
    exact next thread
  · -- The other one has just entered.
    rw [State.read_inside]
    rfl
  · rw [State.read_remaining, other']
    exact next other

/-- No two threads are inside conflicting calls, exactly in the tests other than that of the list
and where there is one thread only. -/
theorem excludes_iff :
    test.Excludes numThreads perform store ↔ test ≠ .linkedListTest ∨ numThreads ≤ 1 := by
  constructor
  · -- In the test of the list, the first two threads are both inside the insertion.
    intro excludes
    by_contra neither
    obtain ⟨list, many⟩ := not_or.mp neither
    rw [not_not] at list
    subst list
    let first : TestThread numThreads := ⟨0, by omega⟩
    let second : TestThread numThreads := ⟨1, by omega⟩
    have differ : first ≠ second := by
      intro same
      cases congrArg Fin.val same
    obtain ⟨state, reachable, inCall, inCall'⟩ :=
      exists_both_insertAfter numThreads perform store differ
    exact excludes state reachable first second differ _ _ inCall inCall' ⟨rfl, .inl rfl⟩
  · -- In the other tests, calls that conflict share a mutex.
    rintro (other | few) state reachable thread running differ call call' inCall inCall'
    · exact reachable.exclusive (test.tidy numThreads perform)
        (Test.apart numThreads perform other) differ inCall inCall'
    · -- There is no second thread.
      have one : numThreads - 1 + 1 = 1 := by omega
      have below := thread.isLt
      have below' := running.isLt
      exact absurd (Fin.ext (by omega)) differ

end Runs

/-- Two threads can be inside the insertion behind a node at once, here with structures that keep
the calls made on them. -/
theorem not_excludes_two :
    ¬ Test.linkedListTest.Excludes 2 (fun call made => made ++ [call]) fun _ => [] := by
  intro excludes
  obtain ⟨state, reachable, inCall, inCall'⟩ := exists_both_insertAfter 2
    (fun call made => made ++ [call]) (fun _ => []) (show (0 : TestThread 2) ≠ 1 by decide)
  exact excludes state reachable 0 1 (by decide) _ _ inCall inCall' ⟨rfl, .inl rfl⟩

end SecretTyping.Bench.Suite
