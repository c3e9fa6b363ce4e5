import Mathlib.Data.Fintype.EquivFin
import Mathlib.Order.WithBot
import SecretTyping.Bst.BinarySearchTest

/-! What holds of the benchmark threads in every interleaving. -/

namespace SecretTyping.Bst

open Locking

/-- How far the threads are, with the trees and their mutexes. -/
abbrev TestState (Thread Mutex : Type) (numDs : Nat) : Type :=
  State Thread Mutex (TreeName numDs) Operation SoundTree (Option Nat)

/-- A round of a thread that has ended. -/
abbrev Round (Thread Mutex : Type) (numDs : Nat) : Type :=
  Completed Thread Mutex (TreeName numDs) Operation (Option Nat)

section Sample

/-- The mutexes of two trees, one in each vector. -/
def sampleLocks : Bsts → Fin 1 → Bsts × Fin 1 := Prod.mk

/-- They are distinct. -/
theorem sampleLocks_distinct : Function.Injective (mutexOf sampleLocks) := by
  -- A mutex is the name of its tree.
  intro one other same
  obtain ⟨vector, index⟩ := one
  obtain ⟨otherVector, otherIndex⟩ := other
  cases (Prod.mk.inj same).1
  cases (Prod.mk.inj same).2
  rfl

/-- The rounds of two threads with different nodes. -/
def sampleSystem : System Bool (Bsts × Fin 1) (TreeName 1) Operation SoundTree (Option Nat) :=
  testSystem sampleLocks fun thread => if thread then 1 else 0

/-- Two empty trees. -/
def sampleTrees : TreeName 1 → SoundTree := fun _ => .new

/-- The first thread holds one mutex and is about to take the one that the second thread holds. -/
def contended : TestState Bool (Bsts × Fin 1) 1 :=
  let moving := (State.initial sampleTrees).put false
    (some ⟨[], moveUnder (.bsts0, 0) (.bsts1, 0) ⟨.bsts0, 0⟩ ⟨.bsts1, 0⟩ 7, []⟩)
  let looking := (moving.take sampleSystem false).put true
    (some ⟨[], lookupUnder (.bsts1, 0) ⟨.bsts1, 0⟩ 7, []⟩)
  looking.take sampleSystem true

/-- The two threads can get there. -/
theorem contended_reachable : Reachable sampleSystem sampleTrees contended := by
  -- Each thread begins a round of its own and takes one step.
  have moving := (Reachable.initial : Reachable sampleSystem sampleTrees _).begin false rfl
    ⟨⟨0, 7, 100, 0, 0, 0⟩, rfl⟩
  have looking := (moving.take false).begin true rfl ⟨⟨0, 7, 1, 0, 0, 0⟩, rfl⟩
  exact looking.take true

/-- Both rounds have ended, the one of the second thread first. -/
def finished : TestState Bool (Bsts × Fin 1) 1 :=
  [true, true, true, false, false, false, false, false, false].foldl
    (fun state thread => state.take sampleSystem thread) contended

/-- The two threads can get there as well. -/
theorem finished_reachable : Reachable sampleSystem sampleTrees finished :=
  (((((((((contended_reachable.take true).take true).take true).take false).take false).take
    false).take false).take false).take false)

end Sample

variable {Thread Mutex : Type} [DecidableEq Thread] [DecidableEq Mutex] {numDs : Nat}
  {lk : Bsts → Fin numDs → Mutex} {node : Thread → Int} {trees : TreeName numDs → SoundTree}
  {state : TestState Thread Mutex numDs}

/-- In every interleaving, trees are only accessed under their own mutexes, trees whose mutexes are
free show what some order of the rounds leaves, and once all rounds have ended the trees and all
results are those of the rounds one at a time in some order. -/
theorem binarySearchTest_serializable
    (reachable : Reachable (testSystem lk node) trees state) :
    (∀ thread executed tree operation rest results,
      state.running thread = some ⟨executed, .access tree operation :: rest, results⟩ →
        state.holder (mutexOf lk tree) = some thread) ∧
    (∃ order ending : List (Round Thread Mutex numDs),
      order.Perm (state.completed ++ ending) ∧ (∀ ended ∈ ending, state.Ending ended) ∧
      (serial (testSystem lk node).perform trees (order.map Completed.program)).1 =
        order.map Completed.results ∧
      ∀ tree, state.holder (mutexOf lk tree) = none →
        state.store tree =
          (serial (testSystem lk node).perform trees (order.map Completed.program)).2 tree) ∧
    (state.Quiet → ∃ order : List (Round Thread Mutex numDs), order.Perm state.completed ∧
      serial (testSystem lk node).perform trees (order.map Completed.program) =
        (order.map Completed.results, state.store)) := by
  -- The discipline of the rounds is all that the general results ask for.
  have disciplined := testSystem_disciplined lk node
  refine ⟨?_, reachable.serial_free disciplined, reachable.serial_quiet disciplined⟩
  intro thread executed tree operation rest results next
  exact reachable.access_guarded disciplined next

/-- The second thread may look up its key, and in the end both rounds are in order. -/
theorem binarySearchTest_serializable_finished :
    contended.holder (mutexOf sampleLocks ⟨.bsts1, 0⟩) = some true ∧
      ∃ order : List (Round Bool (Bsts × Fin 1) 1), order.Perm finished.completed ∧
        serial sampleSystem.perform sampleTrees (order.map Completed.program) =
          (order.map Completed.results, finished.store) :=
  -- Both parts are read off the theorem at the two states of the sample.
  ⟨(binarySearchTest_serializable contended_reachable).1 true _ _ _ _ _ rfl,
    (binarySearchTest_serializable finished_reachable).2.2 fun thread => by
      cases thread with
      | false => rfl
      | true => rfl⟩

/-- The place of a mutex in the order of the trees. -/
noncomputable def lockRank (lk : Bsts → Fin numDs → Mutex) :
    Mutex → WithBot (Fin (numDs + numDs)) :=
  Function.extend (mutexOf lk) (fun tree => (tree.rank : WithBot (Fin (numDs + numDs)))) fun _ => ⊥

/-- Where the mutexes are distinct objects, every round takes them in order. -/
theorem binarySearchTest_ascending (distinct : Function.Injective (mutexOf lk)) (node : Int)
    (draw : Draw numDs) : Obeys (Ascending (lockRank lk)) [] (binarySearchTest lk node draw) := by
  -- A lookup takes one mutex and a move takes two in the order of their trees.
  have ranked : ∀ tree : TreeName numDs, lockRank lk (mutexOf lk tree) = tree.rank :=
    fun tree => distinct.extend_apply _ _ tree
  rcases binarySearchTest_cases lk node draw with ⟨tree, key, looksUp⟩ | moves | nothing
  · rw [looksUp]
    simp [lookupUnder, Obeys, Ascending, heldAfter]
  · obtain ⟨first, second, source, target, key, below, -, -, equal⟩ := moves
    rw [equal]
    simp [moveUnder, Obeys, Ascending, heldAfter, Action.held, ranked, below]
  · rw [nothing]
    trivial

/-- Where the mutexes are distinct objects, no threads ever wait for one another in a circle. -/
theorem binarySearchTest_no_deadlock (distinct : Function.Injective (mutexOf lk))
    (reachable : Reachable (testSystem lk node) trees state) (waiting : Set Thread)
    (nonempty : waiting.Nonempty) :
    ¬ ∀ thread ∈ waiting, ∃ other ∈ waiting, WaitsFor state thread other := by
  -- A lock order that every round respects rules out a circle of waiting threads.
  have ascending : ∀ thread program, (testSystem lk node).programs thread program →
      Obeys (Ascending (lockRank lk)) [] program := by
    intro thread program given
    obtain ⟨draw, same⟩ := given
    rw [same]
    exact binarySearchTest_ascending distinct (node thread) draw
  exact reachable.no_deadlock (testSystem_disciplined lk node) ascending nonempty

/-- The first thread waits for the second one, but not the other way round. -/
theorem binarySearchTest_no_deadlock_contended :
    WaitsFor contended false true ∧
      ¬ ∀ thread ∈ (Set.univ : Set Bool), ∃ other ∈ (Set.univ : Set Bool),
        WaitsFor contended thread other :=
  -- The set of all threads is not empty.
  ⟨⟨_, _, _, _, rfl, rfl⟩, binarySearchTest_no_deadlock sampleLocks_distinct
    contended_reachable Set.univ ⟨false, trivial⟩⟩

end SecretTyping.Bst
