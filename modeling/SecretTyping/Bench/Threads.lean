import Mathlib.Data.List.Nodup
import Mathlib.Data.List.Range
import Mathlib.Data.List.Basic

/-! The threads that the benchmarks start on the two nodes. -/

namespace SecretTyping.Bench

/-- The data structure under test, as its option names it. -/
inductive DsName where
  | array
  | stack
  | queue
  | ll
  | bst
  deriving DecidableEq

/-- How threads are started: pinned to their node, as regular ones, or pinned to another node. -/
inductive ThreadConfig where
  | numa
  | regular
  /-- Any other text of the option. -/
  | other
  deriving DecidableEq

/-- A thread that runs a test for a node. -/
structure Worker where
  tid : Int
  node : Int
  deriving DecidableEq

/-- The node that a thread is told to work on; the loop that starts it is the first or the second.
-/
def nodeOf (dsName : DsName) (threadConfig : ThreadConfig) (loop i : Int) : Int :=
  match threadConfig, dsName with
  | .numa, _ | .regular, _ => loop
  | .other, .bst => 1 - loop
  | .other, _ => i % 2

/-- The threads that are started by two loops, each over half the number of threads. -/
def workers (dsName : DsName) (threadConfig : ThreadConfig) (numThreads : Int) : List Worker :=
  let half := numThreads.tdiv 2
  (List.range half.toNat).map (fun i => ⟨i, nodeOf dsName threadConfig 0 i⟩) ++
    (List.range half.toNat).map (fun i => ⟨i + half, nodeOf dsName threadConfig 1 i⟩)

variable (dsName : DsName) (threadConfig : ThreadConfig) (numThreads : Int)

/-- Two loops start two threads for each two of their number. -/
theorem length_workers :
    (workers dsName threadConfig numThreads).length = 2 * (numThreads.toNat / 2) := by
  -- A negative number is as good as none.
  have half : (numThreads.tdiv 2).toNat = numThreads.toNat / 2 := by
    rcases Int.le_total 0 numThreads with nonneg | nonpos
    · rw [Int.tdiv_eq_ediv_of_nonneg nonneg]
      omega
    · obtain ⟨n, rfl⟩ : ∃ n : Nat, numThreads = -n := ⟨(-numThreads).toNat, by omega⟩
      rw [Int.neg_tdiv, Int.natCast_tdiv_eq_ediv]
      omega
  rw [workers, List.length_append, List.length_map, List.length_map, List.length_range, half]
  omega

/-- Every thread has its own id. -/
theorem nodup_workers : (workers dsName threadConfig numThreads).Nodup := by
  -- The ids of the second loop start where those of the first one end.
  refine List.nodup_append.mpr ⟨?_, ?_, ?_⟩
  · -- Within the first loop, different turns give different ids.
    refine List.nodup_range.map fun i j same => ?_
    have ids := congrArg Worker.tid same
    dsimp only at ids
    omega
  · -- So do they within the second one.
    refine List.nodup_range.map fun i j same => ?_
    have ids := congrArg Worker.tid same
    dsimp only at ids
    omega
  · intro worker first other second same
    obtain ⟨i, below, rfl⟩ := List.mem_map.mp first
    obtain ⟨j, -, rfl⟩ := List.mem_map.mp second
    have ids := congrArg Worker.tid same
    rw [List.mem_range] at below
    dsimp only at ids
    omega

end SecretTyping.Bench
