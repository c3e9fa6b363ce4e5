import SecretTyping.Bench.Threads
import SecretTyping.Lib.Barrier

/-! Whether the threads of a benchmark get past the barrier at which they wait for one another. -/

namespace SecretTyping.Bench

open Barrier

/-- What a thread does in a test: all tests end with a wait, and some wait before they start. -/
def testEvents : DsName → List Event
  | .array | .queue => [.work, .wait]
  | .stack | .ll | .bst => [.wait, .work, .wait]

/-- How often the threads of a test are started, each time after all have been joined. -/
def testRounds (dsName : DsName) (runFreq : Int) : Nat :=
  if dsName = .bst then runFreq.toNat else 1

/-- How many threads the barrier counts; a negative number has been refused before it is set up. -/
def barCount (numThreads : Int) : Nat :=
  numThreads.toNat

/-- Every run of the threads that cannot go on has completed all its wait cycles and rounds. -/
def NoHang (dsName : DsName) (threadConfig : ThreadConfig) (numThreads runFreq : Int) : Prop :=
  Completes (barCount numThreads) (workers dsName threadConfig numThreads) (testEvents dsName)
    (testRounds dsName runFreq)

variable (dsName : DsName) (threadConfig : ThreadConfig) (numThreads runFreq : Int)

/-- Of an odd number of threads one is not started, and the others wait for it for ever. -/
theorem not_noHang_odd {dsName : DsName} {numThreads runFreq : Int} (odd : numThreads % 2 = 1)
    (several : 1 < numThreads) (starts : dsName = .bst → 0 < runFreq) :
    ¬ NoHang dsName threadConfig numThreads runFreq := by
  -- The barrier counts one thread more than are started.
  have length := length_workers dsName threadConfig numThreads
  refine not_completes_of_few ?_ ?_ ?_ ?_
  · rw [length, barCount]
    omega
  · refine List.ne_nil_of_length_pos ?_
    omega
  · cases dsName <;> decide
  · rw [testRounds]
    split
    · next bst =>
      have positive := starts bst
      omega
    · exact Nat.one_pos

/-- The threads get past the barrier exactly when their number is even, or so small that none is
started, or when the trees are tested no time at all. -/
theorem noHang_iff : NoHang dsName threadConfig numThreads runFreq ↔
    numThreads % 2 = 0 ∨ numThreads ≤ 1 ∨ (dsName = .bst ∧ runFreq ≤ 0) := by
  -- If the number is odd, the count is one too high, and otherwise it is right.
  constructor
  · intro completes
    by_contra hangs
    rw [not_or, not_or, not_and] at hangs
    obtain ⟨odd, several, starts⟩ := hangs
    exact not_noHang_odd threadConfig (by omega) (by omega)
      (fun bst => by have := starts bst; omega) completes
  · have length := length_workers dsName threadConfig numThreads
    rintro (even | few | ⟨rfl, never⟩)
    · -- As many threads are started as the barrier counts, or none.
      refine completes_of_all (nodup_workers ..) fun _ => ?_
      rw [length, barCount]
      omega
    · -- Without a second thread to start, no thread is started at all.
      refine completes_of_all (nodup_workers ..) fun some => ?_
      have none := List.length_pos_of_ne_nil some
      omega
    · -- Without rounds, no thread is started either.
      have rounds : testRounds .bst runFreq = 0 := by
        rw [testRounds, if_pos rfl, Int.toNat_of_nonpos never]
      rw [NoHang, rounds]
      exact completes_without_rounds

/-- Three threads are counted, but only two are started, which wait for ever. -/
theorem not_noHang_three : ¬ NoHang .stack .numa 3 1 :=
  not_noHang_odd .numa (by decide) (by decide) (by decide)

end SecretTyping.Bench
