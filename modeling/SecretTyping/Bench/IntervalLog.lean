import SecretTyping.Lib.Boundaries
import SecretTyping.Bst.BinarySearchTest

/-! The operation counts that a thread of the tree benchmark logs once in each interval. -/

namespace SecretTyping.Bench

open Bst Boundaries

/-- Why the timed loop goes wrong. -/
inductive Fault where
  /-- A vector was given a negative size. -/
  | lengthError
  | outOfRange
  | divisionByZero
  /-- The readings of the clock ended before the loop did. -/
  | unfinished
  deriving DecidableEq

/-- The ticks of the clock in a second. -/
def second : Int := 1000000000

/-- One pass of the loop: the reading of the clock at its head, what it draws, and the reading at
the test for the log, which a pass that goes on to the next one does not take. -/
structure Pass (numDs : Nat) where
  head : Int
  draw : Draw numDs
  log : Int

/-- The options of the loop and when it starts. -/
structure Timer where
  duration : Int
  interval : Int
  startTimer : Int

/-- What the loop keeps count of. -/
structure Progress where
  ops : Int
  localOps : List Int
  intervalIdx : Nat
  nextLogTime : Int

variable {numDs : Nat}

/-- A pass that draws a move from a tree to itself goes on to the next pass. -/
def skips (draw : Draw numDs) : Bool :=
  80 < draw.op && (draw.txn % 4 = 2 || draw.txn % 4 = 3) && draw.dsA = draw.dsB

/-- The loop goes on while the full seconds since its start are less than the duration. -/
def Timer.runs (timer : Timer) (reading : Int) : Bool :=
  (reading - timer.startTimer).tdiv second < timer.duration

/-- A vector of zeros, one for each interval of the duration. -/
def resize (duration interval : Int) : Except Fault (List Int) :=
  if interval = 0 then .error .divisionByZero
  else if duration.tdiv interval < 0 then .error .lengthError
  else .ok (List.replicate (duration.tdiv interval).toNat 0)

/-- There is a number of intervals, if there is a vector with an entry for each. -/
theorem resize_eq_ok {duration interval : Int} {vector : List Int}
    (sized : resize duration interval = .ok vector) :
    ∃ size : Nat, duration.tdiv interval = size ∧ vector = List.replicate size 0 := by
  -- The other two branches are faults.
  rw [resize] at sized
  split at sized
  · cases sized
  · split at sized
    · cases sized
    · cases sized
      exact ⟨_, by omega, rfl⟩

/-- Log the number of operations so far, if the time has come. -/
def logOps (timer : Timer) (reading : Int) (progress : Progress) : Except Fault Progress :=
  if progress.nextLogTime ≤ reading then
    if progress.intervalIdx < progress.localOps.length then
      .ok { progress with
        localOps := progress.localOps.set progress.intervalIdx progress.ops
        intervalIdx := progress.intervalIdx + 1
        nextLogTime := progress.nextLogTime + timer.interval * second }
    else .error .outOfRange
  else .ok progress

/-- The loop, with the passes it makes and the reading at the head where it ends. -/
def timedLoop (timer : Timer) (progress : Progress) (exit : Int) :
    List (Pass numDs) → Except Fault Progress
  | [] => if timer.runs exit then .error .unfinished else .ok progress
  | pass :: rest =>
    if timer.runs pass.head then
      if skips pass.draw then timedLoop timer progress exit rest
      else do
        let progress ← logOps timer pass.log { progress with ops := progress.ops + 1 }
        timedLoop timer progress exit rest
    else .ok progress

/-- What a thread has counted when its loop ends, with its operations counted from zero. -/
def countOps (timer : Timer) (exit : Int) (passes : List (Pass numDs)) : Except Fault Progress := do
  let localOps ← resize timer.duration timer.interval
  timedLoop timer ⟨0, localOps, 0, timer.startTimer + timer.interval * second⟩ exit passes

/-- Add the counts of a thread to those of its node. -/
def addOps : List Int → List Int → Except Fault (List Int)
  | globalOps, [] => .ok globalOps
  | [], _ :: _ => .error .outOfRange
  | globalOp :: globalOps, localOp :: localOps => do
    return (globalOp + localOp) :: (← addOps globalOps localOps)

/-- A pass that goes on to the next one is one whose transaction does nothing. -/
theorem skips_iff {Mutex : Type} (lk : Bsts → Fin numDs → Mutex) (node : Int) (draw : Draw numDs) :
    skips draw = true ↔ binarySearchTest lk node draw = [] := by
  -- Lookups and moves under two locks do something, whatever the node.
  have looks : ∀ mutex tree, lookupUnder mutex tree draw.key ≠
      ([] : List (Locking.Action Mutex (TreeName numDs) Operation)) := by simp [lookupUnder]
  have moves : ∀ first second source target, moveUnder first second source target draw.key ≠
      ([] : List (Locking.Action Mutex (TreeName numDs) Operation)) := by simp [moveUnder]
  have sameMove : transaction lk draw = [] ↔
      (draw.txn % 4 = 2 ∨ draw.txn % 4 = 3) ∧ draw.dsA = draw.dsB := by
    -- The transaction number tells which of the moves it is.
    simp only [transaction]
    split
    · -- Moves between the vectors always do something.
      exact iff_of_false (moves _ _ _ _) (by omega)
    · split
      · exact iff_of_false (moves _ _ _ _) (by omega)
      · -- Within a vector, the trees of the move decide.
        have within : draw.txn % 4 = 2 ∨ draw.txn % 4 = 3 := by omega
        rw [and_iff_right within]
        split
        · split
          · next same => exact iff_of_true rfl same
          · next apart => exact iff_of_false (moves _ _ _ _) apart
        · split
          · next same => exact iff_of_true rfl same
          · next apart => exact iff_of_false (moves _ _ _ _) apart
  simp only [skips, binarySearchTest]
  split <;> split <;> simp_all

/-- The readings that a pass takes of the clock. -/
def Pass.readings (pass : Pass numDs) : List Int :=
  if skips pass.draw then [pass.head] else [pass.head, pass.log]

/-- The clock is steady from the start of the loop to the reading at the head where it ends. -/
def Steady (timer : Timer) (exit : Int) (passes : List (Pass numDs)) : Prop :=
  (timer.startTimer :: (passes.flatMap Pass.readings ++ [exit])).Pairwise (· ≤ ·)

/-- A pass starts with the reading at the head of the loop. -/
theorem Pass.head_mem (pass : Pass numDs) : pass.head ∈ pass.readings := by
  rw [Pass.readings]
  split
  · exact List.mem_singleton_self _
  · exact List.mem_cons_self

/-- A steady clock is steady without the readings of the first pass. -/
theorem Steady.rest {timer : Timer} {exit : Int} {pass : Pass numDs} {rest : List (Pass numDs)}
    (steady : Steady timer exit (pass :: rest)) : Steady timer exit rest := by
  rw [Steady, List.flatMap_cons, List.append_assoc] at steady
  exact steady.sublist (.cons_cons _ (List.sublist_append_right _ _))

/-- The clock reads no earlier time at the head of a pass than at the start. -/
theorem Steady.start_le {timer : Timer} {exit : Int} {passes : List (Pass numDs)}
    (steady : Steady timer exit passes) {pass : Pass numDs} (member : pass ∈ passes) :
    timer.startTimer ≤ pass.head := by
  refine (List.pairwise_cons.mp steady).1 _ (List.mem_append_left _ ?_)
  exact List.mem_flatMap.mpr ⟨pass, member, pass.head_mem⟩

/-- The clock reads no later time at the head of a pass than at the head where the loop ends. -/
theorem Steady.le_exit {timer : Timer} {exit : Int} {passes : List (Pass numDs)}
    (steady : Steady timer exit passes) {pass : Pass numDs} (member : pass ∈ passes) :
    pass.head ≤ exit := by
  obtain ⟨-, -, last⟩ := List.pairwise_append.mp (List.pairwise_cons.mp steady).2
  exact last _ (List.mem_flatMap.mpr ⟨pass, member, pass.head_mem⟩) _ (List.mem_singleton_self _)

/-- Whether the clock is steady can be computed. -/
instance (timer : Timer) (exit : Int) (passes : List (Pass numDs)) :
    Decidable (Steady timer exit passes) :=
  inferInstanceAs (Decidable (List.Pairwise _ _))

/-- The readings at the tests for the log, one for each operation that is completed. -/
def logReadings (timer : Timer) (passes : List (Pass numDs)) : List Int :=
  ((passes.takeWhile fun pass => timer.runs pass.head).filter fun pass => !skips pass.draw).map
    Pass.log

/-- The passes of the loop are those before the first one that finds its time over. -/
theorem logReadings_cons (timer : Timer) (pass : Pass numDs) (rest : List (Pass numDs)) :
    logReadings timer (pass :: rest) =
      if timer.runs pass.head then
        if skips pass.draw then logReadings timer rest else pass.log :: logReadings timer rest
      else [] := by
  -- The first pass is counted, skipped, or ends the loop.
  unfold logReadings
  split
  · next running =>
    -- The pass finds the loop running, and is among those that are taken.
    rw [List.takeWhile_cons_of_pos (by exact running)]
    split
    · next skipped => rw [List.filter_cons_of_neg (by simp [skipped])]
    · next counted => rw [List.filter_cons_of_pos (by simpa using counted), List.map_cons]
  · -- The pass finds the time over, and so takes none of those behind it.
    next ended => rw [List.takeWhile_cons_of_neg (by exact ended), List.filter_nil, List.map_nil]

/-- When the count of operations of an interval is due. -/
def Timer.due (timer : Timer) (i : Nat) : Int :=
  timer.startTimer + (i + 1) * (timer.interval * second)

/-- Counts are due an interval apart. -/
theorem Timer.due_succ (timer : Timer) (i : Nat) :
    timer.due (i + 1) = timer.due i + timer.interval * second := by
  have one : (((i + 1 : Nat) : Int) + 1) = (i + 1) + 1 := by omega
  rw [Timer.due, Timer.due, one, Int.add_mul (i + 1), Int.one_mul, Int.add_assoc]

/-- The times at which counts are due come one after another. -/
theorem Timer.due_rising {timer : Timer} (positive : 0 < timer.interval) (i : Nat) :
    timer.due i ≤ timer.due (i + 1) := by
  have length : 0 ≤ timer.interval * second := by simp only [second]; omega
  rw [timer.due_succ]
  omega

/-- Count operations, one for each reading at the test for the log. -/
def logAll (timer : Timer) (progress : Progress) (logs : List Int) : Except Fault Progress :=
  logs.foldlM (fun progress reading =>
    logOps timer reading { progress with ops := progress.ops + 1 }) progress

/-- A loop whose time is over at the last reading counts the operations of its passes. -/
theorem timedLoop_eq {timer : Timer} {exit : Int} (ended : timer.runs exit = false)
    (progress : Progress) (passes : List (Pass numDs)) :
    timedLoop timer progress exit passes = logAll timer progress (logReadings timer passes) := by
  -- By induction on the passes, of which those that skip are not counted.
  induction passes generalizing progress with
  | nil =>
    rw [timedLoop, if_neg (by simp [ended])]
    rfl
  | cons pass rest ih =>
    rw [timedLoop, logReadings_cons]
    split
    · -- A pass that goes on to the next one counts nothing.
      split
      · exact ih progress
      · rw [logAll, List.foldlM_cons]
        exact bind_congr fun next => ih next
    · -- The time is over at the head of the pass, and the loop ends with nothing more to log.
      rfl

/-- What is logged of operations with the given readings: the entries made, and zeros after them. -/
structure Logged (timer : Timer) (size : Nat) (logs marks : List Int) (progress : Progress) :
    Prop where
  ops : progress.ops = logs.length
  index : progress.intervalIdx = passed timer.due logs
  next : progress.nextLogTime = timer.due (passed timer.due logs)
  within : passed timer.due logs ≤ size
  entries : progress.localOps = marks ++ List.replicate (size - passed timer.due logs) 0
  counted : marks.length = passed timer.due logs
  rising : marks.Pairwise (· ≤ ·)
  bounded : ∀ mark ∈ marks, 0 < mark ∧ mark ≤ logs.length
  /-- An operation whose reading is behind the time that is due is in the last entry made. -/
  latest : ∀ before reading, logs = before ++ [reading] →
    passed timer.due before ≠ passed timer.due logs → marks.getLast? = some (logs.length : Int)

/-- One more operation is counted, and logged if the count is due. -/
theorem Logged.concat {timer : Timer} {size : Nat} {logs marks : List Int}
    {progress after : Progress} (logged : Logged timer size logs marks progress) {reading : Int}
    (done : logOps timer reading { progress with ops := progress.ops + 1 } = .ok after) :
    ∃ marks, Logged timer size (logs ++ [reading]) marks after := by
  -- The operation passes the next boundary, or nothing is logged.
  obtain ⟨ops, index, next, within, entries, counted, rising, bounded, -⟩ := logged
  have length : ((logs ++ [reading]).length : Int) = logs.length + 1 := by simp
  simp only [logOps, next, index] at done
  split at done
  · next due =>
    split at done
    · next room =>
      -- There is an entry to make for the boundary that is passed.
      cases done
      have more : passed timer.due (logs ++ [reading]) = passed timer.due logs + 1 := by
        rw [passed_concat, if_pos due]
      have free : passed timer.due logs < size := by
        rw [entries, List.length_append, List.length_replicate, counted] at room
        omega
      refine ⟨marks ++ [(logs.length : Int) + 1], by rw [length, ops], more.symm, ?_, by omega, ?_,
        by rw [more, List.length_append, counted, List.length_singleton], ?_,
        fun mark member => ?_, fun before last _ _ => by rw [length, List.getLast?_concat]⟩
      · rw [more, Timer.due_succ]
      · -- The first of the zeros becomes the count.
        have fewer : size - passed timer.due logs =
            (size - passed timer.due (logs ++ [reading])) + 1 := by omega
        rw [entries, fewer, List.replicate_succ, ops, ← counted]
        simp
      · -- The new entry is the number of all operations, so it is not less than any before it.
        refine List.pairwise_append.mpr ⟨rising, List.pairwise_singleton _ _, ?_⟩
        intro mark member last only
        have most := (bounded mark member).2
        rw [List.mem_singleton.mp only]
        omega
      · -- It is positive and not more than the number of operations.
        rw [length]
        rcases List.mem_append.mp member with old | new
        · have most := bounded mark old
          omega
        · rw [List.mem_singleton.mp new]
          omega
    · -- Behind the last entry the loop would have gone wrong.
      cases done
  · next early =>
    -- The next boundary is not passed, so the entries stay, and there is one operation more.
    cases done
    have same : passed timer.due (logs ++ [reading]) = passed timer.due logs := by
      rw [passed_concat, if_neg early]
    refine ⟨marks, by rw [length, ops], by rw [same], by rw [same], by rw [same]; exact within,
      by rw [same]; exact entries, by rw [same]; exact counted, rising, fun mark member => ?_,
      fun before last split apart => ?_⟩
    · have most := bounded mark member
      omega
    · -- Nothing has been logged at this reading.
      obtain ⟨rfl, -⟩ := List.append_inj' split rfl
      exact absurd same.symm apart

/-- What operations counted from zero log is as many entries as boundaries are passed. -/
theorem exists_logged {timer : Timer} {size : Nat} {logs : List Int} {final : Progress}
    (done : logAll timer ⟨0, List.replicate size 0, 0, timer.due 0⟩ logs = .ok final) :
    ∃ marks, Logged timer size logs marks final := by
  -- By induction on the operations, the last one first.
  induction logs using List.reverseRecOn generalizing final with
  | nil =>
    cases done
    exact ⟨[], rfl, rfl, rfl, Nat.zero_le _, rfl, rfl, .nil, by simp, by simp⟩
  | append_singleton logs reading ih =>
    rw [logAll, List.foldlM_append] at done
    obtain ⟨progress, before, last⟩ := Memory.bind_eq_ok done
    obtain ⟨marks, logged⟩ := ih before
    simp only [List.foldlM_cons, List.foldlM_nil, bind_pure] at last
    exact logged.concat last

/-- The deadline of the loop comes when its last count is due. -/
theorem Timer.runs_iff {timer : Timer} {reading : Int} (started : timer.startTimer ≤ reading) :
    timer.runs reading = true ↔ reading < timer.startTimer + timer.duration * second := by
  -- From the start on, the full seconds are rounded down.
  have nonneg : 0 ≤ reading - timer.startTimer := by omega
  rw [Timer.runs, decide_eq_true_iff, Int.tdiv_eq_ediv_of_nonneg nonneg,
    Int.ediv_lt_iff_lt_mul (by decide)]
  omega

/-- A loop that ends has found its time over by the last reading. -/
theorem ended_of_ok {timer : Timer} {exit : Int} {passes : List (Pass numDs)}
    {progress final : Progress} (steady : Steady timer exit passes)
    (done : timedLoop timer progress exit passes = .ok final) : timer.runs exit = false := by
  -- By induction on the passes: a pass that finds the time spent is no later than the last reading.
  induction passes generalizing progress with
  | nil =>
    simp only [timedLoop] at done
    split at done
    · -- Without passes, the loop ends at the last reading.
      cases done
    · next ended => simpa using ended
  | cons pass rest ih =>
    simp only [timedLoop] at done
    split at done
    · split at done
      · -- The loop goes on, whether the pass counts an operation or not.
        exact ih steady.rest done
      · obtain ⟨next, -, rest⟩ := Memory.bind_eq_ok done
        exact ih steady.rest rest
    · next ended =>
      -- The reading at the head of this pass is behind the deadline, and the last one is not
      -- earlier.
      have started := steady.start_le List.mem_cons_self
      have later := steady.le_exit List.mem_cons_self
      rw [Timer.runs_iff started] at ended
      rw [Bool.eq_false_iff, ne_eq, Timer.runs_iff (by omega)]
      omega

/-- An operation that is logged belongs to a pass that finds the loop running. -/
theorem exists_pass {timer : Timer} {passes : List (Pass numDs)} {reading : Int}
    (logged : reading ∈ logReadings timer passes) :
    ∃ pass ∈ passes, timer.runs pass.head = true ∧ reading ∈ pass.readings := by
  -- By induction on the passes up to that of the operation.
  induction passes with
  | nil => cases logged
  | cons pass rest ih =>
    rw [logReadings_cons] at logged
    split at logged
    · next running =>
      split at logged
      · -- The operation belongs to a pass behind this one.
        obtain ⟨found, member, runs, read⟩ := ih logged
        exact ⟨found, List.mem_cons_of_mem _ member, runs, read⟩
      · next counted =>
        -- It is the one of this pass.
        rcases List.mem_cons.mp logged with here | later
        · exact ⟨pass, List.mem_cons_self, running, by simp [Pass.readings, counted, here]⟩
        · obtain ⟨found, member, runs, read⟩ := ih later
          exact ⟨found, List.mem_cons_of_mem _ member, runs, read⟩
    · cases logged

/-- The operations are logged in the order of the readings of the clock. -/
theorem logReadings_sublist (timer : Timer) (passes : List (Pass numDs)) :
    (logReadings timer passes).Sublist (passes.flatMap Pass.readings) := by
  -- By induction on the passes, each of which has its reading at the log last.
  induction passes with
  | nil => exact List.Sublist.slnil
  | cons pass rest ih =>
    rw [logReadings_cons, List.flatMap_cons]
    split
    · split
      · exact ih.trans (List.sublist_append_right _ _)
      · next counted =>
        rw [Pass.readings, if_neg counted]
        exact .cons _ (.cons_cons _ ih)
    · exact List.nil_sublist _

/-- The clock does not go back from one operation to the next. -/
theorem Steady.logReadings {timer : Timer} {exit : Int} {passes : List (Pass numDs)}
    (steady : Steady timer exit passes) : (logReadings timer passes).Pairwise (· ≤ ·) :=
  ((List.pairwise_append.mp (List.pairwise_cons.mp steady).2).1).sublist
    (logReadings_sublist timer passes)

/-- Every operation but the last is logged before the deadline, since the loop goes on after it. -/
theorem Steady.before_deadline {timer : Timer} {exit : Int} {passes : List (Pass numDs)}
    (steady : Steady timer exit passes) {before after : List Int} {next : Int}
    (split : Bench.logReadings timer passes = before ++ next :: after) {reading : Int}
    (member : reading ∈ before) : reading < timer.startTimer + timer.duration * second := by
  -- The reading is no later than that at the head of the pass of the next operation.
  induction passes generalizing before with
  | nil => cases before <;> cases split
  | cons pass rest ih =>
    rw [logReadings_cons] at split
    split at split
    · split at split
      · exact ih steady.rest split member
      · next counted =>
        cases before with
        | nil => cases member
        | cons first before =>
          obtain ⟨rfl, later⟩ := List.cons_eq_cons.mp split
          rcases List.mem_cons.mp member with rfl | earlier
          · -- The next operation belongs to a later pass, whose head finds the loop running.
            have logged : next ∈ Bench.logReadings timer rest := by rw [later]; simp
            obtain ⟨next, inRest, running, -⟩ := exists_pass logged
            rw [Timer.runs_iff (steady.rest.start_le inRest)] at running
            have inOrder := (List.pairwise_cons.mp steady).2
            rw [List.flatMap_cons, Pass.readings, if_neg counted, List.cons_append,
              -- Its head is read after the log of this pass.
              List.cons_append, List.cons_append, List.cons_append, List.nil_append] at inOrder
            have ahead := (List.pairwise_cons.mp (List.pairwise_cons.mp inOrder).2).1 next.head
              (List.mem_append_left _ (List.mem_flatMap.mpr ⟨next, inRest, next.head_mem⟩))
            omega
          · exact ih steady.rest later earlier
    · -- No operation is logged once the time is over.
      cases before <;> cases split

/-- The last count is due at the deadline. -/
theorem Timer.due_last {timer : Timer} (divides : timer.interval ∣ timer.duration) {last : Nat}
    (size : timer.duration / timer.interval = last + 1) :
    timer.due last = timer.startTimer + timer.duration * second := by
  -- The intervals make up the whole duration.
  have whole := Int.ediv_mul_cancel divides
  rw [size] at whole
  rw [Timer.due, ← Int.mul_assoc, whole]

/-- Before the last operation there is a boundary that has not been passed. -/
theorem Steady.passed_before {timer : Timer} {exit : Int} {passes : List (Pass numDs)}
    (steady : Steady timer exit passes) (positive : 0 < timer.interval)
    (divides : timer.interval ∣ timer.duration) {last : Nat}
    (size : timer.duration / timer.interval = last + 1) {before after : List Int} {reading : Int}
    (split : Bench.logReadings timer passes = before ++ reading :: after) :
    passed timer.due before ≤ last := by
  -- Otherwise some reading would be behind the deadline, and the loop would have ended with it.
  by_contra many
  have sorted : before.Pairwise (· ≤ ·) := by
    -- A prefix of the readings is in order too.
    have all := steady.logReadings
    rw [split] at all
    exact (List.pairwise_append.mp all).1
  obtain ⟨position, found, -, there, behind⟩ :=
    (le_passed_iff timer.due (timer.due_rising positive) sorted (last + 1)).mp (by omega)
      last (by omega)
  -- The reading at the last boundary is before the deadline, where that boundary is.
  have early := steady.before_deadline split (List.mem_of_getElem? there)
  rw [timer.due_last divides size] at behind
  omega

/-- The counts of a thread are added to as many counts of its node one by one. -/
theorem addOps_eq {globalOps localOps : List Int} (same : globalOps.length = localOps.length) :
    addOps globalOps localOps = .ok (List.zipWith (· + ·) globalOps localOps) := by
  -- By induction on both vectors.
  induction globalOps generalizing localOps with
  | nil =>
    cases localOps with
    | nil => rfl
    | cons localOp localOps => cases same
  | cons globalOp globalOps ih =>
    cases localOps with
    | nil => cases same
    | cons localOp localOps =>
      rw [addOps, ih (by simpa using same)]
      rfl

/-- The entries of a thread do not decrease, the last one is the number of operations that it has
completed, and the last entry of its node grows by that number. -/
structure Complete (completed : Int) (localOps : List Int) : Prop where
  increasing : localOps.Pairwise (· ≤ ·)
  last : localOps.getLast? = some completed
  added : ∀ globalOps : List Int, globalOps.length = localOps.length →
    ∃ after, addOps globalOps localOps = .ok after ∧
      after.getLast? = globalOps.getLast?.map (· + completed)

/-- Entries whose last one is right add up to what is right. -/
theorem complete_iff {completed : Int} {localOps : List Int} : Complete completed localOps ↔
    localOps.Pairwise (· ≤ ·) ∧ localOps.getLast? = some completed := by
  -- The last entries are added to each other.
  refine ⟨fun complete => ⟨complete.increasing, complete.last⟩, ?_⟩
  intro ⟨increasing, last⟩
  refine ⟨increasing, last, fun globalOps same => ⟨_, addOps_eq same, ?_⟩⟩
  rw [List.getLast?_eq_getElem?] at last ⊢
  rw [List.getElem?_zipWith, List.length_zipWith, same, Nat.min_self, last,
    List.getLast?_eq_getElem?, same]
  cases globalOps[localOps.length - 1]? <;> rfl

/-- There are as many entries as intervals. -/
theorem Logged.length {timer : Timer} {size : Nat} {logs marks : List Int} {progress : Progress}
    (logged : Logged timer size logs marks progress) : progress.localOps.length = size := by
  have most := logged.within
  rw [logged.entries, List.length_append, List.length_replicate, logged.counted]
  omega

/-- The entries that have been made are positive. -/
theorem Logged.entry_pos {timer : Timer} {size : Nat} {logs marks : List Int} {progress : Progress}
    (logged : Logged timer size logs marks progress) {i : Nat} (made : i < passed timer.due logs) :
    0 < progress.localOps.getD i 0 := by
  have inside : i < marks.length := logged.counted.symm ▸ made
  rw [logged.entries, List.getD_eq_getElem?_getD, List.getElem?_append_left inside,
    List.getElem?_eq_getElem inside]
  exact (logged.bounded _ (List.getElem_mem inside)).1

/-- The entries that have not been made are zero. -/
theorem Logged.entry_zero {timer : Timer} {size : Nat} {logs marks : List Int}
    {progress : Progress} (logged : Logged timer size logs marks progress) {i : Nat}
    (unmade : passed timer.due logs ≤ i) : progress.localOps.getD i 0 = 0 := by
  have behind : marks.length ≤ i := logged.counted.symm ▸ unmade
  rw [logged.entries, List.getD_eq_getElem?_getD, List.getElem?_append_right behind,
    List.getElem?_replicate]
  split <;> rfl

/-- The last entry counts all operations when it has been made, which no operation before the last
one does. -/
theorem Logged.last_iff {timer : Timer} {last : Nat} {logs marks : List Int} {progress : Progress}
    (logged : Logged timer (last + 1) logs marks progress)
    (notBefore : ∀ before reading, logs = before ++ [reading] → passed timer.due before ≤ last) :
    progress.localOps.Pairwise (· ≤ ·) ∧ progress.localOps.getLast? = some (logs.length : Int) ↔
      logs = [] ∨ last + 1 ≤ passed timer.due logs := by
  -- Either every entry has been made, or the last one is still zero.
  rcases Nat.lt_or_ge last (passed timer.due logs) with all | few
  · -- Every entry has been made.
    have full : progress.localOps = marks := by
      rw [logged.entries, Nat.sub_eq_zero_of_le all, List.replicate_zero, List.append_nil]
    refine iff_of_true ⟨full ▸ logged.rising, ?_⟩ (.inr all)
    rcases List.eq_nil_or_concat' logs with rfl | ⟨before, reading, split⟩
    · -- There are no entries to make where there is nothing logged.
      cases all
    · have early := notBefore before reading split
      rw [full]
      exact logged.latest before reading split (by omega)
  · -- The last entry is still zero.
    have rest : last + 1 - passed timer.due logs = (last - passed timer.due logs) + 1 := by omega
    have zero : progress.localOps.getLast? = some 0 := by
      rw [logged.entries, rest, List.getLast?_append, List.getLast?_replicate]
      simp
    rw [zero]
    constructor
    · -- Only where no operation is logged is the last entry the number of them.
      rintro ⟨-, none⟩
      have empty : logs.length = 0 := by simpa using (Option.some.inj none).symm
      exact .inl (List.length_eq_zero_iff.mp empty)
    · rintro (rfl | all)
      · -- Nothing has been logged, so all entries are zero.
        have unmade : marks = [] := List.length_eq_zero_iff.mp logged.counted
        rw [logged.entries, unmade, List.nil_append]
        exact ⟨List.pairwise_replicate.mpr (.inr (Int.le_refl 0)), rfl⟩
      · omega

/-- Logging succeeds while there is an entry to make. -/
theorem logOps_ok (timer : Timer) (reading : Int) {progress : Progress}
    (room : progress.intervalIdx < progress.localOps.length) :
    ∃ after, logOps timer reading progress = .ok after := by
  rw [logOps, if_pos room]
  split <;> exact ⟨_, rfl⟩

/-- Counting ends when there is an entry to make at every operation. -/
theorem logAll_ok {timer : Timer} {size : Nat} {logs : List Int}
    (room : ∀ before reading after, logs = before ++ reading :: after →
      passed timer.due before < size) :
    ∃ final, logAll timer ⟨0, List.replicate size 0, 0, timer.due 0⟩ logs = .ok final := by
  -- By induction on the operations, the last one first.
  induction logs using List.reverseRecOn with
  | nil => exact ⟨_, rfl⟩
  | append_singleton logs reading ih =>
    -- By the hypothesis for the earlier operations there was room for each of them.
    obtain ⟨progress, before⟩ := ih fun before next after split =>
      room before next (after ++ [reading]) (by rw [split, List.append_assoc, List.cons_append])
    obtain ⟨marks, logged⟩ := exists_logged before
    have free := room logs reading [] rfl
    -- There is room for the entry that the last operation may make.
    have entry : progress.intervalIdx < progress.localOps.length := by
      rw [logged.index, logged.length]
      exact free
    obtain ⟨final, last⟩ := logOps_ok timer reading
      (show { progress with ops := progress.ops + 1 }.intervalIdx < _ from entry)
    rw [logAll, List.foldlM_append, ← logAll, before, Memory.ok_bind, List.foldlM_cons, last]
    exact ⟨final, rfl⟩

/-- A thread counts its operations to the end of its loop, with no entry out of range. -/
theorem countOps_ok {timer : Timer} {exit : Int} {passes : List (Pass numDs)}
    (nonneg : 0 ≤ timer.duration) (positive : 0 < timer.interval)
    (divides : timer.interval ∣ timer.duration) (steady : Steady timer exit passes)
    (ended : timer.runs exit = false) : ∃ final, countOps timer exit passes = .ok final := by
  -- The number of intervals is the size of the vector.
  obtain ⟨size, intervals⟩ := Int.eq_ofNat_of_zero_le (Int.ediv_nonneg nonneg positive.le)
  have whole := Int.ediv_mul_cancel divides
  have start : timer.startTimer + timer.interval * second = timer.due 0 := by
    rw [Timer.due, Int.natCast_zero, Int.zero_add, Int.one_mul]
  rw [countOps, resize, Int.tdiv_eq_ediv_of_dvd divides, intervals, if_neg (by omega),
    if_neg (by omega), Memory.ok_bind, timedLoop_eq ended, start, Int.toNat_natCast]
  refine logAll_ok fun before reading after split => ?_
  cases size with
  | zero =>
    -- Without intervals the time is over at the start.
    have logged : reading ∈ logReadings timer passes := by rw [split]; simp
    obtain ⟨pass, member, running, -⟩ := exists_pass logged
    rw [Timer.runs_iff (steady.start_le member), ← whole, intervals] at running
    have started := steady.start_le member
    omega
  | succ last =>
    -- Before an operation there is a boundary that has not been passed, for which there is room.
    have early := steady.passed_before positive divides intervals split
    omega

/-- The loop of a thread ends with what its operations log. -/
theorem exists_logged_of_ok {timer : Timer} {exit : Int} {passes : List (Pass numDs)}
    {final : Progress} (steady : Steady timer exit passes)
    (done : countOps timer exit passes = .ok final) :
    ∃ (size : Nat) (marks : List Int),
      resize timer.duration timer.interval = .ok (List.replicate size 0) ∧
      timer.duration.tdiv timer.interval = size ∧
      Logged timer size (logReadings timer passes) marks final := by
  -- The loop counts from zero, and its first count is due after one interval.
  obtain ⟨localOps, sized, looped⟩ := Memory.bind_eq_ok done
  obtain ⟨size, intervals, rfl⟩ := resize_eq_ok sized
  rw [timedLoop_eq (ended_of_ok steady looped)] at looped
  have start : timer.startTimer + timer.interval * second = timer.due 0 := by
    rw [Timer.due, Int.natCast_zero, Int.zero_add, Int.one_mul]
  rw [start] at looped
  obtain ⟨marks, logged⟩ := exists_logged looped
  exact ⟨size, marks, sized, intervals, logged⟩

/-- No completed operation is missing in the counts of a thread exactly when there are intervals,
and either no operation is completed, or the last operations, as many as there are intervals, are
one by one completed behind the ends of the intervals. -/
theorem countOps_complete_iff {timer : Timer} {exit : Int} {passes : List (Pass numDs)}
    {final : Progress} (positive : 0 < timer.interval) (divides : timer.interval ∣ timer.duration)
    (steady : Steady timer exit passes) (done : countOps timer exit passes = .ok final) :
    Complete (logReadings timer passes).length final.localOps ↔
      0 < timer.duration ∧ (logReadings timer passes = [] ∨
        Covers timer.due (timer.duration / timer.interval).toNat (logReadings timer passes)) := by
  -- The last entry is made by the last operation, or it is zero.
  obtain ⟨size, marks, -, intervals, logged⟩ := exists_logged_of_ok steady done
  have whole := Int.ediv_mul_cancel divides
  rw [Int.tdiv_eq_ediv_of_dvd divides] at intervals
  rw [complete_iff, intervals, Int.toNat_natCast,
    ← le_passed_iff timer.due (timer.due_rising positive) steady.logReadings]
  cases size with
  -- Without an interval there is no entry, and neither side holds.
  | zero =>
    have none : timer.duration = 0 := by rw [← whole, intervals]; simp
    have empty : final.localOps = [] := by
      rw [logged.entries, Nat.zero_sub, List.replicate_zero, List.append_nil,
        ← List.length_eq_zero_iff, logged.counted]
      exact Nat.le_zero.mp logged.within
    simp [none, empty]
  | succ last =>
    -- With an interval, the duration is positive.
    have some : 0 < timer.duration := by
      rw [← whole, intervals]
      exact Int.mul_pos (by omega) positive
    rw [logged.last_iff fun before reading => steady.passed_before positive divides intervals]
    exact (and_iff_right some).symm

/-- Two intervals of 20 seconds. -/
def sampleTimer : Timer := ⟨40, 20, 0⟩

/-- A lookup that starts and ends at the given seconds. -/
def samplePass (head log : Int) : Pass 1 :=
  ⟨head * second, ⟨Fin.last 0, 0, 1, Fin.last 0, Fin.last 0, 0⟩, log * second⟩

/-- Operations that are completed behind the ends of the two intervals are all counted. -/
theorem countOps_complete_iff_two : ∃ final,
    countOps sampleTimer (41 * second) [samplePass 0 20, samplePass 20 41] = .ok final ∧
      Complete (logReadings sampleTimer [samplePass 0 20, samplePass 20 41]).length
        final.localOps := by
  have done : countOps sampleTimer (41 * second) [samplePass 0 20, samplePass 20 41] =
      .ok ⟨2, [1, 2], 2, 60 * second⟩ := rfl
  have steady : Steady sampleTimer (41 * second) [samplePass 0 20, samplePass 20 41] := by decide
  have covers : Covers sampleTimer.due 2
      (logReadings sampleTimer [samplePass 0 20, samplePass 20 41]) :=
    (le_passed_iff _ (sampleTimer.due_rising (by decide)) steady.logReadings 2).mp (by decide)
  exact ⟨_, done, (countOps_complete_iff (by decide) (by decide) steady done).mpr
    ⟨by decide, .inr covers⟩⟩

/-- An operation that is completed just before the deadline is not counted. -/
theorem not_complete_before_deadline : ∃ final,
    0 < sampleTimer.interval ∧ sampleTimer.interval ∣ sampleTimer.duration ∧
      Steady sampleTimer (40 * second) [samplePass 0 20, samplePass 20 39] ∧
      countOps sampleTimer (40 * second) [samplePass 0 20, samplePass 20 39] = .ok final ∧
      ¬ Complete (logReadings sampleTimer [samplePass 0 20, samplePass 20 39]).length
        final.localOps := by
  refine ⟨⟨2, [1, 0], 1, 40 * second⟩, by decide, by decide, by decide, rfl, fun complete => ?_⟩
  exact absurd complete.last (by decide)

end SecretTyping.Bench
