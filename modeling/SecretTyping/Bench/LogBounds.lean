import Mathlib.Data.List.TakeWhile
import SecretTyping.Bench.RunResults

/-! Which entries of the interval logs are written and read. -/

namespace SecretTyping.Bench

open Boundaries Locking

variable {numDs : Nat}

/-- How many entries a log has. -/
def Timer.size (timer : Timer) : Nat := (timer.duration.tdiv timer.interval).toNat

/-- The shared counts have as many entries as a log. -/
structure Globals.Sized (timer : Timer) (globals : Globals) : Prop where
  globalOps0 : globals.globalOps0.length = timer.size
  globalOps1 : globals.globalOps1.length = timer.size

/-- The loop of a thread ends without writing behind its log, and the last entries of the shared
counts are read where there are some. -/
structure InBounds (timer : Timer) (exit : Int) (passes : List (Pass numDs)) : Prop where
  writes : ∃ progress, countOps timer exit passes = .ok progress
  reads : ∀ globals : Globals, globals.Sized timer → ∀ node, ∃ after,
    globals.setOps node = .ok after

/-- Passing one boundary more or none, readings pass no fewer with one more. -/
theorem passed_le_concat (bound : Nat → Int) (readings : List Int) (reading : Int) :
    passed bound readings ≤ passed bound (readings ++ [reading]) := by
  rw [passed_concat]
  split <;> omega

/-- Operations are logged while no more boundaries are passed than there are entries, and otherwise
one of them is logged out of range. -/
theorem logAll_cases (timer : Timer) (size : Nat) (logs : List Int) :
    (passed timer.due logs ≤ size ∧
      ∃ final, logAll timer ⟨0, List.replicate size 0, 0, timer.due 0⟩ logs = .ok final) ∨
    (size < passed timer.due logs ∧
      logAll timer ⟨0, List.replicate size 0, 0, timer.due 0⟩ logs = .error .outOfRange) := by
  -- By induction on the operations, the last one first.
  induction logs using List.reverseRecOn with
  | nil => exact .inl ⟨Nat.zero_le _, _, rfl⟩
  | append_singleton logs reading ih =>
    have step : logAll timer ⟨0, List.replicate size 0, 0, timer.due 0⟩ (logs ++ [reading]) =
        logAll timer ⟨0, List.replicate size 0, 0, timer.due 0⟩ logs >>= fun progress =>
          logOps timer reading { progress with ops := progress.ops + 1 } := by
      rw [logAll, List.foldlM_append]
      simp only [List.foldlM_cons, List.foldlM_nil, bind_pure]
      rfl
    have more := passed_le_concat timer.due logs reading
    rw [step]
    rcases ih with ⟨within, progress, before⟩ | ⟨beyond, fault⟩
    · -- All operations so far have been counted, with the entries that they pass.
      obtain ⟨marks, logged⟩ := exists_logged before
      have room := logged.length
      rw [before, Memory.ok_bind, logOps, passed_concat]
      -- The entry is made if the time that is due has come.
      simp only [logged.next, logged.index, room]
      by_cases due : timer.due (passed timer.due logs) ≤ reading
      · rw [if_pos due, if_pos due]
        -- There is room for the entry, or the loop writes behind its log.
        by_cases free : passed timer.due logs < size
        · rw [if_pos free]
          exact .inl ⟨free, _, rfl⟩
        · rw [if_neg free]
          exact .inr ⟨by omega, rfl⟩
      · -- No time is due, so nothing is written.
        rw [if_neg due, if_neg due]
        exact .inl ⟨within, _, rfl⟩
    · -- A loop that has gone wrong stays so.
      rw [fault]
      exact .inr ⟨by omega, rfl⟩

section Positive

variable {timer : Timer} (duration : 0 < timer.duration) (interval : 0 < timer.interval)

include duration interval

/-- The number of entries is that of the intervals that fit into the duration. -/
theorem Timer.size_eq : timer.duration / timer.interval = timer.size := by
  -- Both are positive, so the two ways of dividing agree.
  have nonneg := Int.ediv_nonneg duration.le interval.le
  rw [Timer.size, Int.tdiv_eq_ediv_of_nonneg duration.le, Int.toNat_of_nonneg nonneg]

/-- There are entries exactly if an interval fits into the duration. -/
theorem Timer.size_pos_iff : 0 < timer.size ↔ timer.interval ≤ timer.duration := by
  have counted := Timer.size_eq duration interval
  have fits : 1 ≤ timer.duration / timer.interval ↔ 1 * timer.interval ≤ timer.duration :=
    Int.le_ediv_iff_mul_le interval
  omega

/-- A log with an entry for each interval can be allocated. -/
theorem resize_size :
    resize timer.duration timer.interval = .ok (List.replicate timer.size 0) := by
  have counted := Timer.size_eq duration interval
  rw [← Int.tdiv_eq_ediv_of_nonneg duration.le] at counted
  rw [resize, if_neg interval.ne', counted, if_neg (by omega), Int.toNat_natCast]

/-- A loop that ends counts the operations that it logs. -/
theorem countOps_eq {exit : Int} (passes : List (Pass numDs)) (ended : timer.runs exit = false) :
    countOps timer exit passes =
      logAll timer ⟨0, List.replicate timer.size 0, 0, timer.due 0⟩ (logReadings timer passes) := by
  have start : timer.startTimer + timer.interval * second = timer.due 0 := by
    rw [Timer.due, Int.natCast_zero, Int.zero_add, Int.one_mul]
  rw [countOps, resize_size duration interval, Memory.ok_bind, timedLoop_eq ended, start]

/-- A thread writes within its log exactly if its last operations, one more than there are entries,
are not one by one logged behind the ends of the intervals. -/
theorem writes_iff {exit : Int} {passes : List (Pass numDs)} (steady : Steady timer exit passes)
    (ended : timer.runs exit = false) :
    (∃ progress, countOps timer exit passes = .ok progress) ↔
      ¬ Covers timer.due (timer.size + 1) (logReadings timer passes) := by
  -- The loop goes on to its end exactly if no more boundaries are passed than there are entries.
  rw [countOps_eq duration interval passes ended,
    ← le_passed_iff timer.due (timer.due_rising interval) steady.logReadings]
  rcases logAll_cases timer timer.size (logReadings timer passes) with
    ⟨within, done⟩ | ⟨beyond, fault⟩
  · exact iff_of_true done (by omega)
  · rw [fault]
    exact iff_of_false (fun ⟨_, done⟩ => nomatch done) (by omega)

/-- The shared counts are set up with as many entries as a log. -/
theorem globalInit_sized :
    ∃ globals, globalInit timer.duration timer.interval = .ok globals ∧ globals.Sized timer := by
  refine ⟨⟨List.replicate timer.size 0, List.replicate timer.size 0, 0, 0⟩, ?_,
    List.length_replicate, List.length_replicate⟩
  rw [globalInit, resize_size duration interval]
  rfl

/-- The last entries are read exactly if an interval fits into the duration. -/
theorem reads_iff :
    (∀ globals : Globals, globals.Sized timer → ∀ node, ∃ after,
      globals.setOps node = .ok after) ↔ timer.interval ≤ timer.duration := by
  rw [← Timer.size_pos_iff duration interval]
  constructor
  · intro reads
    -- In counts just set up, the last entry of the first node is read.
    obtain ⟨globals, -, sized⟩ := globalInit_sized duration interval
    obtain ⟨after, done⟩ := reads globals sized 0
    rw [Globals.setOps, if_pos rfl] at done
    obtain ⟨last, found, -⟩ := Memory.bind_eq_ok done
    rw [← sized.globalOps0]
    cases entries : globals.globalOps0 with
    | nil =>
      rw [entries] at found
      cases found
    | cons => exact Nat.succ_pos _
  · -- Where there are entries, the last one of either vector can be read.
    intro some globals sized node
    have readable : ∀ vector : List Int, vector.length = timer.size →
        ∃ last, back vector = .ok last := by
      intro vector length
      cases last : vector.getLast? with
      | none =>
        rw [List.getLast?_eq_none_iff.mp last, List.length_nil] at length
        omega
      | some last' => exact ⟨last', by rw [back, last]⟩
    obtain ⟨last0, found0⟩ := readable _ sized.globalOps0
    obtain ⟨last1, found1⟩ := readable _ sized.globalOps1
    by_cases first : node = 0
    · exact ⟨{ globals with ops0 := last0 }, by rw [Globals.setOps, if_pos first, found0]; rfl⟩
    · exact ⟨{ globals with ops1 := last1 }, by rw [Globals.setOps, if_neg first, found1]; rfl⟩

end Positive

/-- Adding counts to those of a node keeps their number. -/
theorem length_addOps {globalOps localOps after : List Int}
    (done : addOps globalOps localOps = .ok after) : after.length = globalOps.length := by
  -- By induction on both vectors.
  induction globalOps generalizing localOps after with
  | nil =>
    cases localOps with
    | nil => cases done; rfl
    | cons => cases done
  | cons globalOp globalOps ih =>
    cases localOps with
    | nil => cases done; rfl
    | cons localOp localOps =>
      obtain ⟨rest, added, last⟩ := Memory.bind_eq_ok done
      cases last
      exact congrArg Nat.succ (ih added)

/-- Whatever a thread does to the shared counts keeps the number of their entries. -/
theorem Globals.Sized.perform {timer : Timer} {globals after : Globals}
    (sized : globals.Sized timer) {update : Update} (done : update.perform globals = .ok after) :
    after.Sized timer := by
  -- One of the two vectors is replaced, or a total is set.
  obtain ⟨globalOps0, globalOps1⟩ := sized
  cases update with
  | addLocal node localOps =>
    rw [Update.perform, Globals.addLocal] at done
    -- The counts of one node get longer by nothing, as vectors are added entry by entry.
    split at done
    · obtain ⟨added, sum, last⟩ := Memory.bind_eq_ok done
      cases last
      exact ⟨(length_addOps sum).trans globalOps0, globalOps1⟩
    · obtain ⟨added, sum, last⟩ := Memory.bind_eq_ok done
      cases last
      exact ⟨globalOps0, (length_addOps sum).trans globalOps1⟩
  -- A total is set, and the vectors are left alone.
  | setOps node =>
    rw [Update.perform, Globals.setOps] at done
    split at done
    · obtain ⟨last, -, rest⟩ := Memory.bind_eq_ok done
      cases rest
      exact ⟨globalOps0, globalOps1⟩
    · obtain ⟨last, -, rest⟩ := Memory.bind_eq_ok done
      cases rest
      exact ⟨globalOps0, globalOps1⟩

/-- In every state of a run, whatever its threads do, the shared counts that it starts with keep the
number of their entries. -/
theorem callSystem_sized {timer : Timer} {setup : Setup} {call : Call numDs} {initial : Globals}
    (sized : initial.Sized timer)
    {state : State Worker Unit Unit Update (Except Fault Globals) Unit}
    (reachable : Reachable (callSystem setup call) (fun _ => .ok initial) state)
    {globals : Globals} (stored : state.store () = .ok globals) : globals.Sized timer := by
  -- By induction on the run; only an access changes the counts.
  induction reachable generalizing globals with
  | initial =>
    cases stored
    exact sized
  | @step middle after before step ih =>
    cases step with
    | start => exact ih stored
    | lock => exact ih stored
    | @access thread executed rest object update =>
      -- What the access has made of the counts it has made of those before it.
      have changed : middle.store () >>= update.perform = .ok globals := by
        rw [← stored]
        exact (Function.update_self (f := middle.store) () _).symm
      obtain ⟨globals', was, done⟩ := Memory.bind_eq_ok changed
      exact (ih was).perform done
    | unlock => exact ih stored
    | finish => exact ih stored

/-- The reading of the clock after some full intervals. -/
def Timer.after (timer : Timer) (i : Nat) : Int :=
  timer.startTimer + i * (timer.interval * second)

/-- A pass that starts where one interval ends and is logged where the next one does. -/
def Timer.stalled (timer : Timer) (tree : Fin numDs) (i : Nat) : Pass numDs :=
  ⟨timer.after i, ⟨tree, 0, 1, tree, tree, 0⟩, timer.after (i + 1)⟩

section Stalled

variable {timer : Timer} (interval : 0 < timer.interval)

include interval

/-- The clock does not go back from one interval to the next. -/
theorem Timer.after_le {first second : Nat} (ordered : first ≤ second) :
    timer.after first ≤ timer.after second := by
  have length : 0 ≤ timer.interval * Bench.second := by
    unfold Bench.second
    omega
  have scaled := Int.mul_le_mul_of_nonneg_right (Int.ofNat_le.mpr ordered) length
  unfold Timer.after
  omega

/-- Passes that each take one interval read a clock that does not go back. -/
theorem stalled_readings (tree : Fin numDs) (count : Nat) :
    (((List.range count).map (timer.stalled tree)).flatMap Pass.readings).Pairwise (· ≤ ·) ∧
      ∀ reading ∈ ((List.range count).map (timer.stalled tree)).flatMap Pass.readings,
        timer.after 0 ≤ reading ∧ reading ≤ timer.after count := by
  -- By induction on the number of passes, the last of which takes the last two readings.
  induction count with
  | zero => exact ⟨List.Pairwise.nil, fun reading member => nomatch member⟩
  | succ count ih =>
    -- The last pass is read at two boundaries, one after the other.
    have last : [timer.stalled tree count].flatMap Pass.readings =
        [timer.after count, timer.after (count + 1)] := rfl
    have step : timer.after count ≤ timer.after (count + 1) :=
      Timer.after_le interval (Nat.le_succ count)
    have start := Timer.after_le interval (Nat.zero_le count)
    rw [List.range_succ, List.map_append, List.map_singleton, List.flatMap_append, last]
    constructor
    · -- The earlier readings are not later than the first of the two.
      apply List.pairwise_append.mpr
      refine ⟨ih.1, List.pairwise_pair.mpr step, fun earlier member later inside => ?_⟩
      have most := (ih.2 earlier member).2
      rcases List.mem_pair.mp inside with same | same
      · omega
      · omega
    · intro reading member
      -- An earlier reading is between the start and the last boundary but one.
      rcases List.mem_append.mp member with before | inside
      · have both := ih.2 reading before
        omega
      · -- The two readings of the last pass are between them as well.
        rcases List.mem_pair.mp inside with same | same
        · omega
        · omega

/-- Passes that each take one interval, until the time is over, read a steady clock. -/
theorem stalled_steady (tree : Fin numDs) (count : Nat) :
    Steady timer (timer.after count) ((List.range count).map (timer.stalled tree)) := by
  -- The readings are sorted, between those at the start and at the end.
  obtain ⟨sorted, within⟩ := stalled_readings interval tree count
  have start : timer.startTimer = timer.after 0 := by
    rw [Timer.after, Int.natCast_zero, Int.zero_mul, Int.add_zero]
  have whole := Timer.after_le interval (Nat.zero_le count)
  apply List.pairwise_cons.mpr
  constructor
  · -- The start is before all readings and before the end.
    intro reading member
    rcases List.mem_append.mp member with inside | last
    · exact start ▸ (within reading inside).1
    · rw [List.mem_singleton.mp last, start]
      exact whole
  · -- The end is behind all readings.
    apply List.pairwise_append.mpr
    refine ⟨sorted, List.pairwise_singleton _ _, fun reading inside exit last => ?_⟩
    rw [List.mem_singleton.mp last]
    exact (within reading inside).2

end Stalled

/-- Passes that each take one interval are all logged, each where its interval ends. -/
theorem stalled_logs {timer : Timer} (tree : Fin numDs) {count : Nat}
    (running : ∀ i < count, timer.runs (timer.after i) = true) :
    logReadings timer ((List.range count).map (timer.stalled tree)) =
      (List.range count).map timer.due := by
  have due : ∀ i : Nat, timer.after (i + 1) = timer.due i := fun i => rfl
  have heads : ∀ pass ∈ (List.range count).map (timer.stalled tree),
      timer.runs pass.head = true := by
    intro pass member
    obtain ⟨i, inside, rfl⟩ := List.mem_map.mp member
    exact running i (List.mem_range.mp inside)
  have counted : ∀ pass ∈ (List.range count).map (timer.stalled tree),
      (!skips pass.draw) = true := by
    intro pass member
    obtain ⟨i, -, rfl⟩ := List.mem_map.mp member
    rfl
  -- No pass finds its time over, and none is skipped.
  rw [logReadings, List.takeWhile_eq_self_iff.mpr heads, List.filter_eq_self.mpr counted,
    List.map_map]
  exact List.map_congr_left fun i _ => due i

/-- A pass for each interval and one more are begun in time when the interval does not divide the
duration, and then the time is over. -/
theorem stalled_runs {timer : Timer} (duration : 0 < timer.duration)
    (interval : 0 < timer.interval) (rest : ¬ timer.interval ∣ timer.duration) :
    (∀ i < timer.size + 1, timer.runs (timer.after i) = true) ∧
      timer.runs (timer.after (timer.size + 1)) = false := by
  have whole := Timer.size_eq duration interval
  -- The duration ends within the interval behind those that fit into it.
  have most : timer.interval * (timer.duration / timer.interval) < timer.duration := by
    have split := Int.mul_ediv_add_emod timer.duration timer.interval
    have least := Int.emod_nonneg timer.duration interval.ne'
    have notZero : timer.duration % timer.interval ≠ 0 := fun zero =>
      rest (Int.dvd_of_emod_eq_zero zero)
    omega
  have next := Int.lt_mul_ediv_self_add (x := timer.duration) interval
  rw [whole] at most next
  have started : ∀ i, timer.startTimer ≤ timer.after i := by
    intro i
    have later := Timer.after_le interval (Nat.zero_le i)
    rwa [Timer.after, Int.natCast_zero, Int.zero_mul, Int.add_zero] at later
  constructor
  · intro i below
    have early := Timer.after_le interval (Nat.le_of_lt_succ below)
    have product := Int.mul_lt_mul_of_pos_right most (show 0 < second by decide)
    have split : timer.after timer.size =
        timer.startTimer + timer.interval * timer.size * second := by
      rw [Timer.after, ← Int.mul_assoc, Int.mul_comm timer.interval]
    rw [Timer.runs_iff (started i)]
    omega
  · have product := Int.mul_lt_mul_of_pos_right next (show 0 < second by decide)
    have split : timer.after (timer.size + 1) = timer.startTimer +
        (timer.interval * timer.size + timer.interval) * second := by
      rw [Timer.after, ← Int.mul_assoc, Int.natCast_succ, Int.add_mul, Int.one_mul,
        Int.mul_comm timer.interval]
    rw [Bool.eq_false_iff, ne_eq, Timer.runs_iff (started _)]
    omega

/-- Operations logged one by one at the ends of the intervals cover these. -/
theorem covers_due (timer : Timer) (count : Nat) :
    Covers timer.due count ((List.range count).map timer.due) := by
  intro i below
  refine ⟨i, timer.due i, ?_, ?_, le_rfl⟩
  · rw [List.length_map, List.length_range]
    omega
  · rw [List.getElem?_map, List.getElem?_range below]
    rfl

/-- Every write of a thread is within its log, and the last entries of the shared counts are read
within bounds, exactly if an interval fits into the duration and the last operations, one more than
there are entries, are not one by one logged behind the ends of the intervals; whatever the clock
reads, this is so exactly if the interval divides the duration. -/
theorem inBounds_iff {timer : Timer} (duration : 0 < timer.duration) (interval : 0 < timer.interval)
    (tree : Fin numDs) :
    (∀ exit (passes : List (Pass numDs)), Steady timer exit passes → timer.runs exit = false →
      (InBounds timer exit passes ↔ timer.interval ≤ timer.duration ∧
        ¬ Covers timer.due (timer.size + 1) (logReadings timer passes))) ∧
    ((∀ exit (passes : List (Pass numDs)), Steady timer exit passes → timer.runs exit = false →
      InBounds timer exit passes) ↔ timer.interval ∣ timer.duration) := by
  constructor
  · intro exit passes steady ended
    constructor
    · intro inBounds
      exact ⟨(reads_iff duration interval).mp inBounds.reads,
        (writes_iff duration interval steady ended).mp inBounds.writes⟩
    · intro ⟨fits, fewer⟩
      exact ⟨(writes_iff duration interval steady ended).mpr fewer,
        (reads_iff duration interval).mpr fits⟩
  · constructor
    · intro always
      -- Otherwise passes that each take one interval come to one that ends behind the duration.
      by_contra rest
      obtain ⟨running, ended⟩ := stalled_runs duration interval rest
      have steady := stalled_steady interval tree (timer.size + 1)
      have inBounds := always _ _ steady ended
      apply (writes_iff duration interval steady ended).mp inBounds.writes
      rw [stalled_logs tree running]
      exact covers_due timer (timer.size + 1)
    · intro divides exit passes steady ended
      have fits := Int.le_of_dvd duration divides
      exact ⟨countOps_ok duration.le interval divides steady ended,
        (reads_iff duration interval).mpr fits⟩

/-- The log of two operations that are behind the ends of the two intervals of the duration is
written within bounds. -/
theorem inBounds_iff_two :
    InBounds sampleTimer (41 * second) [samplePass 0 20, samplePass 20 41] := by
  have divides : sampleTimer.interval ∣ sampleTimer.duration := ⟨2, rfl⟩
  have duration : 0 < sampleTimer.duration := by decide
  have interval : 0 < sampleTimer.interval := by decide
  exact (inBounds_iff duration interval (Fin.last 0)).2.mpr divides _ _ (by decide) (by decide)

/-- A duration that the interval does not divide. -/
def unevenTimer : Timer := ⟨30, 20, 0⟩

/-- When the interval does not divide the duration, an operation that starts before the deadline and
ends behind the interval around it is logged out of range. -/
theorem not_inBounds_uneven :
    0 < unevenTimer.duration ∧ 0 < unevenTimer.interval ∧
      Steady unevenTimer (40 * second) [samplePass 0 20, samplePass 20 40] ∧
      unevenTimer.runs (40 * second) = false ∧
      countOps unevenTimer (40 * second) [samplePass 0 20, samplePass 20 40] =
        .error .outOfRange ∧
      ¬ InBounds unevenTimer (40 * second) [samplePass 0 20, samplePass 20 40] := by
  have fault : countOps unevenTimer (40 * second) [samplePass 0 20, samplePass 20 40] =
      .error .outOfRange := rfl
  refine ⟨by decide, by decide, by decide, by decide, fault, fun inBounds => ?_⟩
  obtain ⟨progress, done⟩ := inBounds.writes
  rw [fault] at done
  cases done

end SecretTyping.Bench
