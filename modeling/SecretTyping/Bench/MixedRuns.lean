import SecretTyping.Bench.RunResults

/-! Counts that are never reset show the operations of all runs so far. -/

namespace SecretTyping.Bench

open Accumulation Boundaries Locking

variable {numDs : Nat} {setup : Setup} {call : Call numDs}

/-- Every thread works on one of the nodes. -/
theorem sum_share (setup : Setup) (call : Call numDs) (threads : List Worker) :
    (threads.map fun worker => share worker.node ((call worker).localOps setup)).sum =
      (entrySum setup call (threads.filter fun worker => worker.node = 0),
        entrySum setup call (threads.filter fun worker => worker.node ≠ 0)) := by
  -- By induction on the threads, told apart by their nodes.
  induction threads with
  | nil => rfl
  | cons worker threads ih =>
    rw [List.map_cons, List.sum_cons, ih]
    by_cases first : worker.node = 0
    · rw [share, if_pos first, List.filter_cons_of_pos (by simpa using first),
        List.filter_cons_of_neg (by simpa using first), Prod.mk_add_mk, zero_add]
      exact congrArg (·, _) (funext fun i => by simp [entrySum])
    · rw [share, if_neg first, List.filter_cons_of_neg (by simpa using first),
        List.filter_cons_of_pos (by simpa using first), Prod.mk_add_mk, zero_add]
      exact congrArg (_, ·) (funext fun i => by simp [entrySum])

/-- The programs of a run take the lock of the counts and give it back. -/
theorem callSystem_disciplined (setup : Setup) (call : Call numDs) :
    Disciplined (callSystem setup call) := by
  -- All programs have the same four actions.
  refine ⟨?_, ?_⟩
  · rintro worker program ⟨final, -, rfl⟩
    simp [aggregate, Obeys, TwoPhase, released, heldAfter, Action.held, Action.releases]
  · rintro worker program ⟨final, -, rfl⟩
    simp [aggregate, heldAfter, Action.held]

/-- What threads do to the counts one after another. -/
def aggregateAll (setup : Setup) (call : Call numDs) (threads : List Worker) (globals : Globals) :
    Except Fault Globals :=
  threads.foldlM (fun globals worker =>
    globals.aggregate worker.node ((call worker).localOps setup)) globals

/-- Carried out alone, the program of a thread does what the thread does to the counts. -/
theorem replay_aggregate (store : Unit → Except Fault Globals) (node : Int)
    (localOps : List Int) :
    (replay (callSystem setup call).perform store (aggregate node localOps)).2 () =
      store () >>= Globals.aggregate node localOps := by
  -- The two accesses are carried out one after the other.
  simp only [aggregate, replay, callSystem, Function.update_self, bind_assoc]
  rfl

/-- Carried out one at a time, the programs of threads do what the threads do to the counts. -/
theorem serial_aggregate (setup : Setup) (call : Call numDs)
    (store : Unit → Except Fault Globals) (threads : List Worker) :
    (serial (callSystem setup call).perform store (threads.map fun worker =>
      aggregate worker.node ((call worker).localOps setup))).2 () =
      store () >>= aggregateAll setup call threads := by
  -- By induction on the threads, of which each starts with what the one before it leaves.
  induction threads generalizing store with
  | nil =>
    show store () = store () >>= aggregateAll setup call []
    cases store () <;> rfl
  | cons worker threads ih =>
    rw [List.map_cons, serial]
    show (serial _ (replay _ store _).2 _).2 () = _
    rw [ih, replay_aggregate, bind_assoc]
    rfl

/-- Threads add their shares to the counts one after another. -/
theorem aggregateAll_holds {total : Amount} {globals after : Globals} {threads : List Worker}
    (holds : globals.Holds setup.size total)
    (sized : ∀ worker ∈ threads, ((call worker).localOps setup).length = setup.size)
    (done : aggregateAll setup call threads globals = .ok after) :
    (threads ≠ [] → 0 < setup.size) ∧ after.Holds setup.size (total +
      (threads.map fun worker => share worker.node ((call worker).localOps setup)).sum) := by
  -- By induction on the threads, of which each adds to what those before it have left.
  induction threads generalizing total globals with
  | nil =>
    -- No thread has added anything.
    cases done
    exact ⟨fun absurd => (absurd rfl).elim, by simpa using holds⟩
  | cons worker threads ih =>
    obtain ⟨next, first, rest⟩ := Memory.bind_eq_ok done
    -- The first thread adds its share, for which there has to be an entry.
    obtain ⟨some, held⟩ := holds.aggregate (sized worker List.mem_cons_self) first
    obtain ⟨-, all⟩ := ih held
      (fun other inside => sized other (List.mem_cons_of_mem _ inside)) rest
    rw [List.map_cons, List.sum_cons, ← add_assoc]
    exact ⟨fun _ => some, all⟩

/-- The clock is steady for every thread of a run. -/
def SteadyCall (setup : Setup) (call : Call numDs) : Prop :=
  ∀ worker ∈ setup.workers,
    Steady ((call worker).timer setup) (call worker).exit (call worker).passes

/-- What is counted in a run on both nodes. -/
def amount (setup : Setup) (call : Call numDs) : Amount :=
  (entrySum setup call setup.threads0, entrySum setup call setup.threads1)

/-- The entries of a thread are what its operations log. -/
theorem SteadyCall.logged (steady : SteadyCall setup call) {worker : Worker}
    (member : worker ∈ setup.workers) {final : Progress}
    (counted : (call worker).count setup = .ok final) :
    (call worker).localOps setup = final.localOps ∧ ∃ marks, Logged ((call worker).timer setup)
      setup.size (logReadings ((call worker).timer setup) (call worker).passes) marks final := by
  -- The entries are those that its loop ends with.
  obtain ⟨size, marks, -, intervals, logged⟩ := exists_logged_of_ok (steady worker member) counted
  have same : setup.size = size := by
    rw [Setup.size]
    exact congrArg Int.toNat intervals
  refine ⟨by rw [Clock.localOps, counted], marks, same ▸ logged⟩

/-- A run adds what is counted in it to the counts, in whatever order its threads get there. -/
theorem MainBstTest.holds {results after : Results} {total : Amount}
    (ran : MainBstTest setup call results after) (steady : SteadyCall setup call)
    (holds : results.globals.Holds setup.size total) :
    after = results.push after.globals ∧
      after.globals.Holds setup.size (total + amount setup call) ∧
      ∀ worker ∈ setup.workers,
        0 < setup.size ∧ ∃ final, (call worker).count setup = .ok final := by
  obtain ⟨state, globals, reachable, quiet, joined, store, rfl⟩ := ran
  -- The threads have added their counts one after another, in some order of all of them.
  obtain ⟨order, perm, serialised⟩ :=
    reachable.serial_quiet (callSystem_disciplined setup call) quiet
  have threads := (perm.map Completed.thread).trans joined
  -- Each has done so with the section for what it has counted.
  have known : ∀ ended ∈ order, ∃ final, (call ended.thread).count setup = .ok final ∧
      ended.program = aggregate ended.thread.node final.localOps :=
    fun ended member => reachable.completed_known (perm.mem_iff.mp member)
  have counted : ∀ worker ∈ setup.workers,
      ∃ final, (call worker).count setup = .ok final := by
    intro worker member
    obtain ⟨ended, inside, rfl⟩ := List.mem_map.mp (threads.mem_iff.mpr member)
    obtain ⟨final, count, -⟩ := known ended inside
    exact ⟨final, count⟩
  have programs : order.map Completed.program = (order.map Completed.thread).map fun worker =>
      aggregate worker.node ((call worker).localOps setup) := by
    rw [List.map_map]
    refine List.map_congr_left fun ended member => ?_
    obtain ⟨final, count, same⟩ := known ended member
    simp only [Function.comp, same, Clock.localOps, count]
  -- The counts are those that the threads leave one after another.
  have done : aggregateAll setup call (order.map Completed.thread) results.globals =
      .ok globals := by
    have all := serial_aggregate setup call (fun _ => .ok results.globals)
      (order.map Completed.thread)
    rw [← programs, serialised] at all
    exact all.symm.trans store
  -- The entries of each are as many as there are intervals.
  have sized : ∀ worker ∈ order.map Completed.thread,
      ((call worker).localOps setup).length = setup.size := by
    intro worker member
    have inside := threads.mem_iff.mp member
    obtain ⟨final, count⟩ := counted worker inside
    obtain ⟨same, marks, logged⟩ := steady.logged inside count
    rw [same, logged.length]
  obtain ⟨some, all⟩ := aggregateAll_holds holds sized done
  -- The sum of the shares does not depend on the order.
  rw [(threads.map _).sum_eq, sum_share] at all
  exact ⟨rfl, all, fun worker member =>
    ⟨some (List.ne_nil_of_mem (threads.mem_iff.mpr member)), counted worker member⟩⟩

/-- The threads of a run have ended their loops, with an entry for each interval. -/
def Ended (setup : Setup) (call : Call numDs) : Prop :=
  ∀ worker ∈ setup.workers, 0 < setup.size ∧ ∃ final, (call worker).count setup = .ok final

/-- Amounts are summed up node by node and interval by interval. -/
theorem sum_apply (amounts : List Amount) (i : Nat) :
    amounts.sum.1 i = (amounts.map fun amount => amount.1 i).sum ∧
      amounts.sum.2 i = (amounts.map fun amount => amount.2 i).sum := by
  -- By induction on the amounts.
  induction amounts with
  | nil => exact ⟨rfl, rfl⟩
  | cons first rest ih =>
    rw [List.sum_cons, List.map_cons, List.map_cons, List.sum_cons, List.sum_cons, ← ih.1, ← ih.2]
    exact ⟨rfl, rfl⟩

/-- The last count of a run on the first node. -/
def lastOps0 (setup : Setup) (call : Call numDs) : Int := (amount setup call).1 (setup.size - 1)

/-- The last count of a run on the other node. -/
def lastOps1 (setup : Setup) (call : Call numDs) : Int := (amount setup call).2 (setup.size - 1)

/-- What run after run leaves: sums of what was counted in all runs so far. -/
structure Summed (setup : Setup) (calls : List (Call numDs)) (results : Results) : Prop where
  globals : results.globals.Holds setup.size (calls.map (amount setup)).sum
  numOps0 : results.numOps0 = shown 0 (calls.map (lastOps0 setup))
  numOps1 : results.numOps1 = shown 0 (calls.map (lastOps1 setup))
  totalOps : results.totalOps = shown 0 (calls.map fun call =>
    lastOps0 setup call + lastOps1 setup call)
  ended : ∀ call ∈ calls, Ended setup call

/-- Counts that are never reset are summed up from run to run. -/
theorem Runs.summed {calls : List (Call numDs)} {results : Results}
    (runs : Runs setup calls results) (steady : ∀ call ∈ calls, SteadyCall setup call) :
    Summed setup calls results := by
  -- By induction on the runs, each of which adds what is counted in it.
  induction runs with
  | start initialised => exact ⟨globalInit_holds initialised, rfl, rfl, rfl, by simp⟩
  | @call calls call results after before ran ih =>
    have summed := ih fun earlier inside => steady earlier (List.mem_append_left _ inside)
    obtain ⟨pushed, holds, ended⟩ := ran.holds (steady call (by simp)) summed.globals
    -- The totals are the sums of the last entries of all runs.
    have ops0 : after.globals.ops0 =
        0 + (calls.map (lastOps0 setup)).sum + lastOps0 setup call := by
      rw [holds.ops0, zero_add]
      show (calls.map (amount setup)).sum.1 _ + _ = _
      rw [(sum_apply _ _).1, List.map_map]
      rfl
    have ops1 : after.globals.ops1 =
        0 + (calls.map (lastOps1 setup)).sum + lastOps1 setup call := by
      rw [holds.ops1, zero_add]
      show (calls.map (amount setup)).sum.2 _ + _ = _
      rw [(sum_apply _ _).2, List.map_map]
      rfl
    -- What the counts are after one more run.
    refine ⟨?_, ?_, ?_, ?_, fun other inside => ?_⟩
    · rw [List.map_append, List.map_singleton, List.sum_append, List.sum_singleton]
      exact holds
    · -- The shown numbers are those of the counters after each run.
      rw [pushed, List.map_append, List.map_singleton, shown_concat, ← ops0, ← summed.numOps0]
      rfl
    · rw [pushed, List.map_append, List.map_singleton, shown_concat, ← ops1, ← summed.numOps1]
      rfl
    · -- The two totals of a run make up the total of both.
      have both : after.globals.ops0 + after.globals.ops1 =
          0 + (calls.map fun call => lastOps0 setup call + lastOps1 setup call).sum +
            (lastOps0 setup call + lastOps1 setup call) := by
        rw [ops0, ops1, List.sum_map_add]
        omega
      rw [pushed, List.map_append, List.map_singleton, shown_concat, ← both, ← summed.totalOps]
      rfl
    · -- Every run so far has ended.
      rcases List.mem_append.mp inside with earlier | last
      · exact summed.ended other earlier
      · rw [List.mem_singleton.mp last]
        exact ended

/-- The threads on the first node are threads of the run. -/
theorem threads0_subset (setup : Setup) : setup.threads0 ⊆ setup.workers :=
  List.filter_sublist.subset

/-- The threads on the other node are threads of the run. -/
theorem threads1_subset (setup : Setup) : setup.threads1 ⊆ setup.workers :=
  List.filter_sublist.subset

/-- No entry of a thread is negative. -/
theorem entry_nonneg (steady : SteadyCall setup call) (ended : Ended setup call) {worker : Worker}
    (member : worker ∈ setup.workers) (i : Nat) : 0 ≤ ((call worker).localOps setup).getD i 0 := by
  -- An entry that has been made is positive, and the others are zero.
  obtain ⟨-, final, counted⟩ := ended worker member
  obtain ⟨same, marks, logged⟩ := steady.logged member counted
  rw [same]
  rcases Nat.lt_or_ge i (passed ((call worker).timer setup).due
    (logReadings ((call worker).timer setup) (call worker).passes)) with made | unmade
  · exact (logged.entry_pos made).le
  · exact (logged.entry_zero unmade).ge

/-- Threads count nothing in an interval exactly when none of them has an entry. -/
theorem entrySum_eq_zero_iff (steady : SteadyCall setup call) (ended : Ended setup call)
    {threads : List Worker} (known : threads ⊆ setup.workers) (i : Nat) :
    0 ≤ entrySum setup call threads i ∧ (entrySum setup call threads i = 0 ↔
      ∀ worker ∈ threads, ((call worker).localOps setup).getD i 0 = 0) := by
  -- No entry is negative, so that a sum of zero has only zeros.
  have nonneg : ∀ count ∈ threads.map fun worker => ((call worker).localOps setup).getD i 0,
      0 ≤ count := by
    intro count inside
    obtain ⟨worker, member, rfl⟩ := List.mem_map.mp inside
    exact entry_nonneg steady ended (known member) i
  refine ⟨List.sum_nonneg nonneg, ?_⟩
  rw [entrySum, sum_eq_zero_iff nonneg]
  exact List.forall_mem_map

/-- Nothing is counted on either node exactly when no thread has an entry. -/
theorem amount_entry_zero (steady : SteadyCall setup call) (ended : Ended setup call) (i : Nat) :
    ((amount setup call).1 i = 0 ∧ (amount setup call).2 i = 0) ↔
      ∀ worker ∈ setup.workers, ((call worker).localOps setup).getD i 0 = 0 := by
  -- Each thread is on one of the nodes.
  show entrySum setup call setup.threads0 i = 0 ∧ entrySum setup call setup.threads1 i = 0 ↔ _
  rw [(entrySum_eq_zero_iff steady ended (threads0_subset setup) i).2,
    (entrySum_eq_zero_iff steady ended (threads1_subset setup) i).2]
  constructor
  · intro ⟨first, other⟩ worker member
    by_cases node : worker.node = 0
    · exact first worker (List.mem_filter.mpr ⟨member, by simpa using node⟩)
    · exact other worker (List.mem_filter.mpr ⟨member, by simpa using node⟩)
  · intro none
    exact ⟨fun worker inside => none worker (List.mem_filter.mp inside).1,
      fun worker inside => none worker (List.mem_filter.mp inside).1⟩

/-- The last operations cover all intervals exactly when all boundaries are passed. -/
theorem covers_iff {timer : Timer} {exit : Int} {passes : List (Pass numDs)}
    (steady : Steady timer exit passes) {size : Nat} (some : 0 < size)
    (intervals : timer.duration.tdiv timer.interval = size) :
    Covers timer.due size (logReadings timer passes) ↔
      size ≤ passed timer.due (logReadings timer passes) := by
  rcases Int.lt_or_le 0 timer.interval with positive | nonpos
  · -- Where intervals are positive, the boundaries that are passed are counted.
    exact (le_passed_iff _ (timer.due_rising positive) steady.logReadings size).symm
  · -- Of a negative duration the time is over at the start.
    have ended : timer.duration < 0 := by
      by_contra nonneg
      have none := Int.tdiv_nonpos_of_nonneg_of_nonpos (Int.not_lt.mp nonneg) nonpos
      omega
    -- No operation is logged, as each pass would have to find the loop running.
    have nothing : logReadings timer passes = [] := by
      refine List.eq_nil_iff_forall_not_mem.mpr fun reading logged => ?_
      obtain ⟨pass, member, running, -⟩ := exists_pass logged
      have started := steady.start_le member
      rw [Timer.runs_iff started, second] at running
      omega
    rw [nothing]
    refine iff_of_false (fun covers => ?_) (fun all => ?_)
    · -- There is no reading to cover the first boundary.
      obtain ⟨position, reading, -, there, -⟩ := covers 0 some
      cases there
    · exact absurd all (Nat.not_le.mpr some)

/-- Threads count something by the end of the last interval exactly when one of them fills its
entries. -/
theorem lastOps_zero (steady : SteadyCall setup call) (ended : Ended setup call) :
    (lastOps0 setup call = 0 ∧ lastOps1 setup call = 0) ↔ ¬ Fills setup call := by
  -- Thread by thread: its last entry has been made when all boundaries are passed.
  rw [lastOps0, lastOps1, amount_entry_zero steady ended, Fills]
  push Not
  refine forall₂_congr fun worker member => ?_
  obtain ⟨some, final, counted⟩ := ended worker member
  obtain ⟨same, marks, logged⟩ := steady.logged member counted
  have intervals : setup.duration.tdiv setup.interval = setup.size := by
    rw [Setup.size] at some ⊢
    omega
  rw [same, covers_iff (steady worker member) some intervals]
  constructor
  · -- The last entry of the thread would be the number of its operations, which is positive.
    intro zero all
    have positive := logged.entry_pos (show setup.size - 1 < _ by omega)
    omega
  · -- A boundary that is not passed has no entry.
    intro few
    exact logged.entry_zero (by omega)

/-- Threads count something exactly when one of them completes an operation after an interval. -/
theorem amount_zero (steady : SteadyCall setup call) (ended : Ended setup call) :
    amount setup call = 0 ↔ ¬ Logs setup call := by
  -- Thread by thread: it has an entry when it passes the first boundary.
  have entries : amount setup call = 0 ↔
      ∀ i, (amount setup call).1 i = 0 ∧ (amount setup call).2 i = 0 := by
    rw [Prod.ext_iff, funext_iff, funext_iff, ← forall_and]
    rfl
  rw [entries, Logs]
  simp only [amount_entry_zero steady ended]
  push Not
  rw [forall_comm]
  refine forall_congr' fun worker => ?_
  rw [forall_comm]
  refine forall_congr' fun member => ?_
  obtain ⟨-, final, counted⟩ := ended worker member
  obtain ⟨same, marks, logged⟩ := steady.logged member counted
  rw [same]
  have passes := (passed_pos_iff ((call worker).timer setup).due
    (logReadings ((call worker).timer setup) (call worker).passes)).not
  -- The first boundary is passed just where there is some entry.
  push Not at passes
  rw [← passes]
  constructor
  · -- The entry for the first boundary would be positive.
    intro zeros
    by_contra some
    have positive := logged.entry_pos (show 0 < _ by omega)
    have zero := zeros 0
    omega
  · -- Without the first boundary there are no entries at all.
    intro none i
    exact logged.entry_zero (by omega)

/-- The last entry of a thread is the one of the last interval. -/
theorem opsOf_eq (steady : SteadyCall setup call) (ended : Ended setup call)
    {threads : List Worker} (known : threads ⊆ setup.workers) :
    opsOf setup call threads = entrySum setup call threads (setup.size - 1) := by
  -- Each thread has as many entries as there are intervals.
  rw [opsOf, entrySum]
  refine congrArg List.sum (List.map_congr_left fun worker inside => ?_)
  obtain ⟨-, final, counted⟩ := ended worker (known inside)
  obtain ⟨same, marks, logged⟩ := steady.logged (known inside) counted
  rw [same, List.getLast?_eq_getElem?, logged.length, List.getD_eq_getElem?_getD]

/-- Behind the last interval nothing is counted. -/
theorem amount_beyond (steady : SteadyCall setup call) (ended : Ended setup call) {i : Nat}
    (beyond : setup.size ≤ i) : (amount setup call).1 i = 0 ∧ (amount setup call).2 i = 0 := by
  -- No thread has an entry there.
  refine (amount_entry_zero steady ended i).mpr fun worker member => ?_
  obtain ⟨-, final, counted⟩ := ended worker member
  obtain ⟨same, marks, logged⟩ := steady.logged member counted
  rw [same]
  exact logged.entry_zero (logged.within.trans beyond)

/-- Amounts without anything behind the last interval are told apart by their entries. -/
theorem entries_inj {size : Nat} {first second : Amount}
    (none : ∀ i, size ≤ i → first.1 i = 0 ∧ first.2 i = 0)
    (none' : ∀ i, size ≤ i → second.1 i = 0 ∧ second.2 i = 0) :
    ((List.range size).map first.1 = (List.range size).map second.1 ∧
      (List.range size).map first.2 = (List.range size).map second.2) ↔ first = second := by
  -- The entries are compared one by one, and the others are zero on both sides.
  refine ⟨?_, fun same => same ▸ ⟨rfl, rfl⟩⟩
  intro ⟨one, other⟩
  rw [List.map_inj_left] at one other
  refine Prod.ext (funext fun i => ?_) (funext fun i => ?_)
  · rcases Nat.lt_or_ge i size with inside | beyond
    · exact one i (List.mem_range.mpr inside)
    · rw [(none i beyond).1, (none' i beyond).1]
  · rcases Nat.lt_or_ge i size with inside | beyond
    · exact other i (List.mem_range.mpr inside)
    · rw [(none i beyond).2, (none' i beyond).2]

/-- The counts left in the end are those of one run exactly when no two runs count anything. -/
theorem unmixed_iff {calls : List (Call numDs)} {results : Results}
    (summed : Summed setup calls results) (steady : ∀ call ∈ calls, SteadyCall setup call)
    (some : calls ≠ []) :
    (∃ call ∈ calls,
      results.globals.globalOps0 =
        (List.range setup.size).map (entrySum setup call setup.threads0) ∧
      results.globals.globalOps1 =
        (List.range setup.size).map (entrySum setup call setup.threads1)) ↔
      calls.Pairwise fun first second => ¬ (Logs setup first ∧ Logs setup second) := by
  -- The counts are a sum of amounts of which none is negative.
  -- Behind the size of the vectors nothing is counted.
  have beyond : ∀ call ∈ calls, ∀ i, setup.size ≤ i →
      (amount setup call).1 i = 0 ∧ (amount setup call).2 i = 0 :=
    fun call inside i => amount_beyond (steady call inside) (summed.ended call inside)
  have sumBeyond : ∀ i, setup.size ≤ i → (calls.map (amount setup)).sum.1 i = 0 ∧
      (calls.map (amount setup)).sum.2 i = 0 := by
    intro i past
    rw [(sum_apply _ i).1, (sum_apply _ i).2, List.map_map, List.map_map]
    exact ⟨List.sum_eq_zero (List.forall_mem_map.mpr fun call inside =>
        (beyond call inside i past).1),
      List.sum_eq_zero (List.forall_mem_map.mpr fun call inside =>
        (beyond call inside i past).2)⟩
  -- No amount is negative, as entries are numbers of operations.
  have nonneg : ∀ count ∈ calls.map (amount setup), 0 ≤ count := by
    intro count inside
    obtain ⟨call, member, rfl⟩ := List.mem_map.mp inside
    exact ⟨fun i => (entrySum_eq_zero_iff (steady call member) (summed.ended call member)
        (threads0_subset setup) i).1,
      fun i => (entrySum_eq_zero_iff (steady call member) (summed.ended call member)
        (threads1_subset setup) i).1⟩
  -- The counts are those of one run just where the sum of all amounts is one of them.
  have one : (∃ call ∈ calls,
      results.globals.globalOps0 =
        (List.range setup.size).map (entrySum setup call setup.threads0) ∧
      results.globals.globalOps1 =
        (List.range setup.size).map (entrySum setup call setup.threads1)) ↔
      (calls.map (amount setup)).sum ∈ calls.map (amount setup) := by
    rw [summed.globals.globalOps0, summed.globals.globalOps1, List.mem_map]
    refine exists_congr fun call => and_congr_right fun inside => ?_
    rw [eq_comm (a := amount setup call)]
    exact entries_inj sumBeyond (beyond call inside)
  -- A sum of such amounts is one of them just where all others are zero, two by two.
  rw [one, sum_mem_iff nonneg (by simpa using some), List.pairwise_map]
  refine List.Pairwise.iff_of_mem fun {first second} inside inside' => ?_
  rw [amount_zero (steady first inside) (summed.ended first inside),
    amount_zero (steady second inside') (summed.ended second inside'), not_and_or]

/-- The results of every run are its own exactly when only the last run fills the entries of a
thread, and no two runs have threads that complete operations after an interval. -/
theorem perRun_iff {calls : List (Call numDs)} {results : Results}
    (runs : Runs setup calls results) (steady : ∀ call ∈ calls, SteadyCall setup call) :
    PerRun setup calls results ↔ (∀ call ∈ calls.dropLast, ¬ Fills setup call) ∧
      calls.Pairwise fun first second => ¬ (Logs setup first ∧ Logs setup second) := by
  -- All results are shown by counters that are never reset.
  have summed := runs.summed steady
  -- What a run counts is in the last entries of its threads.
  have ops0 : (calls.map fun call => opsOf setup call setup.threads0) =
      calls.map (lastOps0 setup) := List.map_congr_left fun call inside =>
    opsOf_eq (steady call inside) (summed.ended call inside) (threads0_subset setup)
  have ops1 : (calls.map fun call => opsOf setup call setup.threads1) =
      calls.map (lastOps1 setup) := List.map_congr_left fun call inside =>
    opsOf_eq (steady call inside) (summed.ended call inside) (threads1_subset setup)
  have total : (calls.map fun call =>
      opsOf setup call setup.threads0 + opsOf setup call setup.threads1) =
      calls.map fun call => lastOps0 setup call + lastOps1 setup call :=
    List.map_congr_left fun call inside => congrArg₂ (· + ·)
      (opsOf_eq (steady call inside) (summed.ended call inside) (threads0_subset setup))
      (opsOf_eq (steady call inside) (summed.ended call inside) (threads1_subset setup))
  -- That no last entry is made is that the last entries are zero.
  have fills : (∀ call ∈ calls.dropLast, ¬ Fills setup call) ↔
      ∀ call ∈ calls.dropLast, lastOps0 setup call = 0 ∧ lastOps1 setup call = 0 :=
    forall₂_congr fun call inside =>
      (lastOps_zero (steady call (List.mem_of_mem_dropLast inside))
        (summed.ended call (List.mem_of_mem_dropLast inside))).symm
  rw [fills]
  constructor
  · -- The results of every run are its own just where those before it have left nothing in the
    -- totals.
    intro perRun
    have first := (summed.numOps0.symm.trans perRun.numOps0).trans ops0
    have other := (summed.numOps1.symm.trans perRun.numOps1).trans ops1
    rw [shown_map_iff] at first other
    refine ⟨fun call inside => ⟨first call inside, other call inside⟩, ?_⟩
    -- What is left in the counts is of one of the runs, so no two of them log anything.
    rcases perRun.unmixed with rfl | unmixed
    · exact .nil
    · obtain ⟨call, inside, -⟩ := id unmixed
      exact (unmixed_iff summed steady (List.ne_nil_of_mem inside)).mp unmixed
  · intro ⟨zeros, apart⟩
    refine ⟨?_, ?_, ?_, ?_⟩
    · -- Conversely, the counters show what each run counts if those before it count nothing.
      rw [ops0, summed.numOps0, shown_map_iff]
      exact fun call inside => (zeros call inside).1
    · rw [ops1, summed.numOps1, shown_map_iff]
      exact fun call inside => (zeros call inside).2
    · rw [total, summed.totalOps, shown_map_iff]
      intro call inside
      rw [(zeros call inside).1, (zeros call inside).2, add_zero]
    · -- With no runs at all, nothing has to be counted in one of them.
      by_cases none : calls = []
      · exact .inl none
      · exact .inr ((unmixed_iff summed steady none).mpr apart)

/-- A thread that nobody keeps from the counts can do its part alone. -/
theorem exists_aggregate {store : Unit → Except Fault Globals}
    {state : State Worker Unit Unit Update (Except Fault Globals) Unit}
    (reachable : Reachable (callSystem setup call) store state) (quiet : state.Quiet)
    (free : state.holder () = none) {worker : Worker} {final : Progress}
    (counted : (call worker).count setup = .ok final) :
    ∃ after, Reachable (callSystem setup call) store after ∧ after.Quiet ∧
      after.holder () = none ∧
      after.completed.map Completed.thread = state.completed.map Completed.thread ++ [worker] ∧
      after.store () =
        state.store () >>= Globals.aggregate worker.node ((call worker).localOps setup) := by
  -- The thread takes the lock, does its two accesses, gives the lock back and ends.
  -- Its program is the section at the end, with its own counts.
  have known : (callSystem setup call).programs worker
      (aggregate worker.node final.localOps) := ⟨final, counted, rfl⟩
  have began := reachable.begin worker (quiet worker) known
  have reached := ((((began.take worker).take worker).take worker).take worker).take worker
  refine ⟨_, reached, fun other => ?_, ?_, ?_, ?_⟩
  · -- Every other thread is where it was, and this one is done.
    have idle := quiet other
    by_cases same : other = worker <;>
      simp [State.take, State.put, State.setHolder, State.write, State.record, free, aggregate,
        same, idle]
  · simp [State.take, State.put, State.setHolder, State.write, State.record, free, aggregate]
  · simp [State.take, State.put, State.setHolder, State.write, State.record, free, aggregate]
  · simp only [State.take, State.put, State.setHolder, State.write, State.record, free, aggregate,
      callSystem, Function.update_self, bind_assoc, Clock.localOps, counted]
    rfl

/-- Threads can do their parts one after another. -/
theorem exists_aggregateAll {store : Unit → Except Fault Globals} {threads : List Worker}
    (counted : ∀ worker ∈ threads, ∃ final, (call worker).count setup = .ok final)
    {state : State Worker Unit Unit Update (Except Fault Globals) Unit}
    (reachable : Reachable (callSystem setup call) store state) (quiet : state.Quiet)
    (free : state.holder () = none) :
    ∃ after, Reachable (callSystem setup call) store after ∧ after.Quiet ∧
      after.completed.map Completed.thread = state.completed.map Completed.thread ++ threads ∧
      after.store () = state.store () >>= aggregateAll setup call threads := by
  -- By induction on the threads, each of which finds the lock free again.
  induction threads generalizing state with
  | nil =>
    -- With no threads left nothing changes.
    refine ⟨state, reachable, quiet, (List.append_nil _).symm, ?_⟩
    cases state.store () <;> rfl
  | cons worker threads ih =>
    -- The next thread does its part, and the others find the lock free after it.
    obtain ⟨final, count⟩ := counted worker List.mem_cons_self
    obtain ⟨next, reached, idle, released, ended, stored⟩ :=
      exists_aggregate reachable quiet free count
    obtain ⟨after, reached, idle, all, left⟩ :=
      ih (fun other inside => counted other (List.mem_cons_of_mem _ inside)) reached idle released
    refine ⟨after, reached, idle, ?_, ?_⟩
    · rw [all, ended, List.append_assoc, List.singleton_append]
    · rw [left, stored, bind_assoc]
      rfl

/-- A run can end with its threads doing their parts in any order. -/
theorem exists_mainBstTest {results : Results} {globals : Globals} {order : List Worker}
    (perm : order.Perm setup.workers)
    (counted : ∀ worker ∈ order, ∃ final, (call worker).count setup = .ok final)
    (done : aggregateAll setup call order results.globals = .ok globals) :
    MainBstTest setup call results (results.push globals) := by
  -- Before the first thread nobody holds the lock.
  obtain ⟨after, reached, quiet, joined, left⟩ :=
    exists_aggregateAll counted .initial (fun _ => rfl) rfl
  refine ⟨after, globals, reached, quiet, ?_, ?_, rfl⟩
  · rw [joined]
    exact perm
  · rw [left]
    exact done

/-- One interval of 20 seconds for two threads. -/
def sampleSetup : Setup := ⟨20, 20, .numa, 2⟩

/-- A run in which every thread completes one operation, behind the end of the interval. -/
def sampleCall : Call 1 := fun _ => ⟨0, 21 * second, [samplePass 0 21]⟩

/-- What one such run leaves and what it has for results, after as many operations on each node. -/
def sampleGlobals (ops : Int) : Globals := ⟨[ops], [ops], ops, ops⟩

/-- The clock is steady in the run. -/
theorem sampleCall_steady : SteadyCall sampleSetup sampleCall := by
  intro worker member
  show Steady ⟨20, 20, 0⟩ (21 * second) [samplePass 0 21]
  decide

/-- Every such run adds one operation on each node. -/
theorem exists_sampleCall {results : Results} (ops : Int)
    (before : results.globals = sampleGlobals ops) :
    MainBstTest sampleSetup sampleCall results (results.push (sampleGlobals (ops + 1))) := by
  refine exists_mainBstTest (List.Perm.refl _) (fun worker _ => ⟨_, rfl⟩) ?_
  rw [before]
  rfl

/-- What one such run has for results. -/
def sampleResults : Results := ⟨sampleGlobals 1, [1], [1], [2]⟩

/-- Such a run can be the first. -/
theorem sampleCall_runs : Runs sampleSetup [sampleCall] sampleResults := by
  have started : Runs sampleSetup ([] : List (Call 1)) ⟨sampleGlobals 0, [], [], []⟩ := .start rfl
  exact started.call (exists_sampleCall 0 rfl)

/-- One run has its own results. -/
theorem perRun_iff_once : PerRun sampleSetup [sampleCall] sampleResults := by
  have steady : ∀ call ∈ [sampleCall], SteadyCall sampleSetup call := by
    intro call inside
    rw [List.mem_singleton.mp inside]
    exact sampleCall_steady
  exact (perRun_iff sampleCall_runs steady).mpr ⟨by simp, List.pairwise_singleton _ _⟩

/-- The results of a second run are those of both runs. -/
theorem not_perRun_twice : ∃ results, Runs sampleSetup [sampleCall, sampleCall] results ∧
    ¬ PerRun sampleSetup [sampleCall, sampleCall] results := by
  refine ⟨sampleResults.push (sampleGlobals 2), ?_, fun perRun => ?_⟩
  · exact sampleCall_runs.call (exists_sampleCall 1 rfl)
  · exact absurd perRun.numOps0 (by decide)

end SecretTyping.Bench
