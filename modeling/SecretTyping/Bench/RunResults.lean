import Mathlib.Algebra.Order.Monoid.Prod
import Mathlib.Algebra.Order.Pi
import Mathlib.Algebra.Order.Ring.Int
import SecretTyping.Bench.IntervalLog
import SecretTyping.Bench.Threads
import SecretTyping.Lib.Accumulation
import SecretTyping.Lib.Serial

/-! The results of the tree benchmark when it is run several times. -/

namespace SecretTyping.Bench

open Accumulation Boundaries Locking

/-- The counts of the operations on both nodes, which all threads share. -/
structure Globals where
  globalOps0 : List Int
  globalOps1 : List Int
  ops0 : Int
  ops1 : Int
  deriving DecidableEq

/-- Set up the counts, once for all runs. -/
def globalInit (duration interval : Int) : Except Fault Globals := do
  return ⟨← resize duration interval, ← resize duration interval, 0, 0⟩

/-- The last entry of a vector. -/
def back (vector : List Int) : Except Fault Int :=
  match vector.getLast? with
  | some last => .ok last
  | none => .error .outOfRange

/-- Add the counts of a thread to those of its node. -/
def Globals.addLocal (node : Int) (localOps : List Int) (globals : Globals) :
    Except Fault Globals := do
  if node = 0 then
    return { globals with globalOps0 := ← addOps globals.globalOps0 localOps }
  else
    return { globals with globalOps1 := ← addOps globals.globalOps1 localOps }

/-- Set the number of operations on a node to its last count. -/
def Globals.setOps (node : Int) (globals : Globals) : Except Fault Globals := do
  if node = 0 then
    return { globals with ops0 := ← back globals.globalOps0 }
  else
    return { globals with ops1 := ← back globals.globalOps1 }

/-- What a thread does to the counts. -/
inductive Update where
  | addLocal (node : Int) (localOps : List Int)
  | setOps (node : Int)

/-- Carry out what a thread does to the counts. -/
def Update.perform : Update → Globals → Except Fault Globals
  | .addLocal node localOps => Globals.addLocal node localOps
  | .setOps node => Globals.setOps node

/-- What a thread does at its end, under the lock of the counts. -/
def aggregate (node : Int) (localOps : List Int) : List (Action Unit Unit Update) :=
  [.lock (), .access () (.addLocal node localOps), .access () (.setOps node), .unlock ()]

/-- The options of all runs. -/
structure Setup where
  duration : Int
  interval : Int
  threadConfig : ThreadConfig
  numThreads : Int

/-- The threads of each run. -/
def Setup.workers (setup : Setup) : List Worker :=
  Bench.workers .bst setup.threadConfig setup.numThreads

/-- What the clock shows to a thread, and what the thread draws. -/
structure Clock (numDs : Nat) where
  startTimer : Int
  exit : Int
  passes : List (Pass numDs)

variable {numDs : Nat}

/-- When the loop of a thread starts and how long it runs. -/
def Clock.timer (setup : Setup) (clock : Clock numDs) : Timer :=
  ⟨setup.duration, setup.interval, clock.startTimer⟩

/-- What a thread counts. -/
def Clock.count (setup : Setup) (clock : Clock numDs) : Except Fault Progress :=
  countOps (clock.timer setup) clock.exit clock.passes

/-- A run of the test with what each of its threads sees. -/
abbrev Call (numDs : Nat) := Worker → Clock numDs

/-- The threads of a run at their shared counts, in any interleaving. -/
def callSystem (setup : Setup) (call : Call numDs) :
    System Worker Unit Unit Update (Except Fault Globals) Unit where
  guard _ := ()
  perform update globals := ((), globals >>= update.perform)
  programs worker program := ∃ final, (call worker).count setup = .ok final ∧
    program = aggregate worker.node final.localOps

/-- The shared counts and the results of the runs so far. -/
structure Results where
  globals : Globals
  numOps0 : List Int
  numOps1 : List Int
  totalOps : List Int

/-- Note the results of one more run. -/
def Results.push (results : Results) (globals : Globals) : Results where
  globals := globals
  numOps0 := results.numOps0 ++ [globals.ops0]
  numOps1 := results.numOps1 ++ [globals.ops1]
  totalOps := results.totalOps ++ [globals.ops0 + globals.ops1]

/-- One run: all threads have added their counts and have been joined, and the results are noted. -/
def MainBstTest (setup : Setup) (call : Call numDs) (results after : Results) : Prop :=
  ∃ state globals, Reachable (callSystem setup call) (fun _ => .ok results.globals) state ∧
    state.Quiet ∧ (state.completed.map Completed.thread).Perm setup.workers ∧
    state.store () = .ok globals ∧ after = results.push globals

/-- Run after run, with the counts set up before the first one. -/
inductive Runs (setup : Setup) : List (Call numDs) → Results → Prop
  | start {globals : Globals}
      (initialised : globalInit setup.duration setup.interval = .ok globals) :
      Runs setup [] ⟨globals, [], [], []⟩
  | call {calls : List (Call numDs)} {call : Call numDs} {results after : Results}
      (before : Runs setup calls results) (ran : MainBstTest setup call results after) :
      Runs setup (calls ++ [call]) after

/-- The number of intervals. -/
def Setup.size (setup : Setup) : Nat :=
  (setup.duration.tdiv setup.interval).toNat

/-- The threads that work on the first node. -/
def Setup.threads0 (setup : Setup) : List Worker :=
  setup.workers.filter fun worker => worker.node = 0

/-- The threads that work on the other node. -/
def Setup.threads1 (setup : Setup) : List Worker :=
  setup.workers.filter fun worker => worker.node ≠ 0

/-- The entries of a thread, one for each interval. -/
def Clock.localOps (setup : Setup) (clock : Clock numDs) : List Int :=
  match clock.count setup with
  | .ok final => final.localOps
  | .error _ => []

/-- What threads count up to the end of an interval in one run. -/
def entrySum (setup : Setup) (call : Call numDs) (threads : List Worker) (i : Nat) : Int :=
  (threads.map fun worker => ((call worker).localOps setup).getD i 0).sum

/-- What threads count in one run, in their last entries. -/
def opsOf (setup : Setup) (call : Call numDs) (threads : List Worker) : Int :=
  (threads.map fun worker => ((call worker).localOps setup).getLast?.getD 0).sum

/-- The results of every run are what was counted in it, and what is left in the shared counts is
what was counted in one of the runs. -/
structure PerRun (setup : Setup) (calls : List (Call numDs)) (results : Results) : Prop where
  numOps0 : results.numOps0 = calls.map fun call => opsOf setup call setup.threads0
  numOps1 : results.numOps1 = calls.map fun call => opsOf setup call setup.threads1
  totalOps : results.totalOps = calls.map fun call =>
    opsOf setup call setup.threads0 + opsOf setup call setup.threads1
  unmixed : calls = [] ∨ ∃ call ∈ calls,
    results.globals.globalOps0 =
      (List.range setup.size).map (entrySum setup call setup.threads0) ∧
    results.globals.globalOps1 =
      (List.range setup.size).map (entrySum setup call setup.threads1)

/-- Some thread completes an operation when an interval of a run is over. -/
def Logs (setup : Setup) (call : Call numDs) : Prop :=
  ∃ worker ∈ setup.workers,
    ∃ reading ∈ logReadings ((call worker).timer setup) (call worker).passes,
      ((call worker).timer setup).due 0 ≤ reading

/-- The last operations of some thread in a run, as many as there are intervals, are one by one
completed behind the ends of the intervals. -/
def Fills (setup : Setup) (call : Call numDs) : Prop :=
  ∃ worker ∈ setup.workers, Covers ((call worker).timer setup).due setup.size
    (logReadings ((call worker).timer setup) (call worker).passes)

/-- What is counted, by interval on the first node and on the other one. -/
abbrev Amount := (Nat → Int) × (Nat → Int)

/-- The counts are what has been added up in as many entries as there are intervals. -/
structure Globals.Holds (size : Nat) (total : Amount) (globals : Globals) : Prop where
  globalOps0 : globals.globalOps0 = (List.range size).map total.1
  globalOps1 : globals.globalOps1 = (List.range size).map total.2
  ops0 : globals.ops0 = total.1 (size - 1)
  ops1 : globals.ops1 = total.2 (size - 1)

/-- What the entries of a thread add to the counts. -/
def share (node : Int) (localOps : List Int) : Amount :=
  if node = 0 then (fun i => localOps.getD i 0, 0) else (0, fun i => localOps.getD i 0)

/-- What a thread does to the counts at its end. -/
def Globals.aggregate (node : Int) (localOps : List Int) (globals : Globals) :
    Except Fault Globals := do
  (← globals.addLocal node localOps).setOps node

/-- The counts are set up to nothing. -/
theorem globalInit_holds {duration interval : Int} {globals : Globals}
    (initialised : globalInit duration interval = .ok globals) :
    globals.Holds (duration.tdiv interval).toNat 0 := by
  -- Both vectors are zeros, as many as there are intervals.
  obtain ⟨first, sized, rest⟩ := Memory.bind_eq_ok initialised
  rw [sized, Memory.ok_bind] at rest
  cases rest
  obtain ⟨size, intervals, rfl⟩ := resize_eq_ok sized
  rw [intervals, Int.toNat_natCast]
  have zeros : List.replicate size 0 = (List.range size).map (0 : Nat → Int) := by
    refine List.ext_getElem (by simp) fun i inside _ => by simp
  exact ⟨zeros, zeros, rfl, rfl⟩

/-- Entries are added one by one. -/
theorem addOps_range {size : Nat} (total : Nat → Int) {localOps : List Int}
    (sized : localOps.length = size) :
    addOps ((List.range size).map total) localOps =
      .ok ((List.range size).map (total + fun i => localOps.getD i 0)) := by
  -- Entry by entry, as both vectors have one for each interval.
  rw [addOps_eq (by simp [sized])]
  refine congrArg Except.ok (List.ext_getElem (by simp [sized]) fun i inside _ => ?_)
  have within : i < localOps.length := by
    rw [List.length_zipWith] at inside
    omega
  simp [List.getElem?_eq_getElem within]

/-- There is a last entry when there are intervals. -/
theorem back_range {size : Nat} {total : Nat → Int} {last : Int}
    (found : back ((List.range size).map total) = .ok last) :
    0 < size ∧ last = total (size - 1) := by
  -- The last entry of a range is that of its last index.
  cases size with
  | zero => cases found
  | succ size =>
    rw [List.range_succ, List.map_append, List.map_singleton, back, List.getLast?_concat] at found
    cases found
    exact ⟨Nat.succ_pos _, rfl⟩

/-- A thread adds its share to the counts. -/
theorem Globals.Holds.aggregate {size : Nat} {total : Amount} {globals after : Globals}
    (holds : globals.Holds size total) {node : Int} {localOps : List Int}
    (sized : localOps.length = size) (done : globals.aggregate node localOps = .ok after) :
    0 < size ∧ after.Holds size (total + share node localOps) := by
  -- The counts of the other node stay, and the number of operations is the last sum.
  obtain ⟨globalOps0, globalOps1, ops0, ops1⟩ := holds
  -- The thread works for the first node, whose last sum there has to be.
  by_cases first : node = 0
  · simp only [Globals.aggregate, Globals.addLocal, Globals.setOps, if_pos first, globalOps0,
      addOps_range total.1 sized, Memory.ok_bind, pure_bind] at done
    obtain ⟨last, found, rest⟩ := Memory.bind_eq_ok done
    obtain ⟨some, rfl⟩ := back_range found
    cases rest
    refine ⟨some, ?_⟩
    rw [share, if_pos first]
    exact ⟨rfl, by simp [globalOps1], rfl, by simp [ops1]⟩
  · -- It works for the other node, in the same way.
    simp only [Globals.aggregate, Globals.addLocal, Globals.setOps, if_neg first, globalOps1,
      addOps_range total.2 sized, Memory.ok_bind, pure_bind] at done
    obtain ⟨last, found, rest⟩ := Memory.bind_eq_ok done
    obtain ⟨some, rfl⟩ := back_range found
    cases rest
    refine ⟨some, ?_⟩
    rw [share, if_neg first]
    exact ⟨by simp [globalOps0], rfl, by simp [ops0], rfl⟩

end SecretTyping.Bench
