import Mathlib.Data.List.Induction
import Mathlib.Data.List.Nodup
import Mathlib.Data.Set.Basic
import Mathlib.Logic.Function.Basic
import Mathlib.Order.WellFounded
import Mathlib.Order.RelClasses

/-! Threads that run transactions under locks: who holds what, and why nobody waits in a circle. -/

namespace SecretTyping.Locking

/-- A step of a transaction. -/
inductive Action (Lock Object Operation : Type) where
  | lock (lock : Lock)
  | access (object : Object) (operation : Operation)
  | unlock (lock : Lock)
  deriving DecidableEq

section Programs

variable {Lock Object Operation : Type}

/-- Whether an action gives a lock back. -/
def Action.releases : Action Lock Object Operation → Bool
  | .unlock _ => true
  | .lock _ | .access _ _ => false

/-- Whether some lock has been given back. -/
def released (executed : List (Action Lock Object Operation)) : Bool :=
  executed.any Action.releases

/-- Every action of a program is allowed after those before it. -/
def Obeys (allowed : List (Action Lock Object Operation) → Action Lock Object Operation → Prop) :
    List (Action Lock Object Operation) → List (Action Lock Object Operation) → Prop
  | _, [] => True
  | past, action :: rest => allowed past action ∧ Obeys allowed (past ++ [action]) rest

/-- One more action may be the first that gives a lock back. -/
@[simp] theorem released_concat (executed : List (Action Lock Object Operation))
    (action : Action Lock Object Operation) :
    released (executed ++ [action]) = (released executed || action.releases) := by
  simp [released]

/-- An obedient program obeys at each of its actions. -/
theorem Obeys.next
    {allowed : List (Action Lock Object Operation) → Action Lock Object Operation → Prop}
    {past executed rest : List (Action Lock Object Operation)}
    {action : Action Lock Object Operation}
    (obeys : Obeys allowed past (executed ++ action :: rest)) :
    allowed (past ++ executed) action := by
  -- The induction moves the actions before it, one by one, into the past.
  induction executed generalizing past with
  | nil =>
    rw [List.append_nil]
    exact obeys.1
  | cons first executed ih =>
    have later := ih obeys.2
    rwa [List.append_assoc] at later

variable [DecidableEq Lock]

/-- The locks held after one more action. -/
def Action.held (held : List Lock) : Action Lock Object Operation → List Lock
  | .lock taken => taken :: held
  | .access _ _ => held
  | .unlock given => held.erase given

/-- The locks that actions leave held. -/
def heldAfter (executed : List (Action Lock Object Operation)) : List Lock :=
  -- No lock is held before the first action.
  executed.foldl Action.held []

/-- Objects are accessed under their locks, and only before the first lock is given back. -/
def TwoPhase (guard : Object → Lock) (past : List (Action Lock Object Operation)) :
    Action Lock Object Operation → Prop
  | .lock _ => released past = false
  | .access object _ => released past = false ∧ guard object ∈ heldAfter past
  | .unlock lock => lock ∈ heldAfter past

/-- A lock is only taken above all locks held. -/
def Ascending {Rank : Type} [LT Rank] (rank : Lock → Rank)
    (past : List (Action Lock Object Operation)) : Action Lock Object Operation → Prop
  | .lock lock => ∀ held ∈ heldAfter past, rank held < rank lock
  | .access _ _ | .unlock _ => True

/-- One more action changes the locks held. -/
@[simp] theorem heldAfter_concat (executed : List (Action Lock Object Operation))
    (action : Action Lock Object Operation) :
    heldAfter (executed ++ [action]) = action.held (heldAfter executed) := by
  simp [heldAfter]

/-- Until the first lock is given back, the lock of every accessed object is held. -/
theorem TwoPhase.accessed_held {guard : Object → Lock}
    {executed rest : List (Action Lock Object Operation)}
    (obeys : Obeys (TwoPhase guard) [] (executed ++ rest)) (growing : released executed = false)
    {object : Object} {operation : Operation} (accessed : .access object operation ∈ executed) :
    guard object ∈ heldAfter executed := by
  -- The induction takes the last action away, as the locks held are counted from the start.
  induction executed using List.reverseRecOn generalizing rest with
  | nil => cases accessed
  | append_singleton executed action ih =>
    rw [List.append_assoc, List.singleton_append] at obeys
    have here := obeys.next
    rw [List.nil_append] at here
    rw [released_concat, Bool.or_eq_false_iff] at growing
    rw [heldAfter_concat]
    rcases List.mem_append.mp accessed with before | last
    · -- What was held before is still held, as the last action gives nothing back.
      have kept := ih obeys growing.1 before
      cases action with
      | lock lock => exact List.mem_cons_of_mem _ kept
      | access other operation => exact kept
      | unlock lock => exact absurd growing.2 (by simp [Action.releases])
    · rw [List.mem_singleton] at last
      subst last
      exact here.2

/-- After the first lock is given back, a program only gives back locks. -/
theorem TwoPhase.only_unlocks {guard : Object → Lock}
    {executed rest : List (Action Lock Object Operation)}
    (obeys : Obeys (TwoPhase guard) [] (executed ++ rest)) (shrinking : released executed = true)
    {action : Action Lock Object Operation} (later : action ∈ rest) : action.releases = true := by
  -- Locks and accesses are only allowed before the first unlock.
  obtain ⟨before, after, split⟩ := List.append_of_mem later
  subst split
  rw [← List.append_assoc] at obeys
  have here := obeys.next
  have already : released (executed ++ before) = true := by
    simp only [released, List.any_append, Bool.or_eq_true] at shrinking ⊢
    exact .inl shrinking
  rw [List.nil_append] at here
  -- Locking and accessing are not allowed any more, which leaves giving back.
  cases action with
  | lock lock => exact absurd (already.symm.trans here) (by simp)
  | access object operation => exact absurd (already.symm.trans here.1) (by simp)
  | unlock lock => rfl

end Programs

/-- How threads run transactions on guarded objects. -/
structure System (Thread Lock Object Operation Value Result : Type) where
  guard : Object → Lock
  perform : Operation → Value → Result × Value
  /-- The transactions that a thread may start. -/
  programs : Thread → List (Action Lock Object Operation) → Prop

/-- A transaction under way. -/
structure Running (Lock Object Operation Result : Type) where
  executed : List (Action Lock Object Operation)
  remaining : List (Action Lock Object Operation)
  results : List Result

/-- A transaction that ran to its end, with the results of its accesses. -/
structure Completed (Thread Lock Object Operation Result : Type) where
  thread : Thread
  program : List (Action Lock Object Operation)
  results : List Result

/-- What the objects hold, who holds the locks, and how far every thread is. -/
structure State (Thread Lock Object Operation Value Result : Type) where
  store : Object → Value
  holder : Lock → Option Thread
  running : Thread → Option (Running Lock Object Operation Result)
  completed : List (Completed Thread Lock Object Operation Result)

section Steps

variable {Thread Lock Object Operation Value Result : Type}

/-- No thread has started yet. -/
def State.initial (store : Object → Value) :
    State Thread Lock Object Operation Value Result where
  store := store
  holder _ := none
  running _ := none
  completed := []

/-- No transaction is under way. -/
def State.Quiet (state : State Thread Lock Object Operation Value Result) : Prop :=
  ∀ thread, state.running thread = none

/-- Note that a transaction has ended. -/
def State.record (state : State Thread Lock Object Operation Value Result)
    (ended : Completed Thread Lock Object Operation Result) :
    State Thread Lock Object Operation Value Result :=
  { state with completed := state.completed ++ [ended] }

/-- Set who holds a lock. -/
def State.setHolder [DecidableEq Lock] (state : State Thread Lock Object Operation Value Result)
    (lock : Lock) (holder : Option Thread) : State Thread Lock Object Operation Value Result :=
  { state with holder := Function.update state.holder lock holder }

/-- Set what an object holds. -/
def State.write [DecidableEq Object] (state : State Thread Lock Object Operation Value Result)
    (object : Object) (value : Value) : State Thread Lock Object Operation Value Result :=
  { state with store := Function.update state.store object value }

/-- A lock that is neither taken from a thread nor given to it leaves that thread's locks alone. -/
theorem State.setHolder_others [DecidableEq Lock]
    {state : State Thread Lock Object Operation Value Result} {lock : Lock}
    {holder : Option Thread} {other : Thread} (was : state.holder lock ≠ some other)
    (becomes : holder ≠ some other) (held : Lock) :
    (state.setHolder lock holder).holder held = some other ↔ state.holder held = some other := by
  -- The lock itself is on neither side a lock of the other thread.
  by_cases same : held = lock
  · simp [same, was, becomes, State.setHolder]
  · simp [same, State.setHolder]

variable [DecidableEq Thread]

/-- Set how far a thread is. -/
def State.put (state : State Thread Lock Object Operation Value Result) (thread : Thread)
    (running : Option (Running Lock Object Operation Result)) :
    State Thread Lock Object Operation Value Result :=
  { state with running := Function.update state.running thread running }

/-- A thread's own progress is what was put. -/
@[simp] theorem State.put_same (state : State Thread Lock Object Operation Value Result)
    (thread : Thread) (running : Option (Running Lock Object Operation Result)) :
    (state.put thread running).running thread = running :=
  Function.update_self ..

/-- The progress of the other threads stays. -/
theorem State.put_other (state : State Thread Lock Object Operation Value Result)
    {thread other : Thread} (apart : other ≠ thread)
    (running : Option (Running Lock Object Operation Result)) :
    (state.put thread running).running other = state.running other :=
  Function.update_of_ne apart ..

/-- What is under way after progress of one thread is its new progress or was under way before. -/
theorem State.put_cases {state : State Thread Lock Object Operation Value Result}
    {thread other : Thread}
    {progress : Option (Running Lock Object Operation Result)}
    {running : Running Lock Object Operation Result}
    (now : (state.put thread progress).running other = some running) :
    (other = thread ∧ progress = some running) ∨
      (other ≠ thread ∧ state.running other = some running) := by
  -- The progress of all threads but one is the old one.
  by_cases same : other = thread
  · subst same
    rw [State.put_same] at now
    exact .inl ⟨rfl, now⟩
  · rw [State.put_other state same] at now
    exact .inr ⟨same, now⟩

variable [DecidableEq Lock] [DecidableEq Object]
  (system : System Thread Lock Object Operation Value Result)

/-- Some thread takes a step; nothing but a lock that is held makes a thread wait. -/
inductive Step : State Thread Lock Object Operation Value Result →
    State Thread Lock Object Operation Value Result → Prop
  | start {state : State Thread Lock Object Operation Value Result} {thread : Thread}
      {program : List (Action Lock Object Operation)} (idle : state.running thread = none)
      (known : system.programs thread program) :
      Step state (state.put thread (some ⟨[], program, []⟩))
  | lock {state : State Thread Lock Object Operation Value Result} {thread : Thread}
      {executed rest : List (Action Lock Object Operation)} {lock : Lock} {results : List Result}
      (next : state.running thread = some ⟨executed, .lock lock :: rest, results⟩)
      (free : state.holder lock = none) :
      Step state
        ((state.put thread (some ⟨executed ++ [.lock lock], rest, results⟩)).setHolder lock
          (some thread))
  | access {state : State Thread Lock Object Operation Value Result} {thread : Thread}
      {executed rest : List (Action Lock Object Operation)} {object : Object}
      {operation : Operation} {results : List Result}
      (next : state.running thread = some ⟨executed, .access object operation :: rest, results⟩) :
      Step state
        ((state.put thread (some ⟨executed ++ [.access object operation], rest,
            results ++ [(system.perform operation (state.store object)).1]⟩)).write object
          (system.perform operation (state.store object)).2)
  | unlock {state : State Thread Lock Object Operation Value Result} {thread : Thread}
      {executed rest : List (Action Lock Object Operation)} {lock : Lock} {results : List Result}
      (next : state.running thread = some ⟨executed, .unlock lock :: rest, results⟩) :
      Step state
        ((state.put thread (some ⟨executed ++ [.unlock lock], rest, results⟩)).setHolder lock none)
  | finish {state : State Thread Lock Object Operation Value Result} {thread : Thread}
      {executed : List (Action Lock Object Operation)} {results : List Result}
      (next : state.running thread = some ⟨executed, [], results⟩) :
      Step state ((state.put thread none).record ⟨thread, executed, results⟩)

/-- The states of all runs from the given contents. -/
inductive Reachable (store : Object → Value) :
    State Thread Lock Object Operation Value Result → Prop
  | initial : Reachable store (.initial store)
  | step {state after : State Thread Lock Object Operation Value Result}
      (before : Reachable store state) (step : Step system state after) : Reachable store after

/-- Let a thread take the next step of its transaction, if it can. -/
def State.take (state : State Thread Lock Object Operation Value Result) (thread : Thread) :
    State Thread Lock Object Operation Value Result :=
  -- A lock that is held makes the thread wait, and nothing else does.
  match state.running thread with
  | none => state
  | some ⟨executed, [], results⟩ => (state.put thread none).record ⟨thread, executed, results⟩
  | some ⟨executed, .lock lock :: rest, results⟩ =>
    match state.holder lock with
    | none =>
      (state.put thread (some ⟨executed ++ [.lock lock], rest, results⟩)).setHolder lock
        (some thread)
    | some _ => state
  | some ⟨executed, .access object operation :: rest, results⟩ =>
    let (result, value) := system.perform operation (state.store object)
    (state.put thread (some ⟨executed ++ [.access object operation], rest,
      results ++ [result]⟩)).write object value
  | some ⟨executed, .unlock lock :: rest, results⟩ =>
    (state.put thread (some ⟨executed ++ [.unlock lock], rest, results⟩)).setHolder lock none

/-- A thread is at the taking of a lock that the other one holds. -/
def WaitsFor (state : State Thread Lock Object Operation Value Result) (thread other : Thread) :
    Prop :=
  -- The thread itself may be the holder; then it would wait for ever.
  ∃ executed lock rest results,
    state.running thread = some ⟨executed, .lock lock :: rest, results⟩ ∧
      state.holder lock = some other

/-- The transactions access objects in two phases and give back all locks. -/
structure Disciplined : Prop where
  twoPhase : ∀ thread program, system.programs thread program →
    Obeys (TwoPhase system.guard) [] program
  complete : ∀ thread program, system.programs thread program → heldAfter program = []

end Steps

section Holding

variable {Thread Lock Object Operation Value Result : Type} [DecidableEq Lock]
  {state after : State Thread Lock Object Operation Value Result}

/-- The locks that a thread took and did not give back yet. -/
def State.heldBy (state : State Thread Lock Object Operation Value Result) (thread : Thread) :
    List Lock :=
  match state.running thread with
  | none => []
  | some running => heldAfter running.executed

/-- A thread's progress decides what it holds. -/
theorem State.heldBy_of {thread : Thread} {running : Running Lock Object Operation Result}
    (now : state.running thread = some running) :
    state.heldBy thread = heldAfter running.executed := by
  rw [State.heldBy, now]

/-- A thread without a transaction holds nothing. -/
theorem State.heldBy_idle {thread : Thread} (idle : state.running thread = none) :
    state.heldBy thread = [] := by
  rw [State.heldBy, idle]

/-- Whose a lock is does not change how far the threads are. -/
@[simp] theorem State.heldBy_setHolder (lock : Lock) (holder : Option Thread) (thread : Thread) :
    (state.setHolder lock holder).heldBy thread = state.heldBy thread := rfl

/-- What the objects hold does not change how far the threads are. -/
@[simp] theorem State.heldBy_write [DecidableEq Object] (object : Object) (value : Value)
    (thread : Thread) : (state.write object value).heldBy thread = state.heldBy thread := rfl

/-- A note of an ended transaction does not change how far the threads are. -/
@[simp] theorem State.heldBy_record (ended : Completed Thread Lock Object Operation Result)
    (thread : Thread) : (state.record ended).heldBy thread = state.heldBy thread := rfl

/-- The locks a thread took are those it is the holder of, and it took none of them twice. -/
structure LocksAgree (state : State Thread Lock Object Operation Value Result) : Prop where
  held_iff : ∀ thread lock, lock ∈ state.heldBy thread ↔ state.holder lock = some thread
  nodup : ∀ thread, (state.heldBy thread).Nodup

/-- What a running thread holds are the locks that it has taken and not given back. -/
theorem LocksAgree.running (agree : LocksAgree state) {thread : Thread}
    {running : Running Lock Object Operation Result}
    (now : state.running thread = some running) :
    (∀ lock, lock ∈ heldAfter running.executed ↔ state.holder lock = some thread) ∧
      (heldAfter running.executed).Nodup := by
  have held := fun lock => agree.held_iff thread lock
  have once := agree.nodup thread
  rw [State.heldBy_of now] at held once
  exact ⟨held, once⟩

/-- The locks agree again when only one thread has moved and only its locks have changed. -/
theorem LocksAgree.progress [DecidableEq Thread] (agree : LocksAgree state) {thread : Thread}
    {progress : Option (Running Lock Object Operation Result)}
    (moved : after.running = (state.put thread progress).running)
    (own : ∀ lock, lock ∈ after.heldBy thread ↔ after.holder lock = some thread)
    (nodup : (after.heldBy thread).Nodup)
    (others : ∀ other, other ≠ thread →
      ∀ lock, after.holder lock = some other ↔ state.holder lock = some other) :
    LocksAgree after := by
  -- The other threads hold what they held, and are the holders they were.
  have same : ∀ other, other ≠ thread → after.heldBy other = state.heldBy other := by
    intro other apart
    rw [State.heldBy, State.heldBy, moved, State.put_other state apart]
  refine ⟨fun other lock => ?_, fun other => ?_⟩
  · -- The thread itself holds what it is said to hold, and the others have not moved.
    by_cases apart : other = thread
    · subst apart
      exact own lock
    · rw [same other apart, others other apart]
      exact agree.held_iff other lock
  · -- None of them holds a lock twice.
    by_cases apart : other = thread
    · subst apart
      exact nodup
    · rw [same other apart]
      exact agree.nodup other

end Holding

section Invariants

variable {Thread Lock Object Operation Value Result : Type} [DecidableEq Thread]
  [DecidableEq Lock] [DecidableEq Object]
  {system : System Thread Lock Object Operation Value Result} {store : Object → Value}
  {state : State Thread Lock Object Operation Value Result}

/-- A transaction under way is one that its thread may start. -/
theorem Reachable.known (reachable : Reachable system store state) {thread : Thread}
    {running : Running Lock Object Operation Result}
    (now : state.running thread = some running) :
    system.programs thread (running.executed ++ running.remaining) := by
  -- A step only moves an action from what remains to what is executed.
  induction reachable generalizing thread running with
  | initial => cases now
  | step before step ih =>
    cases step with
    -- A program that starts is one of the thread, with nothing executed.
    | start idle known =>
      rcases State.put_cases now with ⟨same, new⟩ | ⟨-, old⟩
      · cases new
        exact same ▸ known
      · exact ih old
    -- The next action goes over from what remains to what is executed.
    | lock next free =>
      rcases State.put_cases now with ⟨same, new⟩ | ⟨-, old⟩
      · cases new
        simpa using same ▸ ih next
      · exact ih old
    | access next =>
      rcases State.put_cases now with ⟨same, new⟩ | ⟨-, old⟩
      · cases new
        simpa using same ▸ ih next
      · exact ih old
    | unlock next =>
      rcases State.put_cases now with ⟨same, new⟩ | ⟨-, old⟩
      · cases new
        simpa using same ▸ ih next
      · exact ih old
    -- A thread that has ended has no program.
    | finish next =>
      rcases State.put_cases now with ⟨-, new⟩ | ⟨-, old⟩
      · cases new
      · exact ih old

/-- A transaction that has ended is one that its thread may start. -/
theorem Reachable.completed_known (reachable : Reachable system store state)
    {ended : Completed Thread Lock Object Operation Result} (member : ended ∈ state.completed) :
    system.programs ended.thread ended.program := by
  -- Only the last step of a transaction adds to those that have ended.
  induction reachable with
  | initial => cases member
  | step before step ih =>
    cases step with
    | start | lock | access | unlock => exact ih member
    | finish next =>
      rcases List.mem_append.mp member with old | new
      · exact ih old
      · rw [List.mem_singleton.mp new]
        simpa using before.known next

/-- An idle thread that starts a transaction it may start gets to a reachable state. -/
theorem Reachable.begin (reachable : Reachable system store state) (thread : Thread)
    {program : List (Action Lock Object Operation)} (idle : state.running thread = none)
    (known : system.programs thread program) :
    Reachable system store (state.put thread (some ⟨[], program, []⟩)) :=
  reachable.step (.start idle known)

/-- A thread that takes the next step of its transaction gets to a reachable state. -/
theorem Reachable.take (reachable : Reachable system store state) (thread : Thread) :
    Reachable system store (state.take system thread) := by
  -- Each branch is one constructor of the step relation, or no step at all.
  cases now : state.running thread with
  -- A thread without a program takes no step.
  | none => simpa [State.take, now] using reachable
  | some running =>
    obtain ⟨executed, remaining, results⟩ := running
    cases remaining with
    -- The program has ended.
    | nil => simpa [State.take, now] using reachable.step (.finish now)
    | cons action rest =>
      cases action with
      | lock lock =>
        -- A lock is taken if it is free, and waited for otherwise.
        cases holds : state.holder lock with
        | none => simpa [State.take, now, holds] using reachable.step (.lock now holds)
        | some other => simpa [State.take, now, holds] using reachable
      | access object operation => simpa [State.take, now] using reachable.step (.access now)
      | unlock lock => simpa [State.take, now] using reachable.step (.unlock now)

/-- Every step keeps the locks in agreement. -/
theorem Step.locksAgree {after : State Thread Lock Object Operation Value Result}
    (disciplined : Disciplined system) (reachable : Reachable system store state)
    (agree : LocksAgree state) (step : Step system state after) : LocksAgree after := by
  -- The cases are the kinds of steps; only taking and giving back change what is held.
  cases step with
  -- A program that starts holds nothing, as nobody idle does.
  | @start thread program idle known =>
    have nothing := fun lock => agree.held_iff thread lock
    rw [State.heldBy_idle idle] at nothing
    have now := State.heldBy_of (State.put_same state thread (some ⟨[], program, []⟩))
    refine agree.progress rfl (fun lock => ?_) ?_ fun _ _ _ => Iff.rfl
    · rw [now]
      exact nothing lock
    · rw [now]
      exact List.nodup_nil
  | @lock thread executed rest taken results next free =>
    -- The thread holds one lock more.
    obtain ⟨held, once⟩ := agree.running next
    have now := State.heldBy_of
      (State.put_same state thread (some ⟨executed ++ [.lock taken], rest, results⟩))
    rw [heldAfter_concat] at now
    refine agree.progress rfl (fun lock => ?_) ?_ fun other apart =>
      State.setHolder_others (by simp [State.put, free]) (by simp [Ne.symm apart])
    · rw [State.heldBy_setHolder, now, Action.held, List.mem_cons, held]
      by_cases same : lock = taken
      · simp [same, State.setHolder]
      · simp [same, State.setHolder, State.put]
    · -- The lock was free, so the thread did not hold it.
      rw [State.heldBy_setHolder, now]
      refine List.nodup_cons.mpr ⟨fun member => ?_, once⟩
      rw [held, free] at member
      cases member
  | @access thread executed rest object operation results next =>
    -- An access changes nothing that is held.
    obtain ⟨held, once⟩ := agree.running next
    have now := State.heldBy_of (State.put_same state thread
      (some ⟨executed ++ [.access object operation], rest,
        results ++ [(system.perform operation (state.store object)).1]⟩))
    rw [heldAfter_concat] at now
    refine agree.progress rfl (fun lock => ?_) ?_ fun _ _ _ => Iff.rfl
    · rw [State.heldBy_write, now]
      exact held lock
    · rw [State.heldBy_write, now]
      exact once
  | @unlock thread executed rest given results next =>
    obtain ⟨held, once⟩ := agree.running next
    have now := State.heldBy_of
      (State.put_same state thread (some ⟨executed ++ [.unlock given], rest, results⟩))
    rw [heldAfter_concat] at now
    -- A thread only gives back what it holds.
    have obeys := disciplined.twoPhase thread _ (reachable.known next)
    have holds : state.holder given = some thread := (held given).mp obeys.next
    refine agree.progress rfl (fun lock => ?_) ?_ fun other apart =>
      State.setHolder_others (by simp [State.put, holds, Ne.symm apart]) (by simp)
    · -- It holds all locks but that one.
      rw [State.heldBy_setHolder, now, Action.held, once.mem_erase_iff, held]
      by_cases same : lock = given
      · simp [same, State.setHolder]
      · simp [same, State.setHolder, State.put]
    · rw [State.heldBy_setHolder, now]
      exact once.erase given
  | @finish thread executed results next =>
    -- A program that ends has given back all locks.
    obtain ⟨held, -⟩ := agree.running next
    have known := reachable.known next
    rw [List.append_nil] at known
    rw [disciplined.complete thread _ known] at held
    have now := State.heldBy_idle (State.put_same state thread none)
    refine agree.progress rfl (fun lock => ?_) ?_ fun _ _ _ => Iff.rfl
    · rw [State.heldBy_record, now]
      exact held lock
    · rw [State.heldBy_record, now]
      exact List.nodup_nil

/-- In every reachable state the locks agree. -/
theorem Reachable.locksAgree (disciplined : Disciplined system)
    (reachable : Reachable system store state) : LocksAgree state := by
  -- The invariant holds at the start and is kept by every step.
  induction reachable with
  | initial => exact ⟨fun thread lock => by simp [State.heldBy, State.initial],
      fun thread => by simp [State.heldBy, State.initial]⟩
  | step before step ih => exact step.locksAgree disciplined before ih

/-- Every object is accessed under its own lock. -/
theorem Reachable.access_guarded (disciplined : Disciplined system)
    (reachable : Reachable system store state) {thread : Thread}
    {executed rest : List (Action Lock Object Operation)} {object : Object}
    {operation : Operation} {results : List Result}
    (next : state.running thread = some ⟨executed, .access object operation :: rest, results⟩) :
    state.holder (system.guard object) = some thread := by
  -- The discipline says that the lock is held, and the agreement says by whom.
  have obeys := disciplined.twoPhase thread _ (reachable.known next)
  have held : system.guard object ∈ heldAfter executed := obeys.next.2
  rw [← State.heldBy_of next] at held
  exact ((reachable.locksAgree disciplined).held_iff thread _).mp held

/-- Where locks are only taken in ascending order, no threads wait for one another. -/
theorem Reachable.no_deadlock {Rank : Type} [Preorder Rank] [WellFoundedGT Rank]
    (disciplined : Disciplined system) {rank : Lock → Rank}
    (ascending : ∀ thread program, system.programs thread program →
      Obeys (Ascending rank) [] program)
    (reachable : Reachable system store state) {waiting : Set Thread}
    (nonempty : waiting.Nonempty) :
    ¬ ∀ thread ∈ waiting, ∃ other ∈ waiting, WaitsFor state thread other := by
  intro circle
  let awaited : Set Rank := { r | ∃ thread ∈ waiting, ∃ executed lock rest results,
    state.running thread = some ⟨executed, .lock lock :: rest, results⟩ ∧ rank lock = r }
  -- Some lock is waited for, as some thread waits.
  have someAwaited : awaited.Nonempty := by
    obtain ⟨thread, member⟩ := nonempty
    obtain ⟨other, -, executed, lock, rest, results, next, -⟩ := circle thread member
    exact ⟨rank lock, thread, member, executed, lock, rest, results, next, rfl⟩
  -- Whoever holds a lock of the highest rank that is waited for waits for a higher one.
  obtain ⟨highest, ⟨thread, member, executed, lock, rest, results, next, same⟩, above⟩ :=
    WellFounded.has_min (wellFounded_gt (α := Rank)) awaited someAwaited
  -- The holder of that lock waits too.
  obtain ⟨other, otherMember, executed', lock', rest', results', next', holds⟩ :=
    circle thread member
  rw [next] at next'
  cases next'
  obtain ⟨-, -, executed', lock', rest', results', next', -⟩ := circle other otherMember
  have held : lock ∈ heldAfter executed' := by
    rw [← State.heldBy_of next']
    exact ((reachable.locksAgree disciplined).held_iff other lock).mpr holds
  -- It obeys the order, so its lock has a greater rank.
  have obeys := ascending other _ (reachable.known next')
  have higher : rank lock < rank lock' := obeys.next lock held
  exact above (rank lock') ⟨other, otherMember, executed', lock', rest', results', next', rfl⟩
    (same ▸ higher)

end Invariants

end SecretTyping.Locking
