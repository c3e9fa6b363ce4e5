import SecretTyping.Lib.Locking

/-! Two-phase transactions leave what they would leave one at a time. -/

namespace SecretTyping.Locking

section Replay

variable {Lock Object Operation Value Result : Type} [DecidableEq Object]
  (perform : Operation → Value → Result × Value)

/-- Carry out the accesses of a program alone: their results and what the objects hold then. -/
def replay (store : Object → Value) :
    List (Action Lock Object Operation) → List Result × (Object → Value)
  | [] => ([], store)
  | .lock _ :: rest | .unlock _ :: rest => replay store rest
  | .access object operation :: rest =>
    let (result, value) := perform operation (store object)
    let (results, after) := replay (Function.update store object value) rest
    (result :: results, after)

/-- Carry out programs one at a time. -/
def serial (store : Object → Value) :
    List (List (Action Lock Object Operation)) → List (List Result) × (Object → Value)
  | [] => ([], store)
  | program :: rest =>
    let (results, middle) := replay perform store program
    let (others, after) := serial middle rest
    (results :: others, after)

variable {store other : Object → Value}

/-- A program that continues another one starts from what that one leaves. -/
theorem replay_append (first second : List (Action Lock Object Operation)) :
    replay perform store (first ++ second) =
      ((replay perform store first).1 ++
          (replay perform (replay perform store first).2 second).1,
        (replay perform (replay perform store first).2 second).2) := by
  -- The accesses of the first program come first, and their results stand first.
  induction first generalizing store with
  | nil => rfl
  | cons action first ih =>
    cases action with
    | lock lock => exact ih
    | access object operation =>
      simp only [List.cons_append, replay, ih]
    | unlock lock => exact ih

/-- A program that only gives back locks does nothing to the objects. -/
theorem replay_releases {program : List (Action Lock Object Operation)}
    (releases : ∀ action ∈ program, action.releases = true) :
    replay perform store program = ([], store) := by
  -- There is no access to carry out.
  induction program with
  | nil => rfl
  | cons action program ih =>
    have later := ih fun next member => releases next (List.mem_cons_of_mem _ member)
    have first := releases action List.mem_cons_self
    cases action with
    | lock lock => cases first
    | access object operation => cases first
    | unlock lock => exact later

/-- Objects that a program does not access stay as they are. -/
theorem replay_untouched {program : List (Action Lock Object Operation)} {object : Object}
    (untouched : ∀ operation, .access object operation ∉ program) :
    (replay perform store program).2 object = store object := by
  -- The induction follows the program; every write goes to another object.
  induction program generalizing store with
  | nil => rfl
  | cons action program ih =>
    have later := fun operation member =>
      untouched operation (List.mem_cons_of_mem action member)
    cases action with
    | lock lock => exact ih later
    | access accessed operation =>
      have apart : object ≠ accessed := fun same =>
        untouched operation (same ▸ List.mem_cons_self)
      exact (ih later).trans (Function.update_of_ne apart ..)
    | unlock lock => exact ih later

/-- A program gives the same results wherever the objects it accesses hold the same, and objects
that held the same still do. -/
theorem replay_congr {program : List (Action Lock Object Operation)}
    (same : ∀ object operation, .access object operation ∈ program → store object = other object) :
    (replay perform store program).1 = (replay perform other program).1 ∧
      ∀ object, store object = other object →
        (replay perform store program).2 object = (replay perform other program).2 object := by
  -- The induction follows the program with both contents changing in the same way.
  induction program generalizing store other with
  | nil => exact ⟨rfl, fun object equal => equal⟩
  | cons action program ih =>
    have later := fun object operation member =>
      same object operation (List.mem_cons_of_mem action member)
    cases action with
    | lock lock => exact ih later
    | unlock lock => exact ih later
    | access accessed operation =>
      have here := same accessed operation List.mem_cons_self
      -- The access writes the same value on both sides.
      have still : ∀ object, store object = other object →
          Function.update store accessed (perform operation (store accessed)).2 object =
            Function.update other accessed (perform operation (other accessed)).2 object := by
        intro object equal
        by_cases own : object = accessed
        · subst own
          simp [here]
        · simp [own, equal]
      obtain ⟨results, contents⟩ := ih fun object operation member =>
        still object (later object operation member)
      refine ⟨?_, fun object equal => contents object (still object equal)⟩
      simp only [replay]
      rw [results, here]

/-- The last of several programs starts from what the others leave. -/
theorem serial_concat (programs : List (List (Action Lock Object Operation)))
    (program : List (Action Lock Object Operation)) :
    serial perform store (programs ++ [program]) =
      ((serial perform store programs).1 ++
          [(replay perform (serial perform store programs).2 program).1],
        (replay perform (serial perform store programs).2 program).2) := by
  -- The last program is reached after all others have run.
  induction programs generalizing store with
  | nil => rfl
  | cons first programs ih => simp only [List.cons_append, serial, ih]

end Replay

section Orders

variable {Thread Lock Object Operation Value Result : Type}

section Definitions

variable (system : System Thread Lock Object Operation Value Result) (store base : Object → Value)
  (state : State Thread Lock Object Operation Value Result)

/-- Nobody who has not given back a lock yet holds the lock of an object. -/
def Settled (object : Object) : Prop :=
  ∀ thread running, state.holder (system.guard object) = some thread →
    state.running thread = some running → released running.executed = true

/-- How a transaction under way will be noted when it has ended. -/
def Running.ended (running : Running Lock Object Operation Result) (thread : Thread) :
    Completed Thread Lock Object Operation Result :=
  ⟨thread, running.executed ++ running.remaining, running.results⟩

/-- A transaction under way has given back a lock, and will be noted like this. -/
def State.Ending (state : State Thread Lock Object Operation Value Result)
    (ended : Completed Thread Lock Object Operation Result) : Prop :=
  ∃ running, state.running ended.thread = some running ∧ released running.executed = true ∧
    running.ended ended.thread = ended

variable [DecidableEq Object]

/-- What the objects hold, seen as contents that only the transactions in their first phase have
changed, each by itself. -/
structure Tracks : Prop where
  growing : ∀ thread running, state.running thread = some running →
    released running.executed = false →
      (replay system.perform base running.executed).1 = running.results ∧
        ∀ object, state.holder (system.guard object) = some thread →
          state.store object = (replay system.perform base running.executed).2 object
  settled : ∀ object, Settled system state object → state.store object = base object

/-- The state is the one left by transactions one at a time, those that ended and those that are
about to, up to what transactions in their first phase have done. -/
structure SerializedBy (order ending : List (Completed Thread Lock Object Operation Result)) :
    Prop where
  perm : order.Perm (state.completed ++ ending)
  nodup : ending.Nodup
  ending_iff : ∀ ended, ended ∈ ending ↔ state.Ending ended
  results : (serial system.perform store (order.map Completed.program)).1 =
    order.map Completed.results
  tracks : Tracks system (serial system.perform store (order.map Completed.program)).2 state

end Definitions

variable {system : System Thread Lock Object Operation Value Result} {store base : Object → Value}
  {state after : State Thread Lock Object Operation Value Result}
  {order ending : List (Completed Thread Lock Object Operation Result)} {thread : Thread}
  {progress : Option (Running Lock Object Operation Result)}

/-- A transaction that has given back a lock is about to end, and no other one of its thread is. -/
theorem State.ending_released {now : Running Lock Object Operation Result}
    (was : state.running thread = some now) (shrinking : released now.executed = true)
    (ended : Completed Thread Lock Object Operation Result) :
    state.Ending ended ↔
      ended = now.ended thread ∨ (ended.thread ≠ thread ∧ state.Ending ended) := by
  -- The thread runs one transaction at a time.
  constructor
  · intro ending
    by_cases same : ended.thread = thread
    · obtain ⟨running, still, -, noted⟩ := ending
      rw [same] at still noted
      cases was.symm.trans still
      exact .inl noted.symm
    · exact .inr ⟨same, ending⟩
  · intro either
    rcases either with same | ⟨-, ending⟩
    · subst same
      exact ⟨now, was, shrinking, rfl⟩
    · exact ending

/-- A transaction in its first phase is not about to end. -/
theorem State.ending_apart {now : Running Lock Object Operation Result}
    (was : state.running thread = some now) (growing : released now.executed = false)
    {ended : Completed Thread Lock Object Operation Result} (ending : state.Ending ended) :
    ended.thread ≠ thread := by
  -- Its own thread has not given back a lock yet.
  intro same
  obtain ⟨running, still, shrinking, -⟩ := ending
  rw [same] at still
  cases was.symm.trans still
  exact absurd (growing.symm.trans shrinking) (by simp)

/-- The order stays where no transaction leaves its first phase. -/
theorem SerializedBy.keep [DecidableEq Object]
    (serialized : SerializedBy system store state order ending)
    (tracks : Tracks system (serial system.perform store (order.map Completed.program)).2 after)
    (completed : after.completed = state.completed)
    (same : ∀ ended, after.Ending ended ↔ state.Ending ended) :
    SerializedBy system store after order ending where
  -- The contents that the order leaves are the same as before.
  perm := completed ▸ serialized.perm
  nodup := serialized.nodup
  ending_iff ended := (serialized.ending_iff ended).trans (same ended).symm
  results := serialized.results
  tracks := tracks

/-- A transaction that leaves its first phase comes last in the order so far. -/
theorem SerializedBy.serial_ended [DecidableEq Object]
    (serialized : SerializedBy system store state order ending)
    {now : Running Lock Object Operation Result} (was : state.running thread = some now)
    (growing : released now.executed = false)
    (onlyUnlocks : ∀ action ∈ now.remaining, action.releases = true) :
    serial system.perform store ((order ++ [now.ended thread]).map Completed.program) =
      ((order ++ [now.ended thread]).map Completed.results,
        (replay system.perform (serial system.perform store (order.map Completed.program)).2
          now.executed).2) := by
  -- The transaction alone, started from what the order leaves, gives the results it has seen.
  have own := serialized.tracks.growing thread now was growing
  -- What is left of the transaction does not access anything.
  have whole : replay system.perform (serial system.perform store (order.map Completed.program)).2
      (now.executed ++ now.remaining) =
        replay system.perform (serial system.perform store (order.map Completed.program)).2
          now.executed := by
    rw [replay_append, replay_releases system.perform onlyUnlocks, List.append_nil]
  rw [List.map_append, List.map_append, List.map_singleton, List.map_singleton, serial_concat,
    serialized.results]
  simp only [Running.ended, whole, own.1]

variable [DecidableEq Thread]

/-- An object that is settled after a thread moved, and that the thread did not hold, was settled
before. -/
theorem Settled.before (moved : after.running = (state.put thread progress).running)
    (others : ∀ other, other ≠ thread →
      ∀ lock, after.holder lock = some other ↔ state.holder lock = some other)
    {object : Object} (settled : Settled system after object)
    (apart : state.holder (system.guard object) ≠ some thread) : Settled system state object := by
  -- The other threads hold the same locks and are as far as before.
  intro other running holds now
  have different : other ≠ thread := fun same => apart (same ▸ holds)
  refine settled other running ((others other different _).mpr holds) ?_
  rw [moved, State.put_other state different]
  exact now

/-- A move changes whether the moved thread's transaction is about to end, and no other. -/
theorem State.ending_moved (moved : after.running = (state.put thread progress).running)
    (ended : Completed Thread Lock Object Operation Result) :
    after.Ending ended ↔
      (ended.thread = thread ∧ ∃ running, progress = some running ∧
        released running.executed = true ∧ running.ended thread = ended) ∨
      (ended.thread ≠ thread ∧ state.Ending ended) := by
  -- Only the moved thread has another transaction than before.
  by_cases same : ended.thread = thread
  · simp [State.Ending, moved, same]
  · simp [State.Ending, moved, same, State.put_other]

/-- A transaction that has given back a lock is about to end once it moved. -/
theorem State.ending_left {gone : Running Lock Object Operation Result}
    (moved : after.running = (state.put thread (some gone)).running)
    (shrinking : released gone.executed = true)
    (ended : Completed Thread Lock Object Operation Result) :
    after.Ending ended ↔
      ended = gone.ended thread ∨ (ended.thread ≠ thread ∧ state.Ending ended) := by
  -- The new progress of the thread is past its first phase.
  rw [State.ending_moved moved]
  constructor
  · rintro (⟨-, running, now, -, noted⟩ | other)
    · cases now
      exact .inl noted.symm
    · exact .inr other
  · rintro (noted | other)
    · subst noted
      exact .inl ⟨rfl, gone, rfl, shrinking, rfl⟩
    · exact .inr other

/-- A thread without a transaction is not about to end one. -/
theorem State.ending_done (moved : after.running = (state.put thread none).running)
    (ended : Completed Thread Lock Object Operation Result) :
    after.Ending ended ↔ ended.thread ≠ thread ∧ state.Ending ended := by
  -- The thread has no transaction any more.
  rw [State.ending_moved moved]
  constructor
  · rintro (⟨-, running, now, -⟩ | other)
    · cases now
    · exact other
  · exact .inr

/-- A transaction that goes on in its first phase is not about to end, neither before nor after. -/
theorem State.ending_growing (moved : after.running = (state.put thread progress).running)
    (was : ∀ running, state.running thread = some running → released running.executed = false)
    (growing : ∀ running, progress = some running → released running.executed = false)
    (ended : Completed Thread Lock Object Operation Result) :
    after.Ending ended ↔ state.Ending ended := by
  -- Neither the old nor the new progress of the thread is past its first phase.
  rw [State.ending_moved moved]
  constructor
  · rintro (⟨-, running, now, shrinking, -⟩ | ⟨-, old⟩)
    · exact absurd ((growing running now).symm.trans shrinking) (by simp)
    · exact old
  · intro old
    refine .inr ⟨fun same => ?_, old⟩
    obtain ⟨running, now, shrinking, -⟩ := old
    exact absurd ((was running (same ▸ now)).symm.trans shrinking) (by simp)

variable [DecidableEq Object]

/-- A transaction that goes on in its first phase is tracked by the same contents. -/
theorem Tracks.advance (tracks : Tracks system base state)
    {now : Running Lock Object Operation Result}
    (moved : after.running = (state.put thread (some now)).running)
    (growing : released now.executed = false)
    (others : ∀ other, other ≠ thread →
      ∀ lock, after.holder lock = some other ↔ state.holder lock = some other)
    (kept : ∀ object, state.holder (system.guard object) = some thread →
      after.holder (system.guard object) = some thread)
    (frame : ∀ object, state.holder (system.guard object) ≠ some thread →
      after.store object = state.store object)
    (results : (replay system.perform base now.executed).1 = now.results)
    (own : ∀ object, after.holder (system.guard object) = some thread →
      after.store object = (replay system.perform base now.executed).2 object) :
    Tracks system base after := by
  -- Other transactions see objects that this one does not hold, and those did not change.
  constructor
  · intro other running nowOther growingOther
    by_cases same : other = thread
    · subst same
      rw [moved, State.put_same] at nowOther
      cases nowOther
      exact ⟨results, own⟩
    · rw [moved, State.put_other state same] at nowOther
      obtain ⟨resultsOther, ownOther⟩ := tracks.growing other running nowOther growingOther
      refine ⟨resultsOther, fun object holds => ?_⟩
      rw [others other same] at holds
      rw [frame object fun held => same (Option.some.inj (holds.symm.trans held))]
      exact ownOther object holds
  · intro object settled
    -- The thread is in its first phase, so it holds no settled object.
    have apartAfter : after.holder (system.guard object) ≠ some thread := by
      intro holds
      have shrinking := settled thread now holds (moved ▸ State.put_same ..)
      exact absurd (growing.symm.trans shrinking) (by simp)
    have apart := fun holds => apartAfter (kept object holds)
    rw [frame object apart]
    exact tracks.settled object (settled.before moved others apart)

/-- An access under the lock of its object is tracked by the same contents. -/
theorem Tracks.access (tracks : Tracks system base state)
    {executed rest : List (Action Lock Object Operation)} {object : Object}
    {operation : Operation} {results : List Result}
    (next : state.running thread = some ⟨executed, .access object operation :: rest, results⟩)
    (growing : released executed = false)
    (holds : state.holder (system.guard object) = some thread) :
    Tracks system base
      ((state.put thread (some ⟨executed ++ [.access object operation], rest,
          results ++ [(system.perform operation (state.store object)).1]⟩)).write object
        (system.perform operation (state.store object)).2) := by
  -- The object is held, so its content is the one that the transaction sees by itself.
  obtain ⟨ownResults, ownContents⟩ := tracks.growing thread _ next growing
  have still : released (executed ++ [.access object operation]) = false := by
    simp [growing, Action.releases]
  have content := ownContents object holds
  refine tracks.advance rfl still (fun _ _ _ => Iff.rfl) (fun _ held => held) ?_ ?_ ?_
  · intro other apart
    have different : other ≠ object := fun same => apart (same ▸ holds)
    exact Function.update_of_ne different ..
  · rw [replay_append]
    simp only [replay, ownResults, content]
  · intro other held
    rw [replay_append]
    by_cases same : other = object
    · subst same
      simp [State.write, replay, content]
    · simpa [State.write, State.put, replay, same] using ownContents other held

/-- Giving back a lock keeps the order, or puts the transaction at its end. -/
theorem SerializedBy.unlock (serialized : SerializedBy system store state order ending)
    {now gone : Running Lock Object Operation Result} (was : state.running thread = some now)
    (onlyUnlocks : ∀ action ∈ now.remaining, action.releases = true)
    (moved : after.running = (state.put thread (some gone)).running)
    (shrinking : released gone.executed = true) (noted : gone.ended thread = now.ended thread)
    (completed : after.completed = state.completed)
    (left : Tracks system
      (if released now.executed = true then
        (serial system.perform store (order.map Completed.program)).2
      else (replay system.perform (serial system.perform store (order.map Completed.program)).2
        now.executed).2) after) :
    ∃ order ending, SerializedBy system store after order ending := by
  -- The cases are whether an earlier lock was given back already.
  have endings := State.ending_left moved shrinking
  rw [noted] at endings
  cases phase : released now.executed with
  | true =>
    -- The transaction has its place in the order already.
    rw [if_pos phase] at left
    refine ⟨order, ending, serialized.keep left completed fun ended => ?_⟩
    rw [endings, ← State.ending_released was phase]
  | false =>
    rw [if_neg (by simp [phase])] at left
    have last := serialized.serial_ended was phase onlyUnlocks
    refine ⟨order ++ [now.ended thread], now.ended thread :: ending, ?_, ?_, fun ended => ?_, ?_,
      ?_⟩
    · rw [completed]
      exact (List.perm_append_singleton _ _).trans
        ((serialized.perm.cons _).trans List.perm_middle.symm)
    · refine List.nodup_cons.mpr ⟨fun member => ?_, serialized.nodup⟩
      exact State.ending_apart was phase ((serialized.ending_iff _).mp member) rfl
    · rw [endings, List.mem_cons, serialized.ending_iff]
      refine or_congr Iff.rfl ⟨fun old => ⟨State.ending_apart was phase old, old⟩, And.right⟩
    · rw [last]
    · rw [last]
      exact left

/-- The end of a transaction keeps the order, or puts the transaction at its end. -/
theorem SerializedBy.finish (serialized : SerializedBy system store state order ending)
    {now : Running Lock Object Operation Result} (was : state.running thread = some now)
    (finished : now.remaining = [])
    (moved : after.running = (state.put thread none).running)
    (completed : after.completed = state.completed ++ [now.ended thread])
    (left : Tracks system
      (if released now.executed = true then
        (serial system.perform store (order.map Completed.program)).2
      else (replay system.perform (serial system.perform store (order.map Completed.program)).2
        now.executed).2) after) :
    ∃ order ending, SerializedBy system store after order ending := by
  -- The cases are whether the transaction gave back any lock at all.
  classical
  have endings := State.ending_done moved
  cases phase : released now.executed with
  | true =>
    rw [if_pos phase] at left
    have member : now.ended thread ∈ ending :=
      (serialized.ending_iff _).mpr ⟨now, was, phase, rfl⟩
    refine ⟨order, ending.erase (now.ended thread), ?_, serialized.nodup.erase _, fun ended => ?_,
      serialized.results, left⟩
    · rw [completed, List.append_assoc]
      exact serialized.perm.trans ((List.perm_cons_erase member).append_left _)
    · rw [serialized.nodup.mem_erase_iff, serialized.ending_iff, endings,
        State.ending_released was phase]
      constructor
      · rintro ⟨apart, same | other⟩
        · exact absurd same apart
        · exact ⟨other.1, .inr other⟩
      · rintro ⟨apart, same | other⟩
        · exact absurd (congrArg Completed.thread same) apart
        · exact ⟨fun same => apart (congrArg Completed.thread same), .inr other⟩
  | false =>
    rw [if_neg (by simp [phase])] at left
    have last := serialized.serial_ended was phase (by simp [finished])
    refine ⟨order ++ [now.ended thread], ending, ?_, serialized.nodup, fun ended => ?_, ?_, ?_⟩
    · rw [completed, List.append_assoc]
      exact (List.perm_append_singleton _ _).trans
        ((serialized.perm.cons _).trans List.perm_middle.symm)
    · rw [endings, serialized.ending_iff]
      exact ⟨fun old => ⟨State.ending_apart was phase old, old⟩, And.right⟩
    · rw [last]
    · rw [last]
      exact left

variable [DecidableEq Lock]

/-- What a transaction in its first phase does not hold it has not changed. -/
theorem Reachable.unchanged (disciplined : Disciplined system)
    (reachable : Reachable system store state) {thread : Thread}
    {running : Running Lock Object Operation Result} (now : state.running thread = some running)
    (growing : released running.executed = false) {object : Object}
    (apart : state.holder (system.guard object) ≠ some thread) :
    (replay system.perform base running.executed).2 object = base object := by
  -- It accesses only what it holds.
  refine replay_untouched system.perform fun operation accessed => apart ?_
  have obeys := disciplined.twoPhase thread _ (reachable.known now)
  have held := TwoPhase.accessed_held obeys growing accessed
  rw [← State.heldBy_of now] at held
  exact ((reachable.locksAgree disciplined).held_iff thread _).mp held

/-- Taking a free lock is tracked by the same contents. -/
theorem Tracks.lock (disciplined : Disciplined system) (reachable : Reachable system store state)
    (tracks : Tracks system base state) {executed rest : List (Action Lock Object Operation)}
    {taken : Lock} {results : List Result}
    (next : state.running thread = some ⟨executed, .lock taken :: rest, results⟩)
    (growing : released executed = false) (free : state.holder taken = none) :
    Tracks system base
      ((state.put thread (some ⟨executed ++ [.lock taken], rest, results⟩)).setHolder taken
        (some thread)) := by
  -- Taking a lock changes no object, and the transaction by itself has not touched those it guards.
  obtain ⟨ownResults, ownContents⟩ := tracks.growing thread _ next growing
  have still : released (executed ++ [.lock taken]) = false := by
    simp [growing, Action.releases]
  refine tracks.advance rfl still (fun other apart => State.setHolder_others
    (by simp [State.put, free]) (by simp [Ne.symm apart])) ?_ (fun _ _ => rfl) ?_ ?_
  · intro object holds
    by_cases same : system.guard object = taken
    · simp [same, State.setHolder]
    · simp [same, State.setHolder, State.put, holds]
  · rw [replay_append]
    simpa [replay] using ownResults
  · intro object holds
    rw [replay_append]
    by_cases same : system.guard object = taken
    · -- The lock was free, so its objects hold what they held before all growing transactions.
      have unheld : ∀ other, state.holder (system.guard object) ≠ some other := by
        simp [same, free]
      have content := tracks.settled object fun other _ held _ => absurd held (unheld other)
      exact content.trans (reachable.unchanged disciplined next growing (unheld thread)).symm
    · refine ownContents object ?_
      simpa [same, State.setHolder, State.put] using holds

/-- A transaction that is over with its first phase leaves tracked contents, the same as before or,
if it was in that phase until now, those it makes by itself. -/
theorem Tracks.leave (disciplined : Disciplined system) (reachable : Reachable system store state)
    (tracks : Tracks system base state) {now : Running Lock Object Operation Result}
    (was : state.running thread = some now)
    (moved : after.running = (state.put thread progress).running)
    (shrinking : ∀ running, progress = some running → released running.executed = true)
    (others : ∀ other, other ≠ thread →
      ∀ lock, after.holder lock = some other ↔ state.holder lock = some other)
    (same : after.store = state.store) :
    Tracks system
      (if released now.executed = true then base else (replay system.perform base now.executed).2)
      after := by
  -- Contents differ from those before at most where the thread holds the lock.
  have agrees : ∀ object, state.holder (system.guard object) ≠ some thread →
      base object = (if released now.executed = true then base
        else (replay system.perform base now.executed).2) object := by
    intro object apart
    split
    · rfl
    · next growing =>
      exact (reachable.unchanged disciplined was (Bool.eq_false_iff.mpr growing) apart).symm
  constructor
  · intro other running nowOther growingOther
    have different : other ≠ thread := by
      intro equal
      subst equal
      rw [moved, State.put_same] at nowOther
      exact absurd (growingOther.symm.trans (shrinking running nowOther)) (by simp)
    rw [moved, State.put_other state different] at nowOther
    obtain ⟨resultsOther, ownOther⟩ := tracks.growing other running nowOther growingOther
    have elsewhere : ∀ object, state.holder (system.guard object) = some other →
        state.holder (system.guard object) ≠ some thread := by
      intro object holds held
      exact different (Option.some.inj (holds.symm.trans held))
    -- What the other transaction accessed it holds, so the contents there are the same.
    have obeys := disciplined.twoPhase other _ (reachable.known nowOther)
    obtain ⟨sameResults, sameContents⟩ := replay_congr system.perform
      fun object operation (accessed : .access object operation ∈ running.executed) =>
        have held := TwoPhase.accessed_held obeys growingOther accessed
        agrees object (elsewhere object
          (((reachable.locksAgree disciplined).held_iff other _).mp
            (State.heldBy_of nowOther ▸ held)))
    refine ⟨sameResults.symm.trans resultsOther, fun object holds => ?_⟩
    rw [others other different] at holds
    rw [same, ownOther object holds]
    exact sameContents object (agrees object (elsewhere object holds))
  · intro object settled
    rw [same]
    by_cases holds : state.holder (system.guard object) = some thread
    · split
      · next released =>
        refine tracks.settled object fun other running held nowOther => ?_
        cases held.symm.trans holds
        cases nowOther.symm.trans was
        exact released
      · next growing =>
        exact (tracks.growing thread now was (Bool.eq_false_iff.mpr growing)).2 object holds
    · rw [tracks.settled object (settled.before moved others holds)]
      exact agrees object holds

/-- Every step keeps the order or makes it longer. -/
theorem Step.serialized (disciplined : Disciplined system)
    (reachable : Reachable system store state)
    (serialized : SerializedBy system store state order ending) (step : Step system state after) :
    ∃ order ending, SerializedBy system store after order ending := by
  -- The cases are the kinds of steps; the order grows when a first phase ends.
  have agree := reachable.locksAgree disciplined
  have tracks := serialized.tracks
  cases step with
  | @start thread program idle known =>
    have nothing : ∀ lock, state.holder lock ≠ some thread := by
      intro lock holds
      rw [← agree.held_iff, State.heldBy_idle idle] at holds
      cases holds
    refine ⟨order, ending, serialized.keep ?_ rfl (State.ending_growing rfl ?_ ?_)⟩
    · refine tracks.advance rfl rfl (fun _ _ _ => Iff.rfl) (fun _ holds => holds) (fun _ _ => rfl)
        rfl fun object holds => ?_
      exact absurd holds (nothing (system.guard object))
    · intro running now
      cases idle.symm.trans now
    · rintro running ⟨⟩
      rfl
  | @lock thread executed rest taken results next free =>
    have obeys := disciplined.twoPhase thread _ (reachable.known next)
    have growing : released executed = false := obeys.next
    have still : released (executed ++ [.lock taken]) = false := by
      simp [growing, Action.releases]
    refine ⟨order, ending, serialized.keep (tracks.lock disciplined reachable next growing free) rfl
      (State.ending_growing rfl ?_ ?_)⟩
    · intro running now
      cases next.symm.trans now
      exact growing
    · intro running now
      cases now
      exact still
  | @access thread executed rest object operation results next =>
    have obeys := disciplined.twoPhase thread _ (reachable.known next)
    have growing : released executed = false := obeys.next.1
    have still : released (executed ++ [.access object operation]) = false := by
      simp [growing, Action.releases]
    have holds := reachable.access_guarded disciplined next
    refine ⟨order, ending, serialized.keep (tracks.access next growing holds) rfl
      (State.ending_growing rfl ?_ ?_)⟩
    · intro running now
      cases next.symm.trans now
      exact growing
    · intro running now
      cases now
      exact still
  | @unlock thread executed rest given results next =>
    have obeys := disciplined.twoPhase thread _ (reachable.known next)
    have held : given ∈ heldAfter executed := obeys.next
    rw [← State.heldBy_of next, agree.held_iff] at held
    have shrinking : released (executed ++ [.unlock given]) = true := by simp [Action.releases]
    have onlyUnlocks : ∀ action ∈ Action.unlock given :: rest, action.releases = true := by
      intro action member
      have again : Obeys (TwoPhase system.guard) [] ((executed ++ [.unlock given]) ++ rest) := by
        simpa using obeys
      rcases List.mem_cons.mp member with first | later
      · exact first ▸ rfl
      · exact TwoPhase.only_unlocks again shrinking later
    refine serialized.unlock next onlyUnlocks rfl shrinking (by simp [Running.ended]) rfl ?_
    exact tracks.leave disciplined reachable next rfl (by rintro running ⟨⟩; exact shrinking)
      (fun other apart => State.setHolder_others (by simp [State.put, held, Ne.symm apart])
        (by simp)) rfl
  | @finish thread executed results next =>
    refine serialized.finish next rfl rfl (by simp [Running.ended, State.record, State.put]) ?_
    exact tracks.leave disciplined reachable next rfl (by rintro running ⟨⟩)
      (fun _ _ _ => Iff.rfl) rfl

/-- Every reachable state is the one left by transactions one at a time. -/
theorem Reachable.serialized (disciplined : Disciplined system)
    (reachable : Reachable system store state) :
    ∃ order ending, SerializedBy system store state order ending := by
  -- At the start the order is empty, and every step keeps it or makes it longer.
  induction reachable with
  | initial =>
    have tracks : Tracks system store (State.initial store) :=
      ⟨fun thread running now => by simp [State.initial] at now, fun _ _ => rfl⟩
    refine ⟨[], [], List.Perm.refl _, List.nodup_nil, fun ended => ?_, rfl, tracks⟩
    simp [State.Ending, State.initial]
  | step before step ih =>
    obtain ⟨order, ending, serialized⟩ := ih
    exact step.serialized disciplined before serialized

/-- Objects whose locks nobody holds show what some order of the transactions leaves. -/
theorem Reachable.serial_free (disciplined : Disciplined system)
    (reachable : Reachable system store state) :
    ∃ order ending : List (Completed Thread Lock Object Operation Result),
      order.Perm (state.completed ++ ending) ∧
      (∀ ended ∈ ending, state.Ending ended) ∧
      (serial system.perform store (order.map Completed.program)).1 =
        order.map Completed.results ∧
      ∀ object, state.holder (system.guard object) = none →
        state.store object =
          (serial system.perform store (order.map Completed.program)).2 object := by
  -- A free object is settled, as nobody holds its lock.
  obtain ⟨order, ending, serialized⟩ := reachable.serialized disciplined
  refine ⟨order, ending, serialized.perm, fun ended => (serialized.ending_iff ended).mp,
    serialized.results, fun object free => serialized.tracks.settled object ?_⟩
  intro thread running holds _
  exact absurd (free.symm.trans holds) (by simp)

/-- When no transaction is under way, the state is the one that the ended transactions leave one at
a time in some order, each with its results. -/
theorem Reachable.serial_quiet (disciplined : Disciplined system)
    (reachable : Reachable system store state) (quiet : state.Quiet) :
    ∃ order : List (Completed Thread Lock Object Operation Result),
      order.Perm state.completed ∧
      serial system.perform store (order.map Completed.program) =
        (order.map Completed.results, state.store) := by
  -- Nothing is about to end, and every object is settled.
  obtain ⟨order, ending, serialized⟩ := reachable.serialized disciplined
  have none_ending : ending = [] := by
    refine List.eq_nil_iff_forall_not_mem.mpr fun ended member => ?_
    obtain ⟨running, now, -⟩ := (serialized.ending_iff ended).mp member
    exact absurd ((quiet ended.thread).symm.trans now) (by simp)
  have perm := serialized.perm
  rw [none_ending, List.append_nil] at perm
  refine ⟨order, perm, Prod.ext serialized.results (funext fun object => ?_)⟩
  refine (serialized.tracks.settled object ?_).symm
  intro thread running _ now
  exact absurd ((quiet thread).symm.trans now) (by simp)

end Orders

end SecretTyping.Locking
