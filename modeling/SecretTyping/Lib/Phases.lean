import Mathlib.Data.List.Nodup
import Mathlib.Logic.Function.Basic

/-! Threads that work on shared objects in phases, which a barrier separates, and under locks. -/

namespace SecretTyping.Phases

/-- What a thread does within a phase. -/
inductive Step (Lock Call : Type) where
  | lock (lock : Lock)
  | unlock (lock : Lock)
  | call (call : Call)
  deriving DecidableEq

/-- What each thread does before, between and behind the barriers, the object each call works on,
and what it makes of it. -/
structure System (Thread Lock Call Object Value : Type) where
  program : Thread → List (List (Step Lock Call))
  object : Call → Object
  perform : Call → Value → Value

/-- How far a thread is in its phase, and what it has read if it is inside a call. -/
structure Progress (Lock Call Value : Type) where
  executed : List (Step Lock Call)
  remaining : List (Step Lock Call)
  inside : Option Value

/-- What the objects hold, who holds the locks, the phase, and how far the threads are in it. -/
structure State (Thread Lock Call Object Value : Type) where
  store : Object → Value
  holder : Lock → Option Thread
  phase : Nat
  progress : Thread → Progress Lock Call Value

variable {Thread Lock Call Object Value : Type}

/-- What a thread does in a phase. -/
def System.steps (system : System Thread Lock Call Object Value) (thread : Thread) (phase : Nat) :
    List (Step Lock Call) :=
  (system.program thread)[phase]?.getD []

/-- Every thread is at the beginning of a phase. -/
def System.begin (system : System Thread Lock Call Object Value) (phase : Nat) (thread : Thread) :
    Progress Lock Call Value :=
  ⟨[], system.steps thread phase, none⟩

/-- Every thread is at the beginning of its program. -/
def State.initial (system : System Thread Lock Call Object Value) (store : Object → Value) :
    State Thread Lock Call Object Value :=
  ⟨store, fun _ => none, 0, system.begin 0⟩

/-- Set who holds a lock. -/
def State.setHolder [DecidableEq Lock] (state : State Thread Lock Call Object Value) (lock : Lock)
    (holder : Option Thread) : State Thread Lock Call Object Value :=
  { state with holder := Function.update state.holder lock holder }

/-- Set what an object holds. -/
def State.write [DecidableEq Object] (state : State Thread Lock Call Object Value)
    (object : Object) (value : Value) : State Thread Lock Call Object Value :=
  { state with store := Function.update state.store object value }

/-- Set how far a thread is. -/
def State.put [DecidableEq Thread] (state : State Thread Lock Call Object Value) (thread : Thread)
    (progress : Progress Lock Call Value) : State Thread Lock Call Object Value :=
  { state with progress := Function.update state.progress thread progress }

/-- A thread's own progress is what was put. -/
@[simp] theorem State.put_same [DecidableEq Thread] (state : State Thread Lock Call Object Value)
    (thread : Thread) (progress : Progress Lock Call Value) :
    (state.put thread progress).progress thread = progress :=
  Function.update_self ..

/-- The progress of the other threads stays. -/
theorem State.put_other [DecidableEq Thread] (state : State Thread Lock Call Object Value)
    {thread other : Thread} (apart : other ≠ thread) (progress : Progress Lock Call Value) :
    (state.put thread progress).progress other = state.progress other :=
  Function.update_of_ne apart ..

/-- A thread has done the next step of its phase. -/
def State.advance [DecidableEq Thread] (state : State Thread Lock Call Object Value)
    (thread : Thread) (step : Step Lock Call) (rest : List (Step Lock Call)) :
    State Thread Lock Call Object Value :=
  state.put thread ⟨(state.progress thread).executed ++ [step], rest, none⟩

/-- A thread has begun its next call, and works on a value that it has read. -/
def State.read [DecidableEq Thread] (state : State Thread Lock Call Object Value)
    (thread : Thread) (value : Value) : State Thread Lock Call Object Value :=
  state.put thread { state.progress thread with inside := some value }

/-- A thread that has read a value works on it. -/
@[simp] theorem State.read_inside [DecidableEq Thread]
    (state : State Thread Lock Call Object Value) (thread : Thread) (value : Value) :
    ((state.read thread value).progress thread).inside = some value := by
  rw [State.read, State.put_same]

/-- A thread that has read a value has as much to do as before. -/
@[simp] theorem State.read_remaining [DecidableEq Thread]
    (state : State Thread Lock Call Object Value) (thread : Thread) (value : Value) :
    ((state.read thread value).progress thread).remaining =
      (state.progress thread).remaining := by
  rw [State.read, State.put_same]

/-- What a thread has read does not matter when its call has ended. -/
theorem State.read_advance [DecidableEq Thread] (state : State Thread Lock Call Object Value)
    (thread : Thread) (value : Value) (step : Step Lock Call) (rest : List (Step Lock Call)) :
    ((state.read thread value).advance thread step rest).progress =
      Function.update state.progress thread
        ⟨(state.progress thread).executed ++ [step], rest, none⟩ := by
  show Function.update (Function.update state.progress thread _) thread
    ⟨((state.read thread value).progress thread).executed ++ [step], rest, none⟩ = _
  rw [State.read, State.put_same, Function.update_idem]

/-- A thread is inside a call. -/
def State.InCall (state : State Thread Lock Call Object Value) (thread : Thread) (call : Call) :
    Prop :=
  (state.progress thread).inside.isSome = true ∧
    ∃ rest, (state.progress thread).remaining = .call call :: rest

section Moves

variable [DecidableEq Thread] [DecidableEq Lock] [DecidableEq Object]

/-- A thread takes a lock or gives it back, enters or leaves a call, or all threads have come to the
barrier and go on to the next phase. -/
inductive Move (system : System Thread Lock Call Object Value) :
    State Thread Lock Call Object Value → State Thread Lock Call Object Value → Prop
  | lock {state : State Thread Lock Call Object Value} {thread : Thread} {lock : Lock}
      {rest : List (Step Lock Call)}
      (next : (state.progress thread).remaining = .lock lock :: rest)
      (free : state.holder lock = none) :
      Move system state ((state.advance thread (.lock lock) rest).setHolder lock (some thread))
  | unlock {state : State Thread Lock Call Object Value} {thread : Thread} {lock : Lock}
      {rest : List (Step Lock Call)}
      (next : (state.progress thread).remaining = .unlock lock :: rest) :
      Move system state ((state.advance thread (.unlock lock) rest).setHolder lock none)
  | enter {state : State Thread Lock Call Object Value} {thread : Thread} {call : Call}
      {rest : List (Step Lock Call)}
      (next : (state.progress thread).remaining = .call call :: rest)
      (outside : (state.progress thread).inside = none) :
      -- A call works on what the object holds when it begins.
      Move system state (state.read thread (state.store (system.object call)))
  | leave {state : State Thread Lock Call Object Value} {thread : Thread} {call : Call}
      {rest : List (Step Lock Call)} {value : Value}
      (next : (state.progress thread).remaining = .call call :: rest)
      (inside : (state.progress thread).inside = some value) :
      -- Whatever another thread has made of the object in between is lost.
      Move system state ((state.advance thread (.call call) rest).write (system.object call)
        (system.perform call value))
  | release {state : State Thread Lock Call Object Value}
      (arrived : ∀ thread, (state.progress thread).remaining = [])
      (more : ∀ thread, state.phase + 1 < (system.program thread).length) :
      Move system state
        { state with phase := state.phase + 1, progress := system.begin (state.phase + 1) }

/-- The states of all runs from the given contents. -/
inductive Reachable (system : System Thread Lock Call Object Value) (store : Object → Value) :
    State Thread Lock Call Object Value → Prop
  | initial : Reachable system store (.initial system store)
  | move {state after : State Thread Lock Call Object Value}
      (before : Reachable system store state) (move : Move system state after) :
      Reachable system store after

end Moves

section Locks

variable [DecidableEq Lock]

/-- The locks that a thread holds after one more step. -/
def locksAfter (held : List Lock) : Step Lock Call → List Lock
  | .lock lock => lock :: held
  | .unlock lock => held.erase lock
  | .call _ => held

/-- The locks that a thread holds after some steps of a phase. -/
def heldAfter (steps : List (Step Lock Call)) : List Lock :=
  steps.foldl locksAfter []

/-- One more step changes the locks as it does. -/
@[simp] theorem heldAfter_concat (steps : List (Step Lock Call)) (step : Step Lock Call) :
    heldAfter (steps ++ [step]) = locksAfter (heldAfter steps) step := by
  simp [heldAfter]

/-- Nothing is taken that is held, nothing given back that is not, and in the end nothing held. -/
def tidy (held : List Lock) : List (Step Lock Call) → Bool
  | [] => held.isEmpty
  | .lock lock :: rest => !held.contains lock && tidy (lock :: held) rest
  | .unlock lock :: rest => held.contains lock && tidy (held.erase lock) rest
  | .call _ :: rest => tidy held rest

/-- The calls of some steps, each with the locks held around it. -/
def sites (held : List Lock) : List (Step Lock Call) → List (List Lock × Call)
  | [] => []
  | .call call :: rest => (held, call) :: sites held rest
  | step :: rest => sites (locksAfter held step) rest

/-- A call of a phase is one of its sites. -/
theorem mem_sites (before : List (Step Lock Call)) (call : Call) (rest : List (Step Lock Call)) :
    (heldAfter before, call) ∈ sites [] (before ++ .call call :: rest) := by
  -- By induction on the steps before the call, for whatever locks they begin with.
  have general : ∀ held : List Lock,
      (before.foldl locksAfter held, call) ∈ sites held (before ++ .call call :: rest) := by
    induction before with
    | nil => exact fun held => List.mem_cons_self
    | cons step more ih =>
      intro held
      cases step with
      | lock lock => exact ih _
      | unlock lock => exact ih _
      | call other => exact List.mem_cons_of_mem _ (ih held)
  exact general []

/-- Calls alone leave the locks as they are. -/
theorem tidy_calls (calls : List Call) :
    tidy ([] : List Lock) (calls.map Step.call) = true := by
  -- By induction on the calls, none of which changes the locks.
  induction calls with
  | nil => rfl
  | cons call rest ih => exact ih

/-- The locks are used properly in every phase. -/
def System.Tidy (system : System Thread Lock Call Object Value) : Prop :=
  ∀ thread phase, tidy [] (system.steps thread phase) = true

/-- Two threads with calls in one phase that conflict have a lock in common around these calls. -/
def System.Apart (system : System Thread Lock Call Object Value)
    (conflict : Call → Call → Prop) : Prop :=
  ∀ thread other, thread ≠ other → ∀ phase,
    ∀ site ∈ sites [] (system.steps thread phase), ∀ site' ∈ sites [] (system.steps other phase),
      conflict site.2 site'.2 → ∃ lock ∈ site.1, lock ∈ site'.1

end Locks

/-- The threads are within their phase, hold the locks that their steps so far have taken, and will
use them properly. -/
structure Sound [DecidableEq Lock] (system : System Thread Lock Call Object Value)
    (state : State Thread Lock Call Object Value) : Prop where
  whole : ∀ thread, (state.progress thread).executed ++ (state.progress thread).remaining =
    system.steps thread state.phase
  nodup : ∀ thread, (heldAfter (state.progress thread).executed).Nodup
  proper : ∀ thread, tidy (heldAfter (state.progress thread).executed)
    (state.progress thread).remaining = true
  holds : ∀ lock thread, state.holder lock = some thread ↔
    lock ∈ heldAfter (state.progress thread).executed
  calling : ∀ thread value, (state.progress thread).inside = some value →
    ∃ call rest, (state.progress thread).remaining = .call call :: rest

section Invariants

variable [DecidableEq Lock] {system : System Thread Lock Call Object Value}
  {state after : State Thread Lock Call Object Value} {thread : Thread}
  {rest : List (Step Lock Call)}

/-- Every thread holds the locks it should when a phase begins and nobody holds any. -/
theorem Sound.begin (tidy : system.Tidy) {phase : Nat}
    {state : State Thread Lock Call Object Value} (fresh : state.progress = system.begin phase)
    (same : state.phase = phase) (free : ∀ lock, state.holder lock = none) :
    Sound system state := by
  -- Nothing has been done in the phase.
  constructor
  · -- Everything remains to be done.
    intro thread
    rw [fresh, same]
    rfl
  · -- Nothing is held, and what remains is tidy.
    intro thread
    rw [fresh]
    exact List.nodup_nil
  · intro thread
    rw [fresh]
    exact tidy thread phase
  · -- No lock has a holder.
    intro lock thread
    rw [fresh, free]
    exact ⟨(fun none => nomatch none), fun member => absurd member List.not_mem_nil⟩
  · -- No thread is inside a call.
    intro thread value inside
    rw [fresh] at inside
    cases inside

/-- Nobody holds a lock at the barrier. -/
theorem Sound.free (sound : Sound system state)
    (arrived : ∀ thread, (state.progress thread).remaining = []) (lock : Lock) :
    state.holder lock = none := by
  -- A thread that holds a lock has still to give it back.
  cases held : state.holder lock with
  | none => rfl
  | some thread =>
    have proper := sound.proper thread
    rw [arrived, tidy, List.isEmpty_iff] at proper
    have member := (sound.holds lock thread).mp held
    rw [proper] at member
    exact absurd member List.not_mem_nil

variable [DecidableEq Thread]

/-- The progress of one thread keeps the invariant if it holds of that thread, and the locks of the
others stay theirs. -/
theorem Sound.update (sound : Sound system state) {progress : Progress Lock Call Value}
    (phase : after.phase = state.phase)
    (placed : after.progress = Function.update state.progress thread progress)
    (whole : progress.executed ++ progress.remaining = system.steps thread state.phase)
    (nodup : (heldAfter progress.executed).Nodup)
    (proper : tidy (heldAfter progress.executed) progress.remaining = true)
    (own : ∀ lock, after.holder lock = some thread ↔ lock ∈ heldAfter progress.executed)
    (others : ∀ lock other, other ≠ thread →
      (after.holder lock = some other ↔ state.holder lock = some other))
    (calling : ∀ value, progress.inside = some value →
      ∃ call rest, progress.remaining = .call call :: rest) : Sound system after := by
  -- The thread that has moved and the others are looked at apart.
  have moved : after.progress thread = progress := by rw [placed, Function.update_self]
  have kept : ∀ other, other ≠ thread → after.progress other = state.progress other := by
    intro other differ
    rw [placed, Function.update_of_ne differ]
  constructor
  · -- What is executed and what remains are the steps of the phase.
    intro other
    rw [phase]
    by_cases same : other = thread
    · rw [same, moved]
      exact whole
    · rw [kept other same]
      exact sound.whole other
  · -- No lock is held twice.
    intro other
    by_cases same : other = thread
    · rw [same, moved]
      exact nodup
    · rw [kept other same]
      exact sound.nodup other
  · -- What remains is tidy.
    intro other
    by_cases same : other = thread
    · rw [same, moved]
      exact proper
    · rw [kept other same]
      exact sound.proper other
  · -- The holders are those who hold.
    intro lock other
    by_cases same : other = thread
    · rw [same, moved]
      exact own lock
    · rw [kept other same]
      exact (others lock other same).trans (sound.holds lock other)
  · -- Who is inside a call has it next.
    intro other value
    by_cases same : other = thread
    · rw [same, moved]
      exact calling value
    · rw [kept other same]
      exact sound.calling other value

/-- Taking a lock keeps the invariant. -/
theorem Sound.lock (sound : Sound system state) {lock : Lock}
    (next : (state.progress thread).remaining = .lock lock :: rest)
    (free : state.holder lock = none) :
    Sound system ((state.advance thread (.lock lock) rest).setHolder lock (some thread)) := by
  have whole := sound.whole thread
  have proper := sound.proper thread
  rw [next] at whole proper
  obtain ⟨fresh, proper⟩ := Bool.and_eq_true_iff.mp proper
  have fresh : lock ∉ heldAfter (state.progress thread).executed := by simpa using fresh
  -- Nobody else has held the lock either.
  apply sound.update
  · rfl
  · rfl
  · rw [← whole, List.append_assoc]
    rfl
  · -- The lock is a new one among those that are held.
    rw [heldAfter_concat]
    exact List.nodup_cons.mpr ⟨fresh, sound.nodup thread⟩
  · rw [heldAfter_concat]
    exact proper
  · -- The thread holds it, and its other locks as before.
    intro other
    rw [heldAfter_concat]
    show Function.update state.holder lock (some thread) other = some thread ↔
      other ∈ lock :: heldAfter (state.progress thread).executed
    by_cases same : other = lock
    · subst same
      simp
    · rw [Function.update_of_ne same, sound.holds, List.mem_cons]
      simp [same]
  · -- No other thread could have held it.
    intro other running differ
    show Function.update state.holder lock (some thread) other = some running ↔ _
    by_cases same : other = lock
    · subst same
      simp [free, differ.symm]
    · rw [Function.update_of_ne same]
  · exact fun value inside => nomatch inside

/-- Giving a lock back keeps the invariant. -/
theorem Sound.unlock (sound : Sound system state) {lock : Lock}
    (next : (state.progress thread).remaining = .unlock lock :: rest) :
    Sound system ((state.advance thread (.unlock lock) rest).setHolder lock none) := by
  have whole := sound.whole thread
  have proper := sound.proper thread
  have nodup := sound.nodup thread
  rw [next] at whole proper
  obtain ⟨held, proper⟩ := Bool.and_eq_true_iff.mp proper
  have held : lock ∈ heldAfter (state.progress thread).executed := by simpa using held
  have holder := (sound.holds lock thread).mpr held
  -- As the thread holds the lock, nobody else does.
  apply sound.update
  · rfl
  · rfl
  · rw [← whole, List.append_assoc]
    rfl
  · -- The lock is no longer among those that are held.
    rw [heldAfter_concat]
    exact nodup.erase lock
  · rw [heldAfter_concat]
    exact proper
  · -- The thread does not hold it any more, and its other locks as before.
    intro other
    rw [heldAfter_concat]
    show Function.update state.holder lock none other = some thread ↔
      other ∈ (heldAfter (state.progress thread).executed).erase lock
    by_cases same : other = lock
    · subst same
      simp [nodup.not_mem_erase]
    · rw [Function.update_of_ne same, sound.holds, List.mem_erase_of_ne same]
  · -- It was the thread's, so no other thread loses it.
    intro other running differ
    show Function.update state.holder lock none other = some running ↔ _
    by_cases same : other = lock
    · subst same
      simp [holder, differ.symm]
    · rw [Function.update_of_ne same]
  · exact fun value inside => nomatch inside

/-- Entering a call keeps the invariant. -/
theorem Sound.enter (sound : Sound system state) {call : Call}
    (next : (state.progress thread).remaining = .call call :: rest) (value : Value) :
    Sound system (state.read thread value) := by
  -- No lock is taken or given back.
  apply sound.update
  · rfl
  · rfl
  · exact sound.whole thread
  · exact sound.nodup thread
  · exact sound.proper thread
  · exact fun lock => sound.holds lock thread
  · exact fun _ _ _ => Iff.rfl
  · exact fun _ _ => ⟨call, rest, next⟩

/-- Leaving a call keeps the invariant. -/
theorem Sound.leave [DecidableEq Object] (sound : Sound system state) {call : Call}
    (next : (state.progress thread).remaining = .call call :: rest) (object : Object)
    (value : Value) :
    Sound system ((state.advance thread (.call call) rest).write object value) := by
  have whole := sound.whole thread
  have proper := sound.proper thread
  rw [next] at whole proper
  -- A call changes none of the locks.
  have same : heldAfter ((state.progress thread).executed ++ [.call call]) =
      heldAfter (state.progress thread).executed := heldAfter_concat _ _
  apply sound.update
  · rfl
  · rfl
  · rw [← whole, List.append_assoc]
    rfl
  · -- What is held and what remains stays as it is.
    rw [same]
    exact sound.nodup thread
  · rw [same]
    exact proper
  · intro lock
    rw [same]
    exact sound.holds lock thread
  · exact fun _ _ _ => Iff.rfl
  · exact fun value inside => nomatch inside

/-- Every move keeps the invariant. -/
theorem Move.sound [DecidableEq Object] (tidy : system.Tidy) (sound : Sound system state)
    (move : Move system state after) : Sound system after := by
  cases move with
  | lock next free => exact sound.lock next free
  | unlock next => exact sound.unlock next
  | enter next => exact sound.enter next _
  | leave next => exact sound.leave next _ _
  | release arrived => exact .begin tidy rfl rfl (sound.free arrived)

/-- The invariant holds in every reachable state. -/
theorem Reachable.sound [DecidableEq Object] (tidy : system.Tidy) {store : Object → Value}
    (reachable : Reachable system store state) : Sound system state := by
  -- By induction on the run, at whose start no lock is held.
  induction reachable with
  | initial => exact .begin tidy rfl rfl fun _ => rfl
  | move before move ih => exact move.sound tidy ih

omit [DecidableEq Thread] in
/-- A thread inside a call is at one of the sites of its phase. -/
theorem Sound.site (sound : Sound system state) {call : Call} (inCall : state.InCall thread call) :
    (heldAfter (state.progress thread).executed, call) ∈
      sites [] (system.steps thread state.phase) := by
  -- The call is the first of the steps that remain.
  obtain ⟨-, rest, next⟩ := inCall
  rw [← sound.whole thread, next]
  exact mem_sites _ _ _

omit [DecidableEq Thread] in
/-- A thread inside a call has that call in its phase. -/
theorem Sound.call_mem (sound : Sound system state) {call : Call}
    (inCall : state.InCall thread call) : .call call ∈ system.steps thread state.phase := by
  obtain ⟨-, rest, next⟩ := inCall
  rw [← sound.whole thread, next]
  exact List.mem_append_right _ List.mem_cons_self

/-- Two threads are never inside calls that conflict, where such calls of a phase share a lock. -/
theorem Reachable.exclusive [DecidableEq Object] (tidy : system.Tidy)
    {conflict : Call → Call → Prop} (apart : system.Apart conflict) {store : Object → Value}
    (reachable : Reachable system store state) {other : Thread} (differ : thread ≠ other)
    {call call' : Call} (inCall : state.InCall thread call) (inCall' : state.InCall other call') :
    ¬ conflict call call' := by
  intro conflicts
  have sound := reachable.sound tidy
  obtain ⟨lock, held, held'⟩ :=
    apart thread other differ state.phase _ (sound.site inCall) _ (sound.site inCall') conflicts
  -- Both would be the holder of the lock.
  have holder := (sound.holds lock thread).mpr held
  rw [(sound.holds lock other).mpr held'] at holder
  exact differ (Option.some.inj holder).symm

end Invariants

section Runs

variable [DecidableEq Thread] [DecidableEq Lock] [DecidableEq Object]
  {system : System Thread Lock Call Object Value} {store : Object → Value}
  {state : State Thread Lock Call Object Value}

omit [DecidableEq Thread] in
/-- Locks that only one thread holds are held only by it after it has taken or given back one. -/
theorem alone_update {holder : Lock → Option Thread} {thread : Thread}
    (alone : ∀ lock other, holder lock = some other → other = thread) (lock : Lock)
    {now : Option Thread} (own : ∀ other, now = some other → other = thread) (key : Lock)
    (other : Thread) (held : Function.update holder lock now key = some other) :
    other = thread := by
  -- The lock in question has been updated, or it is as it was.
  by_cases same : key = lock
  · rw [same, Function.update_self] at held
    exact own other held
  · rw [Function.update_of_ne same] at held
    exact alone key other held

/-- A thread that no other keeps a lock from can come to the end of its phase alone. -/
theorem Reachable.finish (tidy : system.Tidy) {steps : List (Step Lock Call)}
    (reachable : Reachable system store state) {thread : Thread}
    (remaining : (state.progress thread).remaining = steps)
    (outside : (state.progress thread).inside = none)
    (alone : ∀ lock other, state.holder lock = some other → other = thread) :
    ∃ after, Reachable system store after ∧ after.phase = state.phase ∧
      (after.progress thread).remaining = [] ∧ (after.progress thread).inside = none ∧
      (∀ other, other ≠ thread → after.progress other = state.progress other) ∧
      ∀ lock, after.holder lock = none := by
  -- By induction on the steps that remain, each of which can be taken at once.
  induction steps generalizing state with
  -- Nothing remains, and tidy steps leave nothing held.
  | nil =>
    have sound := reachable.sound tidy
    have proper := sound.proper thread
    rw [remaining, Phases.tidy, List.isEmpty_iff] at proper
    refine ⟨state, reachable, rfl, remaining, outside, fun _ _ => rfl, fun lock => ?_⟩
    cases held : state.holder lock with
    | none => rfl
    | some other =>
      have member := (sound.holds lock other).mp held
      rw [alone lock other held, proper] at member
      exact absurd member List.not_mem_nil
  | cons step rest ih =>
    -- Whatever the first step is, the run goes on from the state after it.
    have proceed : ∀ {middle : State Thread Lock Call Object Value}
        {progress : Progress Lock Call Value}, Reachable system store middle →
        middle.phase = state.phase →
        middle.progress = Function.update state.progress thread progress →
        progress.remaining = rest → progress.inside = none →
        (∀ lock other, middle.holder lock = some other → other = thread) →
        ∃ after, Reachable system store after ∧ after.phase = state.phase ∧
          (after.progress thread).remaining = [] ∧ (after.progress thread).inside = none ∧
          (∀ other, other ≠ thread → after.progress other = state.progress other) ∧
          ∀ lock, after.holder lock = none := by
      intro middle progress reached phase placed left out alone'
      have own : middle.progress thread = progress := by rw [placed, Function.update_self]
      obtain ⟨after, reached', phase', done, out', kept, free⟩ :=
        ih reached (by rw [own, left]) (by rw [own, out]) alone'
      refine ⟨after, reached', phase'.trans phase, done, out', fun other differ => ?_, free⟩
      rw [kept other differ, placed, Function.update_of_ne differ]
    cases step with
    | lock lock =>
      -- The lock is free, as only the thread itself could hold it.
      have free : state.holder lock = none := by
        cases held : state.holder lock with
        | none => rfl
        | some other =>
          -- A thread does not take a lock that it holds.
          have sound := reachable.sound tidy
          have proper := sound.proper thread
          have member := (sound.holds lock other).mp held
          rw [remaining] at proper
          rw [alone lock other held] at member
          have fresh := (Bool.and_eq_true_iff.mp proper).1
          simp [member] at fresh
      apply proceed (reachable.move (.lock remaining free)) rfl rfl rfl rfl
      exact alone_update alone lock fun other same => (Option.some.inj same).symm
    | unlock lock =>
      -- A lock that is held can be given back.
      apply proceed (reachable.move (.unlock remaining)) rfl rfl rfl rfl
      exact alone_update alone lock fun other none => nomatch none
    | call call =>
      -- The call is entered and left.
      have entered := reachable.move (.enter remaining outside)
      have left := entered.move (.leave ((state.read_remaining thread _).trans remaining)
        (state.read_inside thread _))
      exact proceed left rfl (state.read_advance thread _ _ rest) rfl rfl alone

/-- Threads can come to the end of their phase one after another. -/
theorem Reachable.finishAll (tidy : system.Tidy) (reachable : Reachable system store state)
    (outside : ∀ thread, (state.progress thread).inside = none)
    (free : ∀ lock, state.holder lock = none) (threads : List Thread) :
    ∃ after, Reachable system store after ∧ after.phase = state.phase ∧
      (∀ thread ∈ threads, (after.progress thread).remaining = []) ∧
      (∀ thread, (after.progress thread).inside = none) ∧ ∀ lock, after.holder lock = none := by
  -- By induction on the threads; the last one leaves the others as they are.
  induction threads with
  | nil =>
    exact ⟨state, reachable, rfl, (fun _ member => nomatch member), outside, free⟩
  | cons first rest ih =>
    obtain ⟨middle, reached, phase, done, outside', free'⟩ := ih
    -- Nobody holds a lock after the others are done, so the first thread is alone.
    have alone : ∀ lock other, middle.holder lock = some other → other = first := by
      intro lock other held
      rw [free'] at held
      cases held
    obtain ⟨after, reached', phase', done', out, kept, free''⟩ :=
      reached.finish tidy rfl (outside' first) alone
    refine ⟨after, reached', phase'.trans phase, fun thread member => ?_, fun thread => ?_, free''⟩
    · -- The first thread is done now, and the others stay so.
      by_cases same : thread = first
      · rw [same]
        exact done'
      · rw [kept thread same]
        exact done thread ((List.mem_cons.mp member).resolve_left same)
    · by_cases same : thread = first
      · rw [same]
        exact out
      · rw [kept thread same]
        exact outside' thread

/-- All threads can come to the beginning of any phase that each of them has. -/
theorem exists_begin (tidy : system.Tidy) (store : Object → Value) {threads : List Thread}
    (all : ∀ thread, thread ∈ threads) {phase : Nat}
    (reaches : ∀ thread, phase < (system.program thread).length) :
    ∃ state, Reachable system store state ∧ state.phase = phase ∧
      state.progress = system.begin phase ∧ ∀ lock, state.holder lock = none := by
  -- By induction on the phase, at whose end the threads wait for one another.
  induction phase with
  -- The first phase begins with the run.
  | zero => exact ⟨_, .initial, rfl, rfl, fun _ => rfl⟩
  | succ phase ih =>
    obtain ⟨state, reachable, same, fresh, free⟩ :=
      ih fun thread => Nat.lt_of_succ_lt (reaches thread)
    -- All threads finish the phase, and find their locks free.
    obtain ⟨after, reached, same', done, -, free'⟩ :=
      reachable.finishAll tidy (fun thread => by rw [fresh]; rfl) free threads
    have more : ∀ thread, after.phase + 1 < (system.program thread).length := by
      intro thread
      rw [same', same]
      exact reaches thread
    -- Then they are let into the next one.
    have released := reached.move (.release (fun thread => done thread (all thread)) more)
    refine ⟨_, released, ?_, ?_, free'⟩
    · show after.phase + 1 = phase + 1
      rw [same', same]
    · show system.begin (after.phase + 1) = _
      rw [same', same]

/-- Every thread has come to the end of its program. -/
def State.Done (system : System Thread Lock Call Object Value)
    (state : State Thread Lock Call Object Value) : Prop :=
  ∀ thread, state.phase + 1 = (system.program thread).length ∧
    (state.progress thread).remaining = []

/-- All threads can come to the end of programs with equally many phases. -/
theorem exists_done (tidy : system.Tidy) (store : Object → Value) {threads : List Thread}
    (all : ∀ thread, thread ∈ threads) {phase : Nat}
    (phases : ∀ thread, (system.program thread).length = phase + 1) :
    ∃ state, Reachable system store state ∧ state.Done system := by
  -- They come to the beginning of the last phase, and go through it one after another.
  obtain ⟨state, reachable, same, fresh, free⟩ := exists_begin tidy store all fun thread =>
    show phase < (system.program thread).length by rw [phases]; exact Nat.lt_succ_self phase
  obtain ⟨after, reached, same', done, -, -⟩ :=
    reachable.finishAll tidy (fun thread => by rw [fresh]; rfl) free threads
  exact ⟨after, reached, fun thread => ⟨by rw [same', same, phases], done thread (all thread)⟩⟩

end Runs

end SecretTyping.Phases
