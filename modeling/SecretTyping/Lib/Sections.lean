import Mathlib.Data.List.Nodup
import Mathlib.Logic.Function.Basic

/-! Threads that read, change and write back shared objects in sections, each under one lock. -/

namespace SecretTyping.Sections

/-- A section: the lock it takes, the object it works on, and what it does to it. -/
structure Section (Lock Object Operation : Type) where
  lock : Lock
  object : Object
  operation : Operation
  deriving DecidableEq

/-- How far a thread is in a section. -/
inductive Phase (Lock Object Operation Value : Type) where
  | idle
  | waiting (work : Section Lock Object Operation)
  | locked (work : Section Lock Object Operation)
  /-- The object has been read, and nothing has been written back yet. -/
  | loaded (work : Section Lock Object Operation) (value : Value)
  | stored (work : Section Lock Object Operation)

/-- What operations do to values, and the sections that a thread may go through in a row. -/
structure System (Thread Lock Object Operation Value : Type) where
  perform : Operation → Value → Value
  programs : Thread → List (Section Lock Object Operation) → Prop

/-- What the objects hold, who holds the locks, how far the threads are, and the sections in the
order in which their locks have been taken, each with its thread. -/
structure State (Thread Lock Object Operation Value : Type) where
  store : Object → Value
  holder : Lock → Option Thread
  phase : Thread → Phase Lock Object Operation Value
  taken : List (Thread × Section Lock Object Operation)

variable {Thread Lock Object Operation Value : Type}

/-- No thread has started yet. -/
def State.initial (store : Object → Value) : State Thread Lock Object Operation Value :=
  ⟨store, fun _ => none, fun _ => .idle, []⟩

/-- Set who holds a lock. -/
def State.setHolder [DecidableEq Lock] (state : State Thread Lock Object Operation Value)
    (lock : Lock) (holder : Option Thread) : State Thread Lock Object Operation Value :=
  { state with holder := Function.update state.holder lock holder }

/-- Set what an object holds. -/
def State.write [DecidableEq Object] (state : State Thread Lock Object Operation Value)
    (object : Object) (value : Value) : State Thread Lock Object Operation Value :=
  { state with store := Function.update state.store object value }

/-- Note that a thread has taken the lock of a section. -/
def State.note (state : State Thread Lock Object Operation Value) (thread : Thread)
    (work : Section Lock Object Operation) : State Thread Lock Object Operation Value :=
  { state with taken := state.taken ++ [(thread, work)] }

/-- The sections whose locks a thread has taken. -/
def history [DecidableEq Thread] (thread : Thread)
    (taken : List (Thread × Section Lock Object Operation)) :
    List (Section Lock Object Operation) :=
  (taken.filter fun entry => entry.1 = thread).map Prod.snd

/-- What is done to an object in sections. -/
def operationsOn [DecidableEq Object] (object : Object)
    (taken : List (Thread × Section Lock Object Operation)) : List Operation :=
  (taken.filter fun entry => entry.2.object = object).map fun entry => entry.2.operation

/-- What operations make of a value, one after another. -/
def contents (perform : Operation → Value → Value) (value : Value) (operations : List Operation) :
    Value :=
  operations.foldl (fun value operation => perform operation value) value

/-- One more operation acts on what those before it make. -/
@[simp] theorem contents_concat (perform : Operation → Value → Value) (value : Value)
    (operations : List Operation) (operation : Operation) :
    contents perform value (operations ++ [operation]) =
      perform operation (contents perform value operations) := by
  simp [contents]

/-- One more section is the last of its thread. -/
theorem history_concat_same [DecidableEq Thread] (thread : Thread)
    (taken : List (Thread × Section Lock Object Operation))
    (work : Section Lock Object Operation) :
    history thread (taken ++ [(thread, work)]) = history thread taken ++ [work] := by
  simp [history]

/-- A section of another thread does not count. -/
theorem history_concat_other [DecidableEq Thread] {thread other : Thread} (apart : other ≠ thread)
    (taken : List (Thread × Section Lock Object Operation))
    (work : Section Lock Object Operation) :
    history other (taken ++ [(thread, work)]) = history other taken := by
  simp [history, apart.symm]

/-- A thread is noted as often as it has taken the lock of a section. -/
theorem length_history [DecidableEq Thread] (thread : Thread)
    (taken : List (Thread × Section Lock Object Operation)) :
    (history thread taken).length = (taken.map Prod.fst).count thread := by
  rw [history, List.length_map, List.count_eq_countP, List.countP_map,
    List.countP_eq_length_filter]
  rfl

/-- What a thread has gone through is noted for it. -/
theorem mem_history [DecidableEq Thread] {thread : Thread}
    {taken : List (Thread × Section Lock Object Operation)}
    {work : Section Lock Object Operation} :
    work ∈ history thread taken ↔ (thread, work) ∈ taken := by
  -- The history is what is noted with the thread.
  rw [history, List.mem_map]
  constructor
  · intro ⟨entry, found, same⟩
    obtain ⟨member, own⟩ := List.mem_filter.mp found
    rw [← same, ← of_decide_eq_true own]
    exact member
  · intro member
    exact ⟨(thread, work), List.mem_filter.mpr ⟨member, decide_eq_true rfl⟩, rfl⟩

/-- One more section is the last that works on its object. -/
theorem operationsOn_concat_same [DecidableEq Object] (thread : Thread)
    (taken : List (Thread × Section Lock Object Operation))
    (work : Section Lock Object Operation) :
    operationsOn work.object (taken ++ [(thread, work)]) =
      operationsOn work.object taken ++ [work.operation] := by
  simp [operationsOn]

/-- A section that works on another object does not count. -/
theorem operationsOn_concat_other [DecidableEq Object] {object : Object} (thread : Thread)
    (taken : List (Thread × Section Lock Object Operation))
    {work : Section Lock Object Operation} (apart : work.object ≠ object) :
    operationsOn object (taken ++ [(thread, work)]) = operationsOn object taken := by
  simp [operationsOn, apart]

/-- A thread has a section from its choice to the giving back of the lock. -/
def Phase.Has (work : Section Lock Object Operation) : Phase Lock Object Operation Value → Prop
  | .idle => False
  | .waiting own | .locked own | .loaded own _ | .stored own => own = work

/-- A thread is inside a section between the taking and the giving back of its lock. -/
def Phase.Inside (work : Section Lock Object Operation) : Phase Lock Object Operation Value → Prop
  | .idle | .waiting _ => False
  | .locked own | .loaded own _ | .stored own => own = work

/-- A thread inside a section has not written back yet. -/
def Phase.Unfinished (work : Section Lock Object Operation) :
    Phase Lock Object Operation Value → Prop
  | .idle | .waiting _ | .stored _ => False
  | .locked own | .loaded own _ => own = work

/-- What has not been written back yet is inside its section. -/
theorem Phase.Unfinished.inside {work : Section Lock Object Operation}
    {phase : Phase Lock Object Operation Value} (unfinished : phase.Unfinished work) :
    phase.Inside work := by
  cases phase with
  | idle => exact unfinished
  | waiting => exact unfinished.elim
  | locked => exact unfinished
  | loaded => exact unfinished
  | stored => exact unfinished.elim

/-- What is inside its section has been chosen. -/
theorem Phase.Inside.has {work : Section Lock Object Operation}
    {phase : Phase Lock Object Operation Value} (inside : phase.Inside work) : phase.Has work := by
  cases phase with
  | idle => exact inside
  | waiting => exact inside.elim
  | locked => exact inside
  | loaded => exact inside
  | stored => exact inside

section Steps

variable [DecidableEq Thread]

/-- Set how far a thread is. -/
def State.put (state : State Thread Lock Object Operation Value) (thread : Thread)
    (phase : Phase Lock Object Operation Value) : State Thread Lock Object Operation Value :=
  { state with phase := Function.update state.phase thread phase }

/-- A thread's own progress is what was put. -/
@[simp] theorem State.put_same (state : State Thread Lock Object Operation Value)
    (thread : Thread) (phase : Phase Lock Object Operation Value) :
    (state.put thread phase).phase thread = phase :=
  Function.update_self ..

/-- The progress of the other threads stays. -/
theorem State.put_other (state : State Thread Lock Object Operation Value) {thread other : Thread}
    (apart : other ≠ thread) (phase : Phase Lock Object Operation Value) :
    (state.put thread phase).phase other = state.phase other :=
  Function.update_of_ne apart ..

/-- What holds of a thread after progress of one holds of the new progress or held before. -/
theorem State.put_cases (holds : Phase Lock Object Operation Value → Prop)
    {state : State Thread Lock Object Operation Value} {thread other : Thread}
    {phase : Phase Lock Object Operation Value}
    (now : holds ((state.put thread phase).phase other)) :
    (other = thread ∧ holds phase) ∨ (other ≠ thread ∧ holds (state.phase other)) := by
  by_cases same : other = thread
  · subst same
    rw [State.put_same] at now
    exact .inl ⟨rfl, now⟩
  · rw [State.put_other state same] at now
    exact .inr ⟨same, now⟩

/-- What a thread has after progress that begins no section, it has had before. -/
theorem State.has_of_put {state : State Thread Lock Object Operation Value}
    {thread other : Thread} {phase : Phase Lock Object Operation Value}
    {work : Section Lock Object Operation}
    (came : phase.Has work → (state.phase thread).Has work)
    (has : ((state.put thread phase).phase other).Has work) : (state.phase other).Has work := by
  rcases State.put_cases (fun phase => phase.Has work) has with ⟨same, new⟩ | ⟨-, old⟩
  · rw [same]
    exact came new
  · exact old

/-- What a thread has not written back stays so after progress that leaves it so. -/
theorem State.put_unfinished {state : State Thread Lock Object Operation Value}
    {thread other : Thread} {phase : Phase Lock Object Operation Value}
    {work : Section Lock Object Operation}
    (keeps : (state.phase thread).Unfinished work → phase.Unfinished work)
    (unfinished : (state.phase other).Unfinished work) :
    ((state.put thread phase).phase other).Unfinished work := by
  by_cases same : other = thread
  · rw [same, State.put_same]
    exact keeps (same ▸ unfinished)
  · rw [State.put_other state same]
    exact unfinished

variable [DecidableEq Lock] [DecidableEq Object]

/-- Some thread takes a step; nothing but a lock that is held makes a thread wait. -/
inductive Step (system : System Thread Lock Object Operation Value) :
    State Thread Lock Object Operation Value → State Thread Lock Object Operation Value → Prop
  | choose {state : State Thread Lock Object Operation Value} {thread : Thread}
      {work : Section Lock Object Operation} (idle : state.phase thread = .idle)
      (known : system.programs thread (history thread state.taken ++ [work])) :
      Step system state (state.put thread (.waiting work))
  | take {state : State Thread Lock Object Operation Value} {thread : Thread}
      {work : Section Lock Object Operation} (waiting : state.phase thread = .waiting work)
      (free : state.holder work.lock = none) :
      Step system state
        (((state.put thread (.locked work)).setHolder work.lock (some thread)).note thread work)
  | load {state : State Thread Lock Object Operation Value} {thread : Thread}
      {work : Section Lock Object Operation} (locked : state.phase thread = .locked work) :
      Step system state (state.put thread (.loaded work (state.store work.object)))
  | store {state : State Thread Lock Object Operation Value} {thread : Thread}
      {work : Section Lock Object Operation} {value : Value}
      (loaded : state.phase thread = .loaded work value) :
      -- What is written back is made of what has been read, whatever the object holds by now.
      Step system state ((state.put thread (.stored work)).write work.object
        (system.perform work.operation value))
  | give {state : State Thread Lock Object Operation Value} {thread : Thread}
      {work : Section Lock Object Operation} (stored : state.phase thread = .stored work) :
      Step system state ((state.put thread .idle).setHolder work.lock none)

/-- The states of all runs from the given contents. -/
inductive Reachable (system : System Thread Lock Object Operation Value) (store : Object → Value) :
    State Thread Lock Object Operation Value → Prop
  | initial : Reachable system store (.initial store)
  | step {state after : State Thread Lock Object Operation Value}
      (before : Reachable system store state) (step : Step system state after) :
      Reachable system store after

end Steps

/-- Every section takes the lock that guards its object. -/
def Guarded (system : System Thread Lock Object Operation Value) (guard : Object → Lock) : Prop :=
  ∀ thread works, system.programs thread works → ∀ work ∈ works, work.lock = guard work.object

/-- Threads inside sections hold their locks, what they have read is what the objects hold, and the
objects hold what the sections so far make of them, but for those that have not written back. -/
structure Sound [DecidableEq Object] (system : System Thread Lock Object Operation Value)
    (guard : Object → Lock) (initial : Object → Value)
    (state : State Thread Lock Object Operation Value) : Prop where
  guarded : ∀ thread work, (state.phase thread).Has work → work.lock = guard work.object
  holds : ∀ thread work, (state.phase thread).Inside work → state.holder work.lock = some thread
  loaded : ∀ thread work value, state.phase thread = .loaded work value →
    value = state.store work.object
  settled : ∀ object,
    (∀ thread work, (state.phase thread).Unfinished work → work.object ≠ object) →
      state.store object =
        contents system.perform (initial object) (operationsOn object state.taken)
  unfinished : ∀ thread work, (state.phase thread).Unfinished work →
    ∃ before, operationsOn work.object state.taken = before ++ [work.operation] ∧
      state.store work.object = contents system.perform (initial work.object) before

section Invariants

variable {system : System Thread Lock Object Operation Value} {guard : Object → Lock}
  {initial : Object → Value} {state after : State Thread Lock Object Operation Value}

/-- Only one thread at a time is inside a section that works on an object. -/
theorem Sound.exclusive [DecidableEq Object] (sound : Sound system guard initial state)
    {thread other : Thread} {work work' : Section Lock Object Operation}
    (inside : (state.phase thread).Inside work)
    (inside' : (state.phase other).Inside work') (same : work.object = work'.object) :
    thread = other := by
  -- Both threads are the holder of the lock that guards the object.
  have holds := sound.holds thread work inside
  have holds' := sound.holds other work' inside'
  rw [sound.guarded thread work inside.has, same,
    ← sound.guarded other work' inside'.has, holds'] at holds
  exact (Option.some.inj holds).symm

variable [DecidableEq Thread] [DecidableEq Object]

/-- Sections take the right locks after progress of a thread whose section does. -/
theorem Sound.guarded_put (sound : Sound system guard initial state) {thread : Thread}
    {phase : Phase Lock Object Operation Value}
    (own : ∀ work, phase.Has work → work.lock = guard work.object) (other : Thread)
    (work : Section Lock Object Operation) (has : ((state.put thread phase).phase other).Has work) :
    work.lock = guard work.object := by
  rcases State.put_cases (fun phase => phase.Has work) has with ⟨-, new⟩ | ⟨-, old⟩
  · exact own work new
  · exact sound.guarded other work old

/-- Choosing a section keeps the invariant. -/
theorem Sound.choose (sound : Sound system guard initial state) {thread : Thread}
    {work : Section Lock Object Operation} (idle : state.phase thread = .idle)
    (own : work.lock = guard work.object) :
    Sound system guard initial (state.put thread (.waiting work)) where
  guarded := sound.guarded_put fun work' same => (same : work = work') ▸ own
  holds other work' inside := by
    rcases State.put_cases (fun phase => phase.Inside work') inside with
      ⟨-, new⟩ | ⟨-, old⟩
    · exact new.elim
    · exact sound.holds other work' old
  loaded other work' value now := by
    rcases State.put_cases (fun phase => phase = .loaded work' value) now with
      ⟨-, new⟩ | ⟨-, old⟩
    · cases new
    · exact sound.loaded other work' value old
  settled object none := by
    -- The thread had nothing unfinished before either.
    apply sound.settled object
    intro other work' unfinished
    apply none other work'
    apply State.put_unfinished _ unfinished
    rw [idle]
    exact False.elim
  unfinished other work' now := by
    rcases State.put_cases (fun phase => phase.Unfinished work') now with
      ⟨-, new⟩ | ⟨-, old⟩
    · exact new.elim
    · exact sound.unfinished other work' old

variable [DecidableEq Lock]

/-- Taking the lock of a section keeps the invariant. -/
theorem Sound.take (sound : Sound system guard initial state) {thread : Thread}
    {work : Section Lock Object Operation} (waiting : state.phase thread = .waiting work)
    (free : state.holder work.lock = none) :
    Sound system guard initial
      (((state.put thread (.locked work)).setHolder work.lock (some thread)).note thread work) := by
  have own : work.lock = guard work.object := sound.guarded thread work (by rw [waiting]; rfl)
  -- Nobody is inside a section under a lock that is free.
  have apart : ∀ other work', (state.phase other).Inside work' → work'.lock ≠ work.lock := by
    intro other work' inside same
    have holds := sound.holds other work' inside
    rw [same, free] at holds
    cases holds
  have elsewhere : ∀ other work', (state.phase other).Unfinished work' →
      work'.object ≠ work.object := by
    intro other work' unfinished same
    apply apart other work' unfinished.inside
    rw [sound.guarded other work' unfinished.inside.has, same, own]
  constructor
  · -- Every section is still under the lock of its object.
    exact sound.guarded_put fun work' same => (same : work = work') ▸ own
  · -- The thread holds the lock now, and the others hold the locks that they held.
    intro other work' inside
    rcases State.put_cases (fun phase => phase.Inside work') inside with
      ⟨same, new⟩ | ⟨-, old⟩
    · have same' : work = work' := new
      rw [same, ← same']
      exact Function.update_self ..
    · show Function.update state.holder work.lock (some thread) work'.lock = some other
      rw [Function.update_of_ne (apart other work' old)]
      exact sound.holds other work' old
  · -- What the others have read they still have.
    intro other work' value now
    rcases State.put_cases (fun phase => phase = .loaded work' value) now with
      ⟨-, new⟩ | ⟨-, old⟩
    · cases new
    · exact sound.loaded other work' value old
  · -- The object of the section is not settled now, and of the others nothing has been taken.
    intro object none
    have other : work.object ≠ object := by
      apply none thread work
      show ((state.put thread _).phase thread).Unfinished work
      rw [State.put_same]
      rfl
    show state.store object = contents system.perform (initial object)
      (operationsOn object (state.taken ++ [(thread, work)]))
    rw [operationsOn_concat_other thread _ other]
    apply sound.settled object
    intro running work' unfinished
    apply none running work'
    apply State.put_unfinished _ unfinished
    rw [waiting]
    exact False.elim
  · -- Of this section nothing has been written back, and the others are under other locks.
    intro other work' now
    rcases State.put_cases (fun phase => phase.Unfinished work') now with
      ⟨-, new⟩ | ⟨-, old⟩
    · have same : work = work' := new
      subst same
      exact ⟨_, operationsOn_concat_same thread _ work, sound.settled work.object elsewhere⟩
    · obtain ⟨before, split, store⟩ := sound.unfinished other work' old
      refine ⟨before, ?_, store⟩
      show operationsOn work'.object (state.taken ++ [(thread, work)]) = _
      rw [operationsOn_concat_other thread _ (elsewhere other work' old).symm, split]

omit [DecidableEq Lock] in
/-- Reading the object of a section keeps the invariant. -/
theorem Sound.load (sound : Sound system guard initial state) {thread : Thread}
    {work : Section Lock Object Operation} (locked : state.phase thread = .locked work) :
    Sound system guard initial
      (state.put thread (.loaded work (state.store work.object))) := by
  have unfinished : (state.phase thread).Unfinished work := by
    rw [locked]
    rfl
  constructor
  · -- Every section is still under the lock of its object.
    have own := sound.guarded thread work unfinished.inside.has
    exact sound.guarded_put fun work' same => (same : work = work') ▸ own
  · -- The thread goes on holding its lock.
    intro other work' inside
    rcases State.put_cases (fun phase => phase.Inside work') inside with
      ⟨same, new⟩ | ⟨-, old⟩
    · have same' : work = work' := new
      rw [same, ← same']
      exact sound.holds thread work unfinished.inside
    · exact sound.holds other work' old
  · -- What it has just read is what the object holds.
    intro other work' value now
    rcases State.put_cases (fun phase => phase = .loaded work' value) now with
      ⟨-, new⟩ | ⟨-, old⟩
    · cases new
      rfl
    · exact sound.loaded other work' value old
  · intro object none
    -- What the thread has not written back before, it still has not.
    apply sound.settled object
    intro other work' now
    apply none other work'
    apply State.put_unfinished _ now
    rw [locked]
    exact id
  · -- It still has to write back.
    intro other work' now
    rcases State.put_cases (fun phase => phase.Unfinished work') now with
      ⟨-, new⟩ | ⟨-, old⟩
    · have same : work = work' := new
      exact same ▸ sound.unfinished thread work unfinished
    · exact sound.unfinished other work' old

omit [DecidableEq Lock] in
/-- Writing back what a section makes of its object keeps the invariant. -/
theorem Sound.store (sound : Sound system guard initial state) {thread : Thread}
    {work : Section Lock Object Operation} {value : Value}
    (loaded : state.phase thread = .loaded work value) :
    Sound system guard initial ((state.put thread (.stored work)).write work.object
      (system.perform work.operation value)) := by
  have unfinished : (state.phase thread).Unfinished work := by
    rw [loaded]
    rfl
  -- No other thread is inside a section that works on the object.
  have elsewhere : ∀ other work', other ≠ thread → (state.phase other).Inside work' →
      work'.object ≠ work.object :=
    fun other work' apart inside same =>
      apart (sound.exclusive inside unfinished.inside same)
  constructor
  · -- Every section is still under the lock of its object.
    have own := sound.guarded thread work unfinished.inside.has
    exact sound.guarded_put fun work' same => (same : work = work') ▸ own
  · -- The thread goes on holding its lock.
    intro other work' inside
    rcases State.put_cases (fun phase => phase.Inside work') inside with
      ⟨same, new⟩ | ⟨-, old⟩
    · have same' : work = work' := new
      rw [same, ← same']
      exact sound.holds thread work unfinished.inside
    · exact sound.holds other work' old
  · -- No other thread has read the object that is written.
    intro other work' value' now
    rcases State.put_cases (fun phase => phase = .loaded work' value') now with
      ⟨-, new⟩ | ⟨apart, old⟩
    · cases new
    · have inside : (state.phase other).Inside work' := by
        rw [old]
        rfl
      show value' = Function.update state.store work.object _ work'.object
      rw [Function.update_of_ne (elsewhere other work' apart inside)]
      exact sound.loaded other work' value' old
  · intro object none
    show Function.update state.store work.object _ object = _
    by_cases own : object = work.object
    · -- The operation of the section is the last one on the object.
      obtain ⟨before, split, stored⟩ := sound.unfinished thread work unfinished
      have last : contents system.perform (initial work.object)
          (operationsOn work.object state.taken) = system.perform work.operation value := by
        rw [split, contents_concat, sound.loaded thread work value loaded, stored]
      rw [own, Function.update_self]
      exact last.symm
    · -- Another object is as settled as it was.
      rw [Function.update_of_ne own]
      apply sound.settled object
      intro other work' now same
      by_cases moved : other = thread
      · rw [moved, loaded] at now
        have same' : work = work' := now
        exact own (same ▸ congrArg Section.object same'.symm)
      · apply none other work' _ same
        show ((state.put thread _).phase other).Unfinished work'
        rw [State.put_other state moved]
        exact now
  · -- The thread has written back, and the others work on other objects.
    intro other work' now
    rcases State.put_cases (fun phase => phase.Unfinished work') now with
      ⟨-, new⟩ | ⟨apart, old⟩
    · exact new.elim
    · obtain ⟨before, split, stored⟩ := sound.unfinished other work' old
      refine ⟨before, split, ?_⟩
      show Function.update state.store work.object _ work'.object = _
      rw [Function.update_of_ne (elsewhere other work' apart old.inside)]
      exact stored

/-- Giving back the lock of a section keeps the invariant. -/
theorem Sound.give (sound : Sound system guard initial state) {thread : Thread}
    {work : Section Lock Object Operation} (stored : state.phase thread = .stored work) :
    Sound system guard initial ((state.put thread .idle).setHolder work.lock none) := by
  -- Nobody else is inside a section with the lock.
  have holds : state.holder work.lock = some thread :=
    sound.holds thread work (by rw [stored]; rfl)
  constructor
  · -- No section is chosen by the thread any more.
    exact sound.guarded_put fun _ none => none.elim
  · -- The locks of the other threads are different ones, as this one was held here.
    intro other work' inside
    rcases State.put_cases (fun phase => phase.Inside work') inside with
      ⟨-, new⟩ | ⟨apart, old⟩
    · exact new.elim
    · have holds' := sound.holds other work' old
      show Function.update state.holder work.lock none work'.lock = some other
      rw [Function.update_of_ne]
      · exact holds'
      · intro same
        rw [same, holds] at holds'
        exact apart (Option.some.inj holds').symm
  · -- What the others have read they still have.
    intro other work' value now
    rcases State.put_cases (fun phase => phase = .loaded work' value) now with
      ⟨-, new⟩ | ⟨-, old⟩
    · cases new
    · exact sound.loaded other work' value old
  · -- The thread had written back before.
    intro object none
    apply sound.settled object
    intro other work' unfinished
    apply none other work'
    apply State.put_unfinished _ unfinished
    rw [stored]
    exact False.elim
  · -- The others still have to write back what they had to.
    intro other work' now
    rcases State.put_cases (fun phase => phase.Unfinished work') now with
      ⟨-, new⟩ | ⟨-, old⟩
    · exact new.elim
    · exact sound.unfinished other work' old

/-- Every step keeps the invariant. -/
theorem Step.sound (guarded : Guarded system guard) (sound : Sound system guard initial state)
    (step : Step system state after) : Sound system guard initial after := by
  cases step with
  | choose idle known =>
    exact sound.choose idle (guarded _ _ known _ (List.mem_append_right _ List.mem_cons_self))
  | take waiting free => exact sound.take waiting free
  | load locked => exact sound.load locked
  | store loaded => exact sound.store loaded
  | give stored => exact sound.give stored

/-- The invariant holds in every reachable state. -/
theorem Reachable.sound (guarded : Guarded system guard)
    (reachable : Reachable system initial state) : Sound system guard initial state := by
  -- By induction on the run, at whose start no thread has a section.
  induction reachable with
  | initial =>
    exact ⟨fun _ _ has => has.elim, fun _ _ inside => inside.elim,
      (fun _ _ _ loaded => nomatch loaded), fun _ _ => rfl, fun _ _ unfinished => unfinished.elim⟩
  | step before step ih => exact step.sound guarded ih

/-- A thread inside a section holds the lock that guards the object of the section. -/
theorem Reachable.holds_guard (guarded : Guarded system guard)
    (reachable : Reachable system initial state) {thread : Thread}
    {work : Section Lock Object Operation} (inside : (state.phase thread).Inside work) :
    state.holder (guard work.object) = some thread := by
  have sound := reachable.sound guarded
  rw [← sound.guarded thread work inside.has]
  exact sound.holds thread work inside

/-- While no thread is inside a section that works on an object, the object holds what such sections
make of it in the order in which their locks have been taken. -/
theorem Reachable.store_eq (guarded : Guarded system guard)
    (reachable : Reachable system initial state) {object : Object}
    (outside : ∀ thread work, (state.phase thread).Inside work → work.object ≠ object) :
    state.store object =
      contents system.perform (initial object) (operationsOn object state.taken) := by
  -- What has not been written back is inside its section.
  apply (reachable.sound guarded).settled object
  exact fun thread work unfinished => outside thread work unfinished.inside

/-- What a thread has in hand is a section of one of its programs. -/
theorem Reachable.has_known (reachable : Reachable system initial state) {thread : Thread}
    {work : Section Lock Object Operation} (has : (state.phase thread).Has work) :
    ∃ works, system.programs thread works ∧ work ∈ works := by
  -- By induction on the run: the section stays the same from its choice on.
  induction reachable with
  | initial => exact has.elim
  | step before step ih =>
    cases step with
    -- The section is one that the thread may choose next.
    | choose idle known =>
      rcases State.put_cases (fun phase => phase.Has work) has with ⟨same, new⟩ | ⟨-, old⟩
      · cases new
        exact ⟨_, same ▸ known, List.mem_append_right _ List.mem_cons_self⟩
      · exact ih old
    -- The section is the same in the other steps.
    | take waiting free =>
      apply ih (State.has_of_put _ has)
      rw [waiting]
      exact id
    | load locked =>
      apply ih (State.has_of_put _ has)
      rw [locked]
      exact id
    | store loaded =>
      apply ih (State.has_of_put _ has)
      rw [loaded]
      exact id
    | give stored => exact ih (State.has_of_put False.elim has)

/-- The sections of a thread so far are one of its programs, and so are they with the next one. -/
theorem Reachable.history_known (reachable : Reachable system initial state) (thread : Thread) :
    (history thread state.taken = [] ∨ system.programs thread (history thread state.taken)) ∧
      ∀ work, state.phase thread = .waiting work →
        system.programs thread (history thread state.taken ++ [work]) := by
  -- By induction on the run: the next section is checked when it is chosen.
  induction reachable with
  | initial => exact ⟨.inl rfl, fun _ waiting => nomatch waiting⟩
  | @step middle after before step ih =>
    obtain ⟨past, next⟩ := ih
    -- A thread that does not wait for a lock now says nothing of a next section.
    have others : ∀ {running : Thread} {phase : Phase Lock Object Operation Value},
        (∀ work, phase ≠ .waiting work) → ∀ work,
          (middle.put running phase).phase thread = .waiting work →
            middle.phase thread = .waiting work := by
      intro running phase busy work waiting
      rcases State.put_cases (fun phase => phase = .waiting work) waiting with
        ⟨-, new⟩ | ⟨-, old⟩
      · exact absurd new (busy work)
      · exact old
    cases step with
    -- The section has been checked against what the thread has gone through.
    | choose idle known =>
      refine ⟨past, fun work waiting => ?_⟩
      rcases State.put_cases (fun phase => phase = .waiting work) waiting with
        ⟨same, new⟩ | ⟨-, old⟩
      · cases new
        exact same ▸ known
      · exact next work old
    | @take running work waiting free =>
      by_cases same : thread = running
      · -- The thread now has gone through the section that it was waiting with.
        subst same
        have now := next work waiting
        rw [← history_concat_same] at now
        refine ⟨.inr now, fun other again => ?_⟩
        have locked : (middle.put thread (.locked work)).phase thread = .waiting other := again
        rw [State.put_same] at locked
        cases locked
      · -- The others have gone through what they had.
        have kept : history thread (middle.taken ++ [(running, work)]) =
            history thread middle.taken := history_concat_other same middle.taken work
        constructor
        · show history thread (middle.taken ++ [(running, work)]) = [] ∨
            system.programs thread (history thread (middle.taken ++ [(running, work)]))
          rw [kept]
          exact past
        · intro other again
          show system.programs thread
            (history thread (middle.taken ++ [(running, work)]) ++ [other])
          rw [kept]
          exact next other (others (by simp) other again)
    | load locked =>
      exact ⟨past, fun work now => next work (others (by simp) work now)⟩
    | store loaded =>
      exact ⟨past, fun work now => next work (others (by simp) work now)⟩
    | give stored =>
      exact ⟨past, fun work now => next work (others (by simp) work now)⟩

/-- Where every thread goes through one section of its own, and all have taken its lock, the
sections are those of the threads in some order. -/
theorem Reachable.taken_order {threads : List Thread}
    {own : Thread → Section Lock Object Operation}
    (once : ∀ thread works, system.programs thread works → thread ∈ threads ∧ works = [own thread])
    (nodup : threads.Nodup) (reachable : Reachable system initial state)
    (all : ∀ thread ∈ threads, history thread state.taken ≠ []) :
    ∃ order : List Thread, order.Perm threads ∧
      state.taken = order.map fun thread => (thread, own thread) := by
  -- A thread has gone through its one section or through none yet.
  have known : ∀ thread, history thread state.taken = [] ∨
      thread ∈ threads ∧ history thread state.taken = [own thread] := fun thread =>
    (reachable.history_known thread).1.imp_right (once thread _)
  -- Every entry is the one section of its thread.
  have entries : ∀ entry ∈ state.taken, entry.1 ∈ threads ∧ entry.2 = own entry.1 := by
    intro entry member
    have inside : entry.2 ∈ history entry.1 state.taken := mem_history.mpr member
    rcases known entry.1 with none | ⟨listed, single⟩
    · -- An entry of a thread that has gone through nothing is impossible.
      rw [none] at inside
      cases inside
    · rw [single, List.mem_singleton] at inside
      exact ⟨listed, inside⟩
  have distinct : (state.taken.map Prod.fst).Nodup := by
    apply List.nodup_iff_count_le_one.mpr
    intro thread
    rw [← length_history]
    -- A thread is in no more than one entry.
    rcases known thread with none | ⟨-, single⟩
    · rw [none]
      exact Nat.zero_le _
    · rw [single]
      exact Nat.le_refl 1
  have same : (state.taken.map Prod.fst).Perm threads := by
    apply (List.perm_ext_iff_of_nodup distinct nodup).mpr
    intro thread
    constructor
    · -- Every thread that has taken a lock is one of those given.
      intro member
      obtain ⟨entry, inside, rfl⟩ := List.mem_map.mp member
      exact (entries entry inside).1
    · -- Every thread given has taken its lock.
      intro listed
      obtain ⟨work, inside⟩ := List.exists_mem_of_ne_nil _ (all thread listed)
      exact List.mem_map.mpr ⟨(thread, work), mem_history.mp inside, rfl⟩
  refine ⟨state.taken.map Prod.fst, same, ?_⟩
  rw [List.map_map]
  apply Eq.symm
  calc state.taken.map ((fun thread => (thread, own thread)) ∘ Prod.fst)
      = state.taken.map id := List.map_congr_left fun entry member =>
        Prod.ext rfl (entries entry member).2.symm
    _ = state.taken := List.map_id _

/-- A thread between sections can go through its next one, if the lock of the section is free. -/
theorem Reachable.through (reachable : Reachable system initial state) {thread : Thread}
    {work : Section Lock Object Operation} (idle : state.phase thread = .idle)
    (known : system.programs thread (history thread state.taken ++ [work]))
    (free : state.holder work.lock = none) :
    ∃ after, Reachable system initial after ∧ after.taken = state.taken ++ [(thread, work)] ∧
      after.phase thread = .idle ∧ (∀ other ≠ thread, after.phase other = state.phase other) ∧
      after.holder work.lock = none ∧
      after.store work.object = system.perform work.operation (state.store work.object) := by
  let chosen := state.put thread (.waiting work)
  let locked := ((chosen.put thread (.locked work)).setHolder work.lock (some thread)).note thread
    work
  let loaded := locked.put thread (.loaded work (state.store work.object))
  let stored := (loaded.put thread (.stored work)).write work.object
    (system.perform work.operation (state.store work.object))
  -- The thread chooses the section, takes the lock, reads, writes back and gives the lock back.
  have first : Reachable system initial chosen := reachable.step (.choose idle known)
  have second : Reachable system initial locked :=
    first.step (.take (State.put_same state thread _) free)
  have third : Reachable system initial loaded :=
    second.step (.load (State.put_same chosen thread (.locked work)))
  have fourth : Reachable system initial stored :=
    third.step (.store (State.put_same locked thread _))
  have fifth : Reachable system initial ((stored.put thread .idle).setHolder work.lock none) :=
    fourth.step (.give (State.put_same loaded thread (.stored work)))
  -- No other thread has moved in these five steps.
  refine ⟨_, fifth, rfl, State.put_same stored thread .idle, fun other apart => ?_,
    Function.update_self .., Function.update_self ..⟩
  calc ((stored.put thread .idle).setHolder work.lock none).phase other
      = stored.phase other := State.put_other stored apart .idle
    _ = loaded.phase other := State.put_other loaded apart (.stored work)
    _ = locked.phase other := State.put_other locked apart _
    _ = chosen.phase other := State.put_other chosen apart (.locked work)
    _ = state.phase other := State.put_other state apart _

end Invariants

end SecretTyping.Sections
