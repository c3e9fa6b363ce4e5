import Mathlib.Data.List.Pairwise
import SecretTyping.Lib.Phases

/-! Objects that are handed on from thread to thread, in phases of their own. -/

namespace SecretTyping.Phases

variable {Thread Lock Call Object Value : Type}

section Relays

variable [DecidableEq Object] {system : System Thread Lock Call Object Value}
  {state after : State Thread Lock Call Object Value} {object : Object}

/-- The calls of some steps that work on an object. -/
def System.callsOn (system : System Thread Lock Call Object Value) (object : Object)
    (steps : List (Step Lock Call)) : List Call :=
  steps.filterMap fun
    | .call call => if system.object call = object then some call else none
    | _ => none

/-- Calls are found in both parts of the steps. -/
@[simp] theorem System.callsOn_append (system : System Thread Lock Call Object Value)
    (object : Object) (steps more : List (Step Lock Call)) :
    system.callsOn object (steps ++ more) =
      system.callsOn object steps ++ system.callsOn object more := by
  simp [System.callsOn]

/-- Of steps that are all calls, those on an object are found among the calls. -/
theorem System.callsOn_calls (system : System Thread Lock Call Object Value) (object : Object)
    (calls : List Call) :
    system.callsOn object (calls.map .call) =
      calls.filter fun call => system.object call = object := by
  induction calls with
  | nil => rfl
  | cons call rest ih =>
    rw [List.map_cons, System.callsOn, List.filterMap_cons, List.filter_cons, ← ih]
    by_cases own : system.object call = object
    · simp [own, System.callsOn]
    · simp [own, System.callsOn]

/-- What calls make of a value, one after another. -/
def System.contents (system : System Thread Lock Call Object Value) (value : Value)
    (calls : List Call) : Value :=
  calls.foldl (fun value call => system.perform call value) value

omit [DecidableEq Object] in
/-- Further calls act on what those before them make. -/
theorem System.contents_append (system : System Thread Lock Call Object Value) (value : Value)
    (calls more : List Call) :
    system.contents value (calls ++ more) =
      system.contents (system.contents value calls) more :=
  List.foldl_append ..

omit [DecidableEq Object] in
/-- One more call acts on what those before it make. -/
@[simp] theorem System.contents_concat (system : System Thread Lock Call Object Value)
    (value : Value) (calls : List Call) (call : Call) :
    system.contents value (calls ++ [call]) =
      system.perform call (system.contents value calls) :=
  system.contents_append value calls [call]

/-- All that a thread has done so far. -/
def State.history (system : System Thread Lock Call Object Value)
    (state : State Thread Lock Call Object Value) (thread : Thread) : List (Step Lock Call) :=
  ((system.program thread).take state.phase).flatten ++ (state.progress thread).executed

/-- The threads that work on an object do so one after another, in phases of their own. -/
structure System.Relay (system : System Thread Lock Call Object Value) (object : Object)
    (order : List Thread) : Prop where
  nodup : order.Nodup
  all : ∀ thread phase, system.callsOn object (system.steps thread phase) ≠ [] → thread ∈ order
  later : order.Pairwise fun first second => ∀ phase phase',
    system.callsOn object (system.steps first phase) ≠ [] →
      system.callsOn object (system.steps second phase') ≠ [] → phase < phase'

/-- No two threads work on the object in one phase. -/
theorem System.Relay.once {order : List Thread} (relay : system.Relay object order)
    {thread other : Thread} {phase : Nat}
    (works : system.callsOn object (system.steps thread phase) ≠ [])
    (works' : system.callsOn object (system.steps other phase) ≠ []) : thread = other := by
  -- One of the two would come before the other, and so be in an earlier phase.
  by_contra differ
  let Apart (first second : Thread) : Prop :=
    system.callsOn object (system.steps first phase) ≠ [] →
      system.callsOn object (system.steps second phase) ≠ [] → False
  have symmetric : Std.Symm Apart := ⟨fun _ _ apart works works' => apart works' works⟩
  have apart : order.Pairwise Apart := relay.later.imp fun later works works' =>
    Nat.lt_irrefl phase (later phase phase works works')
  exact apart.forall (relay.all thread phase works) (relay.all other phase works') differ works
    works'

omit [DecidableEq Object] in
/-- What a thread has done is among its steps of a phase up to the present one. -/
theorem exists_phase_of_history {thread : Thread} {rest : List (Step Lock Call)}
    (whole : (state.progress thread).executed ++ rest = system.steps thread state.phase)
    {step : Step Lock Call} (done : step ∈ state.history system thread) :
    ∃ phase ≤ state.phase, step ∈ system.steps thread phase := by
  rcases List.mem_append.mp done with earlier | now
  · -- A phase that is over is one of those before the present one.
    obtain ⟨steps, found, member⟩ := List.mem_flatten.mp earlier
    obtain ⟨phase, below, rfl⟩ := List.mem_iff_getElem.mp found
    rw [List.length_take] at below
    refine ⟨phase, by omega, ?_⟩
    rw [List.getElem_take] at member
    rw [System.steps, List.getElem?_eq_getElem (by omega)]
    exact member
  · -- It is a step of the present phase.
    refine ⟨state.phase, Nat.le_refl _, ?_⟩
    rw [← whole]
    exact List.mem_append_left _ now

/-- A thread that works on an object has a call on it. -/
theorem System.exists_callOn {steps : List (Step Lock Call)}
    (works : system.callsOn object steps ≠ []) :
    ∃ call, .call call ∈ steps ∧ system.object call = object := by
  obtain ⟨call, found⟩ := List.exists_mem_of_ne_nil _ works
  obtain ⟨step, member, same⟩ := List.mem_filterMap.mp found
  cases step with
  | lock lock => cases same
  | unlock lock => cases same
  | call other =>
    exact ⟨other, member, (Option.ite_none_right_eq_some.mp same).1⟩

/-- Steps with a call on an object work on it. -/
theorem System.callsOn_ne_nil {steps : List (Step Lock Call)} {call : Call}
    (member : .call call ∈ steps) (own : system.object call = object) :
    system.callsOn object steps ≠ [] :=
  List.ne_nil_of_mem (List.mem_filterMap.mpr ⟨_, member, if_pos own⟩)

/-- An object holds what the calls of the threads make of it, the calls of the first thread before
those of the next one, and whoever is inside a call works on what it holds. -/
structure Relayed (system : System Thread Lock Call Object Value) (object : Object)
    (order : List Thread) (value : Value) (state : State Thread Lock Call Object Value) :
    Prop where
  settled : state.store object = system.contents value
    (order.flatMap fun thread => system.callsOn object (state.history system thread))
  current : ∀ thread read, (state.progress thread).inside = some read → ∀ call rest,
    (state.progress thread).remaining = .call call :: rest → system.object call = object →
      read = state.store object

/-- A thread that is about to call works on the object of its call. -/
theorem callsOn_present {thread : Thread} {call : Call} {rest : List (Step Lock Call)}
    (whole : (state.progress thread).executed ++ .call call :: rest =
      system.steps thread state.phase) (own : system.object call = object) :
    system.callsOn object (system.steps thread state.phase) ≠ [] := by
  rw [← whole]
  exact System.callsOn_ne_nil (List.mem_append_right _ List.mem_cons_self) own

variable [DecidableEq Thread]

omit [DecidableEq Object] in
/-- One more step is the last that a thread has done. -/
theorem history_advance_same (state : State Thread Lock Call Object Value) (thread : Thread)
    (step : Step Lock Call) (rest : List (Step Lock Call)) :
    (state.advance thread step rest).history system thread =
      state.history system thread ++ [step] := by
  show _ ++ ((state.put thread _).progress thread).executed = _
  rw [State.put_same, State.history, List.append_assoc]
  rfl

omit [DecidableEq Object] in
/-- A step of another thread does not count. -/
theorem history_advance_other (state : State Thread Lock Call Object Value)
    {thread other : Thread} (differ : other ≠ thread) (step : Step Lock Call)
    (rest : List (Step Lock Call)) :
    (state.advance thread step rest).history system other = state.history system other := by
  show _ ++ ((state.put thread _).progress other).executed = _
  rw [State.put_other state differ]
  rfl

variable {order : List Thread} {value : Value} {thread : Thread}

/-- A step that is no call on the object changes nothing about it. -/
theorem Relayed.advance (relayed : Relayed system object order value state)
    {step : Step Lock Call} {rest : List (Step Lock Call)}
    (elsewhere : system.callsOn object [step] = [])
    (moved : after.progress = (state.advance thread step rest).progress)
    (phase : after.phase = state.phase) (kept : after.store object = state.store object) :
    Relayed system object order value after := by
  -- No thread has one more call on the object than before.
  have history : ∀ other, system.callsOn object (after.history system other) =
      system.callsOn object (state.history system other) := by
    intro other
    have same : after.history system other =
        (state.advance thread step rest).history system other := by
      rw [State.history, moved, phase]
      rfl
    rw [same]
    -- The step of the thread is not on the object, and the other threads have not moved.
    by_cases own : other = thread
    · rw [own, history_advance_same, System.callsOn_append, elsewhere, List.append_nil]
    · rw [history_advance_other state own]
  constructor
  · rw [kept, relayed.settled]
    simp only [history]
  · intro other read inside call more next own
    rw [moved] at inside next
    -- The thread itself is between two calls now.
    by_cases same : other = thread
    · rw [same, State.advance, State.put_same] at inside
      cases inside
    · -- The others are where they were, and the object holds what it held.
      rw [State.advance, State.put_other state same] at inside next
      rw [kept]
      exact relayed.current other read inside call more next own

/-- A call on the object is the last one so far, as the threads behind have not worked on the object
yet. -/
theorem System.Relay.flatMap_leave (relay : system.Relay object order)
    (whole : ∀ thread, (state.progress thread).executed ++ (state.progress thread).remaining =
      system.steps thread state.phase) {call : Call} {rest : List (Step Lock Call)}
    (next : (state.progress thread).remaining = .call call :: rest)
    (own : system.object call = object) :
    order.flatMap (fun other => system.callsOn object
        ((state.advance thread (.call call) rest).history system other)) =
      order.flatMap (fun other => system.callsOn object (state.history system other)) ++
        [call] := by
  have works : system.callsOn object (system.steps thread state.phase) ≠ [] :=
    callsOn_present (by rw [← whole thread, next]) own
  -- The threads before and behind this one in the order are looked at one by one.
  obtain ⟨earlier, later, split⟩ := List.append_of_mem (relay.all thread state.phase works)
  have nodup := relay.nodup
  have pairwise := relay.later
  rw [split] at nodup pairwise
  have waiting : ∀ other ∈ later, system.callsOn object (state.history system other) = [] := by
    intro other member
    -- It would have worked on the object in a phase that is yet to come.
    by_contra worked
    obtain ⟨call, done, same⟩ := System.exists_callOn worked
    obtain ⟨phase, past, found⟩ := exists_phase_of_history (whole other) done
    have behind := (List.pairwise_cons.mp (List.pairwise_append.mp pairwise).2.1).1 other member
    have := behind state.phase phase works (System.callsOn_ne_nil found same)
    omega
  -- The threads before have done all their calls, and have no new one.
  have first : earlier.flatMap (fun other => system.callsOn object
        ((state.advance thread (.call call) rest).history system other)) =
      earlier.flatMap fun other => system.callsOn object (state.history system other) := by
    apply List.flatMap_congr
    intro other member
    have differ : other ≠ thread := by
      intro same
      exact List.disjoint_of_nodup_append nodup member (same ▸ List.mem_cons_self)
    rw [history_advance_other state differ]
  -- The threads behind have not done any.
  have last : later.flatMap (fun other => system.callsOn object
        ((state.advance thread (.call call) rest).history system other)) = [] := by
    apply List.flatMap_eq_nil_iff.mpr
    intro other member
    have differ : other ≠ thread := by
      intro same
      exact (List.nodup_cons.mp (List.nodup_append.mp nodup).2.1).1 (same ▸ member)
    rw [history_advance_other state differ]
    exact waiting other member
  -- The thread itself has one call more, which is the last one.
  have calls : system.callsOn object [.call call] = [call] := by simp [System.callsOn, own]
  rw [split, List.flatMap_append, List.flatMap_cons, List.flatMap_append, List.flatMap_cons, last,
    first, List.flatMap_eq_nil_iff.mpr waiting, history_advance_same, System.callsOn_append, calls,
    List.append_nil, List.append_nil, List.append_assoc]

/-- A call on the object keeps what it holds. -/
theorem Relayed.leave (relay : system.Relay object order)
    (whole : ∀ thread, (state.progress thread).executed ++ (state.progress thread).remaining =
      system.steps thread state.phase)
    (relayed : Relayed system object order value state) {call : Call}
    {rest : List (Step Lock Call)} {read : Value}
    (next : (state.progress thread).remaining = .call call :: rest)
    (inside : (state.progress thread).inside = some read) (own : system.object call = object) :
    Relayed system object order value ((state.advance thread (.call call) rest).write object
      (system.perform call read)) := by
  constructor
  · -- What the call makes of what it has read is what one more call makes of the object.
    show Function.update state.store object _ object = system.contents value
      (order.flatMap fun other => system.callsOn object
        ((state.advance thread (.call call) rest).history system other))
    rw [Function.update_self, relay.flatMap_leave whole next own, System.contents_concat,
      ← relayed.settled, relayed.current thread read inside call rest next own]
  · -- No other thread is inside a call on the object.
    intro other read' inside' call' more next' own'
    exfalso
    -- The thread itself is no longer inside.
    by_cases same : other = thread
    · have out : ((state.put thread _).progress other).inside = some read' := inside'
      rw [same, State.put_same] at out
      cases out
    · -- Another one would have the object as its own in the same phase.
      have next' : ((state.put thread _).progress other).remaining = .call call' :: more := next'
      rw [State.put_other state same] at next'
      apply same
      apply relay.once
      · exact callsOn_present (by rw [← whole other, next']) own'
      · exact callsOn_present (by rw [← whole thread, next]) own

variable [DecidableEq Lock]

/-- Every move keeps what an object that is handed on holds. -/
theorem Move.relayed (relay : system.Relay object order) (sound : Sound system state)
    (relayed : Relayed system object order value state) (move : Move system state after) :
    Relayed system object order value after := by
  -- Only a call that is left changes an object, and only its own.
  cases move with
  | lock next free => exact relayed.advance rfl rfl rfl rfl
  | unlock next => exact relayed.advance rfl rfl rfl rfl
  | @enter running call rest next outside =>
    -- Entering adds nothing to what has been done.
    have history : ∀ other, (state.read running (state.store (system.object call))).history system
        other = state.history system other := by
      intro other
      show _ ++ ((state.put running _).progress other).executed = _
      by_cases same : other = running
      · rw [same, State.put_same]
        rfl
      · rw [State.put_other state same]
        rfl
    constructor
    · simp only [history]
      exact relayed.settled
    · -- What the thread has just read is what the object holds.
      intro other read inside call' more next' own
      by_cases same : other = running
      · rw [same, State.read_inside] at inside
        rw [same, State.read_remaining, next] at next'
        cases next'
        rw [← own]
        exact (Option.some.inj inside).symm
      · rw [State.read, State.put_other state same] at inside next'
        exact relayed.current other read inside call' more next' own
  | @leave running call rest read next inside =>
    -- A call on the object itself is the one that counts.
    by_cases own : system.object call = object
    · rw [own]
      exact relayed.leave relay sound.whole next inside own
    · -- A call on another object does not change this one.
      have elsewhere : system.callsOn object [.call call] = [] := by simp [System.callsOn, own]
      exact relayed.advance elsewhere rfl rfl (Function.update_of_ne (Ne.symm own) ..)
  | release arrived more =>
    -- What was done in the phase that ends counts among the earlier phases now.
    have history : ∀ other, State.history system { state with
        phase := state.phase + 1, progress := system.begin (state.phase + 1) } other =
          state.history system other := by
      intro other
      have done := sound.whole other
      have below := more other
      rw [arrived, List.append_nil] at done
      show ((system.program other).take (state.phase + 1)).flatten ++ [] = _
      have present : (system.program other)[state.phase]? =
          some (state.progress other).executed := by
        rw [done, System.steps, List.getElem?_eq_getElem (by omega)]
        rfl
      rw [List.append_nil, List.take_add_one, present, List.flatten_append, State.history]
      simp
    constructor
    · simp only [history]
      exact relayed.settled
    · intro other read inside
      cases inside

/-- An object that is handed on from thread to thread holds what their calls make of it, the calls
of the first thread before those of the next one. -/
theorem Reachable.store_relay (tidy : system.Tidy) (relay : system.Relay object order)
    {store : Object → Value} (reachable : Reachable system store state) :
    state.store object = system.contents (store object)
      (order.flatMap fun thread => system.callsOn object (state.history system thread)) := by
  -- By induction on the run, from a state in which nothing has been done.
  have relayed : Relayed system object order (store object) state := by
    induction reachable with
    | initial =>
      refine ⟨?_, fun thread read inside => nomatch inside⟩
      have nothing : order.flatMap (fun thread => system.callsOn object
          ((State.initial system store).history system thread)) = [] :=
        List.flatMap_eq_nil_iff.mpr fun _ _ => rfl
      rw [nothing]
      rfl
    | move before move ih => exact move.relayed relay (before.sound tidy) ih
  exact relayed.settled

omit [DecidableEq Object] [DecidableEq Thread] in
/-- A thread at the end of its program has done all of it. -/
theorem Sound.history_done (sound : Sound system state) (done : state.Done system)
    (thread : Thread) : state.history system thread = (system.program thread).flatten := by
  have whole := sound.whole thread
  obtain ⟨last, remaining⟩ := done thread
  -- The present phase is the last one.
  have present : (system.program thread)[state.phase]? = some (state.progress thread).executed := by
    rw [remaining, List.append_nil] at whole
    rw [whole, System.steps, List.getElem?_eq_getElem (by omega)]
    rfl
  calc state.history system thread
    _ = ((system.program thread).take (state.phase + 1)).flatten := by
      rw [List.take_add_one, present, List.flatten_append, State.history]
      simp
    _ = (system.program thread).flatten := by rw [List.take_of_length_le (by omega)]

end Relays

end SecretTyping.Phases
