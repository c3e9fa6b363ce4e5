import Mathlib.Algebra.Order.BigOperators.Group.List
import Mathlib.Algebra.Order.Ring.Nat
import Mathlib.Data.List.Nodup
import Mathlib.Data.List.Perm.Subperm
import Mathlib.Logic.Function.Basic
import SecretTyping.Lib.Run

/-! Threads that wait for one another at a barrier, in rounds that start when all threads ended. -/

namespace SecretTyping.Barrier

open Machine

/-- What a thread does, as far as the others notice. -/
inductive Event where
  | work
  | wait
  deriving DecidableEq

/-- How often a thread waits in what it has to do. -/
def waits (events : List Event) : Nat :=
  events.count .wait

/-- The rounds that have not started, what each thread has to do, and who is blocked. -/
structure State (Thread : Type) where
  rounds : Nat
  remaining : Thread → List Event
  blocked : List Thread

/-- A new round starts, or a thread goes on. -/
inductive Action (Thread : Type) where
  | start
  | go (thread : Thread)

/-- No round has started yet. -/
def State.initial {Thread : Type} (rounds : Nat) : State Thread :=
  ⟨rounds, fun _ => [], []⟩

variable {Thread : Type} {count : Nat}

/-- Every thread has ended. -/
def State.Joined (threads : List Thread) (state : State Thread) : Prop :=
  state.blocked = [] ∧ ∀ thread ∈ threads, state.remaining thread = []

/-- Whether every thread has ended can be computed. -/
instance (threads : List Thread) (state : State Thread) : Decidable (state.Joined threads) :=
  inferInstanceAs (Decidable (_ ∧ _))

/-- Every thread has ended, and every round has been started. -/
def State.Done (threads : List Thread) (state : State Thread) : Prop :=
  state.rounds = 0 ∧ state.Joined threads

/-- A thread is blocked at the barrier, or lets go on all who are, if it is the last that counts. -/
def State.arrive (count : Nat) (state : State Thread) (thread : Thread) : State Thread :=
  if state.blocked.length + 1 = count then { state with blocked := [] }
  else { state with blocked := thread :: state.blocked }

/-- Arriving at the barrier does not change what there is to do. -/
@[simp] theorem State.arrive_remaining (count : Nat) (state : State Thread) (thread : Thread) :
    (state.arrive count thread).remaining = state.remaining := by
  rw [State.arrive]
  split <;> rfl

/-- Arriving at the barrier does not start a round. -/
@[simp] theorem State.arrive_rounds (count : Nat) (state : State Thread) (thread : Thread) :
    (state.arrive count thread).rounds = state.rounds := by
  rw [State.arrive]
  split <;> rfl

/-- Nobody is blocked after the last thread has arrived. -/
theorem State.arrive_last {state : State Thread} (full : state.blocked.length + 1 = count)
    (thread : Thread) : (state.arrive count thread).blocked = [] := by
  rw [State.arrive, if_pos full]

/-- Every thread but the last is blocked after it has arrived. -/
theorem State.arrive_blocked {state : State Thread} (more : state.blocked.length + 1 ≠ count)
    (thread : Thread) : (state.arrive count thread).blocked = thread :: state.blocked := by
  rw [State.arrive, if_neg more]

/-- Who is blocked are different threads of the round. -/
structure State.Known (threads : List Thread) (state : State Thread) : Prop where
  nodup : state.blocked.Nodup
  subset : state.blocked ⊆ threads

/-- A thread that is not blocked can be blocked as well. -/
theorem State.Known.cons {threads : List Thread} {state : State Thread}
    (known : state.Known threads) {thread : Thread} (member : thread ∈ threads)
    (free : thread ∉ state.blocked) :
    { state with blocked := thread :: state.blocked }.Known threads :=
  ⟨List.nodup_cons.mpr ⟨free, known.nodup⟩, List.cons_subset.mpr ⟨member, known.subset⟩⟩

variable [DecidableEq Thread]

/-- Set what a thread has to do. -/
def State.put (state : State Thread) (thread : Thread) (events : List Event) : State Thread :=
  { state with remaining := Function.update state.remaining thread events }

variable (count) (threads : List Thread) (program : List Event)

/-- Take a step, in which nothing but the barrier makes a thread wait. -/
def step (state : State Thread) : Action Thread → Option (State Thread)
  | .start =>
    if 0 < state.rounds ∧ state.Joined threads then
      some ⟨state.rounds - 1, fun thread => if thread ∈ threads then program else [], []⟩
    else none
  | .go thread =>
    if thread ∈ threads ∧ thread ∉ state.blocked then
      match state.remaining thread with
      | [] => none
      | .work :: rest => some (state.put thread rest)
      | .wait :: rest => some ((state.put thread rest).arrive count thread)
    else none

/-- Every run that cannot go on has come to the end of all its rounds: no thread is left blocked. -/
def Completes (rounds : Nat) : Prop :=
  ∀ actions state, run (step count threads program) (.initial rounds) actions = some state →
    (∀ action, step count threads program state action = none) → state.Done threads

variable {count} {threads : List Thread} {program : List Event}

/-- What a step does: a round starts, or a thread works, is blocked or lets all others go on. -/
theorem step_cases {state after : State Thread} {action : Action Thread}
    (stepped : step count threads program state action = some after) :
    (0 < state.rounds ∧ state.Joined threads ∧
      after = ⟨state.rounds - 1, fun thread => if thread ∈ threads then program else [], []⟩) ∨
    ∃ thread ∈ threads, thread ∉ state.blocked ∧ ∃ event rest,
      state.remaining thread = event :: rest ∧
      ((event = .work ∧ after = state.put thread rest) ∨
        (event = .wait ∧ after = (state.put thread rest).arrive count thread)) := by
  -- Each branch of the step in turn; where it is impossible there is no state after it.
  cases action with
  | start =>
    simp only [step] at stepped
    split at stepped
    · next ready => exact .inl ⟨ready.1, ready.2, (Option.some.inj stepped).symm⟩
    · cases stepped
  | go thread =>
    simp only [step] at stepped
    split at stepped
    · next free =>
      refine .inr ⟨thread, free.1, free.2, ?_⟩
      cases remaining : state.remaining thread with
      | nil =>
        rw [remaining] at stepped
        cases stepped
      | cons event rest =>
        rw [remaining] at stepped
        cases event with
        | work => exact ⟨_, rest, rfl, .inl ⟨rfl, (Option.some.inj stepped).symm⟩⟩
        | wait => exact ⟨_, rest, rfl, .inr ⟨rfl, (Option.some.inj stepped).symm⟩⟩
    · cases stepped

/-- A state in which no step is possible: rounds are spent or threads are blocked. -/
theorem stuck_iff {state : State Thread} :
    (∀ action, step count threads program state action = none) ↔
      ¬ (0 < state.rounds ∧ state.Joined threads) ∧
        ∀ thread ∈ threads, thread ∉ state.blocked → state.remaining thread = [] := by
  -- A start needs a round and ended threads, and a thread needs something to do and not to be
  -- blocked.
  constructor
  · intro stuck
    refine ⟨fun ready => ?_, fun thread member free => ?_⟩
    · have none := stuck .start
      rw [step, if_pos ready] at none
      cases none
    · have none := stuck (.go thread)
      rw [step, if_pos ⟨member, free⟩] at none
      cases remaining : state.remaining thread with
      | nil => rfl
      | cons event rest =>
        rw [remaining] at none
        cases event <;> cases none
  · intro ⟨waiting, ended⟩ action
    cases action with
    | start => rw [step, if_neg waiting]
    | go thread =>
      rw [step]
      split
      · next free => rw [ended thread free.1 free.2]
      · rfl

/-- What other threads have to do stays. -/
theorem State.put_other (state : State Thread) {thread other : Thread} (apart : other ≠ thread)
    (events : List Event) : (state.put thread events).remaining other = state.remaining other :=
  Function.update_of_ne apart ..

/-- What a thread has to do is what was set. -/
@[simp] theorem State.put_same (state : State Thread) (thread : Thread) (events : List Event) :
    (state.put thread events).remaining thread = events :=
  Function.update_self ..

/-- Setting what there is to do blocks nobody. -/
@[simp] theorem State.put_blocked (state : State Thread) (thread : Thread) (events : List Event) :
    (state.put thread events).blocked = state.blocked :=
  rfl

/-- How many steps there are at most. -/
def State.measure (threads : List Thread) (program : List Event) (state : State Thread) : Nat :=
  state.rounds * (threads.length * program.length + 1) +
    (threads.map fun thread => (state.remaining thread).length).sum

/-- A thread that has one event less to do leaves fewer steps. -/
theorem State.measure_lt {state after : State Thread} {thread : Thread} {event : Event}
    {rest : List Event} (member : thread ∈ threads)
    (next : state.remaining thread = event :: rest) (rounds : after.rounds = state.rounds)
    (remaining : after.remaining = (state.put thread rest).remaining) :
    after.measure threads program < state.measure threads program := by
  -- No thread has more to do than before.
  have fewer : (threads.map fun other => (after.remaining other).length).sum <
      (threads.map fun other => (state.remaining other).length).sum := by
    refine List.sum_lt_sum _ _ (fun other _ => ?_) ⟨thread, member, ?_⟩
    · rw [remaining]
      by_cases same : other = thread
      · subst same
        simp [next]
      · rw [State.put_other state same]
    · simp [remaining, next]
  rw [State.measure, State.measure, rounds]
  omega

/-- Every step leaves fewer steps. -/
theorem step_measure {state after : State Thread} {action : Action Thread}
    (stepped : step count threads program state action = some after) :
    after.measure threads program < state.measure threads program := by
  -- A start uses up a round, and every other step an event of one thread.
  rcases step_cases stepped with ⟨more, -, rfl⟩ |
    ⟨thread, member, -, event, rest, next, ⟨-, rfl⟩ | ⟨-, rfl⟩⟩
  · -- All threads have at most the whole program to do, which the round stands for.
    obtain ⟨rounds, before⟩ : ∃ rounds, state.rounds = rounds + 1 := ⟨state.rounds - 1, by omega⟩
    have most : (threads.map fun thread =>
        (if thread ∈ threads then program else []).length).sum ≤
        threads.length * program.length := by
      have each := List.sum_le_card_nsmul (threads.map fun thread =>
        (if thread ∈ threads then program else []).length) program.length fun size member => ?_
      · simpa using each
      · obtain ⟨thread, inside, rfl⟩ := List.mem_map.mp member
        rw [if_pos inside]
    rw [State.measure, State.measure, before, Nat.add_sub_cancel, Nat.succ_mul]
    show rounds * _ +
      (threads.map fun thread => (if thread ∈ threads then program else []).length).sum < _
    omega
  · exact State.measure_lt member next rfl rfl
  · exact State.measure_lt member next (by rw [State.arrive_rounds]; rfl) (by simp)

/-- From every state there is a run to one in which no step is possible. -/
theorem exists_final (state : State Thread) : ∃ actions final,
    run (step count threads program) state actions = some final ∧
      ∀ action, step count threads program final action = none := by
  -- Every step leaves fewer steps.
  induction bound : state.measure threads program using Nat.strong_induction_on
    generalizing state with
  | _ bound ih =>
    by_cases stuck : ∀ action, step count threads program state action = none
    · exact ⟨[], state, rfl, stuck⟩
    · obtain ⟨action, possible⟩ := not_forall.mp stuck
      obtain ⟨next, stepped⟩ := Option.ne_none_iff_exists'.mp possible
      obtain ⟨actions, final, ran, ended⟩ := ih _ (bound ▸ step_measure stepped) next rfl
      exact ⟨action :: actions, final, by rw [run, stepped]; exact ran, ended⟩

/-- No step blocks a thread twice. -/
theorem State.Known.step {state after : State Thread} {action : Action Thread}
    (known : state.Known threads)
    (stepped : step count threads program state action = some after) : after.Known threads := by
  -- Only a thread that was not blocked arrives at the barrier.
  rcases step_cases stepped with ⟨-, -, rfl⟩ |
    ⟨thread, member, free, event, rest, -, ⟨-, rfl⟩ | ⟨-, rfl⟩⟩
  · exact ⟨List.nodup_nil, List.nil_subset _⟩
  · exact ⟨known.nodup, known.subset⟩
  · rw [State.arrive]
    split
    · exact ⟨List.nodup_nil, List.nil_subset _⟩
    · have same : (state.put thread rest).Known threads := ⟨known.nodup, known.subset⟩
      exact same.cons member free

/-- At a barrier that counts all threads, those that are blocked have waited once more than others,
of which there are some. -/
structure State.Cycle (threads : List Thread) (state : State Thread) (left : Nat) : Prop where
  known : state.Known threads
  even : ∀ thread ∈ threads,
    waits (state.remaining thread) + (if thread ∈ state.blocked then 1 else 0) = left
  room : threads ≠ [] → state.blocked.length < threads.length

/-- Work changes nothing in a wait cycle. -/
theorem State.Cycle.work {state : State Thread} {left : Nat} (cycle : state.Cycle threads left)
    {thread : Thread} {rest : List Event} (next : state.remaining thread = .work :: rest) :
    (state.put thread rest).Cycle threads left := by
  -- The waits of each thread are counted as before.
  refine ⟨⟨cycle.known.nodup, cycle.known.subset⟩, fun other inside => ?_, cycle.room⟩
  rw [← cycle.even other inside, State.put_blocked]
  by_cases same : other = thread
  · subst same
    rw [State.put_same, next, waits, waits, List.count_cons_of_ne (by decide)]
  · rw [State.put_other state same]

/-- The last thread that arrives ends the wait cycle of all threads. -/
theorem State.Cycle.last {state : State Thread} {left : Nat} (cycle : state.Cycle threads left)
    {thread : Thread} {rest : List Event} (member : thread ∈ threads)
    (free : thread ∉ state.blocked) (next : state.remaining thread = .wait :: rest)
    (full : state.blocked.length + 1 = threads.length) :
    ((state.put thread rest).arrive threads.length thread).Cycle threads (left - 1) := by
  -- Every other thread is blocked.
  have known := cycle.known.cons member free
  have everyone : threads ⊆ thread :: state.blocked :=
    ((known.nodup.subperm known.subset).perm_of_length_le
      (by rw [List.length_cons]; omega)).symm.subset
  have nobody : ((state.put thread rest).arrive threads.length thread).blocked = [] :=
    State.arrive_last (show (state.put thread rest).blocked.length + 1 = _ from full) thread
  refine ⟨⟨by simp [nobody], by simp [nobody]⟩, fun other inside => ?_, fun some => ?_⟩
  · rw [nobody, State.arrive_remaining, if_neg List.not_mem_nil]
    have waited := cycle.even other inside
    by_cases same : other = thread
    · subst same
      rw [next, if_neg free, waits, List.count_cons_self] at waited
      rw [State.put_same, waits]
      omega
    · rw [if_pos ((List.mem_cons.mp (everyone inside)).resolve_left same)] at waited
      rw [State.put_other state same]
      omega
  · rw [nobody]
    exact List.length_pos_of_ne_nil some

/-- A thread that arrives before the last one has waited once more than before. -/
theorem State.Cycle.early {state : State Thread} {left : Nat} (cycle : state.Cycle threads left)
    {thread : Thread} {rest : List Event} (member : thread ∈ threads)
    (free : thread ∉ state.blocked) (next : state.remaining thread = .wait :: rest)
    (more : state.blocked.length + 1 ≠ threads.length) :
    ((state.put thread rest).arrive threads.length thread).Cycle threads left := by
  -- It has one wait less to do, and is blocked instead.
  have known := cycle.known.cons member free
  have waiting : ((state.put thread rest).arrive threads.length thread).blocked =
      thread :: state.blocked :=
    State.arrive_blocked (show (state.put thread rest).blocked.length + 1 ≠ _ from more) thread
  refine ⟨⟨waiting ▸ known.nodup, waiting ▸ known.subset⟩, fun other inside => ?_, fun _ => ?_⟩
  · rw [waiting, State.arrive_remaining, ← cycle.even other inside]
    by_cases same : other = thread
    · subst same
      rw [State.put_same, next, if_pos List.mem_cons_self, if_neg free, waits, waits,
        List.count_cons_self]
    · rw [State.put_other state same]
      simp only [List.mem_cons, same, false_or]
  · have most := (known.nodup.subperm known.subset).length_le
    rw [waiting]
    simp only [List.length_cons] at most ⊢
    omega

/-- Every step keeps to the wait cycles of a barrier that counts all threads. -/
theorem State.Cycle.step {state after : State Thread} {action : Action Thread} {left : Nat}
    (cycle : state.Cycle threads left) (all : threads ≠ [] → count = threads.length)
    (stepped : step count threads program state action = some after) :
    ∃ left, after.Cycle threads left := by
  -- A new round starts with all threads level; arrivals are told apart by whether they are the
  -- last.
  rcases step_cases stepped with ⟨-, -, rfl⟩ |
    ⟨thread, member, free, event, rest, next, ⟨rfl, rfl⟩ | ⟨rfl, rfl⟩⟩
  · refine ⟨waits program, ⟨List.nodup_nil, List.nil_subset _⟩, fun thread member => ?_,
      List.length_pos_of_ne_nil⟩
    rw [if_neg List.not_mem_nil, Nat.add_zero]
    simp only [if_pos member]
  · exact ⟨left, cycle.work next⟩
  · cases all (List.ne_nil_of_mem member)
    by_cases full : state.blocked.length + 1 = threads.length
    · exact ⟨left - 1, cycle.last member free next full⟩
    · exact ⟨left, cycle.early member free next full⟩

/-- In a wait cycle in which a thread is blocked, another one has not ended and is not blocked. -/
theorem State.Cycle.unblocked {state : State Thread} {left : Nat}
    (cycle : state.Cycle threads left) (distinct : threads.Nodup) (some : state.blocked ≠ []) :
    ∃ thread ∈ threads, thread ∉ state.blocked ∧ state.remaining thread ≠ [] := by
  obtain ⟨first, blocked⟩ := List.exists_mem_of_ne_nil _ some
  have member := cycle.known.subset blocked
  have waited := cycle.even first member
  rw [if_pos blocked] at waited
  by_contra none
  -- Otherwise all threads are blocked, as none of them has ended.
  have everyone : threads ⊆ state.blocked := by
    intro other inside
    by_contra free
    have ended : state.remaining other = [] := by
      by_contra busy
      exact none ⟨other, inside, free, busy⟩
    have spent := cycle.even other inside
    rw [ended, if_neg free, waits, List.count_nil] at spent
    omega
  have most := (distinct.subperm everyone).length_le
  have fewer := cycle.room (List.ne_nil_of_mem member)
  omega

/-- In every run the threads keep to wait cycles of a barrier that counts all of them. -/
theorem run_cycle {rounds : Nat} {actions : List (Action Thread)} {state : State Thread}
    (all : threads ≠ [] → count = threads.length)
    (ran : run (step count threads program) (.initial rounds) actions = some state) :
    ∃ left, state.Cycle threads left := by
  -- At the start there is nothing to wait for, and no step leaves the wait cycles.
  have start : (State.initial rounds : State Thread).Cycle threads 0 :=
    ⟨⟨List.nodup_nil, List.nil_subset _⟩, fun _ _ => rfl, List.length_pos_of_ne_nil⟩
  refine run_induction (fun _ state => ∃ left, state.Cycle threads left) ⟨0, start⟩ ?_ ran
  rintro - before action after - ⟨left, cycle⟩ stepped
  exact cycle.step all stepped

/-- At a barrier that counts all threads, every run can go on to the end of all its rounds. -/
theorem completes_of_all {rounds : Nat} (distinct : threads.Nodup)
    (all : threads ≠ [] → count = threads.length) : Completes count threads program rounds := by
  -- Where no step is possible nobody is blocked, since another thread could still go on.
  intro actions state ran stuck
  obtain ⟨left, cycle⟩ := run_cycle all ran
  obtain ⟨waiting, ended⟩ := stuck_iff.mp stuck
  have none : state.blocked = [] := by
    by_contra some
    obtain ⟨thread, member, free, busy⟩ := cycle.unblocked distinct some
    exact busy (ended thread member free)
  have joined : state.Joined threads :=
    ⟨none, fun thread member => ended thread member (by simp [none])⟩
  refine ⟨?_, joined⟩
  by_contra more
  exact waiting ⟨Nat.pos_of_ne_zero more, joined⟩

/-- At a barrier that counts more than all threads, a thread that has waited is blocked. -/
structure State.Starved (threads : List Thread) (program : List Event) (state : State Thread) :
    Prop where
  known : state.Known threads
  blocks : ∀ thread ∈ threads, thread ∉ state.blocked →
    waits (state.remaining thread) = waits program

/-- A barrier that counts more than all threads never lets one go on. -/
theorem State.Starved.step {state after : State Thread} {action : Action Thread}
    (starved : state.Starved threads program) (few : threads.length < count)
    (stepped : step count threads program state action = some after) :
    after.Starved threads program := by
  -- Every arrival adds to the blocked threads, which are too few to let one go on.
  have known := starved.known.step stepped
  rcases step_cases stepped with ⟨-, -, rfl⟩ |
    ⟨thread, member, free, event, rest, next, ⟨rfl, rfl⟩ | ⟨rfl, rfl⟩⟩
  · refine ⟨known, fun thread member _ => ?_⟩
    simp only [if_pos member]
  · refine ⟨known, fun other inside waiting => ?_⟩
    rw [← starved.blocks other inside waiting]
    by_cases same : other = thread
    · subst same
      rw [State.put_same, next, waits, waits, List.count_cons_of_ne (by decide)]
    · rw [State.put_other state same]
  · -- There are too few threads for the last one to arrive.
    have more := starved.known.cons member free
    have most := (more.nodup.subperm more.subset).length_le
    rw [List.length_cons] at most
    have blocked : ((state.put thread rest).arrive count thread).blocked =
        thread :: state.blocked :=
      State.arrive_blocked (show (state.put thread rest).blocked.length + 1 ≠ count by
        rw [State.put_blocked]
        omega) thread
    refine ⟨known, fun other inside waiting => ?_⟩
    rw [blocked, List.mem_cons, not_or] at waiting
    rw [State.arrive_remaining, State.put_other state waiting.1]
    exact starved.blocks other inside waiting.2

/-- The first step starts a round. -/
theorem step_initial {rounds : Nat} {after : State Thread} {action : Action Thread}
    (stepped : step count threads program (.initial rounds) action = some after) :
    0 < rounds ∧ after.Starved threads program := by
  -- No thread has anything to do before the first round.
  rcases step_cases stepped with ⟨more, -, rfl⟩ | ⟨thread, -, -, event, rest, next, -⟩
  · refine ⟨more, ⟨List.nodup_nil, List.nil_subset _⟩, fun thread member _ => ?_⟩
    simp only [if_pos member]
  · cases next

/-- Without rounds no thread is started. -/
theorem completes_without_rounds : Completes count threads program 0 := by
  -- There is no first step.
  rintro actions state ran -
  cases actions with
  | nil =>
    cases ran
    exact ⟨rfl, rfl, fun _ _ => rfl⟩
  | cons action actions =>
    obtain ⟨next, stepped, -⟩ := Option.bind_eq_some_iff.mp ran
    exact absurd (step_initial stepped).1 (lt_irrefl 0)

/-- At a barrier that counts more than all threads, a round in which threads wait does not end. -/
theorem not_completes_of_few {rounds : Nat} (few : threads.length < count) (some : threads ≠ [])
    (waiting : 0 < waits program) (more : 0 < rounds) :
    ¬ Completes count threads program rounds := by
  -- Some run cannot go on, and in the end of it every thread that has waited is still blocked.
  intro completes
  obtain ⟨actions, final, ran, stuck⟩ : ∃ actions final,
      run (step count threads program) (.initial rounds) actions = Option.some final ∧
        ∀ action, step count threads program final action = none := exists_final _
  obtain ⟨spent, none, ended⟩ := completes actions final ran stuck
  have starved : final = .initial rounds ∨ final.Starved threads program := by
    refine run_induction (fun _ state => state = .initial rounds ∨
      state.Starved threads program) (.inl rfl) ?_ ran
    rintro - before action after - (rfl | starved) stepped
    · exact .inr (step_initial stepped).2
    · exact .inr (starved.step few stepped)
  rcases starved with rfl | starved
  · exact absurd spent (Nat.ne_of_gt more)
  · obtain ⟨thread, member⟩ := List.exists_mem_of_ne_nil _ some
    have left := starved.blocks thread member (by simp [none])
    rw [ended thread member, waits, List.count_nil] at left
    omega

end SecretTyping.Barrier
