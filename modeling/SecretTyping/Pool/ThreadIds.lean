import Mathlib.Data.Finset.Card
import SecretTyping.Pool.FastPath

/-! The thread ids of the pools, and how many threads they are enough for. -/

namespace SecretTyping.Pool

open Machine

variable {jemalloc : Jemalloc}

/-- Different threads have got different ids, each of which has a cache. -/
def TidsValid (state : State) : Prop :=
  (∀ thread id other id', (thread, id) ∈ state.tids → (other, id') ∈ state.tids →
    thread ≠ other → id ≠ id') ∧
  ∀ thread id, (thread, id) ∈ state.tids → id < maxJemallocThreads

/-- The number of threads that have asked for their id. -/
def callerCount (actions : List Action) : Nat := (callers actions).toFinset.card

/-- The steps of a thread but for asking for its id leave all ids alone. -/
theorem step_keeps {state after : State} {action : Action}
    (stepped : step jemalloc state action = some after) (none : callers [action] = []) :
    after.threadCount = state.threadCount ∧ after.threadId = state.threadId ∧
      after.tids = state.tids := by
  -- One case for each action, with the phases in which it is possible.
  cases action with
  | tid thread => simp [callers] at none
  | alloc thread node =>
    simp only [step] at stepped
    split at stepped <;> cases stepped
    exact ⟨rfl, rfl, rfl⟩
  | free thread node pointer =>
    simp only [step] at stepped
    split at stepped
    · cases stepped
      exact ⟨rfl, rfl, rfl⟩
    · split at stepped <;> cases stepped
      exact ⟨rfl, rfl, rfl⟩
    · cases stepped
  | mallocx thread result =>
    simp only [step] at stepped
    split at stepped
    · cases stepped
      exact ⟨rfl, rfl, rfl⟩
    · split at stepped <;> cases stepped
      exact ⟨rfl, rfl, rfl⟩
    · cases stepped
  | dallocx thread caches =>
    simp only [step] at stepped
    split at stepped <;> cases stepped
    exact ⟨rfl, rfl, rfl⟩
  | exit thread =>
    simp only [step] at stepped
    split at stepped <;> cases stepped
    exact ⟨rfl, rfl, rfl⟩

/-- A thread that asks for its id is told one, and counted when it is its first. -/
theorem step_tid {state after : State} {thread : Nat}
    (stepped : step jemalloc state (.tid thread) = some after) :
    after.threadCount = (tid state thread).2.threadCount ∧
      after.threadId = (tid state thread).2.threadId ∧
      after.tids = (thread, (tid state thread).1) :: state.tids := by
  -- A thread asks for its id at the start of an allocation or of a free.
  simp only [step] at stepped
  split at stepped <;> cases stepped
  · exact ⟨rfl, rfl, rfl⟩
  · exact ⟨rfl, rfl, rfl⟩

/-- Telling a thread its id does not touch calls and blocks. -/
theorem tid_keeps (state : State) (thread : Nat) :
    (tid state thread).2.phase = state.phase ∧ (tid state thread).2.place = state.place ∧
      (tid state thread).2.allocated = state.allocated := by
  rw [tid]
  split <;> exact ⟨rfl, rfl, rfl⟩

/-- The threads of a list are numbered in its order, and nobody else is. -/
structure Numbered (order : List Nat) (state : State) : Prop where
  nodup : order.Nodup
  count : state.threadCount = order.length
  known : ∀ thread ∈ order, state.threadId thread = order.idxOf thread
  unknown : ∀ thread ∉ order, state.threadId thread = uintMax
  told : ∀ thread id, (thread, id) ∈ state.tids → thread ∈ order ∧ id = order.idxOf thread

/-- A thread that has a number is told it, while the numbers are not used up. -/
theorem Numbered.again {order : List Nat} {state after : State} (numbered : Numbered order state)
    (few : order.length ≤ uintMax) {thread : Nat} (member : thread ∈ order)
    (stepped : step jemalloc state (.tid thread) = some after) : Numbered order after := by
  obtain ⟨count, ids, told⟩ := step_tid stepped
  have place := List.idxOf_lt_length_iff.mpr member
  -- The number is below the one that stands for none.
  have has : state.threadId thread ≠ uintMax := by
    rw [numbered.known thread member]
    omega
  rw [tid, if_neg has] at count ids told
  refine ⟨numbered.nodup, count.trans numbered.count, fun other inOrder => ?_,
    fun other out => ?_, fun other id given => ?_⟩
  · rw [ids]
    exact numbered.known other inOrder
  · rw [ids]
    exact numbered.unknown other out
  · rw [told, List.mem_cons] at given
    rcases given with new | old
    · cases new
      exact ⟨member, numbered.known thread member⟩
    · exact numbered.told other id old

/-- A thread without a number gets the next one. -/
theorem Numbered.first {order : List Nat} {state after : State} (numbered : Numbered order state)
    (few : order.length < uintMax) {thread : Nat} (new : thread ∉ order)
    (stepped : step jemalloc state (.tid thread) = some after) :
    Numbered (order ++ [thread]) after ∧ (thread, order.length) ∈ after.tids := by
  -- The new thread is behind all others in the order.
  obtain ⟨count, ids, told⟩ := step_tid stepped
  rw [tid, if_pos (numbered.unknown thread new)] at count ids told
  simp only [numbered.count] at count ids told
  have last : (order ++ [thread]).idxOf thread = order.length := by
    simp [List.idxOf_append_of_notMem new]
  refine ⟨⟨?_, ?_, fun other inOrder => ?_, fun other out => ?_, fun other id given => ?_⟩,
    by simp [told]⟩
  · exact List.nodup_append.mpr ⟨numbered.nodup, List.nodup_singleton thread, by
      rintro a inOrder b only rfl
      exact new (List.mem_singleton.mp only ▸ inOrder)⟩
  · rw [count, List.length_append, List.length_singleton]
    exact Nat.mod_eq_of_lt (by omega)
  · rw [ids]
    by_cases same : other = thread
    · rw [same, Function.update_self, last]
    · have earlier : other ∈ order := by simpa [same] using inOrder
      rw [Function.update_of_ne same, List.idxOf_append_of_mem earlier]
      exact numbered.known other earlier
  · rw [List.mem_append, List.mem_singleton, not_or] at out
    rw [ids, Function.update_of_ne out.2]
    exact numbered.unknown other out.1
  · rw [told, List.mem_cons] at given
    rcases given with new | old
    · cases new
      exact ⟨by simp, last.symm⟩
    · obtain ⟨earlier, place⟩ := numbered.told other id old
      exact ⟨by simp [earlier], by rw [List.idxOf_append_of_mem earlier]; exact place⟩

/-- The numbers of the callers of a run, in the order of their first calls. -/
def NumberedBy (actions : List Action) (state : State) : Prop :=
  ∃ order, (∀ thread, thread ∈ order ↔ thread ∈ callers actions) ∧ Numbered order state

/-- There are as many numbers as callers. -/
theorem length_order {actions : List Action} {order : List Nat} (nodup : order.Nodup)
    (same : ∀ thread, thread ∈ order ↔ thread ∈ callers actions) :
    order.length = callerCount actions := by
  rw [callerCount, ← List.toFinset_card_of_nodup nodup]
  exact congrArg Finset.card (by ext; simp [same])

/-- One more step can add one caller and takes none away. -/
theorem callerCount_concat (actions : List Action) (action : Action) :
    callerCount actions ≤ callerCount (actions ++ [action]) ∧
      callerCount (actions ++ [action]) ≤ callerCount actions + 1 := by
  -- A step has at most one caller.
  rw [callerCount, callerCount, callers_concat, List.toFinset_append]
  refine ⟨Finset.card_le_card Finset.subset_union_left, ?_⟩
  have single : (callers [action]).toFinset.card ≤ 1 := by
    refine (List.toFinset_card_le _).trans ?_
    cases action <;> simp [callers]
  have union := Finset.card_union_le (callers actions).toFinset (callers [action]).toFinset
  omega

/-- What has been told stays told. -/
theorem step_told {state after : State} {action : Action}
    (stepped : step jemalloc state action = some after) : state.tids ⊆ after.tids := by
  -- Only steps that ask for an id tell one, and these add to what has been told.
  by_cases caller : callers [action] = []
  · rw [(step_keeps stepped caller).2.2]
    exact List.Subset.refl _
  · obtain ⟨thread, isTid⟩ : ∃ thread, action = .tid thread := by
      cases action <;> simp_all [callers]
    subst isTid
    rw [(step_tid stepped).2.2]
    exact List.subset_cons_self _ _

/-- One more step keeps the callers numbered, and a new one is told how many there were. -/
theorem NumberedBy.step {actions : List Action} {before after : State} {action : Action}
    (numbered : NumberedBy actions before) (few : callerCount actions < uintMax)
    (stepped : Pool.step jemalloc before action = some after) :
    NumberedBy (actions ++ [action]) after ∧
      (callerCount actions < callerCount (actions ++ [action]) →
        ∃ thread, (thread, callerCount actions) ∈ after.tids) := by
  -- The step has no caller, or one that has been numbered, or a new one.
  obtain ⟨order, same, inOrder⟩ := numbered
  have counted := length_order inOrder.nodup same
  by_cases caller : callers [action] = []
  · -- No thread has asked for its id.
    obtain ⟨count, ids, told⟩ := step_keeps stepped caller
    have noMore : callers (actions ++ [action]) = callers actions := by
      rw [callers_concat, caller, List.append_nil]
    refine ⟨⟨order, by simpa [noMore] using same, inOrder.nodup, count.trans inOrder.count,
      ids ▸ inOrder.known, ids ▸ inOrder.unknown, told ▸ inOrder.told⟩, fun more => ?_⟩
    rw [callerCount, callerCount, noMore] at more
    exact absurd more (lt_irrefl _)
  · obtain ⟨thread, isTid⟩ : ∃ thread, action = .tid thread := by
      cases action <;> simp_all [callers]
    subst isTid
    have more : callers (actions ++ [.tid thread]) = callers actions ++ [thread] :=
      callers_concat actions (.tid thread)
    by_cases member : thread ∈ order
    · refine ⟨⟨order, fun other => ?_, inOrder.again (by omega) member stepped⟩, fun grown => ?_⟩
      · rw [more, List.mem_append, List.mem_singleton, ← same]
        exact ⟨.inl, fun either => either.elim id fun equal => equal ▸ member⟩
      · -- The caller is one of those counted already.
        have unchanged : (callers actions ++ [thread]).toFinset = (callers actions).toFinset := by
          ext other
          simp only [List.mem_toFinset, List.mem_append, List.mem_singleton, ← same]
          exact ⟨fun either => either.elim id fun equal => equal ▸ member, .inl⟩
        rw [callerCount, callerCount, more, unchanged] at grown
        exact absurd grown (lt_irrefl _)
    · obtain ⟨next, told⟩ := inOrder.first (by omega) member stepped
      refine ⟨⟨order ++ [thread], fun other => ?_, next⟩, fun _ => ⟨thread, counted ▸ told⟩⟩
      rw [more, List.mem_append, List.mem_append, same]

/-- The callers are numbered as long as there is a cache for each, and the first caller beyond them
is told a number without a cache. -/
def Counted (actions : List Action) (state : State) : Prop :=
  (callerCount actions ≤ maxJemallocThreads → NumberedBy actions state) ∧
    (maxJemallocThreads < callerCount actions →
      ∃ thread, (thread, maxJemallocThreads) ∈ state.tids)

/-- In every run the callers are counted. -/
theorem run_counted {actions : List Action} {state : State}
    (ran : run (step jemalloc) .initial actions = some state) : Counted actions state := by
  -- By induction on the run, one step of which adds at most one caller.
  refine run_induction Counted ?_ ?_ ran
  · refine ⟨fun _ => ⟨[], fun thread => by simp [callers], ?_⟩, fun many => ?_⟩
    · exact ⟨List.nodup_nil, rfl, fun _ member => by simp at member, fun _ _ => rfl,
        fun _ _ given => by simp [State.initial] at given⟩
    · exact absurd many (by decide)
  · intro actions before action after _ ih stepped
    obtain ⟨least, most⟩ := callerCount_concat actions action
    rcases Nat.lt_or_ge maxJemallocThreads (callerCount actions) with many | few
    · -- A number without a cache has been told before.
      obtain ⟨thread, told⟩ := ih.2 many
      exact ⟨fun few => absurd few (by omega), fun _ => ⟨thread, step_told stepped told⟩⟩
    · have room : callerCount actions < uintMax := lt_of_le_of_lt few (by decide)
      obtain ⟨numbered, told⟩ := (ih.1 few).step room stepped
      refine ⟨fun _ => numbered, fun many => ?_⟩
      obtain ⟨thread, given⟩ := told (by omega)
      have full : callerCount actions = maxJemallocThreads := by omega
      exact ⟨thread, full ▸ given⟩

/-- An idle thread can enter an allocation and ask for its id. -/
theorem alloc_tid {state : State} {thread : Nat} (idle : state.phase thread = .idle) :
    ∃ after, run (step jemalloc) state [.alloc thread 0, .tid thread] = some after ∧
      ∀ other, other ≠ thread → after.phase other = state.phase other := by
  -- The thread chooses an arena and then asks for its id.
  let pool := opInitialize jemalloc 0
  let spin := nextSpin pool (state.arenaSpin thread)
  let spun : State := { state with arenaSpin := Function.update state.arenaSpin thread spin }
  let middle := spun.move thread (.chosen 0 (pool.arenaIndex + spin))
  have entered : step jemalloc state (.alloc thread 0) = some middle := by
    simp only [step, idle]
    rfl
  have here : middle.phase thread = .chosen 0 (pool.arenaIndex + spin) := Function.update_self ..
  let told : State := { (tid middle thread).2 with
    tids := (thread, (tid middle thread).1) :: middle.tids }
  let after := told.move thread (.mallocx 0 (pool.arenaIndex + spin) (tid middle thread).1)
  have asked : step jemalloc middle (.tid thread) = some after := by
    simp only [step, here]
    rfl
  refine ⟨after, ?_, fun other apart => ?_⟩
  · simp only [run, entered, asked, Option.bind_some]
  · -- The phase of the thread is the only one that changes.
    calc after.phase other = (tid middle thread).2.phase other := Function.update_of_ne apart ..
      _ = middle.phase other := congrFun (tid_keeps middle thread).1 other
      _ = state.phase other := Function.update_of_ne apart ..

/-- Worker threads each of which asks for its id in its first allocation. -/
def workers (count : Nat) : List Action :=
  (List.range count).flatMap fun thread => [.alloc thread 0, .tid thread]

/-- One more worker does its steps after those of the others. -/
theorem workers_succ (count : Nat) :
    workers (count + 1) = workers count ++ [.alloc count 0, .tid count] := by
  simp [workers, List.range_succ]

/-- Any number of workers can run one after another. -/
theorem workers_run (jemalloc : Jemalloc) (count : Nat) :
    ∃ state, run (step jemalloc) .initial (workers count) = some state ∧
      ∀ thread, count ≤ thread → state.phase thread = .idle := by
  -- By induction on the workers; the ones to come are idle.
  induction count with
  | zero => exact ⟨.initial, rfl, fun _ _ => rfl⟩
  | succ count ih =>
    obtain ⟨state, ran, idle⟩ := ih
    obtain ⟨after, next, others⟩ := alloc_tid (idle count le_rfl)
    refine ⟨after, ?_, fun thread later => ?_⟩
    · rw [workers_succ, run_append, ran, Option.bind_some, next]
    · rw [others thread (by omega)]
      exact idle thread (by omega)

/-- The workers are the callers. -/
theorem callerCount_workers (count : Nat) : callerCount (workers count) = count := by
  -- By induction on the workers, each of which asks once.
  have same : callers (workers count) = List.range count := by
    induction count with
    | zero => rfl
    | succ count ih =>
      rw [workers_succ, callers, List.filterMap_append, List.range_succ, ← ih]
      rfl
  rw [callerCount, same, List.toFinset_card_of_nodup List.nodup_range, List.length_range]

/-- As long as there is a cache for each caller, the callers have got different ids with a cache. -/
theorem tidsValid_few {actions : List Action} {state : State}
    (ran : run (step jemalloc) .initial actions = some state)
    (few : callerCount actions ≤ maxJemallocThreads) : TidsValid state := by
  -- Every thread has been told its place in the order of the callers.
  obtain ⟨order, same, numbered⟩ := (run_counted ran).1 few
  have counted := length_order numbered.nodup same
  refine ⟨fun thread id other id' given given' apart equal => ?_, fun thread id given => ?_⟩
  · -- In a list without duplicates, two threads do not have one place.
    obtain ⟨member, place⟩ := numbered.told thread id given
    obtain ⟨member', place'⟩ := numbered.told other id' given'
    exact apart ((List.idxOf_inj member).mp (by rw [← place, ← place', equal]))
  · obtain ⟨member, place⟩ := numbered.told thread id given
    have inside := List.idxOf_lt_length_iff.mpr member
    omega

/-- In every state that threads reach, in any order, they have got different ids with a cache each
exactly when no more threads have called than there are caches; a thread that has exited counts. -/
theorem tidsValid_iff {actions : List Action} {state : State}
    (ran : run (step jemalloc) .initial actions = some state) :
    TidsValid state ↔ callerCount actions ≤ maxJemallocThreads := by
  -- With one caller more than caches, an id without a cache has been told.
  refine ⟨fun valid => ?_, tidsValid_few ran⟩
  by_contra more
  obtain ⟨thread, told⟩ := (run_counted ran).2 (by omega)
  exact absurd (valid.2 thread _ told) (lt_irrefl _)

/-- Two workers get different ids with a cache each. -/
theorem tidsValid_iff_two :
    ∃ state, run (step sampleJemalloc) .initial (workers 2) = some state ∧ TidsValid state := by
  obtain ⟨state, ran, -⟩ := workers_run sampleJemalloc 2
  exact ⟨state, ran, (tidsValid_iff ran).mpr (by rw [callerCount_workers]; decide)⟩

/-- Of as many workers and one more as there are caches, the last gets an id without a cache. -/
theorem not_tidsValid_workers :
    ∃ state, run (step sampleJemalloc) .initial (workers 201) = some state ∧
      ¬ TidsValid state := by
  obtain ⟨state, ran, -⟩ := workers_run sampleJemalloc 201
  refine ⟨state, ran, fun valid => ?_⟩
  obtain ⟨thread, told⟩ := (run_counted ran).2 (by rw [callerCount_workers]; decide)
  exact absurd (valid.2 thread _ told) (lt_irrefl _)

end SecretTyping.Pool
