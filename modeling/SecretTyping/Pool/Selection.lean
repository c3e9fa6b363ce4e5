import Mathlib.Logic.Function.Iterate
import SecretTyping.Pool.Arenas
import SecretTyping.Pool.Isolation

/-! Allocations stay with the arenas of their pool where these are numbered one after another. -/

namespace SecretTyping.Pool.Arenas

open Machine

/-- Each arena that an allocation may pass to jemalloc is one that was created for its pool and is
noted for it. -/
def Inside (state : State) : Prop :=
  ∀ action address arena after, perform state action = some (some (address, arena), after) →
    arena ∈ state.created address ∧ state.poolByArenaIndex arena = some address

/-- Indices that follow each other, from the first one returned on and in whatever order. -/
def Contiguous (arenas : List Nat) : Prop :=
  ∀ i < numArenas, arenas.headD 0 + i ∈ arenas

/-- The arenas of each pool follow each other. -/
def Consecutive (state : State) : Prop :=
  ∀ address pool, state.pools address = some pool →
    ∀ i < numArenas, pool.arenaIndex + i ∈ state.created address

/-- Indices that follow each other may be returned. -/
theorem contiguous_range' (base : Nat) : Contiguous (List.range' base numArenas) := by
  -- The first of the indices is the least.
  intro i small
  have first : (List.range' base numArenas).headD 0 = base := by
    simp [List.headD_eq_head?_getD, List.head?_range', numArenas]
  rw [first]
  exact List.mem_range'_1.mpr ⟨by omega, by omega⟩

/-- The arenas of each pool follow each other after a step, if those of a new pool do. -/
theorem Consecutive.step {state after : State} {action : Action} (consecutive : Consecutive state)
    (wellFormed : WellFormed state)
    (contiguous : ∀ address arenas tcaches, action = .opInitialize address arenas tcaches →
      Contiguous arenas)
    (stepped : step state action = some after) : Consecutive after := by
  obtain ⟨⟨passed, next⟩, performed, result⟩ := Option.map_eq_some_iff.mp stepped
  cases result
  rcases perform_cases performed with ⟨address, arenas, tcaches, same, free, fresh, -, added⟩ |
    ⟨address, pool, -, there, -, finalized⟩ | ⟨address, pool, threads, -, -, changed⟩
  · -- A pool is as before or the new one.
    rw [← added]
    intro other pool remains
    by_cases new : other = address
    · subst new
      simp only [State.added, Function.update_self, Option.some.injEq] at remains ⊢
      rw [← remains]
      exact contiguous other arenas tcaches same
    · simp only [State.added, Function.update_of_ne new] at remains ⊢
      exact consecutive other pool remains
  · -- A pool that is left is as before.
    rw [← finalized, opFinalize_state state address (wellFormed address pool there).count]
    intro other remaining remains
    by_cases gone : other = address
    · simp [gone] at remains
    · simp only [Function.update_of_ne gone] at remains
      exact consecutive other remaining remains
  · rw [← changed]
    exact consecutive

/-- Where the arenas of each pool follow each other, allocations stay inside. -/
theorem Consecutive.inside {state : State} (consecutive : Consecutive state)
    (wellFormed : WellFormed state) : Inside state := by
  intro action address arena after performed
  rcases perform_cases performed with ⟨_, _, _, -, -, -, passed, -⟩ | ⟨_, _, -, -, passed, -⟩ |
    ⟨owner, pool, threads, there, counted, -⟩
  · cases passed
  · cases passed
  · -- The counter is within the arenas of the pool.
    rcases counted with passed | ⟨arenaSpin, passed⟩
    · cases passed
    · cases passed
      have owned := wellFormed address pool there
      have within := nextSpin_lt pool (by simp [owned.count, numArenas]) arenaSpin
      rw [owned.count] at within
      have mem := consecutive address pool there _ within
      exact ⟨mem, owned.noted _ mem⟩

/-- Runs in which all new pools get arenas that follow each other keep them so. -/
theorem run_consecutive {first state : State} {actions : List Action}
    (wellFormed : WellFormed first) (consecutive : Consecutive first)
    (ran : run step first actions = some state)
    (contiguous : ∀ address arenas tcaches, .opInitialize address arenas tcaches ∈ actions →
      Contiguous arenas) : WellFormed state ∧ Consecutive state := by
  -- By induction on the run, with what is known of the actions so far.
  refine run_induction (fun actions state => (∀ address arenas tcaches,
    .opInitialize address arenas tcaches ∈ actions → Contiguous arenas) →
    WellFormed state ∧ Consecutive state) ?_ ?_ ran contiguous
  · intro _
    exact ⟨wellFormed, consecutive⟩
  · intro actions before action after earlier holds stepped contiguous
    obtain ⟨wellFormed, consecutive⟩ := holds fun address arenas tcaches mem =>
      contiguous address arenas tcaches (List.mem_append_left _ mem)
    refine ⟨wellFormed.step stepped, consecutive.step wellFormed ?_ stepped⟩
    intro address arenas tcaches same
    exact contiguous address arenas tcaches (by simp [same])

/-- At the start there is no pool. -/
theorem consecutive_initial (automatic : Finset Nat) : Consecutive (.initial automatic) := by
  intro address pool there
  cases there

variable (thread : Nat) (pool : JemallocPool)

/-- What a thread's allocation from a pool does to the threads. -/
def spun (threads : Threads) : Threads := (opMalloc threads thread pool).2

/-- A thread that has an id keeps it, and its counter goes on. -/
theorem spun_settled {threads : Threads} (settled : threads.threadId thread ≠ uintMax) :
    (spun thread pool threads).threadId thread = threads.threadId thread ∧
      (spun thread pool threads).arenaSpin thread = nextSpin pool (threads.arenaSpin thread) := by
  simp [spun, opMalloc, chooseArena, tid, settled]

/-- A thread gets an id with its first allocation, or with the second one where the id it gets
stands for none. -/
theorem exists_settled (threads : Threads) :
    ∃ turns, (((spun thread pool)^[turns]) threads).threadId thread ≠ uintMax := by
  by_cases settled : threads.threadId thread = uintMax
  · by_cases last : threads.threadCount = uintMax
    · -- The counter of threads starts again.
      refine ⟨2, ?_⟩
      simp [spun, opMalloc, chooseArena, tid, settled, last]
      decide
    · refine ⟨1, ?_⟩
      simp [spun, opMalloc, chooseArena, tid, settled, last]
  · exact ⟨0, settled⟩

/-- The counter of a thread goes round the arenas. -/
theorem iterate_spun {thread : Nat} {pool : JemallocPool} (all : pool.numArenas = numArenas)
    {threads : Threads} (settled : threads.threadId thread ≠ uintMax)
    (within : threads.arenaSpin thread < numArenas) (turns : Nat) :
    (((spun thread pool)^[turns]) threads).threadId thread ≠ uintMax ∧
      (((spun thread pool)^[turns]) threads).arenaSpin thread =
        (threads.arenaSpin thread + turns) % numArenas := by
  -- By induction on the turns, with one more allocation each.
  induction turns with
  | zero => exact ⟨settled, (Nat.mod_eq_of_lt within).symm⟩
  | succ turns ih =>
    obtain ⟨keeps, spins⟩ := ih
    obtain ⟨same, next⟩ := spun_settled thread pool keeps
    rw [Function.iterate_succ_apply', same, next, spins]
    refine ⟨keeps, ?_⟩
    simp only [nextSpin, all, numArenas, uintMax]
    split <;> omega

/-- A thread comes to any arena of a pool if it allocates often enough. -/
theorem exists_spun (thread : Nat) {pool : JemallocPool} (all : pool.numArenas = numArenas)
    (threads : Threads) {i : Nat} (small : i < numArenas) :
    ∃ turns, nextSpin pool ((((spun thread pool)^[turns]) threads).arenaSpin thread) = i := by
  obtain ⟨first, settled⟩ := exists_settled thread pool threads
  -- With one more allocation the counter is within the arenas.
  obtain ⟨keeps, next⟩ := spun_settled thread pool settled
  have within := nextSpin_lt pool (by simp [all, numArenas])
    ((((spun thread pool)^[first]) threads).arenaSpin thread)
  rw [← next, all] at within
  -- From there it takes as many allocations as the arena is away.
  let start := (spun thread pool (((spun thread pool)^[first]) threads)).arenaSpin thread
  have round := (iterate_spun all (by rw [keeps]; exact settled) within
    ((i + 2 * numArenas - 1 - start) % numArenas)).2
  refine ⟨(i + 2 * numArenas - 1 - start) % numArenas + (first + 1), ?_⟩
  rw [Function.iterate_add_apply, Function.iterate_succ_apply', round]
  have before : start < numArenas := within
  simp only [nextSpin, all, numArenas, uintMax] at *
  split <;> omega

/-- An allocation changes the threads, and passes the arena that the counter leads to. -/
theorem perform_opMalloc {state : State} {address : Address} {pool : JemallocPool}
    (there : state.pools address = some pool) :
    perform state (.opMalloc thread address) =
      some (some (address, pool.arenaIndex + nextSpin pool (state.threads.arenaSpin thread)),
        { state with threads := spun thread pool state.threads }) := by
  simp only [perform, State.allocate, there, Option.map_some]
  rfl

/-- Allocations of one thread, one after another. -/
theorem run_opMalloc {state : State} {address : Address} {pool : JemallocPool}
    (there : state.pools address = some pool) (turns : Nat) :
    run step state (List.replicate turns (.opMalloc thread address)) =
      some { state with threads := ((spun thread pool)^[turns]) state.threads } := by
  -- By induction on the turns; the pool stays where it is.
  induction turns generalizing state with
  | zero => rfl
  | succ turns ih =>
    simp only [List.replicate_succ, run, step, perform_opMalloc thread there, Option.map_some,
      Option.bind_some]
    exact ih there

/-- Whatever is allocated before the next pool is created or freed stays inside exactly where the
arenas of each pool follow each other. -/
theorem inside_iff_consecutive {state : State} (wellFormed : WellFormed state) :
    (∀ (allocations : List (Nat × Address)) after,
      run step state (allocations.map fun (thread, address) => .opMalloc thread address) =
        some after → Inside after) ↔ Consecutive state := by
  constructor
  · -- A thread that allocates often enough comes to any of the arenas.
    intro inside address pool there i small
    obtain ⟨turns, leads⟩ :=
      exists_spun 0 (wellFormed address pool there).count state.threads small
    have ran := run_opMalloc 0 there turns
    have stays := inside (List.replicate turns (0, address)) _ (by rw [List.map_replicate, ran])
    rw [← leads]
    exact (stays (.opMalloc 0 address) _ _ _ (perform_opMalloc 0 there)).1
  · -- Allocations create no pools.
    intro consecutive allocations after ran
    have reached := run_consecutive wellFormed consecutive ran (by simp)
    exact reached.2.inside reached.1

/-- In runs in which every pool gets arenas that follow each other, allocations pass arenas of their
own pools only; and after any run they go on doing so exactly where the arenas of each pool follow
each other. -/
theorem run_inside {automatic : Finset Nat} {actions : List Action} {state : State}
    (ran : run step (.initial automatic) actions = some state) :
    ((∀ address arenas tcaches, .opInitialize address arenas tcaches ∈ actions →
      Contiguous arenas) → Inside state) ∧
    ((∀ (allocations : List (Nat × Address)) after,
      run step state (allocations.map fun (thread, address) => .opMalloc thread address) =
        some after → Inside after) ↔ Consecutive state) := by
  have wellFormed := run_wellFormed ran
  refine ⟨fun contiguous => ?_, inside_iff_consecutive wellFormed⟩
  -- All that a run needs to start with holds where there is no pool.
  have reached := run_consecutive (wellFormed_initial automatic) (consecutive_initial automatic) ran
    contiguous
  exact reached.2.inside reached.1

/-- With one pool, whose arenas follow each other, allocations stay inside. -/
theorem onePool_inside : Inside onePool := by
  -- The arenas of the one pool follow each other.
  refine (run_inside onePool_run).1 ?_
  intro address arenas tcaches mem
  simp only [List.mem_singleton, Action.opInitialize.injEq] at mem
  rw [mem.2.1]
  exact contiguous_range' 1

/-- The pool has been freed, and another one gets the arena that is destroyed and later ones. -/
def recycled : State :=
  (opFinalize onePool 7 ⟨1, numArenas, id⟩).2.added 8 (1 :: List.range' 161 159) id

/-- All arenas of the first pool but one are left when it has been freed. -/
theorem freed_live (arena : Nat) :
    arena ∈ (opFinalize onePool 7 ⟨1, numArenas, id⟩).2.live ↔
      arena ≠ 1 ∧ (arena = 0 ∨ 1 ≤ arena ∧ arena < 1 + numArenas) := by
  rw [opFinalize_state onePool 7 rfl]
  simp only [Finset.mem_erase, onePool, State.added, State.registerAll, State.initial,
    Finset.mem_union, Finset.mem_singleton, List.mem_toFinset, List.mem_range'_1]

/-- The one that is not left may be returned for the second pool. -/
theorem recycled_fresh :
    Fresh (opFinalize onePool 7 ⟨1, numArenas, id⟩).2 (1 :: List.range' 161 159) where
  length := by rw [List.length_cons, List.length_range']; rfl
  nodup := List.nodup_cons.mpr ⟨by simp [List.mem_range'_1], List.nodup_range'⟩
  unused := by
    simp only [freed_live, List.mem_cons, List.mem_range'_1]
    intro arena mem
    have all : numArenas = 160 := rfl
    omega

/-- The second pool can be created. -/
theorem recycled_run :
    run step (.initial {0}) [.opInitialize 7 (List.range' 1 numArenas) id, .opFinalize 7,
      .opInitialize 8 (1 :: List.range' 161 159) id] = some recycled := by
  have free : (opFinalize onePool 7 ⟨1, numArenas, id⟩).2.pools 8 = none := by
    rw [opFinalize_state onePool 7 rfl]
    rfl
  -- The run of the first pool goes on.
  have later : run step (.initial {0}) ([.opInitialize 7 (List.range' 1 numArenas) id] ++
      [.opFinalize 7, .opInitialize 8 (1 :: List.range' 161 159) id]) = _ := run_append _ _ _
  rw [onePool_run, Option.bind_some, run, step_opFinalize onePool_there, Option.bind_some, run,
    step_opInitialize free recycled_fresh id] at later
  exact later

/-- Allocations do not always stay inside: the second pool is led to an arena of the first one. -/
theorem exists_outside :
    ¬ ∀ (automatic : Finset Nat) (actions : List Action) (state : State),
      run step (.initial automatic) actions = some state → Inside state := by
  intro inside
  have there : recycled.pools 8 = some ⟨1, numArenas, id⟩ := by simp [recycled, State.added]
  have stays := (inside _ _ _ recycled_run _ _ _ _ (perform_opMalloc 0 there)).1
  -- The counter of a new thread leads to arena 2.
  have unused : recycled.threads.arenaSpin 0 = 0 := by
    rw [recycled, opFinalize_state onePool 7 rfl]
    rfl
  have led : nextSpin ⟨1, numArenas, id⟩ 0 = 1 := rfl
  rw [unused, led] at stays
  simp [recycled, State.added, List.mem_range'_1] at stays

end SecretTyping.Pool.Arenas
