import Mathlib.Data.Finset.Basic
import Mathlib.Data.Finset.Lattice.Lemmas
import SecretTyping.Pool.FastPath

/-! Pools that come and go, and the arenas that are created and destroyed for them. -/

namespace SecretTyping.Pool.Arenas

open Machine

/-- Where a pool is; the address of a pool that has been freed may be that of a later one. -/
abbrev Address := Nat

/-- The number of arenas that are created for a pool. -/
def numArenas : Nat := 160

/-- What is shared by the threads and what each of them has of its own. -/
structure Threads where
  threadCount : Nat
  threadId : Nat → Nat
  arenaSpin : Nat → Nat

/-- The process: its threads, the arenas that there are in jemalloc, the pool that is noted for each
arena, and the pools. -/
structure State where
  threads : Threads
  live : Finset Nat
  poolByArenaIndex : Nat → Option Address
  pools : Address → Option JemallocPool
  /-- The arenas created for the pool at an address, which the code does not remember. -/
  created : Address → List Nat

/-- The process before the first call, with the arenas that jemalloc has made for itself. -/
def State.initial (automatic : Finset Nat) : State where
  threads := ⟨0, fun _ => uintMax, fun _ => 0⟩
  live := automatic
  poolByArenaIndex _ := none
  pools _ := none
  created _ := []

/-- What jemalloc is told to do when a pool is freed. -/
inductive Command where
  | arenaDestroy (arena : Nat)
  | tcacheDestroy (tcache : Nat)
  deriving DecidableEq

/-- The thread id of a thread, which it gets from the counter at its first call. -/
def tid (threads : Threads) (thread : Nat) : Nat × Threads :=
  if threads.threadId thread = uintMax then
    let id := threads.threadCount
    (id, { threadCount := (threads.threadCount + 1) % (uintMax + 1)
           threadId := Function.update threads.threadId thread id
           arenaSpin := Function.update threads.arenaSpin thread id })
  else (threads.threadId thread, threads)

/-- The arena that an allocation chooses, and the counter of its thread after that. -/
def chooseArena (threads : Threads) (thread : Nat) (pool : JemallocPool) : Nat × Threads :=
  let spin := nextSpin pool (threads.arenaSpin thread)
  (pool.arenaIndex + spin,
    { threads with arenaSpin := Function.update threads.arenaSpin thread spin })

/-- An arena has been created, and its pool is noted for it. -/
def State.register (state : State) (address : Address) (arena : Nat) : State :=
  { state with
    live := insert arena state.live
    poolByArenaIndex := Function.update state.poolByArenaIndex arena (some address) }

/-- The loop that creates the arenas of a pool, with the indices that jemalloc returns. -/
def createLoop (address : Address) : Nat → List Nat → JemallocPool → State →
    Option (JemallocPool × State)
  | _, [], pool, state => some (pool, state)
  | i, newArenaIndex :: rest, pool, state =>
    -- No index is returned that is in use.
    if newArenaIndex ∈ state.live then none
    else
      let pool := if i = 0 then { pool with arenaIndex := newArenaIndex } else pool
      createLoop address (i + 1) rest pool (state.register address newArenaIndex)

/-- Create a pool at an address that is free; where an arena is refused, the process ends. -/
def opInitialize (state : State) (address : Address) (arenas : List Nat) (tcaches : Nat → Nat) :
    Option State :=
  if state.pools address = none ∧ arenas.length = numArenas then
    -- The index of the first arena is not set before the loop.
    (createLoop address 0 arenas ⟨0, numArenas, tcaches⟩ state).map fun (pool, state) =>
      { state with
        pools := Function.update state.pools address (some pool)
        created := Function.update state.created address arenas }
  else none

/-- The loop that destroys arenas when a pool is freed. -/
def destroyLoop (pool : JemallocPool) : Nat → State → List Command × State
  | 0, state => ([], state)
  | count + 1, state =>
    -- Every turn is about the first arena, which has to be there to be destroyed.
    let (commands, state) := destroyLoop pool count { state with
      live := state.live.erase pool.arenaIndex
      poolByArenaIndex := Function.update state.poolByArenaIndex pool.arenaIndex none }
    (.arenaDestroy pool.arenaIndex :: commands, state)

/-- Free a pool. -/
def opFinalize (state : State) (address : Address) (pool : JemallocPool) :
    List Command × State :=
  let (commands, state) := destroyLoop pool pool.numArenas state
  (commands ++ (List.range maxJemallocThreads).map fun i => .tcacheDestroy (pool.tcaches i),
    { state with pools := Function.update state.pools address none })

/-- A call on a pool, with what jemalloc returns for it. -/
inductive Action where
  | opInitialize (address : Address) (arenas : List Nat) (tcaches : Nat → Nat)
  | opFinalize (address : Address)
  | opMalloc (thread : Nat) (address : Address)
  | opCalloc (thread : Nat) (address : Address)
  | opAlignedAlloc (thread : Nat) (address : Address)
  | opRealloc (thread : Nat) (address : Address) (pointer : Option Nat) (size : Nat)
  | opFree (thread : Nat) (address : Address) (pointer : Option Nat)

/-- Allocate from a pool: the arena is chosen first, and then the cache is looked up. -/
def opMalloc (threads : Threads) (thread : Nat) (pool : JemallocPool) : Nat × Threads :=
  let (arena, threads) := chooseArena threads thread pool
  (arena, (tid threads thread).2)

/-- Allocate memory that is cleared. -/
def opCalloc (threads : Threads) (thread : Nat) (pool : JemallocPool) : Nat × Threads :=
  opMalloc threads thread pool

/-- Allocate aligned memory, from an arena that is chosen in the same way. -/
def opAlignedAlloc (threads : Threads) (thread : Nat) (pool : JemallocPool) : Nat × Threads :=
  let (arena, threads) := chooseArena threads thread pool
  (arena, (tid threads thread).2)

/-- Change the size of a block; only where it stays a block is an arena chosen. -/
def opRealloc (threads : Threads) (thread : Nat) (pool : JemallocPool) (pointer : Option Nat)
    (size : Nat) : Option Nat × Threads :=
  if size = 0 ∧ pointer ≠ none then (none, (tid threads thread).2)
  else if pointer = none then
    let (arena, threads) := opMalloc threads thread pool
    (some arena, threads)
  else
    let (arena, threads) := chooseArena threads thread pool
    (some arena, (tid threads thread).2)

/-- Give a block back, for which no arena is named. -/
def opFree (threads : Threads) (thread : Nat) (pointer : Option Nat) : Threads :=
  if pointer ≠ none then (tid threads thread).2 else threads

/-- Allocate from the pool at an address, where there is one. -/
def State.allocate (state : State) (address : Address)
    (allocation : JemallocPool → Option Nat × Threads) :
    Option (Option (Address × Nat) × State) :=
  (state.pools address).map fun pool =>
    let (arena, threads) := allocation pool
    (arena.map fun arena => (address, arena), { state with threads := threads })

/-- Perform a call; an allocation tells the pool it is for and the arena it passes to jemalloc. -/
def perform (state : State) : Action → Option (Option (Address × Nat) × State)
  | .opInitialize address arenas tcaches =>
    (opInitialize state address arenas tcaches).map fun state => (none, state)
  | .opFinalize address =>
    (state.pools address).map fun pool => (none, (opFinalize state address pool).2)
  | .opMalloc thread address =>
    state.allocate address fun pool => (opMalloc state.threads thread pool).map some id
  | .opCalloc thread address =>
    state.allocate address fun pool => (opCalloc state.threads thread pool).map some id
  | .opAlignedAlloc thread address =>
    state.allocate address fun pool => (opAlignedAlloc state.threads thread pool).map some id
  | .opRealloc thread address pointer size =>
    state.allocate address fun pool => opRealloc state.threads thread pool pointer size
  | .opFree thread address pointer =>
    state.allocate address fun _ => (none, opFree state.threads thread pointer)

/-- The state after a call, where the call is possible. -/
def step (state : State) (action : Action) : Option State := (perform state action).map Prod.snd

/-- The arenas of a list have been created for a pool, one after another. -/
def State.registerAll (state : State) (address : Address) (arenas : List Nat) : State :=
  { state with
    live := state.live ∪ arenas.toFinset
    poolByArenaIndex := fun arena =>
      if arena ∈ arenas then some address else state.poolByArenaIndex arena }

/-- The arenas of a list come one by one. -/
theorem registerAll_cons (state : State) (address : Address) (arena : Nat) (rest : List Nat) :
    state.registerAll address (arena :: rest) =
      (state.register address arena).registerAll address rest := by
  -- An arena that comes again is noted for the same pool.
  simp only [State.registerAll, State.register, State.mk.injEq, true_and, and_true]
  constructor
  · ext other
    simp only [Finset.mem_union, Finset.mem_insert, List.mem_toFinset, List.mem_cons]
    tauto
  · funext other
    by_cases same : other = arena
    · simp [same]
    · simp [same, Function.update_of_ne]

/-- The loop adds the arenas to what is there, if none of them is in use, and notes the first. -/
theorem createLoop_eq (address : Address) (i : Nat) (arenas : List Nat) (pool : JemallocPool)
    (state : State) :
    createLoop address i arenas pool state =
      if arenas.Nodup ∧ ∀ arena ∈ arenas, arena ∉ state.live then
        some (if i = 0 then { pool with arenaIndex := arenas.headD pool.arenaIndex } else pool,
          state.registerAll address arenas)
      else none := by
  -- By induction on the arenas; each of them is in use for those that follow.
  induction arenas generalizing i pool state with
  | nil =>
    have nothing : state.registerAll address [] = state := by simp [State.registerAll]
    simp [createLoop, nothing]
  | cons arena rest ih =>
    rw [createLoop]
    -- The arena must be a new one before the loop goes on.
    by_cases used : arena ∈ state.live
    · simp [used]
    · rw [if_neg used]
      simp only [ih, ← registerAll_cons, Nat.succ_ne_zero, if_false, List.headD_cons]
      -- That the rest is unused once this one is in use is that all are different.
      have unused : (rest.Nodup ∧ ∀ other ∈ rest, other ∉ (state.register address arena).live) ↔
          (arena :: rest).Nodup ∧ ∀ other ∈ arena :: rest, other ∉ state.live := by
        simp only [State.register, Finset.mem_insert, List.nodup_cons, List.mem_cons]
        grind
      simp only [unused]

/-- A pool has been created with the arenas of a list. -/
def State.added (state : State) (address : Address) (arenas : List Nat) (tcaches : Nat → Nat) :
    State :=
  { state.registerAll address arenas with
    pools := Function.update state.pools address
      (some ⟨arenas.headD 0, numArenas, tcaches⟩)
    created := Function.update state.created address arenas }

/-- The indices that jemalloc may return for a pool: as many as are asked for, none of them twice
and none that is in use. -/
structure Fresh (state : State) (arenas : List Nat) : Prop where
  length : arenas.length = numArenas
  nodup : arenas.Nodup
  unused : ∀ arena ∈ arenas, arena ∉ state.live

/-- A pool is created exactly where there is none, with indices that jemalloc may return. -/
theorem opInitialize_eq_some {state after : State} {address : Address} {arenas : List Nat}
    {tcaches : Nat → Nat} :
    opInitialize state address arenas tcaches = some after ↔
      state.pools address = none ∧ Fresh state arenas ∧
        state.added address arenas tcaches = after := by
  have fresh : Fresh state arenas ↔ arenas.length = numArenas ∧ arenas.Nodup ∧
      ∀ arena ∈ arenas, arena ∉ state.live :=
    ⟨fun ⟨length, nodup, unused⟩ => ⟨length, nodup, unused⟩,
      fun ⟨length, nodup, unused⟩ => ⟨length, nodup, unused⟩⟩
  -- The loop is for the arenas, and the pool is noted behind it.
  simp only [opInitialize, createLoop_eq, fresh]
  split
  · next possible =>
    split
    · next unused =>
      obtain ⟨nodup, unused⟩ := unused
      simpa [possible, nodup, State.added, State.registerAll] using fun _ => unused
    · next taken => simp [possible, taken]
  · next impossible =>
    simp only [reduceCtorEq, false_iff]
    rintro ⟨free, ⟨length, -⟩, -⟩
    exact impossible ⟨free, length⟩

/-- The loop that destroys arenas names the first arena each time, and forgets no other. -/
theorem destroyLoop_succ (pool : JemallocPool) (count : Nat) (state : State) :
    destroyLoop pool (count + 1) state =
      (List.replicate (count + 1) (.arenaDestroy pool.arenaIndex),
        { state with
          live := state.live.erase pool.arenaIndex
          poolByArenaIndex := Function.update state.poolByArenaIndex pool.arenaIndex none }) := by
  -- By induction on the turns; what the first turn does, the later ones do again.
  induction count generalizing state with
  | zero => rfl
  | succ count ih =>
    rw [destroyLoop, ih]
    simp [List.replicate_succ]

/-- What is commanded when a pool with all its arenas is freed. -/
theorem opFinalize_commands (state : State) (address : Address) {pool : JemallocPool}
    (all : pool.numArenas = numArenas) :
    (opFinalize state address pool).1 =
      List.replicate numArenas (.arenaDestroy pool.arenaIndex) ++
        (List.range maxJemallocThreads).map fun i => .tcacheDestroy (pool.tcaches i) := by
  simp only [opFinalize, all, numArenas, destroyLoop_succ]

/-- What is left when a pool with all its arenas is freed. -/
theorem opFinalize_state (state : State) (address : Address) {pool : JemallocPool}
    (all : pool.numArenas = numArenas) :
    (opFinalize state address pool).2 =
      { state with
        live := state.live.erase pool.arenaIndex
        poolByArenaIndex := Function.update state.poolByArenaIndex pool.arenaIndex none
        pools := Function.update state.pools address none } := by
  -- Only the first of the arenas is destroyed, as often as the pool has arenas.
  simp only [opFinalize, all, numArenas, destroyLoop_succ]

/-- What a pool has: as many arenas as it counts, which are there and noted for it. -/
structure Owned (state : State) (address : Address) (pool : JemallocPool) : Prop where
  count : pool.numArenas = numArenas
  length : (state.created address).length = numArenas
  base : (state.created address).head? = some pool.arenaIndex
  nodup : (state.created address).Nodup
  live : ∀ arena ∈ state.created address, arena ∈ state.live
  noted : ∀ arena ∈ state.created address, state.poolByArenaIndex arena = some address

/-- The first arena of a pool is one of its arenas. -/
theorem Owned.base_mem {state : State} {address : Address} {pool : JemallocPool}
    (owned : Owned state address pool) : pool.arenaIndex ∈ state.created address :=
  List.mem_of_head? owned.base

/-- Every pool has what it should have. -/
def WellFormed (state : State) : Prop :=
  ∀ address pool, state.pools address = some pool → Owned state address pool

/-- A pool that is created has what it should have, and leaves what the others have. -/
theorem WellFormed.added {state : State} (wellFormed : WellFormed state) {address : Address}
    {arenas : List Nat} (free : state.pools address = none) (fresh : Fresh state arenas)
    (tcaches : Nat → Nat) : WellFormed (state.added address arenas tcaches) := by
  -- A pool keeps its arenas, or is the one that has been made.
  obtain ⟨length, nodup, unused⟩ := fresh
  intro other pool there
  by_cases same : other = address
  · -- The new pool has the arenas that have been created.
    subst same
    simp only [State.added, Function.update_self, Option.some.injEq] at there
    subst there
    have nonempty : arenas ≠ [] := by
      intro empty
      simp [empty, numArenas] at length
    refine ⟨rfl, ?_, ?_, ?_, ?_, ?_⟩ <;>
      simp only [State.added, State.registerAll, Function.update_self]
    · exact length
    · rw [List.headD_eq_head?_getD, List.head?_eq_some_head nonempty, Option.getD_some]
    · exact nodup
    · intro arena mem
      exact Finset.mem_union_right _ (List.mem_toFinset.mpr mem)
    · intro arena mem
      exact if_pos mem
  · -- The arenas of another pool are in use, so that none of them is returned.
    simp only [State.added, Function.update_of_ne same] at there
    obtain ⟨count, length', base, nodup', live, noted⟩ := wellFormed other pool there
    refine ⟨count, ?_, ?_, ?_, ?_, ?_⟩ <;>
      simp only [State.added, State.registerAll, Function.update_of_ne same]
    · exact length'
    · exact base
    · exact nodup'
    · intro arena mem
      exact Finset.mem_union_left _ (live arena mem)
    · intro arena mem
      have older : arena ∉ arenas := fun new => unused arena new (live arena mem)
      rw [if_neg older]
      exact noted arena mem

/-- A pool that is freed leaves what the others have. -/
theorem WellFormed.finalized {state : State} (wellFormed : WellFormed state) {address : Address}
    {pool : JemallocPool} (there : state.pools address = some pool) :
    WellFormed (opFinalize state address pool).2 := by
  -- The arena that is destroyed is that of the pool, and no other pool has it.
  have owned := wellFormed address pool there
  rw [opFinalize_state state address owned.count]
  intro other remaining remains
  by_cases same : other = address
  · simp [same] at remains
  · simp only [Function.update_of_ne same] at remains
    obtain ⟨count, length, base, nodup, live, noted⟩ := wellFormed other remaining remains
    -- The arena that is destroyed is noted for the pool that is freed.
    have differs : ∀ arena ∈ state.created other, arena ≠ pool.arenaIndex := by
      intro arena mem destroyed
      have first := owned.noted pool.arenaIndex owned.base_mem
      rw [← destroyed, noted arena mem, Option.some.injEq] at first
      exact same first
    refine ⟨count, length, base, nodup, ?_, ?_⟩
    · intro arena mem
      exact Finset.mem_erase.mpr ⟨differs arena mem, live arena mem⟩
    · intro arena mem
      show Function.update _ _ _ arena = _
      rw [Function.update_of_ne (differs arena mem)]
      exact noted arena mem

/-- Threads have no part in what the pools have. -/
theorem WellFormed.threads {state : State} (wellFormed : WellFormed state) (threads : Threads) :
    WellFormed { state with threads := threads } := by
  intro address pool there
  obtain ⟨count, length, base, nodup, live, noted⟩ := wellFormed address pool there
  exact ⟨count, length, base, nodup, live, noted⟩

/-- An allocation changes the threads only. -/
theorem allocate_state {state after : State} {address : Address}
    {allocation : JemallocPool → Option Nat × Threads} {passed : Option (Address × Nat)}
    (allocated : state.allocate address allocation = some (passed, after)) :
    ∃ pool, state.pools address = some pool ∧
      (allocation pool).1.map (fun arena => (address, arena)) = passed ∧
      { state with threads := (allocation pool).2 } = after := by
  obtain ⟨pool, there, result⟩ := Option.map_eq_some_iff.mp allocated
  simp only [Prod.mk.injEq] at result
  exact ⟨pool, there, result⟩

/-- An arena that is passed to jemalloc for a pool is told from its first arena and a counter. -/
def Counted (pool : JemallocPool) (address : Address) (passed : Option (Address × Nat)) : Prop :=
  passed = none ∨ ∃ arenaSpin, passed = some (address, pool.arenaIndex + nextSpin pool arenaSpin)

/-- What a call does: it creates a pool, it frees one, or it changes the threads and may pass an
arena for a pool. -/
theorem perform_cases {state after : State} {action : Action} {passed : Option (Address × Nat)}
    (performed : perform state action = some (passed, after)) :
    (∃ address arenas tcaches, action = .opInitialize address arenas tcaches ∧
      state.pools address = none ∧ Fresh state arenas ∧ passed = none ∧
      state.added address arenas tcaches = after) ∨
    (∃ address pool, action = .opFinalize address ∧ state.pools address = some pool ∧
      passed = none ∧ (opFinalize state address pool).2 = after) ∨
    (∃ address pool threads, state.pools address = some pool ∧ Counted pool address passed ∧
      { state with threads := threads } = after) := by
  -- The calls that change the threads are alike but for the arena.
  have allocates : ∀ {address : Address} {allocation : JemallocPool → Option Nat × Threads},
      state.allocate address allocation = some (passed, after) →
      (∀ pool, Counted pool address
        ((allocation pool).1.map fun arena => (address, arena))) →
      ∃ address pool threads, state.pools address = some pool ∧ Counted pool address passed ∧
        { state with threads := threads } = after := by
    intro address allocation allocated counted
    obtain ⟨pool, there, same, changed⟩ := allocate_state allocated
    exact ⟨address, pool, _, there, same ▸ counted pool, changed⟩
  cases action with
  | opInitialize address arenas tcaches =>
    left
    obtain ⟨next, initialized, result⟩ := Option.map_eq_some_iff.mp performed
    cases result
    obtain ⟨free, fresh, added⟩ := opInitialize_eq_some.mp initialized
    exact ⟨address, arenas, tcaches, rfl, free, fresh, rfl, added⟩
  | opFinalize address =>
    right; left
    obtain ⟨pool, there, result⟩ := Option.map_eq_some_iff.mp performed
    cases result
    exact ⟨address, pool, rfl, there, rfl, rfl⟩
  | opMalloc thread address =>
    simp only [perform] at performed
    -- An allocation passes the arena that it has chosen.
    exact .inr (.inr (allocates performed fun pool => .inr ⟨_, rfl⟩))
  | opCalloc thread address =>
    simp only [perform] at performed
    exact .inr (.inr (allocates performed fun pool => .inr ⟨_, rfl⟩))
  | opAlignedAlloc thread address =>
    simp only [perform] at performed
    exact .inr (.inr (allocates performed fun pool => .inr ⟨_, rfl⟩))
  | opRealloc thread address pointer size =>
    simp only [perform] at performed
    refine .inr (.inr (allocates performed fun pool => ?_))
    -- No arena is chosen where the block is given back.
    rw [opRealloc]
    split
    · exact .inl rfl
    · split
      · exact .inr ⟨_, rfl⟩
      · exact .inr ⟨_, rfl⟩
  | opFree thread address pointer =>
    simp only [perform] at performed
    -- To free is to choose no arena.
    exact .inr (.inr (allocates performed fun pool => .inl rfl))

/-- A pool can be created where there is none, with indices that jemalloc may return. -/
theorem step_opInitialize {state : State} {address : Address} {arenas : List Nat}
    (free : state.pools address = none) (fresh : Fresh state arenas) (tcaches : Nat → Nat) :
    step state (.opInitialize address arenas tcaches) =
      some (state.added address arenas tcaches) := by
  -- The tests of the call are met, so that it gives the pool its arenas.
  have initialized : opInitialize state address arenas tcaches = some _ :=
    opInitialize_eq_some.mpr ⟨free, fresh, rfl⟩
  simp only [step, perform, initialized, Option.map_some]

/-- Indices above all that are in use may be returned one after another. -/
theorem fresh_range' {state : State} {base : Nat} (above : ∀ arena ∈ state.live, arena < base) :
    Fresh state (List.range' base numArenas) where
  length := List.length_range'
  nodup := List.nodup_range'
  unused arena mem used := by
    -- Every arena of the range is above those that are in use.
    have least := (List.mem_range'_1.mp mem).1
    have less := above arena used
    omega

/-- A pool that is there can be freed. -/
theorem step_opFinalize {state : State} {address : Address} {pool : JemallocPool}
    (there : state.pools address = some pool) :
    step state (.opFinalize address) = some (opFinalize state address pool).2 := by
  simp only [step, perform, there, Option.map_some]

/-- At the start there is no pool. -/
theorem wellFormed_initial (automatic : Finset Nat) : WellFormed (.initial automatic) := by
  intro address pool there
  cases there

/-- A step keeps what the pools have. -/
theorem WellFormed.step {state after : State} (wellFormed : WellFormed state) {action : Action}
    (stepped : step state action = some after) : WellFormed after := by
  obtain ⟨⟨passed, next⟩, performed, result⟩ := Option.map_eq_some_iff.mp stepped
  cases result
  -- A pool is created or freed, or only the threads change.
  rcases perform_cases performed with ⟨address, arenas, tcaches, -, free, fresh, -, added⟩ |
    ⟨address, pool, -, there, -, finalized⟩ | ⟨address, pool, threads, -, -, changed⟩
  · rw [← added]
    exact wellFormed.added free fresh tcaches
  · rw [← finalized]
    exact wellFormed.finalized there
  · rw [← changed]
    exact wellFormed.threads threads

/-- Every run leaves the pools with what they should have. -/
theorem run_wellFormed {automatic : Finset Nat} {actions : List Action} {state : State}
    (ran : run step (.initial automatic) actions = some state) : WellFormed state := by
  refine run_induction (fun _ => WellFormed) (wellFormed_initial automatic) ?_ ran
  intro actions before action after earlier holds stepped
  exact holds.step stepped

/-- A process in which one pool has been created, with arenas one after another. -/
def onePool : State := (State.initial {0}).added 7 (List.range' 1 numArenas) id

/-- The pool can be created. -/
theorem onePool_run :
    run step (.initial {0}) [.opInitialize 7 (List.range' 1 numArenas) id] = some onePool := by
  -- Arena 0 is that of jemalloc itself.
  have above : ∀ arena ∈ (State.initial {0}).live, arena < 1 := by simp [State.initial]
  have free : (State.initial {0}).pools 7 = none := rfl
  have created := step_opInitialize free (fresh_range' above) id
  simp only [run, created, Option.bind_some]
  rfl

/-- It is there, with its first arena. -/
theorem onePool_there : onePool.pools 7 = some ⟨1, numArenas, id⟩ := by
  simp [onePool, State.added, numArenas, List.head?_range']

end SecretTyping.Pool.Arenas
