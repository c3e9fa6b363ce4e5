import SecretTyping.Pool.ThreadIds

/-! Blocks stay with the arenas of the pool that they are allocated from. -/

namespace SecretTyping.Pool

open Machine

/-- What is relied on of jemalloc: the arenas of a pool are numbered one after another, and no cache
is handed out twice. -/
structure Assumed (jemalloc : Jemalloc) : Prop where
  consecutive : ∀ node, ∀ i < (opInitialize jemalloc node).numArenas,
    jemalloc.arena node i = jemalloc.arena node 0 + i
  distinct : ∀ node other, ∀ i < maxJemallocThreads, ∀ j < maxJemallocThreads,
    jemalloc.tcache node i = jemalloc.tcache other j → node = other ∧ i = j

/-- The sample arenas and caches are as assumed. -/
theorem sampleJemalloc_assumed : Assumed sampleJemalloc where
  consecutive node i inside := rfl
  distinct node other i small j small' same := by
    simp only [sampleJemalloc, maxJemallocThreads] at small small' same
    omega

variable {jemalloc : Jemalloc}

/-- The arena counter stays within the arenas of the pool. -/
theorem nextSpin_lt (pool : JemallocPool) (some : 0 < pool.numArenas) (arenaSpin : Nat) :
    nextSpin pool arenaSpin < pool.numArenas := by
  -- It starts again where it would leave them.
  simp only [nextSpin]
  split <;> omega

/-- The arena that an allocation chooses is one of the pool. -/
theorem chosen_mem (assumed : Assumed jemalloc) (node arenaSpin : Nat) :
    (opInitialize jemalloc node).arenaIndex + nextSpin (opInitialize jemalloc node) arenaSpin ∈
      arenasOf jemalloc node := by
  -- The arenas are consecutive, so that the counter leads to one of them.
  have inside := nextSpin_lt (opInitialize jemalloc node) (by simp [opInitialize]) arenaSpin
  exact ⟨_, inside, assumed.consecutive node _ inside⟩

variable (jemalloc)

/-- What a thread works with belongs to the pool it works for. -/
def Phase.Fits : Phase → Prop
  | .idle | .exited => True
  | .chosen node arena => arena ∈ arenasOf jemalloc node
  | .mallocx node arena tid => arena ∈ arenasOf jemalloc node ∧ tid < maxJemallocThreads
  | .entered node block => block.arena ∈ arenasOf jemalloc node
  | .dallocx node block tid =>
    block.arena ∈ arenasOf jemalloc node ∧ tid < maxJemallocThreads

/-- A block in use belongs to the pool it is used from, and one in a cache to the pool of the cache.
-/
def Place.Fits (block : Block) : Place → Prop
  | .arena | .freed => True
  | .live node => block.arena ∈ arenasOf jemalloc node
  | .cached tcache => ∀ node, ∀ i < maxJemallocThreads, jemalloc.tcache node i = tcache →
    block.arena ∈ arenasOf jemalloc node

/-- Threads, blocks and what has been allocated belong to their pools. -/
structure Isolated (state : State) : Prop where
  phases : ∀ thread, (state.phase thread).Fits jemalloc
  places : ∀ block, (state.place block).Fits jemalloc block
  allocated : ∀ node block, (node, block) ∈ state.allocated → block.arena ∈ arenasOf jemalloc node

variable {jemalloc}

/-- At the start everything belongs where it should. -/
theorem isolated_initial : Isolated jemalloc .initial where
  phases _ := trivial
  places _ := trivial
  allocated _ _ given := by simp [State.initial] at given

/-- A thread that goes on to a phase that fits leaves all phases fitting. -/
theorem fits_move {phases : Nat → Phase} (fits : ∀ thread, (phases thread).Fits jemalloc)
    {thread : Nat} {phase : Phase} (next : phase.Fits jemalloc) (other : Nat) :
    (Function.update phases thread phase other).Fits jemalloc := by
  -- The other threads are where they were.
  by_cases same : other = thread
  · rw [same, Function.update_self]
    exact next
  · rw [Function.update_of_ne same]
    exact fits other

/-- A block that goes to a place that fits leaves all blocks fitting. -/
theorem fits_put {places : Block → Place} (fits : ∀ block, (places block).Fits jemalloc block)
    {block : Block} {place : Place} (next : place.Fits jemalloc block) (other : Block) :
    (Function.update places block place other).Fits jemalloc other := by
  by_cases same : other = block
  · rw [same, Function.update_self]
    exact next
  · rw [Function.update_of_ne same]
    exact fits other

/-- A block that comes from a cache of the pool or fresh from an arena of it belongs to the pool. -/
theorem mallocx_belongs {places : Block → Place}
    (fits : ∀ block, (places block).Fits jemalloc block) {node arena id : Nat}
    (here : (Phase.mallocx node arena id).Fits jemalloc) {block : Block}
    (origin : places block = .cached ((opInitialize jemalloc node).tcaches id) ∨
      (places block = .arena ∧ block.arena = arena)) : block.arena ∈ arenasOf jemalloc node := by
  -- What is in a cache of the pool has come there from the pool.
  rcases origin with cached | ⟨-, fresh⟩
  · have stays := fits block
    rw [cached] at stays
    exact stays node id here.2 rfl
  · rw [fresh]
    exact here.1

/-- A block that is given back goes to a cache of its own pool, or to its arena. -/
theorem dallocx_fits (assumed : Assumed jemalloc) {node id : Nat} {block : Block}
    (here : (Phase.dallocx node block id).Fits jemalloc) (caches : Bool) :
    Place.Fits jemalloc block
      (if caches then .cached ((opInitialize jemalloc node).tcaches id) else .arena) := by
  split
  · -- No other pool has the cache that the block goes to.
    intro other i small same
    obtain ⟨sameNode, -⟩ := assumed.distinct other node i small id here.2 same
    rw [sameNode]
    exact here.1
  · trivial

/-- One step keeps everything where it belongs, as long as thread ids have caches. -/
theorem Isolated.step (assumed : Assumed jemalloc) {state after : State} {action : Action}
    (isolated : Isolated jemalloc state)
    (stepped : Pool.step jemalloc state action = some after) (valid : TidsValid after) :
    Isolated jemalloc after := by
  obtain ⟨phases, places, allocated⟩ := isolated
  -- One case for each action, with the phases in which it is possible.
  cases action with
  | alloc thread node =>
    simp only [Pool.step] at stepped
    split at stepped <;> cases stepped
    -- An allocation goes on with an arena of its node.
    exact ⟨fits_move phases (chosen_mem assumed node _), places, allocated⟩
  | free thread node pointer =>
    simp only [Pool.step] at stepped
    split at stepped
    · cases stepped
      exact ⟨phases, places, allocated⟩
    · next block _ =>
      split at stepped <;> cases stepped
      next live =>
      -- The block leaves the live ones and is held by the thread that frees it.
      have fits := places block
      rw [live] at fits
      exact ⟨fits_move phases fits, fits_put places trivial, allocated⟩
    · cases stepped
  | tid thread =>
    -- The id that is returned has a cache, as all ids so far have.
    have told := (step_tid stepped).2.2
    have small : (tid state thread).1 < maxJemallocThreads :=
      valid.2 thread _ (told ▸ List.mem_cons_self)
    obtain ⟨samePhase, samePlace, sameAllocated⟩ := tid_keeps state thread
    have here := phases thread
    simp only [Pool.step] at stepped
    split at stepped
    · next node arena phase =>
      cases stepped
      rw [phase] at here
      exact ⟨fits_move (samePhase ▸ phases) ⟨here, small⟩, samePlace ▸ places,
        sameAllocated ▸ allocated⟩
    · next node block phase =>
      cases stepped
      rw [phase] at here
      exact ⟨fits_move (samePhase ▸ phases) ⟨here, small⟩, samePlace ▸ places,
        sameAllocated ▸ allocated⟩
    · cases stepped
  | mallocx thread result =>
    have here := phases thread
    simp only [Pool.step] at stepped
    split at stepped
    · cases stepped
      -- A call that fails gives no block.
      exact ⟨fits_move phases trivial, places, allocated⟩
    · next node arena id block phase =>
      rw [phase] at here
      split at stepped <;> cases stepped
      next origin =>
      -- The block is from the arena or from the cache, which both belong to the node.
      have belongs := mallocx_belongs places here origin
      -- What has been allocated grows by the block.
      refine ⟨fits_move phases trivial, fits_put places belongs, fun other found given => ?_⟩
      rcases List.mem_cons.mp given with new | old
      · cases new
        exact belongs
      · exact allocated other found old
    · cases stepped
  | dallocx thread caches =>
    have here := phases thread
    simp only [Pool.step] at stepped
    split at stepped <;> cases stepped
    next node block id phase =>
    rw [phase] at here
    -- The block goes back to its arena or into the cache of its node.
    exact ⟨fits_move phases trivial, fits_put places (dallocx_fits assumed here caches), allocated⟩
  | exit thread =>
    simp only [Pool.step] at stepped
    split at stepped <;> cases stepped
    exact ⟨fits_move phases trivial, places, allocated⟩

/-- As long as there are caches for the callers, everything stays where it belongs. -/
def StaysIsolated (jemalloc : Jemalloc) (actions : List Action) (state : State) : Prop :=
  callerCount actions ≤ maxJemallocThreads → Isolated jemalloc state

/-- In every run everything stays where it belongs. -/
theorem run_isolated (assumed : Assumed jemalloc) {actions : List Action} {state : State}
    (ran : run (step jemalloc) .initial actions = some state) :
    StaysIsolated jemalloc actions state := by
  refine run_induction (StaysIsolated jemalloc) (fun _ => isolated_initial) ?_ ran
  intro actions before action after earlier ih stepped few
  -- The ids are valid after the step, as there are caches for the callers so far.
  have valid : TidsValid after := tidsValid_few (run_concat.mpr ⟨before, earlier, stepped⟩) few
  exact (ih ((callerCount_concat actions action).1.trans few)).step assumed stepped valid

/-- Every block that an allocation for a node has returned belongs to the arenas of the pool of this
node, in every run in which no more threads call than there are caches. -/
theorem allocated_isolated (assumed : Assumed jemalloc) {actions : List Action} {state : State}
    (ran : run (step jemalloc) .initial actions = some state)
    (few : callerCount actions ≤ maxJemallocThreads) {node : Nat} {block : Block}
    (returned : (node, block) ∈ state.allocated) : block.arena ∈ arenasOf jemalloc node :=
  (run_isolated assumed ran few).allocated node block returned

/-- Two threads allocate for two nodes; the second one frees the block of the first one, and gets it
back from its own cache. -/
def reuse : List Action :=
  [.alloc 0 0, .alloc 1 1, .tid 1, .tid 0, .mallocx 0 (some ⟨2, 7⟩), .mallocx 1 (some ⟨162, 9⟩),
    .free 1 0 (some ⟨2, 7⟩), .tid 1, .dallocx 1 true, .alloc 1 0, .tid 1,
    .mallocx 1 (some ⟨2, 7⟩)]

/-- The block got back from the cache belongs to its pool, and the other one to the other pool. -/
theorem allocated_isolated_reuse :
    ∃ state, run (step sampleJemalloc) .initial reuse = some state ∧
      state.allocated = [(0, ⟨2, 7⟩), (1, ⟨162, 9⟩), (0, ⟨2, 7⟩)] ∧
      2 ∈ arenasOf sampleJemalloc 0 ∧ 162 ∈ arenasOf sampleJemalloc 1 := by
  obtain ⟨state, ran, returned⟩ : ∃ state, run (step sampleJemalloc) .initial reuse = some state ∧
      state.allocated = [(0, ⟨2, 7⟩), (1, ⟨162, 9⟩), (0, ⟨2, 7⟩)] := ⟨_, rfl, rfl⟩
  have first : (0, ⟨2, 7⟩) ∈ state.allocated := by simp [returned]
  have second : (1, ⟨162, 9⟩) ∈ state.allocated := by simp [returned]
  exact ⟨state, ran, returned,
    allocated_isolated sampleJemalloc_assumed ran (by decide) first,
    allocated_isolated sampleJemalloc_assumed ran (by decide) second⟩

end SecretTyping.Pool
