import Mathlib.Logic.Function.Basic
import SecretTyping.Lib.Run

/-! Threads that allocate and free on the fast path of the jemalloc pools. -/

namespace SecretTyping.Pool

/-- The number of caches of a pool, one for each thread. -/
def maxJemallocThreads : Nat := 200

/-- The greatest unsigned number, of 32 bits, which stands for no thread id. -/
def uintMax : Nat := 4294967295

/-- What is kept of a pool: its first arena, the number of its arenas and its caches. -/
structure JemallocPool where
  arenaIndex : Nat
  numArenas : Nat
  /-- Behind the last cache lies whatever lies behind the array. -/
  tcaches : Nat → Nat

/-- What jemalloc has handed out to the pools: arenas and caches, by pool and in order. -/
structure Jemalloc where
  arena : Nat → Nat → Nat
  tcache : Nat → Nat → Nat

/-- Arenas and caches as jemalloc may hand them out, one pool after another. -/
def sampleJemalloc : Jemalloc where
  arena node i := 1 + 160 * node + i
  tcache node i := 200 * node + i

/-- Set up the pool of a node. -/
def opInitialize (jemalloc : Jemalloc) (node : Nat) : JemallocPool where
  -- Only the first of the arenas is remembered.
  arenaIndex := jemalloc.arena node 0
  numArenas := 160
  tcaches := jemalloc.tcache node

/-- The arenas created for the pool of a node. -/
def arenasOf (jemalloc : Jemalloc) (node : Nat) : Set Nat :=
  { arena | ∃ i < (opInitialize jemalloc node).numArenas, jemalloc.arena node i = arena }

/-- A block of memory of an arena. -/
structure Block where
  arena : Nat
  number : Nat
  deriving DecidableEq

/-- Where a block is. -/
inductive Place where
  | arena
  | live (node : Nat)
  /-- Given back, but not yet taken by jemalloc. -/
  | freed
  | cached (tcache : Nat)
  deriving DecidableEq

/-- How far a thread is within a call. -/
inductive Phase where
  | idle
  | chosen (node arena : Nat)
  | mallocx (node arena tid : Nat)
  | entered (node : Nat) (block : Block)
  | dallocx (node : Nat) (block : Block) (tid : Nat)
  | exited

/-- The state of the process: its counter of threads, the variables of each thread, the blocks, and
what has been returned so far. -/
structure State where
  threadCount : Nat
  threadId : Nat → Nat
  arenaSpin : Nat → Nat
  phase : Nat → Phase
  place : Block → Place
  /-- The thread ids returned so far, each with its thread. -/
  tids : List (Nat × Nat)
  /-- The blocks returned so far, each with its node. -/
  allocated : List (Nat × Block)

/-- The process before the first call. -/
def State.initial : State where
  threadCount := 0
  threadId _ := uintMax
  arenaSpin _ := 0
  phase _ := .idle
  place _ := .arena
  tids := []
  allocated := []

/-- What a thread does next, with what jemalloc decides. -/
inductive Action where
  | alloc (thread node : Nat)
  | free (thread node : Nat) (pointer : Option Block)
  | tid (thread : Nat)
  /-- No block is returned where there is no memory. -/
  | mallocx (thread : Nat) (result : Option Block)
  | dallocx (thread : Nat) (caches : Bool)
  | exit (thread : Nat)

/-- The arena counter of a thread goes round the arenas of the pool. -/
def nextSpin (pool : JemallocPool) (arenaSpin : Nat) : Nat :=
  let spun := (arenaSpin + 1) % (uintMax + 1)
  if spun ≥ pool.numArenas then 0 else spun

/-- The thread id of a thread, which it gets from the counter at its first call. -/
def tid (state : State) (thread : Nat) : Nat × State :=
  if state.threadId thread = uintMax then
    let id := state.threadCount
    (id, { state with
      threadCount := (state.threadCount + 1) % (uintMax + 1)
      threadId := Function.update state.threadId thread id
      arenaSpin := Function.update state.arenaSpin thread id })
  else (state.threadId thread, state)

/-- A thread goes on to another phase. -/
def State.move (state : State) (thread : Nat) (phase : Phase) : State :=
  { state with phase := Function.update state.phase thread phase }

/-- A block goes to another place. -/
def State.put (state : State) (block : Block) (place : Place) : State :=
  { state with place := Function.update state.place block place }

/-- One step of a thread; a call on a cache of jemalloc is one step, and so is one on the counter.
-/
def step (jemalloc : Jemalloc) (state : State) : Action → Option State
  | .alloc thread node =>
    match state.phase thread with
    | .idle =>
      let pool := opInitialize jemalloc node
      let spin := nextSpin pool (state.arenaSpin thread)
      let state := { state with arenaSpin := Function.update state.arenaSpin thread spin }
      some (state.move thread (.chosen node (pool.arenaIndex + spin)))
    | _ => none
  | .free thread node pointer =>
    match state.phase thread, pointer with
    | .idle, none => some state
    | .idle, some block =>
      -- A block is freed with the node it was allocated on.
      if state.place block = .live node then
        some ((state.put block .freed).move thread (.entered node block))
      else none
    | _, _ => none
  | .tid thread =>
    let (id, next) := tid state thread
    let next := { next with tids := (thread, id) :: state.tids }
    match state.phase thread with
    | .chosen node arena => some (next.move thread (.mallocx node arena id))
    | .entered node block => some (next.move thread (.dallocx node block id))
    | _ => none
  | .mallocx thread result =>
    match state.phase thread, result with
    | .mallocx _ _ _, none => some (state.move thread .idle)
    | .mallocx node arena id, some block =>
      -- The block comes from the cache, or it is a fresh one of the arena.
      if state.place block = .cached ((opInitialize jemalloc node).tcaches id) ∨
          (state.place block = .arena ∧ block.arena = arena) then
        some { (state.put block (.live node)).move thread .idle with
          allocated := (node, block) :: state.allocated }
      else none
    | _, _ => none
  | .dallocx thread caches =>
    match state.phase thread with
    | .dallocx node block id =>
      let place := if caches then .cached ((opInitialize jemalloc node).tcaches id) else .arena
      some ((state.put block place).move thread .idle)
    | _ => none
  | .exit thread =>
    match state.phase thread with
    | .idle => some (state.move thread .exited)
    | _ => none

/-- The threads that ask for their id, in order. -/
def callers (actions : List Action) : List Nat :=
  actions.filterMap fun
    | .tid thread => some thread
    | _ => none

/-- One more step may be by one more caller. -/
theorem callers_concat (actions : List Action) (action : Action) :
    callers (actions ++ [action]) = callers actions ++ callers [action] := by
  simp [callers]

end SecretTyping.Pool
