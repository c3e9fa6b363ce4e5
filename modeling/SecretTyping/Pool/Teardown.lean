import SecretTyping.Pool.Arenas

/-! A pool that is freed takes one of its arenas with it. -/

namespace SecretTyping.Pool.Arenas

open Machine

/-- Each of the arenas is destroyed, and none of them twice. -/
def DestroysEachOnce (commands : List Command) (arenas : List Nat) : Prop :=
  ∀ arena ∈ arenas, commands.count (.arenaDestroy arena) = 1

/-- No arena is noted for the pool that was at an address. -/
def Forgets (state : State) (address : Address) : Prop :=
  ∀ arena, state.poolByArenaIndex arena ≠ some address

variable {state : State} {address : Address} {pool : JemallocPool}

/-- The first arena is destroyed as often as there are arenas. -/
theorem Owned.count_base (owned : Owned state address pool) :
    (opFinalize state address pool).1.count (.arenaDestroy pool.arenaIndex) = numArenas := by
  simp [opFinalize_commands state address owned.count, List.count_append, List.count_eq_zero]

/-- Any other arena is not destroyed at all, and stays noted for the pool. -/
theorem Owned.left_behind (owned : Owned state address pool) {arena : Nat}
    (mem : arena ∈ state.created address) (other : arena ≠ pool.arenaIndex) :
    .arenaDestroy arena ∉ (opFinalize state address pool).1 ∧
      arena ∈ (opFinalize state address pool).2.live ∧
      (opFinalize state address pool).2.poolByArenaIndex arena = some address := by
  -- Every command is about the first arena or about a cache.
  rw [opFinalize_commands state address owned.count, opFinalize_state state address owned.count]
  refine ⟨?_, ?_, ?_⟩
  · simp [List.mem_replicate, other]
  · exact Finset.mem_erase.mpr ⟨other, owned.live arena mem⟩
  · show Function.update _ _ _ arena = _
    rw [Function.update_of_ne other]
    exact owned.noted arena mem

/-- A pool has an arena besides its first one. -/
theorem Owned.exists_other (owned : Owned state address pool) :
    ∃ arena ∈ state.created address, arena ≠ pool.arenaIndex := by
  -- The second arena is not the first one again.
  obtain ⟨-, length, base, nodup, -, -⟩ := owned
  match arenas : state.created address with
  | [] => simp [arenas, numArenas] at length
  | [_] => simp [arenas, numArenas] at length
  | first :: second :: rest =>
    simp only [arenas, List.head?_cons, Option.some.injEq] at base
    simp only [arenas, List.nodup_cons, List.mem_cons, not_or] at nodup
    exact ⟨second, by simp, fun same => nodup.1.1 (base.trans same.symm)⟩

/-- Whatever the run before, freeing a pool neither destroys each of its arenas once nor forgets
the pool. -/
theorem opFinalize_mirrors_not {automatic : Finset Nat} {actions : List Action}
    (ran : run step (.initial automatic) actions = some state)
    (there : state.pools address = some pool) :
    ¬ DestroysEachOnce (opFinalize state address pool).1 (state.created address) ∧
      ¬ Forgets (opFinalize state address pool).2 address := by
  have owned := run_wellFormed ran address pool there
  constructor
  · -- The first arena is destroyed too often.
    intro once
    have base := once pool.arenaIndex owned.base_mem
    rw [owned.count_base] at base
    simp [numArenas] at base
  · -- An arena besides it stays noted.
    intro forgets
    obtain ⟨arena, mem, other⟩ := owned.exists_other
    exact forgets arena (owned.left_behind mem other).2.2

/-- Freeing the one pool of a process does not mirror its creation. -/
theorem opFinalize_onePool :
    ¬ DestroysEachOnce (opFinalize onePool 7 ⟨1, numArenas, id⟩).1 (onePool.created 7) ∧
      ¬ Forgets (opFinalize onePool 7 ⟨1, numArenas, id⟩).2 7 :=
  opFinalize_mirrors_not onePool_run onePool_there

/-- Not every pool that is freed has each of its arenas destroyed once and is forgotten. -/
theorem exists_opFinalize_unmirrored :
    ¬ ∀ (automatic : Finset Nat) (actions : List Action) (state : State) (address : Address)
      (pool : JemallocPool), run step (.initial automatic) actions = some state →
        state.pools address = some pool →
        DestroysEachOnce (opFinalize state address pool).1 (state.created address) ∧
          Forgets (opFinalize state address pool).2 address := by
  intro mirrors
  obtain ⟨-, forgets⟩ := mirrors _ _ _ _ _ onePool_run onePool_there
  -- Arena 2 is noted for the pool still.
  have owned := run_wellFormed onePool_run 7 _ onePool_there
  have second : 2 ∈ onePool.created 7 := by simp [onePool, State.added, numArenas]
  exact forgets 2 (owned.left_behind second (by decide)).2.2

end SecretTyping.Pool.Arenas
