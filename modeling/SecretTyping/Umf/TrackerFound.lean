import SecretTyping.Umf.TrackerSafety

/-! What a call has found in the map is there as long as its value has not been freed. -/

namespace SecretTyping.Umf.Tracker

open Critnib

variable {state : State} {region : Region} {key ptr size : Word} {value : Value} {map : Map}
  {regions : List Region} {pool : Nat} {locked : Bool}

/-- What has been found is there, if its value has not been freed. -/
def Found.Current (found : Found) (map : Map) : Prop :=
  found.fresh = true → contents map found.rkey = some found.rvalue

/-- What has been found by the calls is there, if its value has not been freed; a pool is destroyed
once, and a value of it that has been found then has not been freed. -/
structure Current (state : State) : Prop where
  once : state.closed.Pairwise fun first second => first.pool ≠ second.pool
  closings : ∀ closing ∈ state.closed, ∀ found, closing.found = some found →
    found.Current state.map ∧ (found.rvalue.pool = closing.pool → found.fresh = true)
  lookups : ∀ lookup ∈ state.lookups,
    lookup.found.rkey ≤ lookup.ptr ∧ lookup.found.Current state.map

section Map

/-- A value that is removed has been there, and nothing else changes. -/
theorem eraseValue_done {after : Map} (shaped : map.Shaped)
    (done : eraseValue map key value = some after) :
    contents map key = some value ∧
      ∀ other, other ≠ key → contents after other = contents map other := by
  -- The removal returns the value that was there, and the assertion compares it.
  obtain ⟨erased, last, removed, way⟩ := critnibRemove_cases shaped key
  obtain ⟨-, same, changed⟩ := way.spec shaped
  rw [eraseValue, removed] at done
  cases erased with
  | none => cases done
  | some erased =>
    dsimp only at done
    split at done
    · next equal =>
      cases done
      rw [← same, equal]
      exact ⟨rfl, fun other different => by rw [changed, Function.update_of_ne different]⟩
    · cases done

/-- Only the value at a key changes when that is changed. -/
theorem updateValue_done {after : Map} {memory : Memory} (shaped : map.Shaped)
    (done : updateValue map pool key size memory = some after) :
    ∀ other, other ≠ key → contents after other = contents map other := by
  -- The assertion is that the update succeeds.
  obtain ⟨outcome, last, inserted, way⟩ := critnibInsert_cases shaped key ⟨pool, size⟩ true memory
  obtain ⟨-, spec⟩ := way.spec shaped
  rw [updateValue, inserted] at done
  cases outcome with
  | success =>
    cases done
    exact fun other different => by rw [spec.2, Function.update_of_ne different]
  | noMemory => cases done
  | «exists» => cases done

/-- Only the value at an address changes when that is removed. -/
theorem umfMemoryTrackerRemove_done {after : Map} {result : Result} (shaped : map.Shaped)
    (done : umfMemoryTrackerRemove map ptr = some (result, after)) :
    ∀ other, other ≠ ptr → contents after other = contents map other := by
  -- Without an address the assertion fails.
  have address : ptr ≠ 0 := by
    rintro rfl
    cases done
  obtain ⟨answer, last, removed, -, -, changed⟩ := umfMemoryTrackerRemove_spec shaped address
  rw [done] at removed
  cases removed
  exact fun other different => by rw [changed, Function.update_of_ne different]

/-- What is there stays there when a region is added. -/
theorem umfMemoryTrackerAdd_done {after : Map} {result : Result} {memory : AddMemory}
    (shaped : map.Shaped)
    (done : umfMemoryTrackerAdd map pool ptr size memory = some (result, after)) :
    ∀ other value, contents map other = some value → contents after other = some value := by
  have address : ptr ≠ 0 := by
    rintro rfl
    cases done
  obtain ⟨answer, last, added, -, way⟩ :=
    umfMemoryTrackerAdd_spec shaped address pool size memory
  rw [done] at added
  cases added
  intro other value there
  rcases way with ⟨-, absent, changed⟩ | ⟨-, kept⟩ | ⟨-, -, kept⟩
  · -- The region is added where there was none.
    rw [changed, Function.update_of_ne]
    · exact there
    · rintro rfl
      rw [absent] at there
      cases there
  · rw [kept, there]
  · rw [kept, there]

end Map

section Changes

/-- What has been found stays there if all that is there does. -/
theorem Current.grow (current : Current state)
    (kept : ∀ key value, contents state.map key = some value → contents map key = some value) :
    Current { state with map := map, regions := regions, locked := locked } where
  once := current.once
  closings closing member found some :=
    have ⟨there, own⟩ := current.closings closing member found some
    ⟨fun fresh => kept _ _ (there fresh), own⟩
  lookups lookup member :=
    have ⟨before, there⟩ := current.lookups lookup member
    ⟨before, fun fresh => kept _ _ (there fresh)⟩

/-- What is not at a key stays where it has been found when the value at the key is freed. -/
theorem Found.Current.release {found : Found} (current : found.Current state.map)
    (elsewhere : ∀ other, other ≠ key → contents map other = contents state.map other) :
    (found.release key).Current map := by
  intro fresh
  rw [Found.release, Bool.and_eq_true, decide_eq_true_eq] at fresh
  show contents map found.rkey = some found.rvalue
  rw [elsewhere _ fresh.2]
  exact current fresh.1

/-- A value is freed that is not one of a pool that is destroyed and has found it. -/
theorem Current.release (current : Current state)
    (elsewhere : ∀ other, other ≠ key → contents map other = contents state.map other)
    (others : ∀ closing ∈ state.closed, ∀ found, closing.found = some found →
      found.rvalue.pool = closing.pool → found.rkey ≠ key) :
    Current (State.release
      { state with map := map, regions := regions, locked := locked } key) := by
  -- Nothing else than the values at the key is freed, in the closings and in the lookups alike.
  refine ⟨List.pairwise_map.mpr current.once, fun closing member found some => ?_,
    fun lookup member => ?_⟩
  · obtain ⟨before, listed, rfl⟩ := List.mem_map.mp member
    obtain ⟨first, there, rfl⟩ := Option.map_eq_some_iff.mp some
    obtain ⟨stays, own⟩ := current.closings before listed first there
    refine ⟨stays.release elsewhere, fun mine => ?_⟩
    rw [Found.release, Bool.and_eq_true, decide_eq_true_eq]
    exact ⟨own mine, others before listed first there mine⟩
  · obtain ⟨before, listed, rfl⟩ := List.mem_map.mp member
    obtain ⟨order, stays⟩ := current.lookups before listed
    exact ⟨order, stays.release elsewhere⟩

/-- A value of a region is freed, and no pool that is destroyed has found it as one of its own. -/
theorem Current.releaseRegion (current : Current state) (informed : Informed state)
    (member : region ∈ state.regions) (isOpen : state.Open region.pool) (covers : region.Covers key)
    (elsewhere : ∀ other, other ≠ key → contents map other = contents state.map other) :
    Current (State.release
      { state with map := map, regions := regions, locked := locked } key) := by
  refine current.release elsewhere fun closing listed found some mine same => ?_
  -- What has been found there is known of the region, and its pool is not destroyed.
  obtain ⟨there, own⟩ := current.closings closing listed found some
  have stored := there (own mine)
  rw [same] at stored
  have entry := informed.owns member covers stored
  have owner := ((informed.valid region member).inside entry).1
  exact isOpen closing listed (mine.symm.trans owner)

/-- A pool that is destroyed goes on. -/
theorem Current.advance (current : Current state) {before next : Closing} {closed : List Closing}
    (place : state.closed.Perm (before :: closed)) (same : next.pool = before.pool)
    (found : ∀ found, next.found = some found →
      found.Current state.map ∧ (found.rvalue.pool = next.pool → found.fresh = true)) :
    Current { state with closed := next :: closed } := by
  -- Only one closing goes on, and it stays with its pool.
  have once := (place.pairwise_iff fun different => Ne.symm different).mp current.once
  obtain ⟨first, rest⟩ := List.pairwise_cons.mp once
  refine ⟨List.pairwise_cons.mpr ⟨fun other member => ?_, rest⟩,
    fun closing member => ?_, current.lookups⟩
  · rw [same]
    exact first other member
  · rcases List.mem_cons.mp member with rfl | member
    · exact found
    · exact current.closings closing (place.mem_iff.mpr (List.mem_cons_of_mem _ member))

/-- A value of a pool that is destroyed is freed, and no other one has found it as one of its
own. -/
theorem Current.forget (current : Current state) (shaped : state.map.Shaped) {lastKey : Word}
    {found : Found} {closed : List Closing}
    (place : state.closed.Perm (⟨pool, lastKey, some found⟩ :: closed))
    (mine : found.rvalue.pool = pool)
    (done : eraseValue state.map found.rkey found.rvalue = some map) :
    Current (State.release { state with
      map := map, regions := regions, closed := ⟨pool, found.rkey, none⟩ :: closed }
      found.rkey) := by
  -- The value that is removed was there, and the closing no longer looks at it.
  obtain ⟨stored, elsewhere⟩ := eraseValue_done shaped done
  have next : Current { state with closed := ⟨pool, found.rkey, none⟩ :: closed } := by
    refine current.advance place rfl fun _ none => ?_
    cases none
  refine next.release elsewhere fun closing listed other some own same => ?_
  rcases List.mem_cons.mp listed with rfl | listed
  · cases some
  · -- What the other one has found is there, so that it is one of the pool.
    obtain ⟨there, fresh⟩ := next.closings closing (List.mem_cons_of_mem _ listed) other some
    have also := there (fresh own)
    replace also : contents state.map other.rkey = Option.some other.rvalue := also
    rw [same, stored] at also
    have equal : found.rvalue = other.rvalue := Option.some.inj also
    have apart := (List.pairwise_cons.mp next.once).1 closing listed
    refine apart ?_
    show pool = closing.pool
    rw [← mine, equal, own]

end Changes

end SecretTyping.Umf.Tracker
