import SecretTyping.Umf.TrackerMap

/-! The calls of all pools at the same time: what the upstream providers have given, how far the
calls are, and what the tracker knows of that. -/

namespace SecretTyping.Umf.Tracker

open Critnib

/-- How far a call on a region is. -/
inductive Phase where
  /-- There is no call; the region may not be tracked as there was no memory for that. -/
  | rest (tracked : Bool)
  /-- The region has been allocated, or could not be freed, and is added next. -/
  | adding
  /-- The region has been opened, and is added next. -/
  | opening
  /-- The region has been removed if it was tracked, and is freed next. -/
  | freeing (removed : Bool)
  /-- The region has been removed, and is closed next. -/
  | closing
  /-- The upstream provider has split the region, and the second part is added next. -/
  | divided (firstSize : Word)
  /-- The second part has been added, and the first one is changed next. -/
  | added (firstSize : Word)
  /-- The upstream provider has merged two regions, and the first one is changed next. -/
  | joined (lowSize : Word)
  /-- The first region has been changed, and the second one is removed next. -/
  | updated (lowSize : Word)

/-- Memory that an upstream provider has given for a pool, and the call on it. -/
structure Region where
  pool : Nat
  ptr : Word
  size : Word
  phase : Phase

/-- What the tracker knows of a region as a whole. -/
def Region.whole (region : Region) : Word × Value := (region.ptr, ⟨region.pool, region.size⟩)

/-- What the tracker knows of the first part of a region. -/
def Region.front (region : Region) (size : Word) : Word × Value :=
  (region.ptr, ⟨region.pool, size⟩)

/-- What the tracker knows of what is behind the first part of a region. -/
def Region.back (region : Region) (size : Word) : Word × Value :=
  (region.ptr + size, ⟨region.pool, region.size - size⟩)

/-- What the tracker knows of a region. -/
def Region.entries (region : Region) : List (Word × Value) :=
  match region.phase with
  | .rest tracked => if tracked then [region.whole] else []
  | .adding | .opening | .freeing _ | .closing => []
  | .divided _ => [region.whole]
  | .added firstSize => [region.whole, region.back firstSize]
  | .joined lowSize => [region.front lowSize, region.back lowSize]
  | .updated lowSize => [region.whole, region.back lowSize]

/-- The sizes of the parts of a region, where there are two. -/
def Phase.Fits (size : Word) : Phase → Prop
  | .divided part | .added part | .joined part | .updated part =>
    0 < part.toNat ∧ part.toNat < size.toNat
  | _ => True

/-- Is there no call that goes on with the region? -/
def Phase.Settled : Phase → Prop
  | .rest _ => True
  | _ => False

/-- What has been found in the map, and whether its value has not been freed since. -/
structure Found where
  rkey : Word
  rvalue : Value
  fresh : Bool

/-- A pool whose regions are being removed: the last key, and what has been found behind it. -/
structure Closing where
  pool : Nat
  lastKey : Word
  found : Option Found

/-- A call that has found something for a pointer, and reads its value next. -/
structure Lookup where
  ptr : Word
  found : Found

/-- The tracker, the memory of the pools with the calls on it, whether the lock for splits and
merges is taken, the pools whose regions are being removed, and the calls that ask for a pointer. -/
structure State where
  map : Map
  regions : List Region
  locked : Bool
  closed : List Closing
  lookups : List Lookup

/-- The value at a key is freed. -/
def Found.release (found : Found) (key : Word) : Found :=
  { found with fresh := found.fresh && found.rkey ≠ key }

/-- The value at a key is freed, whoever has found it. -/
def State.release (state : State) (key : Word) : State :=
  { state with
    closed := state.closed.map fun closing =>
      { closing with found := closing.found.map fun found => found.release key }
    lookups := state.lookups.map fun lookup =>
      { lookup with found := lookup.found.release key } }

/-- What a call tells of a pointer, if the value is as it was found. -/
def Lookup.told (lookup : Lookup) : Result × Option AllocInfo :=
  allocInfo lookup.ptr (some (lookup.found.rkey, lookup.found.rvalue))

/-- A region without calls. -/
def settled (pool : Nat) (ptr size : Word) (tracked : Bool) : Region :=
  ⟨pool, ptr, size, .rest tracked⟩

/-- One of two regions ends before the other one begins. -/
def Beside (first second : Region) : Prop :=
  first.ptr.toNat + first.size.toNat ≤ second.ptr.toNat ∨
    second.ptr.toNat + second.size.toNat ≤ first.ptr.toNat

/-- Memory that an upstream provider may give: it is not empty, does not reach the end of the range
of addresses, and is not given already. -/
structure Given (regions : List Region) (region : Region) : Prop where
  address : region.ptr ≠ 0
  positive : region.size ≠ 0
  bounded : region.ptr.toNat + region.size.toNat < 2 ^ 64
  beside : ∀ other ∈ regions, Beside region other

/-- The region is no longer tracked. -/
def Region.forgotten (region : Region) : Region := { region with phase := .rest false }

/-- Is a pool not one whose regions are being removed? -/
def State.Open (state : State) (pool : Nat) : Prop := ∀ closing ∈ state.closed, closing.pool ≠ pool

/-- A step of one of the calls. A call that fails before it has changed anything has no step; the
order of the regions is of no importance. -/
inductive Step (state : State) : State → Prop
  /-- The upstream provider gives memory for an allocation. -/
  | alloc {pool : Nat} {ptr size : Word} (isOpen : state.Open pool)
      (given : Given state.regions ⟨pool, ptr, size, .adding⟩) :
      Step state { state with regions := ⟨pool, ptr, size, .adding⟩ :: state.regions }
  /-- A region is added. -/
  | add {pool : Nat} {ptr size : Word} {rest : List Region} {memory : AddMemory}
      {result : Result} {map : Map}
      (place : state.regions.Perm (⟨pool, ptr, size, .adding⟩ :: rest))
      (done : umfMemoryTrackerAdd state.map pool ptr size memory = some (result, map)) :
      Step state { state with
        map := map, regions := settled pool ptr size (result = .success) :: rest }
  /-- The upstream provider gives memory for a handle that is opened. -/
  | openHandle {pool : Nat} {ptr size : Word} (isOpen : state.Open pool)
      (given : Given state.regions ⟨pool, ptr, size, .opening⟩) :
      Step state { state with regions := ⟨pool, ptr, size, .opening⟩ :: state.regions }
  /-- An opened region is added, or else it is closed. -/
  | addOpened {pool : Nat} {ptr size : Word} {rest : List Region} {memory : AddMemory}
      {result : Result} {map : Map}
      (place : state.regions.Perm (⟨pool, ptr, size, .opening⟩ :: rest))
      (done : umfMemoryTrackerAdd state.map pool ptr size memory = some (result, map)) :
      Step state { state with
        map := map
        regions := if result = .success then settled pool ptr size true :: rest else rest }
  /-- A region that is to be freed is removed. -/
  | remove {pool : Nat} {ptr size : Word} {tracked : Bool} {rest : List Region}
      {result : Result} {map : Map} (isOpen : state.Open pool)
      (place : state.regions.Perm (settled pool ptr size tracked :: rest))
      (done : umfMemoryTrackerRemove state.map ptr = some (result, map)) :
      Step state (State.release { state with
        map := map, regions := ⟨pool, ptr, size, .freeing (result = .success)⟩ :: rest } ptr)
  /-- The upstream provider frees a region. -/
  | free {pool : Nat} {ptr size : Word} {removed : Bool} {rest : List Region}
      (place : state.regions.Perm (⟨pool, ptr, size, .freeing removed⟩ :: rest)) :
      Step state { state with regions := rest }
  /-- The upstream provider does not free a region, which is added again if it has been removed. -/
  | notFreed {pool : Nat} {ptr size : Word} {removed : Bool} {rest : List Region}
      (place : state.regions.Perm (⟨pool, ptr, size, .freeing removed⟩ :: rest)) :
      Step state { state with
        regions := (if removed then ⟨pool, ptr, size, .adding⟩
          else settled pool ptr size false) :: rest }
  /-- A region that is to be closed is removed. -/
  | removeOpened {pool : Nat} {ptr size : Word} {tracked : Bool} {rest : List Region}
      {result : Result} {map : Map} (isOpen : state.Open pool)
      (place : state.regions.Perm (settled pool ptr size tracked :: rest))
      (done : umfMemoryTrackerRemove state.map ptr = some (result, map)) :
      Step state (State.release { state with
        map := map, regions := ⟨pool, ptr, size, .closing⟩ :: rest } ptr)
  /-- The upstream provider closes a region, or leaves it. -/
  | closeHandle {pool : Nat} {ptr size : Word} {rest : List Region} (isClosed : Bool)
      (place : state.regions.Perm (⟨pool, ptr, size, .closing⟩ :: rest)) :
      Step state { state with
        regions := if isClosed then rest else settled pool ptr size false :: rest }
  /-- A region is found with its size, and the upstream provider splits it. -/
  | divide {pool : Nat} {ptr size firstSize : Word} {tracked : Bool} {rest : List Region}
      (isOpen : state.Open pool) (free : state.locked = false)
      (place : state.regions.Perm (settled pool ptr size tracked :: rest))
      (valid : splitValid ptr size firstSize = true)
      (found : splitLookup state.map ptr size = .success) :
      Step state { state with
        locked := true, regions := ⟨pool, ptr, size, .divided firstSize⟩ :: rest }
  /-- The second part of a region is added, if there is memory for it; otherwise the caller goes on
  with the region as a whole, although the upstream provider has split it. -/
  | addSecond {pool : Nat} {ptr size firstSize : Word} {rest : List Region}
      {memory : AddMemory} {result : Result} {map : Map}
      (place : state.regions.Perm (⟨pool, ptr, size, .divided firstSize⟩ :: rest))
      (done : umfMemoryTrackerAdd state.map pool (ptr + firstSize) (size - firstSize) memory =
        some (result, map)) :
      Step state { state with
        map := map
        locked := result = .success
        regions := ⟨pool, ptr, size,
          if result = .success then .added firstSize else .rest true⟩ :: rest }
  /-- The first part of a region is changed. -/
  | updateFirst {pool : Nat} {ptr size firstSize : Word} {rest : List Region}
      {memory : Memory} {map : Map}
      (place : state.regions.Perm (⟨pool, ptr, size, .added firstSize⟩ :: rest))
      (done : updateValue state.map pool ptr firstSize memory = some map) :
      Step state (State.release { state with
        map := map
        locked := false
        regions := settled pool ptr firstSize true ::
          settled pool (ptr + firstSize) (size - firstSize) true :: rest } ptr)
  /-- Two regions are found with their sizes, and the upstream provider merges them. -/
  | join {pool : Nat} {ptr lowSize highSize : Word} {low high : Bool} {values : Value × Value}
      {rest : List Region} (isOpen : state.Open pool) (free : state.locked = false)
      (place : state.regions.Perm (settled pool ptr lowSize low ::
        settled pool (ptr + lowSize) highSize high :: rest))
      (valid : mergeValid ptr (ptr + lowSize) (lowSize + highSize) = true)
      (found : mergeLookup state.map ptr (ptr + lowSize) (lowSize + highSize) = some values) :
      Step state { state with
        locked := true
        regions := ⟨pool, ptr, lowSize + highSize, .joined lowSize⟩ :: rest }
  /-- The first one of two regions is changed. -/
  | updateLow {pool : Nat} {ptr size lowSize : Word} {rest : List Region}
      {memory : Memory} {map : Map}
      (place : state.regions.Perm (⟨pool, ptr, size, .joined lowSize⟩ :: rest))
      (done : updateValue state.map pool ptr size memory = some map) :
      Step state (State.release { state with
        map := map, regions := ⟨pool, ptr, size, .updated lowSize⟩ :: rest } ptr)
  /-- The second one of two regions is removed. -/
  | removeHigh {pool : Nat} {ptr size lowSize : Word} {rest : List Region} {map : Map}
      (place : state.regions.Perm (⟨pool, ptr, size, .updated lowSize⟩ :: rest))
      (done : eraseValue state.map (ptr + lowSize) ⟨pool, size - lowSize⟩ = some map) :
      Step state (State.release { state with
        map := map
        locked := false
        regions := settled pool ptr size true :: rest } (ptr + lowSize))
  /-- A pool is destroyed while there are no calls of it. -/
  | close {pool : Nat} (isOpen : state.Open pool)
      (quiet : ∀ region ∈ state.regions, region.pool = pool → region.phase.Settled) :
      Step state { state with closed := ⟨pool, 0, none⟩ :: state.closed }
  /-- The next region is found when a pool is destroyed. -/
  | findNext {pool : Nat} {lastKey rkey : Word} {rvalue : Value} {closed : List Closing}
      (place : state.closed.Perm (⟨pool, lastKey, none⟩ :: closed))
      (found : critnibFind state.map lastKey .g = some (rkey, rvalue)) :
      Step state { state with closed := ⟨pool, lastKey, some ⟨rkey, rvalue, true⟩⟩ :: closed }
  /-- The region that has been found is not one of the pool. If its value has been freed since, what
  is read there is a link of the allocator or another value, and not the pool. -/
  | pass {pool : Nat} {lastKey : Word} {found : Found} {closed : List Closing}
      (place : state.closed.Perm (⟨pool, lastKey, some found⟩ :: closed))
      (other : found.fresh = true → found.rvalue.pool ≠ pool) :
      Step state { state with closed := ⟨pool, found.rkey, none⟩ :: closed }
  /-- The region that has been found is one of the pool, and is removed. -/
  | forget {pool : Nat} {lastKey : Word} {found : Found} {closed : List Closing}
      {region : Region} {rest : List Region} {map : Map}
      (place : state.closed.Perm (⟨pool, lastKey, some found⟩ :: closed))
      (mine : found.rvalue.pool = pool)
      (done : eraseValue state.map found.rkey found.rvalue = some map)
      (owner : state.regions.Perm (region :: rest))
      (entry : (found.rkey, found.rvalue) ∈ region.entries) :
      Step state (State.release { state with
        map := map
        regions := region.forgotten :: rest
        closed := ⟨pool, found.rkey, none⟩ :: closed } found.rkey)
  /-- There is no further region, and the pool is gone. -/
  | closeEnd {pool : Nat} {lastKey : Word} {closed : List Closing}
      (place : state.closed.Perm (⟨pool, lastKey, none⟩ :: closed))
      (found : critnibFind state.map lastKey .g = none) :
      Step state { state with
        regions := state.regions.filter fun region => region.pool ≠ pool, closed := closed }
  /-- A call finds something for a pointer, and takes no lock for that. -/
  | find {ptr rkey : Word} {rvalue : Value} (address : ptr ≠ 0)
      (found : critnibFind state.map ptr .le = some (rkey, rvalue)) :
      Step state { state with lookups := ⟨ptr, ⟨rkey, rvalue, true⟩⟩ :: state.lookups }
  /-- A call reads the value that it has found. -/
  | read {lookup : Lookup} {rest : List Lookup}
      (place : state.lookups.Perm (lookup :: rest)) :
      Step state { state with lookups := rest }

/-- At first there are no regions and no calls. -/
def initial : State := ⟨critnibNew, [], false, [], []⟩

/-- The states that steps lead to. -/
inductive Reachable : State → Prop
  | start : Reachable initial
  | step {state after : State} (reached : Reachable state) (step : Step state after) :
    Reachable after

end SecretTyping.Umf.Tracker
