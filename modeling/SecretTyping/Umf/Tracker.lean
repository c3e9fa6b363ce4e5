import SecretTyping.Umf.CritnibRuns

/-! The tracker that maps the memory of all pools to the pools, and what is done to it when memory
is allocated, freed, split or merged. -/

namespace SecretTyping.Umf.Tracker

open Critnib

/-- What the tracker knows of a region: its pool and its size. -/
structure Value where
  pool : Nat
  size : Word
  deriving DecidableEq, Repr

/-- The map of the tracker, from where regions begin. -/
abbrev Map := Critnib.Tree Value

/-- What a call returns. -/
inductive Result where
  | success
  | outOfHostMemory
  | invalidArgument
  | unknown
  | notSupported
  deriving DecidableEq, Repr

/-- What is told of a pointer. -/
structure AllocInfo where
  base : Word
  baseSize : Word
  pool : Nat
  deriving DecidableEq, Repr

/-- What the allocator answers when a value is added. -/
structure AddMemory where
  value : Bool
  map : Memory

/-- Add a region; there is no result where an assertion fails. -/
def umfMemoryTrackerAdd (map : Map) (pool : Nat) (ptr size : Word) (memory : AddMemory) :
    Option (Result × Map) :=
  if ptr = 0 then none
  else if !memory.value then some (.outOfHostMemory, map)
  else
    -- The region is not to be there yet: its value is not changed.
    match critnibInsert map ptr ⟨pool, size⟩ false memory.map with
    | none => none
    | some (.success, map) => some (.success, map)
    | some (.noMemory, map) => some (.outOfHostMemory, map)
    -- The region was there already.
    | some (.exists, map) => some (.unknown, map)

/-- Remove a region. -/
def umfMemoryTrackerRemove (map : Map) (ptr : Word) : Option (Result × Map) :=
  if ptr = 0 then none
  else
    match critnibRemove map ptr with
    | none => none
    | some (none, map) => some (.unknown, map)
    | some (some _, map) => some (.success, map)

/-- What is told of a pointer when the value is read that has been found for it. -/
def allocInfo (ptr : Word) : Option (Word × Value) → Result × Option AllocInfo
  | none => (.invalidArgument, none)
  | some (rkey, rvalue) =>
    -- The end of the region is computed as a word.
    if rkey + rvalue.size ≤ ptr then (.invalidArgument, none)
    else (.success, some ⟨rkey, rvalue.size, rvalue.pool⟩)

/-- The region that a pointer is into; there may be no tracker, or no map of it. -/
def umfMemoryTrackerGetAllocInfo (tracker : Option Map) (ptr : Word) :
    Option (Result × Option AllocInfo) :=
  if ptr = 0 then none
  else
    match tracker with
    | none => some (.notSupported, none)
    | some map => some (allocInfo ptr (critnibFind map ptr .le))

/-- The pool that a pointer is into. -/
def umfMemoryTrackerGetPool (tracker : Option Map) (ptr : Word) : Option (Option Nat) :=
  (umfMemoryTrackerGetAllocInfo tracker ptr).map fun (_, info) => info.map AllocInfo.pool

/-- Allocate a region from the upstream provider, which returns a result and a pointer, and add it;
that it cannot be added is no error. -/
def trackingAlloc (map : Map) (pool : Nat) (size : Word) (upstream : Result × Word)
    (memory : AddMemory) : Option ((Result × Word) × Map) :=
  -- What has not been allocated is not added.
  if upstream.1 ≠ .success || upstream.2 = 0 then some (upstream, map)
  else
    match umfMemoryTrackerAdd map pool upstream.2 size memory with
    | none => none
    | some (_, map) => some (upstream, map)

/-- Remove a region and free it; it is added again if it cannot be freed but has been removed. -/
def trackingFree (map : Map) (pool : Nat) (ptr size : Word) (upstream : Result)
    (memory : AddMemory) : Option (Result × Map) :=
  -- The null pointer is not looked for, so no assertion is reached.
  match (if ptr = 0 then some (.unknown, map) else umfMemoryTrackerRemove map ptr) with
  | none => none
  | some (removed, map) =>
    if upstream = .success then some (upstream, map)
    -- A region that was not tracked is not added either.
    else if removed ≠ .success then some (upstream, map)
    else
      match umfMemoryTrackerAdd map pool ptr size memory with
      | none => none
      | some (_, map) => some (upstream, map)

/-- Are the arguments of a split valid? -/
def splitValid (ptr totalSize firstSize : Word) : Bool :=
  ptr ≠ 0 && firstSize ≠ 0 && totalSize ≠ 0 && firstSize < totalSize

/-- Are the arguments of a merge valid? -/
def mergeValid (lowPtr highPtr totalSize : Word) : Bool :=
  lowPtr ≠ 0 && highPtr ≠ 0 && totalSize ≠ 0 && lowPtr < highPtr && highPtr - lowPtr ≤ totalSize

/-- Is the region for a split tracked with its size? -/
def splitLookup (map : Map) (ptr totalSize : Word) : Result :=
  match critnibGet map ptr with
  | none => .invalidArgument
  | some value => if value.size ≠ totalSize then .invalidArgument else .success

/-- Change the size of a region; there is no map where the assertion fails that this is possible. -/
def updateValue (map : Map) (pool : Nat) (ptr size : Word) (memory : Memory) : Option Map :=
  match critnibInsert map ptr ⟨pool, size⟩ true memory with
  -- Only a success is possible where the region is there; the assertion fails otherwise.
  | some (.success, map) => some map
  | _ => none

/-- What the allocator answers, and whether the lock is taken, when a region is split or merged. -/
structure ChangeMemory where
  value : Bool
  lock : Bool
  add : AddMemory
  update : Memory

/-- Split a region in two, as the upstream provider does. -/
def trackingAllocationSplit (map : Map) (pool : Nat) (ptr totalSize firstSize : Word)
    (upstream : Result) (memory : ChangeMemory) : Option (Result × Map) :=
  if !splitValid ptr totalSize firstSize then some (.invalidArgument, map)
  else if !memory.value then some (.outOfHostMemory, map)
  else if !memory.lock then some (.unknown, map)
  else
    match splitLookup map ptr totalSize with
    | .success =>
      if upstream ≠ .success then some (upstream, map)
      else
        match umfMemoryTrackerAdd map pool (ptr + firstSize) (totalSize - firstSize)
          memory.add with
        | none => none
        -- The second part is added before the first one is changed.
        | some (.success, map) =>
          (updateValue map pool ptr firstSize memory.update).map fun map => (.success, map)
        -- The upstream provider has split the region nevertheless.
        | some (failed, map) => some (failed, map)
    | failed => some (failed, map)

/-- The values of two regions for a merge, if they are tracked for the same pool, and have the size
together. -/
def mergeLookup (map : Map) (lowPtr highPtr totalSize : Word) : Option (Value × Value) :=
  match critnibGet map lowPtr, critnibGet map highPtr with
  | some lowValue, some highValue =>
    if lowValue.pool ≠ highValue.pool then none
    else if lowValue.size + highValue.size ≠ totalSize then none
    else some (lowValue, highValue)
  | _, _ => none

/-- Remove the value of the second region; there is no map where the assertion fails that it is the
one that has been looked up. -/
def eraseValue (map : Map) (highPtr : Word) (highValue : Value) : Option Map :=
  match critnibRemove map highPtr with
  -- The assertion is on the value that has been removed.
  | some (some erased, map) => if erased = highValue then some map else none
  | _ => none

/-- Merge two regions, as the upstream provider does. -/
def trackingAllocationMerge (map : Map) (pool : Nat) (lowPtr highPtr totalSize : Word)
    (upstream : Result) (memory : ChangeMemory) : Option (Result × Map) :=
  if !mergeValid lowPtr highPtr totalSize then some (.invalidArgument, map)
  else if !memory.value then some (.outOfHostMemory, map)
  else if !memory.lock then some (.unknown, map)
  else
    match mergeLookup map lowPtr highPtr totalSize with
    | none => some (.invalidArgument, map)
    | some (_, highValue) =>
      if upstream ≠ .success then some (upstream, map)
      else do
        -- The first region is changed before the second one is removed.
        let map ← updateValue map pool lowPtr totalSize memory.update
        let map ← eraseValue map highPtr highValue
        return (.success, map)

/-- Remove all regions of a pool, or of all pools, behind a key, and count them. There is no result
where an assertion fails, or where there is not enough fuel. -/
def clearLoop (pool : Option Nat) : Nat → Map → Word → Nat → Option (Nat × Map)
  | 0, _, _, _ => none
  | fuel + 1, map, lastKey, nItems =>
    match critnibFind map lastKey .g with
    | none => some (nItems, map)
    -- A region of another pool stays where it is.
    | some (rkey, rvalue) =>
      if pool ≠ some rvalue.pool && pool ≠ none then clearLoop pool fuel map rkey nItems
      else (eraseValue map rkey rvalue).bind fun map => clearLoop pool fuel map rkey (nItems + 1)

/-- Remove all regions of a pool, or of all pools, and count them. -/
def clearTrackerForThePool (fuel : Nat) (map : Map) (pool : Option Nat) : Option (Nat × Map) :=
  clearLoop pool fuel map 0 0

end SecretTyping.Umf.Tracker
