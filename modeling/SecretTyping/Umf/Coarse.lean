import SecretTyping.Lib.Sorted
import SecretTyping.Umf.Alignment

/-! The provider that takes large blocks from another one, and cuts them into those that are asked
for. -/

namespace SecretTyping.Umf.Coarse

open Sorted

/-- What a call returns. -/
inductive Result where
  | success
  | outOfHostMemory
  | invalidArgument
  | unknown
  | notSupported
  deriving DecidableEq, Repr

/-- The strategies for the search of a free block. -/
inductive Strategy where
  | fastest
  | fastestButOne
  | checkAllSize
  deriving DecidableEq, Repr

/-- Are all free blocks of a size looked at? -/
inductive CheckFreeBlocks where
  | onlyTheFirstBlock
  | allBlocksOfSize
  deriving DecidableEq, Repr

/-- A block of memory; it is listed if it is in one of the lists of free blocks. -/
structure Block where
  data : Nat
  size : Nat
  used : Bool
  listed : Bool
  deriving DecidableEq, Repr

/-- The list of the free blocks of a size. -/
structure Head where
  size : Nat
  head : List Nat
  deriving DecidableEq, Repr

/-- The provider. -/
structure Provider where
  upstreamMemoryProvider : Bool
  disableUpstreamProviderFree : Bool
  allocationStrategy : Strategy
  usedSize : Nat
  allocSize : Nat
  upstreamBlocks : List Block
  allBlocks : List Block
  freeBlocks : List Head
  deriving DecidableEq, Repr

/-- What the allocator returns for a block and for its node in a tree; the memory of a block may
hold anything, also where it will say that the block is used. -/
structure NewBlock where
  block : Option Bool
  node : Bool

/-- What the allocator returns for the head of a list of free blocks, for its node in a tree, and
for an element of the list. -/
structure NewFree where
  head : Bool
  node : Bool
  elem : Bool

/-- The compare function of the trees. -/
def coarseRavlComp {Item : Type} (key : Item → Nat) (lhs rhs : Item) : Ordering :=
  compare (key lhs) (key rhs)

/-- The order of the blocks. -/
abbrev byData : Block → Block → Ordering := coarseRavlComp Block.data

/-- The order of the lists of free blocks. -/
abbrev bySize : Head → Head → Ordering := coarseRavlComp Head.size

/-- What a block at an address is searched for with. -/
def atData (data : Nat) : Block := ⟨data, 0, false, false⟩

/-- What a list for a size is searched for with. -/
def ofSize (size : Nat) : Head := ⟨size, []⟩

/-- Change the block at an address. -/
def setBlock (data : Nat) (change : Block → Block) (blocks : List Block) : List Block :=
  modify byData (atData data) change blocks

/-- Change the list of free blocks of a size. -/
def setHead (size : Nat) (head : List Nat) (free : List Head) : List Head :=
  modify bySize (ofSize size) (fun other => { other with head := head }) free

/-- Is a block inside of an upstream block? -/
def isOriginOfBlock (origin block : Block) : Bool :=
  origin.data ≤ block.data && block.data + block.size ≤ origin.data + origin.size

/-- Are two blocks inside of the same upstream block? There is no result where the assertion fails
that the first one is inside of an upstream block. -/
def isSameOrigin (upstreamBlocks : List Block) (block1 block2 : Block) : Option Bool :=
  match floor byData (atData block1.data) upstreamBlocks with
  | none => none
  | some origin1 =>
    if isOriginOfBlock origin1 block1 then some (isOriginOfBlock origin1 block2) else none

/-- Add a new block to a tree; there is no tree where there is no memory, and no result where an
assertion fails. -/
def coarseRavlAddNew (rtree : List Block) (data size : Nat) (memory : NewBlock) :
    Option (Option (List Block)) :=
  -- The assertions are on the address, on the size, and that the address is not in the tree yet.
  if data = 0 || size = 0 then none
  else
    match memory.block with
    | none => some none
    | some used =>
      if (lookup byData (atData data) rtree).isSome then none
      else if memory.node then some (some (insert byData ⟨data, size, used, false⟩ rtree))
      else some none

/-- The size of a block that a pointer is to. -/
def blockSize (blocks : List Block) (data : Nat) : Nat :=
  (lookup byData (atData data) blocks).elim 0 Block.size

/-- Take the first block of a list if its size is aligned. -/
def nodeListRmFirst (blocks : List Block) (head : List Nat) (alignment : Nat) :
    Option Nat × List Nat :=
  match head with
  | [] => (none, [])
  | node :: next =>
    -- It is the size of the block that is tested, not its address.
    if isAligned (blockSize blocks node) alignment then (some node, next) else (none, head)

/-- Take the first block of a list whose size is aligned. -/
def nodeListRmWithAlignment (blocks : List Block) (head : List Nat) (alignment : Nat) :
    Option Nat × List Nat :=
  match head.find? fun node => isAligned (blockSize blocks node) alignment with
  | none => (none, head)
  | some node => (some node, head.erase node)

/-- Take a block of a list whose size is aligned, if there is one among those that are looked at. -/
def nodeListRm (blocks : List Block) (head : List Nat) (alignment : Nat)
    (checkBlocks : CheckFreeBlocks) : Option Nat × List Nat :=
  match checkBlocks with
  | .onlyTheFirstBlock => nodeListRmFirst blocks head alignment
  | .allBlocksOfSize => nodeListRmWithAlignment blocks head alignment

/-- Add a block to the list of free blocks of its size, and tell whether there was memory for it. -/
def freeBlocksAdd (freeBlocks : List Head) (data size : Nat) (memory : NewFree) :
    Bool × List Head :=
  match lookup bySize (ofSize size) freeBlocks with
  | some head =>
    -- A new element goes to the front of the list.
    if memory.elem then (true, setHead size (data :: head.head) freeBlocks) else (false, freeBlocks)
  | none =>
    if memory.head && memory.node then
      if memory.elem then (true, insert bySize ⟨size, [data]⟩ freeBlocks)
      -- The new list stays in the tree without an element.
      else (false, insert bySize ⟨size, []⟩ freeBlocks)
    else (false, freeBlocks)

/-- What is left of the lists when one has changed: an empty one is removed. -/
def leaveHead (freeBlocks : List Head) (size : Nat) (head : List Nat) : List Head :=
  if head = [] then erase bySize (ofSize size) freeBlocks else setHead size head freeBlocks

/-- Take a free block from the list of the first size that is not less. -/
def freeBlocksRmGe (blocks : List Block) (freeBlocks : List Head) (size alignment : Nat)
    (checkBlocks : CheckFreeBlocks) : Option Nat × List Head :=
  match ceiling bySize (ofSize size) freeBlocks with
  | none => (none, freeBlocks)
  | some head =>
    let taken := nodeListRm blocks head.head alignment checkBlocks
    (taken.1, leaveHead freeBlocks head.size taken.2)

/-- Take a block out of the list of free blocks of its size; there is no result where the assertion
fails that there is one. -/
def freeBlocksRmNode (freeBlocks : List Head) (data size : Nat) : Option (List Head) :=
  match lookup bySize (ofSize size) freeBlocks with
  | none => none
  | some head => some (leaveHead freeBlocks size (head.head.erase data))

/-- Take a block out of its list if it is in one. -/
def unlist (freeBlocks : List Head) (block : Block) : Option (List Head) :=
  if block.listed then freeBlocksRmNode freeBlocks block.data block.size else some freeBlocks

/-- Merge two neighbours if they are used or not, as it is asked for, and lie one behind the other
in the same upstream block; tell whether they have been merged. -/
def userBlockMerge (provider : Provider) (block1 block2 : Block) (used : Bool) :
    Option (Bool × Provider) :=
  let sameUsed := block1.used = used && block2.used = used
  let contiguousData := block1.data + block1.size = block2.data
  match isSameOrigin provider.upstreamBlocks block1 block2 with
  | none => none
  | some sameOrigin =>
    -- Nothing is changed where one of the conditions is missing.
    if !sameUsed || !contiguousData || !sameOrigin then some (false, provider)
    else do
      let freeBlocks ← unlist provider.freeBlocks block1
      let freeBlocks ← unlist freeBlocks block2
      -- The first block has the whole size now, and is in no list yet.
      let allBlocks := setBlock block1.data
        (fun block => { block with size := block.size + block2.size, listed := false })
        provider.allBlocks
      some (true, { provider with
        freeBlocks := freeBlocks
        allBlocks := erase byData (atData block2.data) allBlocks })

/-- Merge a free block with the previous one if that is possible; the block that it is part of then
is returned. -/
def freeBlockMergeWithPrev (provider : Provider) (data : Nat) : Option (Nat × Provider) :=
  match previous byData (atData data) provider.allBlocks,
    lookup byData (atData data) provider.allBlocks with
  | some prev, some block =>
    (userBlockMerge provider prev block false).map fun (merged, provider) =>
      (if merged then prev.data else data, provider)
  | _, _ => some (data, provider)

/-- Merge a free block with the next one if that is possible. -/
def freeBlockMergeWithNext (provider : Provider) (data : Nat) : Option (Nat × Provider) :=
  match lookup byData (atData data) provider.allBlocks,
    next byData (atData data) provider.allBlocks with
  | some block, some next =>
    (userBlockMerge provider block next false).map fun (_, provider) => (data, provider)
  | _, _ => some (data, provider)

/-- Merge two upstream blocks that lie one behind the other, if the upstream provider allows it. -/
def upstreamBlockMerge (provider : Provider) (block1 block2 : Block) (allowed : Bool) :
    Bool × Provider :=
  if provider.upstreamMemoryProvider && block1.data + block1.size = block2.data && allowed then
    let upstreamBlocks := setBlock block1.data
      (fun block => { block with size := block.size + block2.size }) provider.upstreamBlocks
    (true, { provider with
      upstreamBlocks := erase byData (atData block2.data) upstreamBlocks })
  else (false, provider)

/-- Merge an upstream block with the previous one if that is possible. -/
def upstreamBlockMergeWithPrev (provider : Provider) (data : Nat) (allowed : Bool) :
    Nat × Provider :=
  match previous byData (atData data) provider.upstreamBlocks,
    lookup byData (atData data) provider.upstreamBlocks with
  | some prev, some block =>
    match upstreamBlockMerge provider prev block allowed with
    | (true, provider) => (prev.data, provider)
    | (false, provider) => (data, provider)
  | _, _ => (data, provider)

/-- Merge an upstream block with the next one if that is possible. -/
def upstreamBlockMergeWithNext (provider : Provider) (data : Nat) (allowed : Bool) :
    Nat × Provider :=
  match lookup byData (atData data) provider.upstreamBlocks,
    next byData (atData data) provider.upstreamBlocks with
  | some block, some next => (data, (upstreamBlockMerge provider block next allowed).2)
  | _, _ => (data, provider)

/-- The sum of the sizes of blocks, which is computed as a word. -/
def sumSizes (blocks : List Block) : Nat := (blocks.map Block.size).sum % sizeRange

/-- May a block not be merged with the next one, as far as the provider has to merge them? -/
def debugApart (upstreamBlocks : List Block) (block next : Block) : Bool :=
  -- Two free blocks may touch each other only in different upstream blocks.
  if !block.used && !next.used && block.data + block.size = next.data then
    isSameOrigin upstreamBlocks block next = some false
  else true

/-- What is verified of a block and of its neighbours. -/
def debugVerifyAllBlocks (provider : Provider) (block : Block) : Bool :=
  let blockNext := next byData (atData block.data) provider.allBlocks
  let blockPrev := previous byData (atData block.data) provider.allBlocks
  block.data ≠ 0 && 0 < block.size &&
    blockPrev.all (fun prev => debugApart provider.upstreamBlocks prev block) &&
    blockNext.all (fun next => debugApart provider.upstreamBlocks block next) &&
    blockPrev.all (fun prev => prev.data < block.data) &&
    blockNext.all (fun next => block.data < next.data && block.data + block.size ≤ next.data)

/-- What is verified of an upstream block and of its neighbours. -/
def debugVerifyUpstreamBlocks (provider : Provider) (alloc : Block) : Bool :=
  let allocNext := next byData (atData alloc.data) provider.upstreamBlocks
  let allocPrev := previous byData (atData alloc.data) provider.upstreamBlocks
  alloc.data ≠ 0 && 0 < alloc.size && allocPrev.all (fun prev => prev.data < alloc.data) &&
    allocNext.all (fun next => alloc.data < next.data && alloc.data + alloc.size ≤ next.data)

/-- The number of the free blocks in the lists; there is no result where the assertion fails that
none of them is empty. -/
def countFree (freeBlocks : List Head) : Option Nat :=
  if freeBlocks.any fun head => head.head = [] then none
  else some (freeBlocks.map fun head => head.head.length).sum

/-- Is the provider as it has to be? -/
def debugCheck (provider : Provider) : Bool :=
  provider.allBlocks.all (debugVerifyAllBlocks provider) &&
    countFree provider.freeBlocks = some (provider.allBlocks.countP fun block => !block.used) &&
    sumSizes (provider.allBlocks.filter Block.used) = provider.usedSize &&
    sumSizes provider.allBlocks = provider.allocSize &&
    provider.usedSize ≤ provider.allocSize &&
    provider.upstreamBlocks.all (debugVerifyUpstreamBlocks provider) &&
    sumSizes provider.upstreamBlocks = provider.allocSize

/-- What the allocator and the upstream provider answer when an upstream block is added. -/
structure UpstreamMemory where
  alloc : NewBlock
  block : NewBlock
  mergePrev : Bool
  mergeNext : Bool

/-- Add an upstream block, which is used, and merge it with its neighbours. -/
def coarseAddUpstreamBlock (provider : Provider) (addr size : Nat) (memory : UpstreamMemory) :
    Option (Result × Provider) :=
  match coarseRavlAddNew provider.upstreamBlocks addr size memory.alloc with
  | none => none
  | some none => some (.outOfHostMemory, provider)
  | some (some upstreamBlocks) =>
    match coarseRavlAddNew provider.allBlocks addr size memory.block with
    | none => none
    -- The upstream block is taken out of its tree again.
    | some none => some (.outOfHostMemory, { provider with
        upstreamBlocks := erase byData (atData addr) upstreamBlocks })
    | some (some allBlocks) =>
      let provider := { provider with upstreamBlocks := upstreamBlocks, allBlocks := allBlocks }
      -- Only upstream blocks are merged: the new block itself keeps its size.
      let (alloc, provider) := upstreamBlockMergeWithPrev provider addr memory.mergePrev
      let (_, provider) := upstreamBlockMergeWithNext provider alloc memory.mergeNext
      some (.success, { provider with
        allBlocks := setBlock addr (fun block => { block with used := true }) provider.allBlocks
        allocSize := addWord provider.allocSize size
        usedSize := addWord provider.usedSize size })

/-- Put a block into the list of free blocks of its size; there is no provider where there is no
memory for it. -/
def listBlock (provider : Provider) (data : Nat) (memory : NewFree) : Bool × Provider :=
  let size := blockSize provider.allBlocks data
  let (added, freeBlocks) := freeBlocksAdd provider.freeBlocks data size memory
  (added, { provider with
    freeBlocks := freeBlocks
    allBlocks := setBlock data (fun block => { block with listed := added }) provider.allBlocks })

/-- What the allocator and the upstream provider answer to an allocation. -/
structure AllocMemory where
  aligned : NewBlock
  padding : NewFree
  rest : NewBlock
  restFree : NewFree
  /-- What the result is after the upstream provider has been asked. -/
  ptr : Nat
  upstream : UpstreamMemory

/-- Cut off the part of a block in front of the first aligned address; the aligned block is
returned, unless there is no memory for it. -/
def createAlignedBlock (provider : Provider) (origSize alignment : Nat) (curr : Block)
    (memory : AllocMemory) : Option (Option Nat × Provider) :=
  let padding := subWord (alignUp curr.data alignment) curr.data
  let aligned := addWord curr.data padding
  let size := subWord curr.size padding
  if 0 < alignment && 0 < padding then
    -- The new block is the aligned part, and the old one is what is in front of it.
    match coarseRavlAddNew provider.allBlocks aligned size memory.aligned with
    | none => none
    | some none => some (none, provider)
    | some (some allBlocks) =>
      let provider := { provider with
        allBlocks := setBlock curr.data
          (fun block => { block with used := false, size := padding }) allBlocks }
      -- Where that part cannot be listed, the blocks stay cut, and an error is returned.
      match listBlock provider curr.data memory.padding with
      | (false, provider) => some (none, provider)
      | (true, provider) => if origSize ≤ size then some (some aligned, provider) else none
  else some (some curr.data, provider)

/-- Cut off the part of a block that is not needed, and tell whether there was memory for it. -/
def splitCurrentBlock (provider : Provider) (curr size : Nat) (memory : AllocMemory) :
    Option (Bool × Provider) :=
  let currSize := blockSize provider.allBlocks curr
  match coarseRavlAddNew provider.allBlocks (curr + size) (currSize - size) memory.rest with
  | none => none
  | some none => some (false, provider)
  | some (some allBlocks) =>
    -- The block in front still has its old size, which the caller changes.
    let provider := { provider with
      allBlocks := setBlock (curr + size) (fun block => { block with used := false }) allBlocks }
    some (listBlock provider (curr + size) memory.restFree)

/-- Take a free block for a size and an alignment. -/
def findFreeBlock (blocks : List Block) (freeBlocks : List Head) (size alignment : Nat)
    (allocationStrategy : Strategy) : Option Nat × List Head :=
  -- The sum of the sizes is computed as a word.
  let fastest := fun freeBlocks => freeBlocksRmGe blocks freeBlocks
    ((size + alignment) % sizeRange) 0 .onlyTheFirstBlock
  let first := fun checkBlocks =>
    match freeBlocksRmGe blocks freeBlocks size alignment checkBlocks with
    | (some block, freeBlocks) => (some block, freeBlocks)
    | (none, freeBlocks) => fastest freeBlocks
  match allocationStrategy with
  -- A block for the size and the alignment together has an aligned part in any case.
  | .fastest => fastest freeBlocks
  | .fastestButOne => first .onlyTheFirstBlock
  | .checkAllSize => first .allBlocksOfSize

/-- Use a block for an allocation. -/
def useBlock (provider : Provider) (curr size : Nat) : Option (Result × Nat × Provider) :=
  let provider := { provider with
    allBlocks := setBlock curr (fun block => { block with used := true }) provider.allBlocks
    usedSize := addWord provider.usedSize size }
  if debugCheck provider then some (.success, curr, provider) else none

/-- Allocate from a free block that has been taken from its list. -/
def allocFrom (provider : Provider) (curr : Block) (size alignment : Nat) (memory : AllocMemory) :
    Option (Result × Nat × Provider) :=
  if curr.used then none
  else
    -- The alignment of zero is that of any address.
    match (if 0 < alignment then createAlignedBlock provider size alignment curr memory
      else some (some curr.data, provider)) with
    | none => none
    | some (none, provider) => some (.outOfHostMemory, 0, provider)
    | some (some current, provider) =>
      -- Whether the block is split has been decided before its aligned part has been cut off.
      if size < curr.size then
        match splitCurrentBlock provider current size memory with
        | none => none
        | some (false, provider) => some (.outOfHostMemory, 0, provider)
        | some (true, provider) =>
          let allBlocks := setBlock current (fun block => { block with size := size })
            provider.allBlocks
          useBlock { provider with allBlocks := allBlocks } current size
      else useBlock provider current size

/-- Allocate from the upstream provider. The address is also returned where there is no memory for
the block, which is given back then. -/
def allocUpstream (provider : Provider) (size alignment : Nat) (memory : AllocMemory) :
    Option (Result × Nat × Provider) :=
  let checked := fun (result : Result) (ptr : Nat) (provider : Provider) =>
    if debugCheck provider then some (result, ptr, provider) else none
  if !provider.upstreamMemoryProvider || memory.ptr = 0 then checked .outOfHostMemory 0 provider
  -- The assertion is on the address that has been returned.
  else if !isAligned memory.ptr alignment then none
  else
    match coarseAddUpstreamBlock provider memory.ptr size memory.upstream with
    | none => none
    | some (result, provider) => checked result memory.ptr provider

/-- Allocate a block: there is no result where an assertion fails. The address is zero where none is
returned. -/
def alloc (provider : Provider) (size alignment : Nat) (memory : AllocMemory) :
    Option (Result × Nat × Provider) :=
  if !debugCheck provider then none
  else
    match findFreeBlock provider.allBlocks provider.freeBlocks size alignment
      provider.allocationStrategy with
    | (none, freeBlocks) =>
      -- Where nothing is found, the lists may still have lost an empty one.
      allocUpstream { provider with freeBlocks := freeBlocks } size alignment memory
    | (some data, freeBlocks) =>
      let allBlocks := setBlock data (fun block => { block with listed := false })
        provider.allBlocks
      let provider := { provider with freeBlocks := freeBlocks, allBlocks := allBlocks }
      match lookup byData (atData data) allBlocks with
      | none => none
      | some curr =>
        -- A block that is too small is neither used nor put back.
        if curr.size < size then allocUpstream provider size alignment memory
        else allocFrom provider curr size alignment memory

/-- Free a block, and merge it with its neighbours. -/
def free (provider : Provider) (ptr bytes : Nat) (memory : NewFree) :
    Option (Result × Provider) :=
  if !debugCheck provider then none
  else
    match lookup byData (atData ptr) provider.allBlocks with
    | none => some (.unknown, provider)
    | some block =>
      if !block.used then some (.invalidArgument, provider)
      -- A size of zero stands for the size that the block has.
      else if 0 < bytes && bytes ≠ block.size then some (.invalidArgument, provider)
      else if provider.usedSize < block.size then none
      else do
        let provider := { provider with
          usedSize := provider.usedSize - block.size
          allBlocks := setBlock ptr (fun block => { block with used := false })
            provider.allBlocks }
        -- The node that is listed may be that of the previous block.
        let (node, provider) ← freeBlockMergeWithPrev provider ptr
        let (node, provider) ← freeBlockMergeWithNext provider node
        match listBlock provider node memory with
        | (false, provider) => some (.outOfHostMemory, provider)
        | (true, provider) => if debugCheck provider then some (.success, provider) else none

/-- A result after which the provider is checked. -/
def checkedResult (result : Result) (provider : Provider) : Option (Result × Provider) :=
  if debugCheck provider then some (result, provider) else none

/-- Split a used block in two. -/
def allocationSplit (provider : Provider) (ptr totalSize firstSize : Nat) (memory : NewBlock) :
    Option (Result × Provider) :=
  -- The arguments are checked before the lock is taken, and the provider after it.
  if ptr = 0 || totalSize ≤ firstSize || firstSize = 0 then some (.invalidArgument, provider)
  else if !debugCheck provider then none
  else
    match lookup byData (atData ptr) provider.allBlocks with
    | none => checkedResult .invalidArgument provider
    | some block =>
      if block.size ≠ totalSize then checkedResult .invalidArgument provider
      else if !block.used then checkedResult .invalidArgument provider
      else
        match coarseRavlAddNew provider.allBlocks (block.data + firstSize)
          (block.size - firstSize) memory with
        | none => none
        | some none => checkedResult .outOfHostMemory provider
        | some (some allBlocks) =>
          -- The old block is the first part, and the new one is used like it.
          let allBlocks := setBlock ptr (fun block => { block with size := firstSize }) allBlocks
          let allBlocks := setBlock (block.data + firstSize)
            (fun block => { block with used := true }) allBlocks
          checkedResult .success { provider with allBlocks := allBlocks }

/-- Merge two used blocks that lie one behind the other. -/
def allocationMerge (provider : Provider) (lowPtr highPtr totalSize : Nat) :
    Option (Result × Provider) :=
  if lowPtr = 0 || highPtr = 0 || highPtr ≤ lowPtr || totalSize ≤ highPtr - lowPtr then
    some (.invalidArgument, provider)
  else if !debugCheck provider then none
  else
    match lookup byData (atData lowPtr) provider.allBlocks with
    | none => checkedResult .invalidArgument provider
    | some lowBlock =>
      if !lowBlock.used then checkedResult .invalidArgument provider
      else
        match lookup byData (atData highPtr) provider.allBlocks with
        | none => checkedResult .invalidArgument provider
        | some highBlock =>
          if !highBlock.used then checkedResult .invalidArgument provider
          -- The two have to be neighbours, seen from either side.
          else if next byData (atData lowPtr) provider.allBlocks ≠ some highBlock then
            checkedResult .invalidArgument provider
          else if previous byData (atData highPtr) provider.allBlocks ≠ some lowBlock then
            checkedResult .invalidArgument provider
          else if (lowBlock.size + highBlock.size) % sizeRange ≠ totalSize then
            checkedResult .invalidArgument provider
          else if highPtr ≠ lowPtr + lowBlock.size then checkedResult .invalidArgument provider
          else
            match userBlockMerge provider lowBlock highBlock true with
            | none => none
            | some (false, provider) => checkedResult .invalidArgument provider
            | some (true, provider) => checkedResult .success provider

/-- What a provider is made of: an upstream provider or a buffer. -/
structure Params where
  upstreamMemoryProvider : Bool
  disableUpstreamProviderFree : Bool
  allocationStrategy : Strategy
  initBuffer : Nat
  initBufferSize : Nat
  immediateInitFromUpstream : Bool
  destroyUpstreamMemoryProvider : Bool

/-- May a provider be made of the parameters? -/
def paramsValid (params : Params) : Bool :=
  (params.upstreamMemoryProvider != (params.initBuffer != 0)) &&
    !(params.initBufferSize = 0 && (params.immediateInitFromUpstream || params.initBuffer ≠ 0)) &&
    !(params.initBufferSize ≠ 0 && !params.immediateInitFromUpstream && params.initBuffer = 0) &&
    !(params.destroyUpstreamMemoryProvider && !params.upstreamMemoryProvider)

/-- What the allocator, the upstream provider and the system answer when a provider is made. -/
structure InitMemory where
  /-- Is there memory for the provider? -/
  provider : Bool
  /-- Does the upstream provider tell its name? -/
  upstreamName : Bool
  /-- Is there memory for the name? -/
  name : Bool
  /-- Is there memory for the trees? -/
  trees : Bool
  /-- Is the lock made? -/
  lock : Bool
  alloc : AllocMemory
  free : NewFree

/-- A provider without memory. -/
def emptyProvider (params : Params) : Provider where
  upstreamMemoryProvider := params.upstreamMemoryProvider
  disableUpstreamProviderFree := params.upstreamMemoryProvider && params.disableUpstreamProviderFree
  allocationStrategy := params.allocationStrategy
  usedSize := 0
  allocSize := 0
  upstreamBlocks := []
  allBlocks := []
  freeBlocks := []

/-- Give a provider the name of its upstream provider, if there is one. -/
def coarseSetName (params : Params) (memory : InitMemory) : Result :=
  if !params.upstreamMemoryProvider then .success
  else if !memory.upstreamName then .unknown
  else if !memory.name then .outOfHostMemory
  else .success

/-- Make a provider, with what is allocated at once from the upstream provider, or with a buffer:
there is no result where an assertion fails. -/
def coarseInitialize (params : Params) (memory : InitMemory) : Option (Result × Option Provider) :=
  let umfResult := coarseSetName params memory
  if !paramsValid params then some (.invalidArgument, none)
  else if !memory.provider then some (.outOfHostMemory, none)
  else if umfResult ≠ .success then some (umfResult, none)
  else if !memory.trees then some (.outOfHostMemory, none)
  -- The result is not set where the lock is not made: it is still that of the name.
  else if !memory.lock then some (umfResult, none)
  else
    let provider := emptyProvider params
    let ready := fun (provider : Provider) =>
      if provider.usedSize = 0 && provider.allocSize = params.initBufferSize && debugCheck provider
      then some (.success, some provider)
      else none
    if params.upstreamMemoryProvider && params.immediateInitFromUpstream then do
      let (_, initBuffer, provider) ← alloc provider params.initBufferSize 0 memory.alloc
      if initBuffer = 0 then some (.outOfHostMemory, none)
      else
        let (_, provider) ← free provider initBuffer params.initBufferSize memory.free
        ready provider
    -- The buffer is added as an upstream block and freed at once, like what has been allocated.
    else if params.initBuffer ≠ 0 then do
      let (result, provider) ← coarseAddUpstreamBlock provider params.initBuffer
        params.initBufferSize memory.alloc.upstream
      if result ≠ .success then some (result, none)
      else
        let (_, provider) ← free provider params.initBuffer params.initBufferSize memory.free
        ready provider
    else ready provider

/-- Take the blocks of a provider apart, one after another. -/
def rmAllBlocks (provider : Provider) : List Block → Option Provider
  | [] => some provider
  | block :: rest => do
    let usedSize ←
      -- A used block is still counted, and a free one is still listed.
      if block.used then
        if provider.usedSize < block.size then none else some (provider.usedSize - block.size)
      else some provider.usedSize
    let freeBlocks ← unlist provider.freeBlocks block
    rmAllBlocks { provider with usedSize := usedSize, freeBlocks := freeBlocks } rest

/-- Take the upstream blocks of a provider apart; those that are freed are returned. -/
def rmUpstreamBlocks (provider : Provider) : List Block → Option (List (Nat × Nat) × Provider)
  | [] => some ([], provider)
  | alloc :: rest =>
    if provider.allocSize < alloc.size then none
    else do
      let provider := { provider with allocSize := provider.allocSize - alloc.size }
      let (freed, provider) ← rmUpstreamBlocks provider rest
      -- The memory is given back if there is an upstream provider that takes it.
      if provider.upstreamMemoryProvider && !provider.disableUpstreamProviderFree then
        some ((alloc.data, alloc.size) :: freed, provider)
      else some (freed, provider)

/-- Destroy a provider; the blocks that are given back to the upstream provider are returned. There
is no result where an assertion fails. -/
def coarseFinalize (provider : Provider) : Option (List (Nat × Nat)) := do
  let provider ← rmAllBlocks provider provider.allBlocks
  if provider.usedSize ≠ 0 then none
  else
    let (freed, provider) ← rmUpstreamBlocks provider provider.upstreamBlocks
    if provider.allocSize ≠ 0 then none else some freed

end SecretTyping.Umf.Coarse
