import SecretTyping.Lib.Segments
import SecretTyping.Umf.CoarseLists

/-! The blocks of a provider: how they have to lie, and that this is what is checked. -/

namespace SecretTyping.Umf.Coarse

open Sorted Segments

/-- The blocks lie one behind the other; none of them is empty or at the address zero. -/
structure Layout (blocks : List Block) : Prop where
  apart : Apart Block.data Block.size blocks
  nonzero : ∀ block ∈ blocks, 0 < block.data ∧ 0 < block.size

/-- The sum of the sizes of blocks, as a number. -/
def total (blocks : List Block) : Nat := (blocks.map Block.size).sum

/-- What is in the lists of free blocks for the blocks that are listed. -/
def listedEntries (blocks : List Block) : List (Nat × Nat) :=
  (blocks.filter Block.listed).map fun block => (block.size, block.data)

/-- The address is inside of an upstream block, and not at its edge. -/
def Joint (upstreamBlocks : List Block) (address : Nat) : Prop :=
  ∃ origin ∈ upstreamBlocks, origin.data < address ∧ address < origin.data + origin.size

/-- Two blocks, used or not, that lie one behind the other in the same upstream block. -/
structure Mergeable (upstreamBlocks : List Block) (used : Bool) (block next : Block) : Prop where
  first : block.used = used
  second : next.used = used
  contiguous : block.data + block.size = next.data
  joint : Joint upstreamBlocks next.data

/-- The blocks are parts of the upstream blocks, and those that are listed are in the lists. -/
structure Shape (provider : Provider) : Prop where
  blocks : Layout provider.allBlocks
  upstream : Layout provider.upstreamBlocks
  bounded : ∀ origin ∈ provider.upstreamBlocks, origin.data + origin.size < sizeRange
  inside : ∀ block ∈ provider.allBlocks, ∃ origin ∈ provider.upstreamBlocks,
    origin.data ≤ block.data ∧ block.data + block.size ≤ origin.data + origin.size
  sizes : total provider.allBlocks = provider.allocSize
  upstreamSizes : total provider.upstreamBlocks = provider.allocSize
  lists : Lists provider.freeBlocks
  listed : (entries provider.freeBlocks).Perm (listedEntries provider.allBlocks)

/-- Exactly the free blocks are listed, and those that can be merged have been. -/
structure Consistent (provider : Provider) : Prop extends Shape provider where
  flags : ∀ block ∈ provider.allBlocks, block.listed = !block.used
  merged : ∀ block ∈ provider.allBlocks, ∀ next ∈ provider.allBlocks,
    ¬Mergeable provider.upstreamBlocks false block next
  usedSizes : total (provider.allBlocks.filter Block.used) = provider.usedSize

variable {blocks before after old new : List Block} {block a b : Block} {data : Nat}

section Layout

/-- Blocks are in the order of their addresses. -/
theorem Layout.ascending (layout : Layout blocks) : Ascending byData blocks := by
  -- A block ends behind its address, and the next ones begin there or later.
  refine List.Pairwise.imp_of_mem ?_ layout.apart
  intro first second member _ apart
  have nonzero := layout.nonzero first member
  exact coarseRavlComp_lt.mpr (by omega)

/-- A list of blocks is cut at each of them. -/
theorem cut_at (order : Ascending byData (before ++ block :: after)) :
    Cut byData (atData block.data) before (some block) after :=
  cut_of_mem order (coarseRavlComp_eq.mpr rfl)

/-- A block is found at its address. -/
theorem lookup_at (order : Ascending byData (before ++ block :: after)) :
    lookup byData (atData block.data) (before ++ block :: after) = some block :=
  (cut_at order).lookup

/-- The next block is the first one behind. -/
theorem next_at (order : Ascending byData (before ++ block :: after)) :
    next byData (atData block.data) (before ++ block :: after) = after.head? :=
  (cut_at order).next

/-- The previous block is the last one in front. -/
theorem previous_at (order : Ascending byData (before ++ block :: after)) :
    previous byData (atData block.data) (before ++ block :: after) = before.getLast? :=
  (cut_at order).previous

/-- The block at an address is changed where it is. -/
theorem setBlock_at (order : Ascending byData (before ++ block :: after))
    (change : Block → Block) :
    setBlock block.data change (before ++ block :: after) = before ++ change block :: after :=
  (cut_at order).modify change

/-- The block at an address is erased where it is. -/
theorem erase_at (order : Ascending byData (before ++ block :: after)) :
    erase byData (atData block.data) (before ++ block :: after) = before ++ after :=
  (cut_at order).erase

/-- Blocks stay in order if one of them changes but not its address. -/
theorem ascending_change (order : Ascending byData (before ++ block :: after)) (changed : Block)
    (stays : changed.data = block.data) :
    Ascending byData (before ++ changed :: after) := by
  -- It is where it would be inserted.
  have cut := cut_at order
  have place : Cut byData changed before (some block) after := by
    refine ⟨fun other member => ?_, fun other member => ?_, fun other member => ?_⟩
    · exact coarseRavlComp_gt.mpr (stays ▸ coarseRavlComp_gt.mp (cut.less other member))
    · exact coarseRavlComp_eq.mpr (stays ▸ coarseRavlComp_eq.mp (cut.equal other member))
    · exact coarseRavlComp_lt.mpr (stays ▸ coarseRavlComp_lt.mp (cut.greater other member))
  have inserted : Ascending byData (insert byData changed (joined before (some block) after)) :=
    ascending_insert order changed
  rwa [place.insert] at inserted

/-- A block is changed, and the one behind it is erased. -/
theorem merge_at (order : Ascending byData (before ++ a :: b :: after))
    (change : Block → Block) (stays : (change a).data = a.data) :
    erase byData (atData b.data) (setBlock a.data change (before ++ a :: b :: after)) =
      before ++ change a :: after := by
  have changed := ascending_change order (change a) stays
  -- The second block is erased where it is, which the change of the first one does not matter for.
  rw [setBlock_at order, List.append_cons]
  rw [List.append_cons] at changed
  rw [erase_at changed, ← List.append_cons]

/-- The block that is found at an address is one of them. -/
theorem exists_of_lookup (found : Sorted.lookup byData (atData data) blocks = some block) :
    block.data = data ∧ ∃ before after, blocks = before ++ block :: after := by
  obtain ⟨member, equal⟩ := mem_of_lookup found
  exact ⟨(coarseRavlComp_eq.mp equal).symm, List.append_of_mem member⟩

/-- Two blocks that have an address in common are the same. -/
theorem Layout.eq_of_common (layout : Layout blocks) (address : Nat) (first : a ∈ blocks)
    (second : b ∈ blocks) (inFirst : a.data ≤ address ∧ address < a.data + a.size)
    (inSecond : b.data ≤ address ∧ address < b.data + b.size) : a = b :=
  layout.apart.eq_of_common first second inFirst inSecond

/-- The other blocks end before a block begins, or begin behind its end. -/
theorem Layout.beside {other : Block} (layout : Layout (before ++ block :: after))
    (member : other ∈ before ++ after) :
    other.data + other.size ≤ block.data ∨ block.data + block.size ≤ other.data := by
  -- Another block is in front or behind.
  obtain ⟨-, right, across⟩ := List.pairwise_append.mp layout.apart
  rcases List.mem_append.mp member with early | late
  · exact Or.inl (across other early block List.mem_cons_self)
  · exact Or.inr ((List.pairwise_cons.mp right).1 other late)

/-- Blocks may be exchanged for others that fill the same range. -/
theorem Layout.exchange {low high : Nat} (layout : Layout (before ++ (old ++ after)))
    (fillsOld : Fills Block.data Block.size old low high)
    (fillsNew : Fills Block.data Block.size new low high) (some : old ≠ []) :
    Layout (before ++ (new ++ after)) := by
  refine ⟨layout.apart.exchange fillsOld fillsNew some, fun block member => ?_⟩
  -- The new blocks begin where the first of the old ones does, or later.
  have positive : 0 < low := by
    cases old with
    | nil => exact absurd rfl some
    | cons first rest =>
      rw [← fillsOld.1]
      exact (layout.nonzero first (List.mem_append_right _ List.mem_cons_self)).1
  -- A block is one in front, a new one, or one behind.
  rcases List.mem_append.mp member with inside | inside
  · exact layout.nonzero block (List.mem_append_left _ inside)
  · rcases List.mem_append.mp inside with inside | inside
    · have begins := fillsNew.inside.2 block inside
      exact ⟨by omega, fillsNew.positive block inside⟩
    · exact layout.nonzero block (List.mem_append_right _ (List.mem_append_right _ inside))

end Layout

/-- The sum of the sizes of blocks that are appended. -/
@[simp] theorem total_append (first second : List Block) :
    total (first ++ second) = total first + total second := by
  rw [total, List.map_append, List.sum_append]
  rfl

/-- The sum of the sizes of a block and of others. -/
@[simp] theorem total_cons (block : Block) (rest : List Block) :
    total (block :: rest) = block.size + total rest := rfl

/-- There is nothing to sum up for no blocks. -/
@[simp] theorem total_nil : total [] = 0 := rfl

/-- The sizes of some of the blocks sum up to no more than those of all. -/
theorem total_filter_le (test : Block → Bool) (blocks : List Block) :
    total (blocks.filter test) ≤ total blocks := by
  -- By induction on the blocks, each of which is left out or not.
  induction blocks with
  | nil => exact Nat.le_refl 0
  | cons block rest ih =>
    rw [List.filter_cons]
    split
    · rw [total_cons, total_cons]
      omega
    · rw [total_cons]
      omega

/-- What is in the lists for blocks that are appended. -/
@[simp] theorem listedEntries_append (first second : List Block) :
    listedEntries (first ++ second) = listedEntries first ++ listedEntries second := by
  rw [listedEntries, List.filter_append, List.map_append]
  rfl

/-- What is in the lists for a block and for others. -/
theorem listedEntries_cons (block : Block) (rest : List Block) :
    listedEntries (block :: rest) =
      (if block.listed then [(block.size, block.data)] else []) ++ listedEntries rest := by
  rw [listedEntries, List.filter_cons]
  split <;> rfl

/-- Nothing is in the lists for blocks that are not listed. -/
theorem listedEntries_unlisted (unlisted : ∀ block ∈ blocks, block.listed = false) :
    listedEntries blocks = [] := by
  rw [listedEntries, List.map_eq_nil_iff, List.filter_eq_nil_iff]
  intro block member
  rw [unlisted block member]
  exact Bool.false_ne_true

/-- Nothing is in the lists for no blocks. -/
@[simp] theorem listedEntries_nil : listedEntries [] = [] := rfl

variable {provider : Provider}

/-- The blocks are no larger than the range of addresses. -/
theorem Shape.allocSize_lt (shape : Shape provider) : provider.allocSize < sizeRange := by
  -- The upstream blocks lie one behind the other, from the address one on.
  have sum : 1 + total provider.upstreamBlocks ≤ sizeRange :=
    shape.upstream.apart.sum_le Nat.one_le_two_pow fun origin member =>
      ⟨(shape.upstream.nonzero origin member).1, Nat.le_of_lt (shape.bounded origin member)⟩
  have same := shape.upstreamSizes
  omega

/-- Blocks may be exchanged for others that fill the same range of an upstream block. -/
theorem Shape.exchange (shape : Shape provider) {low high : Nat} {free : List Head} (usedSize : Nat)
    (place : provider.allBlocks = before ++ (old ++ after)) (some : old ≠ [])
    (fillsOld : Fills Block.data Block.size old low high)
    (fillsNew : Fills Block.data Block.size new low high)
    (inside : ∃ origin ∈ provider.upstreamBlocks,
      origin.data ≤ low ∧ high ≤ origin.data + origin.size)
    (lists : Lists free) (listed : (entries free).Perm (listedEntries (before ++ (new ++ after)))) :
    Shape { provider with
      allBlocks := before ++ (new ++ after), freeBlocks := free, usedSize := usedSize } := by
  -- What is said of all blocks is said of those in front and behind.
  have layout := shape.blocks
  have within := shape.inside
  have sizes := shape.sizes
  rw [place] at layout within sizes
  refine ⟨layout.exchange fillsOld fillsNew some, shape.upstream, shape.bounded, ?_, ?_,
    shape.upstreamSizes, lists, listed⟩
  · -- A new block is inside of the upstream block that the range is in.
    intro block member
    rcases List.mem_append.mp member with early | late
    · exact within block (List.mem_append_left _ early)
    · rcases List.mem_append.mp late with middle | late
      · obtain ⟨origin, found, lower, upper⟩ := inside
        have bounds := fillsNew.inside.2 block middle
        exact ⟨origin, found, by omega, by omega⟩
      · exact within block (List.mem_append_right _ (List.mem_append_right _ late))
  · -- The sizes of the old blocks and of the new ones sum up to the same.
    have oldSum : low + total old = high := fillsOld.sum
    have newSum : low + total new = high := fillsNew.sum
    show total (before ++ (new ++ after)) = provider.allocSize
    rw [total_append, total_append] at sizes ⊢
    omega

/-- Two blocks are in the same upstream block if the second one begins in the inside of one, where
the first one ends. -/
theorem Shape.isSameOrigin_spec (shape : Shape provider) (first : a ∈ provider.allBlocks)
    (second : b ∈ provider.allBlocks) :
    ∃ same, isSameOrigin provider.upstreamBlocks a b = some same ∧
      (a.data + a.size = b.data → (same = true ↔ Joint provider.upstreamBlocks b.data)) := by
  obtain ⟨origin, member, lower, upper⟩ := shape.inside a first
  have positive := shape.blocks.nonzero a first
  have layout := shape.upstream
  -- The upstream block of the first one is found, as those behind it begin where it ends, or later.
  obtain ⟨front, behind, place⟩ := List.append_of_mem member
  have found : floor byData (atData a.data) provider.upstreamBlocks = some origin := by
    rw [place] at layout ⊢
    apply floor_of_greater
    · rw [ne_eq, coarseRavlComp_lt]
      exact Nat.not_lt.mpr lower
    · intro other later
      have apart := (List.pairwise_cons.mp (List.pairwise_append.mp layout.apart).2.1).1 other later
      exact coarseRavlComp_lt.mpr (show a.data < other.data by omega)
  have holds : isOriginOfBlock origin a = true := by
    simp [isOriginOfBlock, lower, upper]
  refine ⟨isOriginOfBlock origin b, ?_, fun contiguous => ?_⟩
  · simp [isSameOrigin, found, holds]
  · -- Whether the second block is in it is asked by its two ends.
    have size := shape.blocks.nonzero b second
    rw [isOriginOfBlock, Bool.and_eq_true, decide_eq_true_eq, decide_eq_true_eq]
    apply Iff.intro
    · rintro ⟨below, above⟩
      exact ⟨origin, member, by omega, by omega⟩
    · rintro ⟨other, inside, before, behind⟩
      -- The last address of the first block is in both upstream blocks.
      have same : other = origin :=
        layout.eq_of_common (b.data - 1) inside member (by omega) (by omega)
      obtain ⟨third, home, below, above⟩ := shape.inside b second
      have also : third = other :=
        layout.eq_of_common b.data home inside (by omega) (by omega)
      subst also same
      exact ⟨below, above⟩

/-- What is verified of a block and the next one is that they cannot be merged. -/
theorem Shape.debugApart (shape : Shape provider) (first : a ∈ provider.allBlocks)
    (second : b ∈ provider.allBlocks) (separate : ¬Mergeable provider.upstreamBlocks false a b) :
    debugApart provider.upstreamBlocks a b = true := by
  -- The check only fails if all four conditions hold.
  obtain ⟨same, found, joint⟩ := shape.isSameOrigin_spec first second
  rw [Coarse.debugApart]
  split
  · next condition =>
    simp only [Bool.and_eq_true, Bool.not_eq_true', decide_eq_true_eq] at condition
    obtain ⟨⟨unused, nextUnused⟩, contiguous⟩ := condition
    have different : same = false := by
      rw [← Bool.not_eq_true, joint contiguous]
      exact fun inside => separate ⟨unused, nextUnused, contiguous, inside⟩
    rw [found, different]
    rfl
  · rfl

/-- What is behind a block in front of another one. -/
theorem Layout.lt_of_getLast {prev : Block} (layout : Layout (before ++ block :: after))
    (last : before.getLast? = some prev) : prev.data + prev.size ≤ block.data :=
  (List.pairwise_append.mp layout.apart).2.2 prev (List.mem_of_getLast? last) block
    List.mem_cons_self

/-- A block ends before the next one begins. -/
theorem Layout.lt_of_head {next : Block} (layout : Layout (before ++ block :: after))
    (first : after.head? = some next) : block.data + block.size ≤ next.data :=
  (List.pairwise_cons.mp (List.pairwise_append.mp layout.apart).2.1).1 next
    (List.mem_of_head? first)

/-- What is verified of the blocks holds. -/
theorem Consistent.debugVerifyAllBlocks (consistent : Consistent provider)
    (member : block ∈ provider.allBlocks) : debugVerifyAllBlocks provider block = true := by
  obtain ⟨before, after, place⟩ := List.append_of_mem member
  have layout := consistent.blocks
  rw [place] at layout
  obtain ⟨address, size⟩ := layout.nonzero block (List.mem_append_right _ List.mem_cons_self)
  -- The neighbours are the last block in front and the first one behind.
  have front : ∀ prev, before.getLast? = some prev → prev ∈ provider.allBlocks := fun prev last =>
    place ▸ List.mem_append_left _ (List.mem_of_getLast? last)
  have behind : ∀ next, after.head? = some next → next ∈ provider.allBlocks := fun next first =>
    place ▸ List.mem_append_right _ (List.mem_cons_of_mem _ (List.mem_of_head? first))
  rw [Coarse.debugVerifyAllBlocks, place, next_at layout.ascending, previous_at layout.ascending]
  simp only [Bool.and_eq_true, Option.all_eq_true, decide_eq_true_eq]
  refine ⟨⟨⟨⟨⟨by omega, size⟩, fun prev last => ?_⟩, fun next first => ?_⟩, fun prev last => ?_⟩,
    fun next first => ?_⟩
  · -- It cannot be merged with either of them.
    exact consistent.debugApart (front prev last) member
      (consistent.merged prev (front prev last) block member)
  · exact consistent.debugApart member (behind next first)
      (consistent.merged block member next (behind next first))
  · -- It does not overlap with either of them.
    have ends := layout.lt_of_getLast last
    have nonzero := consistent.blocks.nonzero prev (front prev last)
    omega
  · have ends := layout.lt_of_head first
    omega

/-- What is verified of the upstream blocks holds. -/
theorem Shape.debugVerifyUpstreamBlocks (shape : Shape provider)
    (member : block ∈ provider.upstreamBlocks) :
    debugVerifyUpstreamBlocks provider block = true := by
  -- The neighbours are the last block in front and the first one behind.
  obtain ⟨before, after, place⟩ := List.append_of_mem member
  have layout := shape.upstream
  rw [place] at layout
  obtain ⟨address, size⟩ := layout.nonzero block (List.mem_append_right _ List.mem_cons_self)
  rw [Coarse.debugVerifyUpstreamBlocks, place, next_at layout.ascending,
    previous_at layout.ascending]
  simp only [Bool.and_eq_true, Option.all_eq_true, decide_eq_true_eq]
  refine ⟨⟨⟨by omega, size⟩, fun prev last => ?_⟩, fun next first => ?_⟩
  · have ends := layout.lt_of_getLast last
    have nonzero := layout.nonzero prev (List.mem_append_left _ (List.mem_of_getLast? last))
    omega
  · have ends := layout.lt_of_head first
    omega

/-- The number of blocks in the lists. -/
theorem Shape.countFree (shape : Shape provider) :
    countFree provider.freeBlocks = some (provider.allBlocks.countP Block.listed) := by
  -- None of the lists is empty, and what is in them are the blocks that are listed.
  have filled : (provider.freeBlocks.any fun head => head.head = []) = false := by
    rw [List.any_eq_false]
    intro head member
    simpa using shape.lists.filled head member
  have counted : (provider.freeBlocks.map fun head => head.head.length).sum =
      (entries provider.freeBlocks).length := by
    rw [entries, List.length_flatMap]
    simp [headEntries]
  rw [Coarse.countFree, filled, counted, shape.listed.length_eq, listedEntries, List.length_map,
    List.countP_eq_length_filter]
  rfl

/-- The used blocks are no larger than all blocks. -/
theorem Consistent.usedSize_le (consistent : Consistent provider) :
    provider.usedSize ≤ provider.allocSize := by
  rw [← consistent.usedSizes, ← consistent.sizes]
  exact total_filter_le Block.used provider.allBlocks

/-- The provider is as it has to be. -/
theorem Consistent.debugCheck (consistent : Consistent provider) : debugCheck provider = true := by
  have bound := consistent.allocSize_lt
  have sizes := consistent.sizes
  have upstreamSizes := consistent.upstreamSizes
  have usedSizes := consistent.usedSizes
  have used := consistent.usedSize_le
  -- The blocks that are listed are those that are not used.
  have same : provider.allBlocks.countP Block.listed =
      provider.allBlocks.countP fun block => !block.used := by
    apply List.countP_congr
    intro block member
    rw [consistent.flags block member]
  have sumSizes_eq : ∀ blocks, sumSizes blocks = total blocks % sizeRange := fun _ => rfl
  rw [Coarse.debugCheck, consistent.countFree, same, sumSizes_eq, sumSizes_eq, sumSizes_eq, sizes,
    upstreamSizes, usedSizes, Nat.mod_eq_of_lt bound, Nat.mod_eq_of_lt (by omega)]
  -- Each part of the check is one of the conditions.
  simp only [Bool.and_eq_true, List.all_eq_true, decide_eq_true_eq, and_true]
  exact ⟨⟨fun block member => consistent.debugVerifyAllBlocks member, by omega⟩,
    fun block member => consistent.debugVerifyUpstreamBlocks member⟩

end SecretTyping.Umf.Coarse
