import SecretTyping.Umf.CoarseAlloc

/-! How a block of the upstream provider is added, and merged with its neighbours. -/

namespace SecretTyping.Umf.Coarse

open Sorted Segments

variable {provider : Provider} {blocks before after below beyond : List Block} {block a b : Block}
  {addr size : Nat}

/-- An address range that none of the blocks has a part of. -/
structure Fresh (blocks : List Block) (addr size : Nat) : Prop where
  address : 0 < addr
  positive : 0 < size
  bounded : addr + size < sizeRange
  beside : ∀ block ∈ blocks, block.data + block.size ≤ addr ∨ addr + size ≤ block.data

/-- Blocks are cut at a range that they have no part of. -/
theorem Layout.cut_fresh (layout : Layout blocks) (fresh : Fresh blocks addr size) :
    ∃ below beyond, blocks = below ++ beyond ∧ Cut byData (atData addr) below none beyond ∧
      ∀ used listed, Layout (below ++ ⟨addr, size, used, listed⟩ :: beyond) := by
  -- The list is cut where the range belongs, and the blocks on both sides stay where they are.
  obtain ⟨below, same, beyond, place, cut⟩ := exists_cut layout.ascending (atData addr)
  have positive := fresh.positive
  -- There is no block at the address.
  have missing : same = none := by
    cases same with
    | none => rfl
    | some block =>
      have member : block ∈ blocks :=
        place ▸ List.mem_append_right _ (List.mem_append_left _ List.mem_cons_self)
      have equal : addr = block.data := coarseRavlComp_eq.mp (cut.equal block rfl)
      have size := (layout.nonzero block member).2
      rcases fresh.beside block member with front | behind <;> omega
  subst missing
  refine ⟨below, beyond, place, cut, fun used listed => ⟨?_, fun block member => ?_⟩⟩
  · -- Each block in front ends before the range, and each one behind begins after it.
    have apart := layout.apart
    rw [place] at apart
    obtain ⟨left, right, across⟩ := List.pairwise_append.mp apart
    refine List.pairwise_append.mpr ⟨left, List.pairwise_cons.mpr ⟨fun other member => ?_, right⟩,
      fun first member second also => ?_⟩
    · have greater : addr < other.data := coarseRavlComp_lt.mp (cut.greater other member)
      have size := (layout.nonzero other (place ▸ List.mem_append_right _ member)).2
      rcases fresh.beside other (place ▸ List.mem_append_right _ member) with front | behind
      · omega
      · exact behind
    · rcases List.mem_cons.mp also with rfl | also
      · have less : first.data < addr := coarseRavlComp_gt.mp (cut.less first member)
        rcases fresh.beside first (place ▸ List.mem_append_left _ member) with front | behind
        · exact front
        · omega
      · exact across first member second also
  · -- No block is empty, or at the address zero.
    rcases List.mem_append.mp member with early | late
    · exact layout.nonzero block (place ▸ List.mem_append_left _ early)
    · rcases List.mem_cons.mp late with rfl | late
      · exact ⟨fresh.address, positive⟩
      · exact layout.nonzero block (place ▸ List.mem_append_right _ late)

/-- An address is in one of the blocks. -/
def Covered (blocks : List Block) (address : Nat) : Prop :=
  ∃ block ∈ blocks, block.data ≤ address ∧ address < block.data + block.size

/-- Upstream blocks are the same but that two that touch at an edge may have become one. -/
structure Joined (old new : List Block) (edge : Nat) : Prop where
  layout : Layout new
  sizes : total new = total old
  bounded : ∀ origin ∈ new, ∃ other ∈ old, origin.data + origin.size = other.data + other.size
  covers : ∀ origin ∈ old, ∃ other ∈ new,
    other.data ≤ origin.data ∧ origin.data + origin.size ≤ other.data + other.size
  within : ∀ address, Covered new address → Covered old address
  joint : ∀ address, Joint new address → Joint old address ∨ address = edge

/-- Upstream blocks that have not changed are the same. -/
theorem Layout.joined (layout : Layout blocks) (edge : Nat) : Joined blocks blocks edge :=
  ⟨layout, rfl, fun origin member => ⟨origin, member, rfl⟩,
    fun origin member => ⟨origin, member, Nat.le_refl _, Nat.le_refl _⟩, fun _ => id,
    fun _ => Or.inl⟩

/-- A block that has grown by another one. -/
def grownBlock (a b : Block) : Block := { a with size := a.size + b.size }

/-- Two upstream blocks that touch become one. -/
theorem Layout.join (layout : Layout (before ++ a :: b :: after))
    (contiguous : a.data + a.size = b.data) :
    Joined (before ++ a :: b :: after) (before ++ grownBlock a b :: after)
      b.data := by
  have first : a ∈ before ++ a :: b :: after := List.mem_append_right _ List.mem_cons_self
  have second : b ∈ before ++ a :: b :: after :=
    List.mem_append_right _ (List.mem_cons_of_mem _ List.mem_cons_self)
  have sizeFirst := (layout.nonzero a first).2
  have sizeSecond := (layout.nonzero b second).2
  -- Both fill the same range.
  have fillsOld : Fills Block.data Block.size [a, b] a.data (a.data + a.size + b.size) :=
    ⟨rfl, sizeFirst, contiguous.symm, sizeSecond, rfl⟩
  have fillsNew : Fills Block.data Block.size [grownBlock a b] a.data
      (a.data + a.size + b.size) :=
    ⟨rfl, Nat.add_pos_left sizeFirst _, (Nat.add_assoc a.data a.size b.size).symm⟩
  -- An upstream block is one of the others, or the two.
  have split : ∀ other ∈ before ++ grownBlock a b :: after,
      other ∈ before ++ a :: b :: after ∨ other = grownBlock a b := by
    intro other member
    rcases List.mem_append.mp member with early | late
    · exact Or.inl (List.mem_append_left _ early)
    · rcases List.mem_cons.mp late with same | late
      · exact Or.inr same
      · refine Or.inl (List.mem_append_right _ ?_)
        exact List.mem_cons_of_mem _ (List.mem_cons_of_mem _ late)
  have whole : grownBlock a b ∈ before ++ grownBlock a b :: after :=
    List.mem_append_right _ List.mem_cons_self
  have begins : (grownBlock a b).data = a.data := rfl
  have length : (grownBlock a b).size = a.size + b.size := rfl
  -- The conditions are gone through one by one; only the last one has the edge.
  refine ⟨layout.exchange fillsOld fillsNew (List.cons_ne_nil a [b]), ?_, fun origin member => ?_,
    fun origin member => ?_, fun address covered => ?_, fun address joint => ?_⟩
  · rw [total_append, total_append, total_cons, total_cons, total_cons, length,
      Nat.add_assoc a.size]
  · rcases split origin member with old | rfl
    · exact ⟨origin, old, rfl⟩
    · exact ⟨b, second, by omega⟩
  · -- An old block is inside of itself or of the two.
    rcases List.mem_append.mp member with early | late
    · exact ⟨origin, List.mem_append_left _ early, Nat.le_refl _, Nat.le_refl _⟩
    · rcases List.mem_cons.mp late with rfl | late
      · exact ⟨_, whole, Nat.le_of_eq begins, by omega⟩
      · rcases List.mem_cons.mp late with rfl | late
        · exact ⟨_, whole, by omega, by omega⟩
        · exact ⟨origin, List.mem_append_right _ (List.mem_cons_of_mem _ late), Nat.le_refl _,
            Nat.le_refl _⟩
  · -- An address of the two is one of the first or of the second.
    obtain ⟨origin, member, lower, upper⟩ := covered
    rcases split origin member with old | rfl
    · exact ⟨origin, old, lower, upper⟩
    · rcases Nat.lt_or_ge address b.data with less | least
      · exact ⟨a, first, lower, by omega⟩
      · exact ⟨b, second, least, by omega⟩
  · obtain ⟨origin, member, lower, upper⟩ := joint
    rcases split origin member with old | rfl
    · exact Or.inl ⟨origin, old, lower, upper⟩
    · -- The address is in the one or in the other, or it is where they touch.
      rcases Nat.lt_trichotomy address b.data with less | same | greater
      · exact Or.inl ⟨a, first, lower, by omega⟩
      · exact Or.inr same
      · exact Or.inl ⟨b, second, greater, by omega⟩

/-- Two upstream blocks are merged or not, as the upstream provider allows it. -/
theorem upstreamBlockMerge_spec (layout : Layout (before ++ a :: b :: after))
    (place : provider.upstreamBlocks = before ++ a :: b :: after) (allowed : Bool) :
    upstreamBlockMerge provider a b allowed = (false, provider) ∨
      (a.data + a.size = b.data ∧ upstreamBlockMerge provider a b allowed = (true, { provider with
        upstreamBlocks := before ++ grownBlock a b :: after })) := by
  have joined := merge_at layout.ascending
    (fun block => { block with size := block.size + b.size }) rfl
  rw [← place] at joined
  rw [upstreamBlockMerge]
  -- The merge is made if the blocks touch and the upstream provider allows it.
  split
  · next condition =>
    simp only [Bool.and_eq_true, decide_eq_true_eq] at condition
    refine Or.inr ⟨condition.1.2, ?_⟩
    simp only [joined]
    rfl
  · exact Or.inl rfl

/-- An upstream block is merged with the previous one or not. -/
theorem upstreamBlockMergeWithPrev_spec (provider : Provider)
    (layout : Layout (before ++ block :: after))
    (place : provider.upstreamBlocks = before ++ block :: after) (allowed : Bool) :
    ∃ init curr, upstreamBlockMergeWithPrev provider block.data allowed =
        (curr.data, { provider with
        upstreamBlocks := init ++ curr :: after }) ∧
      curr.data + curr.size = block.data + block.size ∧
      Joined (before ++ block :: after) (init ++ curr :: after) block.data := by
  -- The block is found by its address.
  have here : lookup byData (atData block.data) provider.upstreamBlocks = some block := by
    rw [place, lookup_at layout.ascending]
  have unchanged : provider = { provider with upstreamBlocks := before ++ block :: after } := by
    rw [← place]
  -- Without a block in front of it nothing is merged.
  rcases List.eq_nil_or_concat' before with rfl | ⟨init, prev, rfl⟩
  · refine ⟨[], block, ?_, rfl, layout.joined _⟩
    have none : previous byData (atData block.data) provider.upstreamBlocks = none := by
      rw [place, previous_at layout.ascending]
      rfl
    rw [upstreamBlockMergeWithPrev, none, ← unchanged]
  · have previous : previous byData (atData block.data) provider.upstreamBlocks = some prev := by
      rw [place, previous_at layout.ascending, List.getLast?_concat]
    rw [upstreamBlockMergeWithPrev, previous, here]
    -- With one in front of it the two are merged or stay.
    have pair := layout
    rw [← List.append_cons] at pair
    have placePair : provider.upstreamBlocks = init ++ prev :: block :: after := by
      rw [place, ← List.append_cons]
    rcases upstreamBlockMerge_spec pair placePair allowed with kept | ⟨contiguous, merged⟩
    · refine ⟨init ++ [prev], block, ?_, rfl, layout.joined _⟩
      simp only [kept, ← unchanged]
    · refine ⟨init, grownBlock prev block, ?_, ?_, ?_⟩
      · simp only [merged]
        rfl
      · show prev.data + (prev.size + block.size) = block.data + block.size
        omega
      · rw [← List.append_cons]
        exact pair.join contiguous

/-- An upstream block is merged with the next one or not. -/
theorem upstreamBlockMergeWithNext_spec (provider : Provider)
    (layout : Layout (before ++ block :: after))
    (place : provider.upstreamBlocks = before ++ block :: after) (allowed : Bool) :
    ∃ changed, upstreamBlockMergeWithNext provider block.data allowed = (block.data, { provider with
        upstreamBlocks := changed }) ∧
      Joined (before ++ block :: after) changed (block.data + block.size) := by
  -- The block and the next one are found by the address.
  have here : lookup byData (atData block.data) provider.upstreamBlocks = some block := by
    rw [place, lookup_at layout.ascending]
  have unchanged : provider = { provider with upstreamBlocks := before ++ block :: after } := by
    rw [← place]
  have following : next byData (atData block.data) provider.upstreamBlocks = after.head? := by
    rw [place, next_at layout.ascending]
  cases after with
  | nil =>
    refine ⟨before ++ [block], ?_, layout.joined _⟩
    rw [upstreamBlockMergeWithNext, here, following, ← unchanged]
    rfl
  | cons next rest =>
    rw [upstreamBlockMergeWithNext, here, following]
    rcases upstreamBlockMerge_spec layout place allowed with kept | ⟨contiguous, merged⟩
    · refine ⟨before ++ block :: next :: rest, ?_, layout.joined _⟩
      simp only [List.head?_cons, kept, ← unchanged]
    · refine ⟨before ++ grownBlock block next :: rest, ?_, ?_⟩
      · simp only [List.head?_cons, merged]
      · rw [contiguous]
        exact layout.join contiguous

/-- Two changes of the upstream blocks are one. -/
theorem Joined.covered {old middle new : List Block} {first second : Nat}
    (early : Joined old middle first) (late : Joined middle new second) (address : Nat) :
    Covered new address ↔ Covered old address := by
  apply Iff.intro
  · -- What was covered is covered after the first change, and then after the second one.
    intro covered
    exact early.within address (late.within address covered)
  · rintro ⟨block, member, lower, upper⟩
    obtain ⟨other, inside, left, right⟩ := early.covers block member
    obtain ⟨third, home, below, above⟩ := late.covers other inside
    exact ⟨third, home, by omega, by omega⟩

/-- Upstream blocks that have a new range, which may have been joined with what touches it. -/
structure Extended (old new : List Block) (addr size : Nat) : Prop where
  layout : Layout new
  sizes : total new = total old + size
  bounded : ∀ origin ∈ new, origin.data + origin.size < sizeRange
  covers : ∀ origin ∈ old, ∃ other ∈ new,
    other.data ≤ origin.data ∧ origin.data + origin.size ≤ other.data + other.size
  coversNew : ∃ other ∈ new, other.data ≤ addr ∧ addr + size ≤ other.data + other.size
  within : ∀ address, Covered new address →
    Covered old address ∨ addr ≤ address ∧ address < addr + size
  joint : ∀ address, Joint new address → Joint old address ∨ addr ≤ address ∧ address ≤ addr + size

/-- The upstream blocks are extended by a new one that is joined with its neighbours. -/
theorem Shape.extended (shape : Shape provider) (fresh : Fresh provider.upstreamBlocks addr size)
    {first second : List Block} {used listed : Bool} {edge : Nat}
    (place : provider.upstreamBlocks = below ++ beyond)
    (early : Joined (below ++ ⟨addr, size, used, listed⟩ :: beyond) first addr)
    (late : Joined first second edge) (touching : edge = addr + size) :
    Extended provider.upstreamBlocks second addr size := by
  have positive := fresh.positive
  have new : ⟨addr, size, used, listed⟩ ∈ below ++ ⟨addr, size, used, listed⟩ :: beyond :=
    List.mem_append_right _ List.mem_cons_self
  have covers : ∀ origin ∈ below ++ ⟨addr, size, used, listed⟩ :: beyond, ∃ other ∈ second,
      other.data ≤ origin.data ∧ origin.data + origin.size ≤ other.data + other.size := by
    intro origin member
    obtain ⟨other, inside, left, right⟩ := early.covers origin member
    obtain ⟨third, home, below, above⟩ := late.covers other inside
    exact ⟨third, home, by omega, by omega⟩
  -- An upstream block is one of the old ones, or the new one.
  have split : ∀ origin ∈ below ++ ⟨addr, size, used, listed⟩ :: beyond,
      origin ∈ provider.upstreamBlocks ∨ origin = ⟨addr, size, used, listed⟩ := by
    intro origin member
    rw [place]
    rcases List.mem_append.mp member with front | back
    · exact Or.inl (List.mem_append_left _ front)
    · rcases List.mem_cons.mp back with same | back
      · exact Or.inr same
      · exact Or.inl (List.mem_append_right _ back)
  -- The conditions are gone through one by one, each with both changes.
  refine ⟨late.layout, ?_, fun origin member => ?_, fun origin member => covers origin ?_,
    covers _ new, fun address covered => ?_, fun address joint => ?_⟩
  · rw [late.sizes, early.sizes, place, total_append, total_append, total_cons]
    show total below + (size + total beyond) = total below + total beyond + size
    omega
  · -- An upstream block ends where an old one does or the new one does.
    obtain ⟨other, inside, same⟩ := late.bounded origin member
    obtain ⟨third, home, equal⟩ := early.bounded other inside
    rw [same, equal]
    rcases split third home with old | rfl
    · exact shape.bounded third old
    · exact fresh.bounded
  · rw [place] at member
    rcases List.mem_append.mp member with front | back
    · exact List.mem_append_left _ front
    · exact List.mem_append_right _ (List.mem_cons_of_mem _ back)
  · -- An address of the changed blocks is one of the old ones or of the new one.
    obtain ⟨origin, member, lower, upper⟩ := early.within address (late.within address covered)
    rcases split origin member with old | rfl
    · exact Or.inl ⟨origin, old, lower, upper⟩
    · exact Or.inr ⟨lower, upper⟩
  · -- The only addresses inside that were not are the ends of the new one.
    rcases late.joint address joint with joint | rfl
    · rcases early.joint address joint with ⟨origin, member, lower, upper⟩ | rfl
      · rcases split origin member with old | rfl
        · exact Or.inl ⟨origin, old, lower, upper⟩
        · exact Or.inr ⟨Nat.le_of_lt lower, Nat.le_of_lt upper⟩
      · exact Or.inr ⟨Nat.le_refl _, Nat.le_add_right _ _⟩
    · exact Or.inr ⟨by omega, by omega⟩

/-- All is as it has to be with a new upstream block that is used as a whole. -/
theorem Consistent.extend (consistent : Consistent provider)
    (fresh : Fresh provider.upstreamBlocks addr size) {origins : List Block}
    (extended : Extended provider.upstreamBlocks origins addr size)
    (place : provider.allBlocks = below ++ beyond)
    (layout : Layout (below ++ ⟨addr, size, true, false⟩ :: beyond)) :
    Consistent { provider with
      upstreamBlocks := origins
      allBlocks := below ++ ⟨addr, size, true, false⟩ :: beyond
      allocSize := provider.allocSize + size
      usedSize := provider.usedSize + size } := by
  have positive := fresh.positive
  have new : ⟨addr, size, true, false⟩ ∈ below ++ ⟨addr, size, true, false⟩ :: beyond :=
    List.mem_append_right _ List.mem_cons_self
  -- A block is one of the old ones, or the new one.
  have split : ∀ block ∈ below ++ ⟨addr, size, true, false⟩ :: beyond,
      block ∈ provider.allBlocks ∨ block = ⟨addr, size, true, false⟩ := by
    intro block member
    rw [place]
    rcases List.mem_append.mp member with front | back
    · exact Or.inl (List.mem_append_left _ front)
    · rcases List.mem_cons.mp back with same | back
      · exact Or.inr same
      · exact Or.inl (List.mem_append_right _ back)
  have stays : ∀ block ∈ provider.allBlocks,
      block ∈ below ++ ⟨addr, size, true, false⟩ :: beyond := by
    intro block member
    rw [place] at member
    rcases List.mem_append.mp member with front | back
    · exact List.mem_append_left _ front
    · exact List.mem_append_right _ (List.mem_cons_of_mem _ back)
  -- First come the conditions on the shape, then the flags, the merges and the used size.
  refine ⟨⟨layout, extended.layout, extended.bounded, fun block member => ?_, ?_, ?_,
    consistent.lists, ?_⟩, fun block member => ?_, fun block member next also mergeable => ?_, ?_⟩
  · rcases split block member with old | rfl
    · obtain ⟨origin, home, lower, upper⟩ := consistent.inside block old
      obtain ⟨other, inside, left, right⟩ := extended.covers origin home
      exact ⟨other, inside, by omega, by omega⟩
    · exact extended.coversNew
  · -- All blocks have grown by the size, and so have the upstream blocks.
    have sizes := consistent.sizes
    rw [place, total_append] at sizes
    show total (below ++ ⟨addr, size, true, false⟩ :: beyond) = provider.allocSize + size
    rw [total_append, total_cons]
    show total below + (size + total beyond) = provider.allocSize + size
    omega
  · show total origins = provider.allocSize + size
    rw [extended.sizes, consistent.upstreamSizes]
  · -- The new block is not listed, as it is in use.
    have listed := consistent.listed
    rw [place, listedEntries_append] at listed
    rw [listedEntries_append, listedEntries_cons]
    exact listed
  · rcases split block member with old | rfl
    · exact consistent.flags block old
    · rfl
  · -- Two free blocks are old ones, and they do not touch at an edge of the new one.
    rcases split block member with old | rfl
    · rcases split next also with oldNext | rfl
      · have contiguous := mergeable.contiguous
        have lower := (layout.nonzero block member).2
        have upper := (layout.nonzero next also).2
        rcases extended.joint next.data mergeable.joint with joint | edge
        · exact consistent.merged block old next oldNext
            ⟨mergeable.first, mergeable.second, contiguous, joint⟩
        · obtain ⟨origin, home, left, right⟩ := consistent.inside block old
          obtain ⟨other, inside, front, back⟩ := consistent.inside next oldNext
          rcases fresh.beside origin home with before | behind <;>
            rcases fresh.beside other inside with also | beyond <;> omega
      · exact absurd mergeable.second.symm Bool.false_ne_true
    · exact absurd mergeable.first.symm Bool.false_ne_true
  · -- What is in use has grown by the size.
    have sum := consistent.usedSizes
    rw [place, List.filter_append, total_append] at sum
    show total ((below ++ ⟨addr, size, true, false⟩ :: beyond).filter Block.used) =
      provider.usedSize + size
    rw [List.filter_append, List.filter_cons_of_pos rfl, total_append, total_cons]
    show _ + (size + _) = provider.usedSize + size
    omega

/-- A range that no upstream block has a part of has no part of any block. -/
theorem Shape.fresh_blocks (shape : Shape provider)
    (fresh : Fresh provider.upstreamBlocks addr size) : Fresh provider.allBlocks addr size := by
  -- A block is inside of an upstream block, which the range has no part of.
  refine ⟨fresh.address, fresh.positive, fresh.bounded, fun block member => ?_⟩
  obtain ⟨origin, home, lower, upper⟩ := shape.inside block member
  rcases fresh.beside origin home with before | behind <;> omega

/-- The allocator has memory for an upstream block, and for the block that it is at first. -/
def UpstreamMemory.given (memory : UpstreamMemory) : Bool :=
  memory.alloc.given && memory.block.given

/-- A new upstream block is added, which is used as a whole, or nothing is changed if there is no
memory for it. -/
theorem Consistent.addUpstream (consistent : Consistent provider)
    (fresh : Fresh provider.upstreamBlocks addr size) (memory : UpstreamMemory) :
    (∃ changed before after, coarseAddUpstreamBlock provider addr size memory =
        some (.success, changed) ∧ Consistent changed ∧ changed.config = provider.config ∧
      provider.allBlocks = before ++ after ∧
      changed.allBlocks.filter Block.used =
        before.filter Block.used ++ ⟨addr, size, true, false⟩ :: after.filter Block.used ∧
      Extended provider.upstreamBlocks changed.upstreamBlocks addr size ∧ memory.given = true) ∨
    (coarseAddUpstreamBlock provider addr size memory = some (.outOfHostMemory, provider) ∧
      memory.given = false) := by
  rw [UpstreamMemory.given]
  have address : addr ≠ 0 := Nat.ne_of_gt fresh.address
  have positive : size ≠ 0 := Nat.ne_of_gt fresh.positive
  -- The lists of upstream blocks and of blocks are both cut where the range belongs.
  obtain ⟨front, back, placeUp, cutUp, layoutUp⟩ := consistent.upstream.cut_fresh fresh
  obtain ⟨before, after, place, cut, layout⟩ :=
    consistent.blocks.cut_fresh (consistent.fresh_blocks fresh)
  -- The upstream block is made first; without memory for it nothing changes.
  cases givenUp : memory.alloc.given with
  | false =>
    have refused : coarseRavlAddNew provider.upstreamBlocks addr size memory.alloc = some none := by
      rw [placeUp]
      exact coarseRavlAddNew_refused cutUp size address positive givenUp
    refine Or.inr ⟨?_, rfl⟩
    rw [coarseAddUpstreamBlock, refused]
  | true =>
    -- Then the block is made.
    obtain ⟨usedUp, addedUp⟩ := coarseRavlAddNew_given cutUp size address positive givenUp
    replace addedUp : coarseRavlAddNew provider.upstreamBlocks addr size memory.alloc =
        some (some (front ++ ⟨addr, size, usedUp, false⟩ :: back)) := by
      rw [placeUp]
      exact addedUp
    cases given : memory.block.given with
    | false =>
      -- The upstream block is taken out again.
      have refused : coarseRavlAddNew provider.allBlocks addr size memory.block = some none := by
        rw [place]
        exact coarseRavlAddNew_refused cut size address positive given
      have erased : erase byData (atData addr) (front ++ ⟨addr, size, usedUp, false⟩ :: back) =
          front ++ back := erase_at (layoutUp usedUp false).ascending
      refine Or.inr ⟨?_, rfl⟩
      rw [coarseAddUpstreamBlock, addedUp]
      simp only [refused, erased, ← placeUp]
    | true =>
      obtain ⟨used, added⟩ := coarseRavlAddNew_given cut size address positive given
      replace added : coarseRavlAddNew provider.allBlocks addr size memory.block =
          some (some (before ++ ⟨addr, size, used, false⟩ :: after)) := by
        rw [place]
        exact added
      -- The upstream block is merged with its neighbours, as far as that is allowed.
      obtain ⟨init, curr, withPrev, ends, joinedPrev⟩ := upstreamBlockMergeWithPrev_spec
        { provider with
          upstreamBlocks := front ++ ⟨addr, size, usedUp, false⟩ :: back
          allBlocks := before ++ ⟨addr, size, used, false⟩ :: after }
        (layoutUp usedUp false) rfl memory.mergePrev
      obtain ⟨origins, withNext, joinedNext⟩ := upstreamBlockMergeWithNext_spec
        { provider with
          upstreamBlocks := init ++ curr :: back
          allBlocks := before ++ ⟨addr, size, used, false⟩ :: after }
        joinedPrev.layout rfl memory.mergeNext
      have extended := consistent.extended fresh placeUp joinedPrev joinedNext ends
      have whole := consistent.extend fresh extended place (layout true false)
      -- The block is marked as used, and the sizes do not overflow.
      have set : setBlock addr (fun block => { block with used := true })
          (before ++ ⟨addr, size, used, false⟩ :: after) =
            before ++ ⟨addr, size, true, false⟩ :: after :=
        setBlock_at (layout used false).ascending _
      have bound : provider.allocSize + size < sizeRange := whole.allocSize_lt
      have usedBound : provider.usedSize + size < sizeRange :=
        Nat.lt_of_le_of_lt (Nat.add_le_add_right consistent.usedSize_le size) bound
      refine Or.inl ⟨_, before, after, ?_, whole, rfl, place, ?_, extended, rfl⟩
      · rw [coarseAddUpstreamBlock, addedUp]
        simp only [added, withPrev, withNext, set, addWord_eq bound, addWord_eq usedBound]
      · rw [List.filter_append, List.filter_cons_of_pos rfl]

end SecretTyping.Umf.Coarse
