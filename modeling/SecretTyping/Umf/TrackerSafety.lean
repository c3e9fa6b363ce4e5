import SecretTyping.Umf.TrackerSystem

/-! What the tracker knows is always what the upstream providers have given. -/

namespace SecretTyping.Umf.Tracker

open Critnib

variable {state after : State} {region other : Region} {key ptr size : Word} {value : Value}
  {old new rest : List Region} {map : Map} {pool : Nat}

/-- A region is not empty, and does not reach the end of the range of addresses. -/
structure Region.Valid (region : Region) : Prop where
  address : region.ptr ≠ 0
  positive : 0 < region.size.toNat
  bounded : region.ptr.toNat + region.size.toNat < 2 ^ 64
  fits : region.phase.Fits region.size

/-- An address is one of a region. -/
def Region.Covers (region : Region) (key : Word) : Prop :=
  region.ptr.toNat ≤ key.toNat ∧ key.toNat < region.ptr.toNat + region.size.toNat

/-- A key is one of those that are left when a pool is destroyed: it is behind the last one, and
what has been found there is not in front of it. -/
structure Closing.Ahead (closing : Closing) (key : Word) : Prop where
  behind : closing.lastKey < key
  found : ∀ found, closing.found = some found → found.rkey ≤ key
  other : ∀ found, closing.found = some found → found.rvalue.pool ≠ closing.pool →
    found.rkey ≠ key

/-- A closing that has found nothing yet has only to be in front of the key. -/
theorem Closing.ahead_of_lt {pool : Nat} {lastKey key : Word} (behind : lastKey < key) :
    Closing.Ahead ⟨pool, lastKey, none⟩ key :=
  ⟨behind, fun _ none => absurd none.symm (Option.some_ne_none _),
    fun _ none => absurd none.symm (Option.some_ne_none _)⟩

/-- The tracker knows of the regions what it has to, depending on how far the calls are. -/
structure Informed (state : State) : Prop where
  shaped : state.map.Shaped
  valid : ∀ region ∈ state.regions, region.Valid
  apart : state.regions.Pairwise Beside
  known : ∀ key value, contents state.map key = some value ↔
    ∃ region ∈ state.regions, (key, value) ∈ region.entries
  quiet : ∀ closing ∈ state.closed, ∀ region ∈ state.regions, region.pool = closing.pool →
    region.phase.Settled ∧ ∀ known ∈ region.entries, closing.Ahead known.1

/-- Two regions beside each other are so in both orders. -/
theorem Beside.symm (beside : Beside region other) : Beside other region := Or.symm beside

/-- Regions beside each other have no address in common. -/
theorem Beside.not_covers (beside : Beside region other) (first : region.Covers key)
    (second : other.Covers key) : False := by
  obtain ⟨_, _⟩ := first
  obtain ⟨_, _⟩ := second
  rcases beside with before | behind <;> omega

/-- The second part of a region begins behind the first one. -/
theorem toNat_back {part : Word} (bounded : ptr.toNat + size.toNat < 2 ^ 64)
    (less : part.toNat < size.toNat) :
    (ptr + part).toNat = ptr.toNat + part.toNat ∧
      (size - part).toNat = size.toNat - part.toNat := by
  have sizeBound := size.isLt
  refine ⟨?_, ?_⟩
  · rw [BitVec.toNat_add]
    omega
  · rw [BitVec.toNat_sub]
    omega

/-- The second part of a region begins at another address of it, which is not zero. -/
theorem back_covers {part : Word} (pool : Nat) (phase : Phase)
    (bounded : ptr.toNat + size.toNat < 2 ^ 64)
    (fits : 0 < part.toNat ∧ part.toNat < size.toNat) :
    ptr + part ≠ 0 ∧ ptr + part ≠ ptr ∧
      Region.Covers ⟨pool, ptr, size, phase⟩ (ptr + part) := by
  obtain ⟨begins, -⟩ := toNat_back bounded fits.2
  refine ⟨fun zero => ?_, fun same => ?_, ?_, ?_⟩
  · have none : (ptr + part).toNat = 0 := by
      rw [zero]
      rfl
    omega
  · rw [same] at begins
    omega
  · show ptr.toNat ≤ (ptr + part).toNat
    omega
  · show (ptr + part).toNat < ptr.toNat + size.toNat
    omega

/-- What the tracker knows of a region is inside of it. -/
theorem Region.Valid.inside (valid : region.Valid) (entry : (key, value) ∈ region.entries) :
    value.pool = region.pool ∧ 0 < value.size.toNat ∧ region.ptr.toNat ≤ key.toNat ∧
      key.toNat + value.size.toNat ≤ region.ptr.toNat + region.size.toNat := by
  have bounded := valid.bounded
  have positive := valid.positive
  have fits := valid.fits
  -- Whether it is known as a whole or in parts, an entry lies between the ends of the region.
  have whole : (key, value) = region.whole → value.pool = region.pool ∧ 0 < value.size.toNat ∧
      region.ptr.toNat ≤ key.toNat ∧
      key.toNat + value.size.toNat ≤ region.ptr.toNat + region.size.toNat := by
    intro same
    cases same
    exact ⟨rfl, positive, Nat.le_refl _, Nat.le_refl _⟩
  have front : ∀ part : Word, 0 < part.toNat ∧ part.toNat < region.size.toNat →
      (key, value) = region.front part → value.pool = region.pool ∧ 0 < value.size.toNat ∧
      region.ptr.toNat ≤ key.toNat ∧
      key.toNat + value.size.toNat ≤ region.ptr.toNat + region.size.toNat := by
    rintro part ⟨some, less⟩ same
    cases same
    exact ⟨rfl, some, Nat.le_refl _, Nat.add_le_add_left (Nat.le_of_lt less) _⟩
  have back : ∀ part : Word, 0 < part.toNat ∧ part.toNat < region.size.toNat →
      (key, value) = region.back part → value.pool = region.pool ∧ 0 < value.size.toNat ∧
      region.ptr.toNat ≤ key.toNat ∧
      key.toNat + value.size.toNat ≤ region.ptr.toNat + region.size.toNat := by
    rintro part ⟨some, less⟩ same
    cases same
    obtain ⟨begins, length⟩ := toNat_back bounded less
    rw [begins, length]
    exact ⟨rfl, by omega, by omega, by omega⟩
  -- The cases are those of how far the call is.
  rw [Region.entries] at entry
  cases phase : region.phase with
  | rest tracked =>
    rw [phase] at entry
    cases tracked with
    | true => exact whole (List.mem_singleton.mp entry)
    | false => exact absurd entry List.not_mem_nil
  | adding | opening | freeing removed | closing =>
    rw [phase] at entry
    exact absurd entry List.not_mem_nil
  | divided part =>
    rw [phase] at entry
    exact whole (List.mem_singleton.mp entry)
  | added part | updated part =>
    rw [phase] at entry fits
    rcases List.mem_cons.mp entry with first | second
    · exact whole first
    · exact back part fits (List.mem_singleton.mp second)
  | joined part =>
    rw [phase] at entry fits
    rcases List.mem_cons.mp entry with first | second
    · exact front part fits first
    · exact back part fits (List.mem_singleton.mp second)

/-- What the tracker knows of a region begins at one of its addresses. -/
theorem Region.Valid.covers (valid : region.Valid) (entry : (key, value) ∈ region.entries) :
    region.Covers key := by
  obtain ⟨-, positive, lower, upper⟩ := valid.inside entry
  exact ⟨lower, by omega⟩

/-- What the tracker knows at an address of a region, it knows of the region. -/
theorem Informed.owns (informed : Informed state) (member : region ∈ state.regions)
    (covers : region.Covers key) (found : contents state.map key = some value) :
    (key, value) ∈ region.entries := by
  -- The region that the entry belongs to has the address too, and beside it nothing else has.
  obtain ⟨owner, inside, entry⟩ := (informed.known key value).mp found
  have also := (informed.valid owner inside).covers entry
  by_cases same : owner = region
  · rwa [same] at entry
  · have beside := List.Pairwise.forall_of_forall_of_flip
      (R := fun first second : Region => first = second ∨ Beside first second)
      (fun _ _ => Or.inl rfl) (informed.apart.imp Or.inr)
      (informed.apart.imp fun beside => Or.inr beside.symm) inside member
    exact absurd also (fun covered => (beside.resolve_left same).not_covers covered covers)

/-- What is said of the regions does not depend on their order. -/
theorem Informed.perm (informed : Informed state) {regions : List Region}
    (place : state.regions.Perm regions) : Informed { state with regions := regions } where
  shaped := informed.shaped
  valid region member := informed.valid region (place.mem_iff.mpr member)
  apart := (place.pairwise_iff Beside.symm).mp informed.apart
  known key value := by
    rw [informed.known]
    exact exists_congr fun region => and_congr_left fun _ => place.mem_iff
  quiet entry member region inside := informed.quiet entry member region (place.mem_iff.mpr inside)

/-- A pool is open if there is a call on one of its regions. -/
theorem Informed.isOpen (informed : Informed state) (member : region ∈ state.regions)
    (call : ¬region.phase.Settled) : state.Open region.pool :=
  fun entry closed same => call (informed.quiet entry closed region member same.symm).1

/-- Regions are exchanged for others, and what the tracker knows at one of their addresses
changes. -/
theorem Informed.exchange (informed : Informed state) (old new : List Region)
    (place : state.regions.Perm (old ++ rest)) (locked : Bool) (shaped : map.Shaped)
    {found : Option Value}
    (changed : contents map = Function.update (contents state.map) key found)
    (covers : ∃ region ∈ old, region.Covers key)
    (valid : ∀ region ∈ new, region.Valid) (apart : new.Pairwise Beside)
    (beside : ∀ region ∈ new, ∀ other, other.Valid → (∀ whole ∈ old, Beside whole other) →
      Beside region other)
    (here : ∀ value, found = some value ↔ ∃ region ∈ new, (key, value) ∈ region.entries)
    (elsewhere : ∀ other value, other ≠ key → ((∃ region ∈ new, (other, value) ∈ region.entries) ↔
      ∃ region ∈ old, (other, value) ∈ region.entries))
    (quiet : ∀ region ∈ new, ∀ closing ∈ state.closed, region.pool = closing.pool →
      region.phase.Settled ∧ ∀ known ∈ region.entries, closing.Ahead known.1) :
    Informed { state with map := map, regions := new ++ rest, locked := locked } := by
  -- The regions that stay are beside the old ones, and the new ones come in the place of these.
  have moved := informed.perm place
  obtain ⟨-, apartRest, across⟩ := List.pairwise_append.mp moved.apart
  have oldMember : ∀ region ∈ old, region ∈ old ++ rest :=
    fun region member => List.mem_append_left _ member
  have restMember : ∀ region ∈ rest, region ∈ old ++ rest :=
    fun region member => List.mem_append_right _ member
  refine ⟨shaped, fun region member => ?_, ?_, fun other value => ?_,
    fun entry closed region member same => ?_⟩
  · rcases List.mem_append.mp member with isNew | stays
    · exact valid region isNew
    · exact moved.valid region (restMember region stays)
  · -- What is beside all of the old regions is beside the new ones.
    refine List.pairwise_append.mpr ⟨apart, apartRest, fun region isNew other stays => ?_⟩
    exact beside region isNew other (moved.valid other (restMember other stays))
      fun whole member => across whole member other stays
  · -- What is known belongs to a region that stays or to another one; those of the others change at
    -- one address only.
    have split : ∀ regions : List Region, (∃ region ∈ regions ++ rest,
        (other, value) ∈ region.entries) ↔ (∃ region ∈ regions, (other, value) ∈ region.entries) ∨
          ∃ region ∈ rest, (other, value) ∈ region.entries := by
      intro regions
      simp only [List.mem_append, or_and_right, exists_or]
    have before := moved.known other value
    rw [split] at before
    show contents map other = some value ↔ ∃ region ∈ new ++ rest, (other, value) ∈ region.entries
    rw [split, changed]
    by_cases same : other = key
    · subst same
      rw [Function.update_self, here]
      refine ⟨Or.inl, fun either => either.resolve_right ?_⟩
      -- The address is not one of the regions that stay.
      rintro ⟨region, stays, entry⟩
      obtain ⟨whole, member, inside⟩ := covers
      have also := (moved.valid region (restMember region stays)).covers entry
      exact (across whole member region stays).not_covers inside also
    · rw [Function.update_of_ne same, before, elsewhere other value same]
  · -- No call goes on with a region of a pool that is destroyed, be it new or one that stays.
    rcases List.mem_append.mp member with isNew | stays
    · exact quiet region isNew entry closed same
    · exact moved.quiet entry closed region (restMember region stays) same

/-- Regions are exchanged for others of which the tracker knows the same. -/
theorem Informed.reshape (informed : Informed state) (first : Region) (old new : List Region)
    (place : state.regions.Perm ((first :: old) ++ rest)) (locked : Bool) (shaped : map.Shaped)
    (kept : contents map = contents state.map)
    (valid : ∀ region ∈ new, region.Valid) (apart : new.Pairwise Beside)
    (beside : ∀ region ∈ new, ∀ other, other.Valid → (∀ whole ∈ first :: old, Beside whole other) →
      Beside region other)
    (same : ∀ key value, (∃ region ∈ new, (key, value) ∈ region.entries) ↔
      ∃ region ∈ first :: old, (key, value) ∈ region.entries)
    (quiet : ∀ region ∈ new, ∀ closing ∈ state.closed, region.pool = closing.pool →
      region.phase.Settled ∧ ∀ known ∈ region.entries, closing.Ahead known.1) :
    Informed { state with map := map, regions := new ++ rest, locked := locked } := by
  -- This is an exchange that changes nothing at an address of the first region.
  have moved := informed.perm place
  have member : first ∈ (first :: old) ++ rest := List.mem_cons_self
  have positive := (moved.valid first member).positive
  have changed : contents map =
      Function.update (contents state.map) first.ptr (contents state.map first.ptr) := by
    rw [kept, Function.update_eq_self]
  refine informed.exchange (first :: old) new place locked shaped changed
    ⟨first, List.mem_cons_self, Nat.le_refl _, by omega⟩ valid apart beside (fun value => ?_)
    (fun other value _ => same other value) quiet
  rw [same]
  apply Iff.intro
  · intro found
    exact ⟨first, List.mem_cons_self, moved.owns member ⟨Nat.le_refl _, by omega⟩ found⟩
  · rintro ⟨region, inside, entry⟩
    exact (moved.known _ _).mpr ⟨region, List.mem_append_left _ inside, entry⟩

section Steps

variable {phase next : Phase} {locked : Bool} {found : Option Value}

/-- A call goes on with a region, and what the tracker knows at an address of it changes. -/
theorem Informed.turn (informed : Informed state)
    (place : state.regions.Perm (⟨pool, ptr, size, phase⟩ :: rest)) (isOpen : state.Open pool)
    (shaped : map.Shaped)
    (changed : contents map = Function.update (contents state.map) key found)
    (covers : Region.Covers ⟨pool, ptr, size, phase⟩ key) (fits : next.Fits size)
    (here : ∀ value, found = some value ↔
      (key, value) ∈ Region.entries ⟨pool, ptr, size, next⟩)
    (elsewhere : ∀ other value, other ≠ key →
      ((other, value) ∈ Region.entries ⟨pool, ptr, size, next⟩ ↔
        (other, value) ∈ Region.entries ⟨pool, ptr, size, phase⟩)) :
    Informed { state with
      map := map, regions := ⟨pool, ptr, size, next⟩ :: rest, locked := locked } := by
  -- The region stays what it is but for the phase, so only its entries are another matter.
  have before := (informed.perm place).valid _ List.mem_cons_self
  have new : Region.Valid ⟨pool, ptr, size, next⟩ :=
    ⟨before.address, before.positive, before.bounded, fits⟩
  refine informed.exchange [⟨pool, ptr, size, phase⟩] [⟨pool, ptr, size, next⟩] place locked shaped
    changed ⟨_, List.mem_singleton_self _, covers⟩ ?_ (List.pairwise_singleton _ _) ?_ ?_ ?_ ?_
  · exact List.forall_mem_singleton.mpr new
  · -- The range of the region is the same.
    exact List.forall_mem_singleton.mpr fun other _ apart =>
      apart ⟨pool, ptr, size, phase⟩ (List.mem_singleton_self _)
  · intro value
    rw [here]
    simp
  · intro other value different
    have same := elsewhere other value different
    simpa using same
  · -- Its pool is open, so none that is destroyed has a say in it.
    exact List.forall_mem_singleton.mpr fun entry closed same =>
      absurd same.symm (isOpen entry closed)

/-- A call goes on with a region, and what the tracker knows stays. -/
theorem Informed.keep (informed : Informed state)
    (place : state.regions.Perm (⟨pool, ptr, size, phase⟩ :: rest)) (isOpen : state.Open pool)
    (shaped : map.Shaped) (kept : contents map = contents state.map) (fits : next.Fits size)
    (same : Region.entries ⟨pool, ptr, size, next⟩ = Region.entries ⟨pool, ptr, size, phase⟩) :
    Informed { state with
      map := map, regions := ⟨pool, ptr, size, next⟩ :: rest, locked := locked } := by
  -- Nothing changes where the region begins, and what is known there is the same in either phase.
  have moved := informed.perm place
  have before := moved.valid _ List.mem_cons_self
  have covers : Region.Covers ⟨pool, ptr, size, phase⟩ ptr :=
    ⟨Nat.le_refl _, Nat.lt_add_of_pos_right before.positive⟩
  have changed : contents map =
      Function.update (contents state.map) ptr (contents state.map ptr) := by
    rw [kept, Function.update_eq_self]
  refine informed.turn place isOpen shaped changed covers fits (fun value => ?_)
    (fun other value _ => by rw [same])
  rw [same]
  apply Iff.intro
  · exact moved.owns List.mem_cons_self covers
  · exact fun entry => (moved.known _ _).mpr ⟨_, List.mem_cons_self, entry⟩

/-- A call is done with a region that is given back. -/
theorem Informed.drop (informed : Informed state)
    (place : state.regions.Perm (⟨pool, ptr, size, phase⟩ :: rest)) (shaped : map.Shaped)
    (kept : contents map = contents state.map)
    (forgotten : Region.entries ⟨pool, ptr, size, phase⟩ = []) :
    Informed { state with map := map, regions := rest } := by
  -- Nothing comes in the place of the region, of which nothing was known.
  refine informed.reshape ⟨pool, ptr, size, phase⟩ [] [] place state.locked shaped kept
    (fun _ none => absurd none List.not_mem_nil) List.Pairwise.nil
    (fun _ none => absurd none List.not_mem_nil) (fun key value => ?_)
    (fun _ none => absurd none List.not_mem_nil)
  simp [forgotten]

/-- The upstream provider gives memory of which the tracker knows nothing yet. -/
theorem Informed.grow (informed : Informed state) (isOpen : state.Open region.pool)
    (given : Given state.regions region) (fits : region.phase.Fits region.size)
    (unknown : region.entries = []) :
    Informed { state with regions := region :: state.regions } := by
  -- The new region is beside the others and has no entries, so that all that is known is theirs.
  have positive : region.size.toNat ≠ 0 := by
    intro zero
    exact given.positive (BitVec.eq_of_toNat_eq zero)
  refine ⟨informed.shaped, fun other member => ?_, ?_, fun key value => ?_,
    fun entry closed other member same => ?_⟩
  · rcases List.mem_cons.mp member with rfl | member
    · exact ⟨given.address, Nat.pos_of_ne_zero positive, given.bounded, fits⟩
    · exact informed.valid other member
  · exact List.pairwise_cons.mpr ⟨given.beside, informed.apart⟩
  · rw [informed.known]
    simp [unknown]
  · rcases List.mem_cons.mp member with rfl | member
    · exact absurd same.symm (isOpen entry closed)
    · exact informed.quiet entry closed other member same

/-- A region that is added is tracked, unless there is no memory for it. -/
theorem Informed.add (informed : Informed state)
    (place : state.regions.Perm (⟨pool, ptr, size, phase⟩ :: rest)) (call : ¬phase.Settled)
    (unknown : Region.entries ⟨pool, ptr, size, phase⟩ = []) {memory : AddMemory} {result : Result}
    (done : umfMemoryTrackerAdd state.map pool ptr size memory = some (result, map)) :
    result ≠ .unknown ∧ Informed { state with
      map := map, regions := settled pool ptr size (result = .success) :: rest } := by
  have moved := informed.perm place
  have valid := moved.valid _ List.mem_cons_self
  have isOpen := moved.isOpen List.mem_cons_self call
  have covers : Region.Covers ⟨pool, ptr, size, phase⟩ ptr :=
    ⟨Nat.le_refl _, Nat.lt_add_of_pos_right valid.positive⟩
  obtain ⟨answer, last, added, shaped, way⟩ :=
    umfMemoryTrackerAdd_spec informed.shaped valid.address pool size memory
  rw [done] at added
  cases added
  -- It has been added, or there was no memory, or the address was taken.
  rcases way with ⟨rfl, -, changed⟩ | ⟨rfl, kept⟩ | ⟨rfl, present, -⟩
  · refine ⟨by decide, informed.turn place isOpen shaped changed covers trivial (fun value => ?_)
      fun other value different => ?_⟩
    · simp [Region.entries, Region.whole, eq_comm]
    · rw [unknown]
      simp [Region.entries, Region.whole, different]
  · exact ⟨by decide, informed.keep place isOpen shaped kept trivial unknown.symm⟩
  · -- There is nothing at the address, as the tracker knows nothing of the region.
    obtain ⟨value, found⟩ := Option.ne_none_iff_exists'.mp present
    have entry := moved.owns List.mem_cons_self covers found
    rw [unknown] at entry
    exact absurd entry List.not_mem_nil

/-- A region that is removed is no longer tracked. -/
theorem Informed.remove (informed : Informed state) {tracked : Bool} (isOpen : state.Open pool)
    (place : state.regions.Perm (settled pool ptr size tracked :: rest)) {result : Result}
    (done : umfMemoryTrackerRemove state.map ptr = some (result, map)) (fits : next.Fits size)
    (forgotten : Region.entries ⟨pool, ptr, size, next⟩ = []) :
    Informed { state with map := map, regions := ⟨pool, ptr, size, next⟩ :: rest } := by
  -- The only entry that a region at rest can have is removed.
  have valid : Region.Valid ⟨pool, ptr, size, .rest tracked⟩ :=
    (informed.perm place).valid _ List.mem_cons_self
  have covers : Region.Covers ⟨pool, ptr, size, .rest tracked⟩ ptr :=
    ⟨Nat.le_refl _, Nat.lt_add_of_pos_right valid.positive⟩
  obtain ⟨answer, last, removed, shaped, -, changed⟩ :=
    umfMemoryTrackerRemove_spec informed.shaped valid.address
  rw [done] at removed
  cases removed
  refine informed.turn place isOpen shaped changed covers fits (fun value => ?_)
    fun other value different => ?_
  · simp [forgotten]
  · rw [forgotten]
    cases tracked <;> simp [Region.entries, Region.whole, different]

/-- A region that is found with its size is tracked. -/
theorem Informed.tracked (informed : Informed state) {tracked : Bool}
    (member : settled pool ptr size tracked ∈ state.regions)
    (found : contents state.map ptr ≠ none) :
    tracked = true ∧ contents state.map ptr = some ⟨pool, size⟩ := by
  -- What is found where the region begins is one of its entries, and untracked it has none.
  have valid := informed.valid _ member
  obtain ⟨value, there⟩ := Option.ne_none_iff_exists'.mp found
  have entry := informed.owns member
    ⟨Nat.le_refl _, Nat.lt_add_of_pos_right valid.positive⟩ there
  cases tracked with
  | false => exact absurd entry List.not_mem_nil
  | true =>
    have same : (ptr, value) = (ptr, ⟨pool, size⟩) := List.mem_singleton.mp entry
    rw [there, (Prod.mk.inj same).2]
    exact ⟨rfl, rfl⟩

/-- The upstream provider splits a region that is tracked. -/
theorem Informed.divide (informed : Informed state) {tracked : Bool} {firstSize : Word}
    (isOpen : state.Open pool)
    (place : state.regions.Perm (settled pool ptr size tracked :: rest))
    (valid : splitValid ptr size firstSize = true)
    (found : splitLookup state.map ptr size = .success) :
    Informed { state with
      locked := true, regions := ⟨pool, ptr, size, .divided firstSize⟩ :: rest } := by
  -- The lookup of the code has found the region, so it is tracked.
  have there : contents state.map ptr ≠ none := by
    intro missing
    rw [contents] at missing
    rw [splitLookup, missing] at found
    cases found
  obtain ⟨rfl, -⟩ := (informed.perm place).tracked List.mem_cons_self there
  simp only [splitValid, Bool.and_eq_true, decide_eq_true_eq] at valid
  obtain ⟨⟨⟨-, some⟩, -⟩, less⟩ := valid
  have positive : firstSize.toNat ≠ 0 := fun zero => some (BitVec.eq_of_toNat_eq zero)
  exact informed.keep place isOpen informed.shaped rfl
    ⟨Nat.pos_of_ne_zero positive, BitVec.lt_def.mp less⟩ rfl

/-- The second part of a region is added, unless there is no memory for it. -/
theorem Informed.addSecond (informed : Informed state) {firstSize : Word}
    (place : state.regions.Perm (⟨pool, ptr, size, .divided firstSize⟩ :: rest))
    {memory : AddMemory} {result : Result}
    (done : umfMemoryTrackerAdd state.map pool (ptr + firstSize) (size - firstSize) memory =
      some (result, map)) :
    result ≠ .unknown ∧ Informed { state with
      map := map
      locked := result = .success
      regions := ⟨pool, ptr, size,
        if result = .success then .added firstSize else .rest true⟩ :: rest } := by
  -- The second part begins inside of the region, where nothing begins so far.
  have moved := informed.perm place
  have valid : Region.Valid ⟨pool, ptr, size, .divided firstSize⟩ :=
    moved.valid _ List.mem_cons_self
  have isOpen := moved.isOpen List.mem_cons_self id
  have fits : 0 < firstSize.toNat ∧ firstSize.toNat < size.toNat := valid.fits
  obtain ⟨address, different, covers⟩ := back_covers pool (.divided firstSize) valid.bounded fits
  obtain ⟨answer, last, added, shaped, way⟩ :=
    umfMemoryTrackerAdd_spec informed.shaped address pool (size - firstSize) memory
  rw [done] at added
  cases added
  rcases way with ⟨rfl, -, changed⟩ | ⟨rfl, kept⟩ | ⟨rfl, present, -⟩
  · refine ⟨by decide, informed.turn place isOpen shaped changed covers fits (fun value => ?_)
      fun other value apart => ?_⟩
    · simp [Region.entries, Region.whole, Region.back, different, eq_comm]
    · simp [Region.entries, Region.whole, Region.back, apart]
  · exact ⟨by decide, informed.keep place isOpen shaped kept trivial rfl⟩
  · -- There is nothing at the address, as the tracker knows of the region as a whole.
    obtain ⟨value, found⟩ := Option.ne_none_iff_exists'.mp present
    have entry := List.mem_singleton.mp (moved.owns List.mem_cons_self covers found)
    exact absurd (Prod.mk.inj entry).1 different

/-- The first part of a region that has been split is changed. -/
theorem Informed.updateFirst (informed : Informed state) {firstSize : Word} {memory : Memory}
    (place : state.regions.Perm (⟨pool, ptr, size, .added firstSize⟩ :: rest))
    (done : updateValue state.map pool ptr firstSize memory = some map) :
    Informed { state with
      map := map
      locked := false
      regions := settled pool ptr firstSize true ::
        settled pool (ptr + firstSize) (size - firstSize) true :: rest } := by
  -- The entry of the whole region is there, and the update makes it that of the first part.
  have moved := informed.perm place
  have valid : Region.Valid ⟨pool, ptr, size, .added firstSize⟩ := moved.valid _ List.mem_cons_self
  have isOpen : state.Open pool := moved.isOpen List.mem_cons_self id
  have fits : 0 < firstSize.toNat ∧ firstSize.toNat < size.toNat := valid.fits
  have bounded : ptr.toNat + size.toNat < 2 ^ 64 := valid.bounded
  obtain ⟨address, different, -⟩ := back_covers pool .adding bounded fits
  obtain ⟨begins, length⟩ := toNat_back bounded fits.2
  have there : contents state.map ptr ≠ none := by
    rw [(moved.known ptr ⟨pool, size⟩).mpr ⟨_, List.mem_cons_self, List.mem_cons_self⟩]
    exact Option.some_ne_none _
  rcases updateValue_spec informed.shaped there pool firstSize memory with
    -- Without memory for a leaf the update fails.
    ⟨-, failed⟩ | ⟨-, last, updated, shaped, changed⟩
  · rw [failed] at done
    cases done
  rw [done] at updated
  cases updated
  refine informed.exchange [⟨pool, ptr, size, .added firstSize⟩]
    [settled pool ptr firstSize true, settled pool (ptr + firstSize) (size - firstSize) true]
    place false shaped changed ⟨_, List.mem_singleton_self _, Nat.le_refl _, ?_⟩ ?_ ?_ ?_ ?_ ?_ ?_
  · -- The changed address is the one where the region begins.
    show ptr.toNat < ptr.toNat + size.toNat
    omega
  · -- Both parts are valid, as the size of the first one is between none and all.
    intro region member
    rcases List.mem_cons.mp member with rfl | member
    · refine ⟨valid.address, fits.1, ?_, trivial⟩
      show ptr.toNat + firstSize.toNat < 2 ^ 64
      omega
    · cases List.mem_singleton.mp member
      refine ⟨address, ?_, ?_, trivial⟩
      · show 0 < (size - firstSize).toNat
        omega
      · show (ptr + firstSize).toNat + (size - firstSize).toNat < 2 ^ 64
        omega
  · -- The first part ends where the second one begins.
    refine List.pairwise_pair.mpr (Or.inl ?_)
    show ptr.toNat + firstSize.toNat ≤ (ptr + firstSize).toNat
    omega
  · -- The parts are inside of the region.
    intro region member other _ apart
    have whole := apart _ (List.mem_singleton_self _)
    rcases whole with before | behind
    · replace before : ptr.toNat + size.toNat ≤ other.ptr.toNat := before
      refine Or.inl ?_
      rcases List.mem_cons.mp member with rfl | member
      · show ptr.toNat + firstSize.toNat ≤ other.ptr.toNat
        omega
      · cases List.mem_singleton.mp member
        show (ptr + firstSize).toNat + (size - firstSize).toNat ≤ other.ptr.toNat
        omega
    · replace behind : other.ptr.toNat + other.size.toNat ≤ ptr.toNat := behind
      refine Or.inr ?_
      rcases List.mem_cons.mp member with rfl | member
      · exact behind
      · cases List.mem_singleton.mp member
        show other.ptr.toNat + other.size.toNat ≤ (ptr + firstSize).toNat
        omega
  · -- What is known at the start is now the first part, and elsewhere it was the second one
    -- already.
    intro value
    simp [settled, Region.entries, Region.whole, different.symm, eq_comm]
  · intro other value apart
    simp [settled, Region.entries, Region.whole, Region.back, apart]
  · -- The pool of both parts is open.
    intro region member entry closed same
    rcases List.mem_cons.mp member with rfl | member
    · exact absurd same.symm (isOpen entry closed)
    · cases List.mem_singleton.mp member
      exact absurd same.symm (isOpen entry closed)

/-- The upstream provider merges two regions that are tracked. -/
theorem Informed.join (informed : Informed state) {lowSize highSize : Word} {low high : Bool}
    {values : Value × Value} (isOpen : state.Open pool)
    (place : state.regions.Perm (settled pool ptr lowSize low ::
      settled pool (ptr + lowSize) highSize high :: rest))
    (found : mergeLookup state.map ptr (ptr + lowSize) (lowSize + highSize) = some values) :
    Informed { state with
      locked := true
      regions := ⟨pool, ptr, lowSize + highSize, .joined lowSize⟩ :: rest } := by
  -- The sizes and addresses are read as numbers, which do not overflow.
  have moved := informed.perm place
  have first : Region.Valid (settled pool ptr lowSize low) := moved.valid _ List.mem_cons_self
  have second : Region.Valid (settled pool (ptr + lowSize) highSize high) :=
    moved.valid _ (List.mem_cons_of_mem _ List.mem_cons_self)
  have boundFirst : ptr.toNat + lowSize.toNat < 2 ^ 64 := first.bounded
  have boundSecond : (ptr + lowSize).toNat + highSize.toNat < 2 ^ 64 := second.bounded
  have someFirst : 0 < lowSize.toNat := first.positive
  have someSecond : 0 < highSize.toNat := second.positive
  have begins : (ptr + lowSize).toNat = ptr.toNat + lowSize.toNat := by
    rw [BitVec.toNat_add]
    omega
  have length : (lowSize + highSize).toNat = lowSize.toNat + highSize.toNat := by
    rw [BitVec.toNat_add]
    omega
  have back : lowSize + highSize - lowSize = highSize := by
    rw [BitVec.add_comm, BitVec.add_sub_cancel]
  -- Both regions are there.
  have there : contents state.map ptr ≠ none ∧ contents state.map (ptr + lowSize) ≠ none := by
    rw [mergeLookup] at found
    split at found
    · next lowValue highValue lowFound highFound =>
      rw [contents, lowFound, highFound]
      exact ⟨Option.some_ne_none _, Option.some_ne_none _⟩
    · cases found
  obtain ⟨rfl, -⟩ := moved.tracked List.mem_cons_self there.1
  obtain ⟨rfl, -⟩ := moved.tracked (List.mem_cons_of_mem _ List.mem_cons_self) there.2
  refine informed.reshape (settled pool ptr lowSize true)
    [settled pool (ptr + lowSize) highSize true]
    [⟨pool, ptr, lowSize + highSize, .joined lowSize⟩] place true informed.shaped rfl ?_
    (List.pairwise_singleton _ _) ?_ ?_ ?_
  · -- The two together are valid.
    refine List.forall_mem_singleton.mpr ⟨first.address, ?_, ?_, someFirst, ?_⟩
    · show 0 < (lowSize + highSize).toNat
      omega
    · show ptr.toNat + (lowSize + highSize).toNat < 2 ^ 64
      omega
    · show lowSize.toNat < (lowSize + highSize).toNat
      omega
  · -- There is no room for another region between the two.
    refine List.forall_mem_singleton.mpr fun other valid apart => ?_
    have positive := valid.positive
    have left := apart _ List.mem_cons_self
    have right := apart _ (List.mem_cons_of_mem _ List.mem_cons_self)
    replace left : ptr.toNat + lowSize.toNat ≤ other.ptr.toNat ∨
      other.ptr.toNat + other.size.toNat ≤ ptr.toNat := left
    replace right : (ptr + lowSize).toNat + highSize.toNat ≤ other.ptr.toNat ∨
      other.ptr.toNat + other.size.toNat ≤ (ptr + lowSize).toNat := right
    show ptr.toNat + (lowSize + highSize).toNat ≤ other.ptr.toNat ∨
      other.ptr.toNat + other.size.toNat ≤ ptr.toNat
    omega
  · -- Nothing that is known changes, as the upstream provider alone has merged.
    intro key value
    simp [settled, Region.entries, Region.whole, Region.front, Region.back, back]
  · exact List.forall_mem_singleton.mpr fun entry closed same =>
      absurd same.symm (isOpen entry closed)

/-- The first one of two regions that have been merged is changed. -/
theorem Informed.updateLow (informed : Informed state) {lowSize : Word} {memory : Memory}
    (place : state.regions.Perm (⟨pool, ptr, size, .joined lowSize⟩ :: rest))
    (done : updateValue state.map pool ptr size memory = some map) :
    Informed { state with
      map := map, regions := ⟨pool, ptr, size, .updated lowSize⟩ :: rest } := by
  -- The first entry is there, and the update makes it that of the whole region.
  have moved := informed.perm place
  have valid : Region.Valid ⟨pool, ptr, size, .joined lowSize⟩ := moved.valid _ List.mem_cons_self
  have isOpen : state.Open pool := moved.isOpen List.mem_cons_self id
  obtain ⟨-, different, -⟩ := back_covers pool .adding valid.bounded valid.fits
  have there : contents state.map ptr ≠ none := by
    rw [(moved.known ptr ⟨pool, lowSize⟩).mpr ⟨_, List.mem_cons_self, List.mem_cons_self⟩]
    exact Option.some_ne_none _
  rcases updateValue_spec informed.shaped there pool size memory with
    ⟨-, failed⟩ | ⟨-, last, updated, shaped, changed⟩
  · rw [failed] at done
    cases done
  rw [done] at updated
  cases updated
  refine informed.turn place isOpen shaped changed
    ⟨Nat.le_refl _, Nat.lt_add_of_pos_right valid.positive⟩ valid.fits (fun value => ?_)
    fun other value apart => ?_
  · simp [Region.entries, Region.whole, Region.back, different.symm, eq_comm]
  · simp [Region.entries, Region.whole, Region.front, Region.back, apart]

/-- The second one of two regions that have been merged is removed. -/
theorem Informed.removeHigh (informed : Informed state) {lowSize : Word}
    (place : state.regions.Perm (⟨pool, ptr, size, .updated lowSize⟩ :: rest))
    (done : eraseValue state.map (ptr + lowSize) ⟨pool, size - lowSize⟩ = some map) :
    Informed { state with
      map := map, locked := false, regions := settled pool ptr size true :: rest } := by
  -- The second entry is there with the size of the second part, and is all that goes.
  have moved := informed.perm place
  have valid : Region.Valid ⟨pool, ptr, size, .updated lowSize⟩ := moved.valid _ List.mem_cons_self
  have isOpen : state.Open pool := moved.isOpen List.mem_cons_self id
  obtain ⟨-, different, covers⟩ :=
    back_covers pool (.updated lowSize) valid.bounded valid.fits
  have there : contents state.map (ptr + lowSize) = some ⟨pool, size - lowSize⟩ :=
    (moved.known _ _).mpr ⟨_, List.mem_cons_self, List.mem_cons_of_mem _ List.mem_cons_self⟩
  obtain ⟨last, erased, shaped, changed⟩ := eraseValue_spec informed.shaped there
  rw [done] at erased
  cases erased
  refine informed.turn place isOpen shaped changed covers trivial (fun value => ?_)
    fun other value apart => ?_
  · simp [Region.entries, Region.whole, different]
  · simp [Region.entries, Region.whole, Region.back, apart]

end Steps

section Closing

variable {lastKey : Word} {closed : List Closing}

/-- What is known of the regions does not depend on which of the values have been freed. -/
theorem Informed.release (informed : Informed state) (key : Word) :
    Informed (state.release key) := by
  refine ⟨informed.shaped, informed.valid, informed.apart, informed.known,
    fun closing member region inside same => ?_⟩
  -- A closing that has found something has still found it, fresh or not.
  obtain ⟨before, listed, rfl⟩ := List.mem_map.mp member
  obtain ⟨calm, ahead⟩ := informed.quiet before listed region inside same
  refine ⟨calm, fun known mine => ?_⟩
  obtain ⟨behind, found, other⟩ := ahead known mine
  refine ⟨behind, fun last some => ?_, fun last some => ?_⟩
  · obtain ⟨first, there, rfl⟩ := Option.map_eq_some_iff.mp some
    exact found first there
  · obtain ⟨first, there, rfl⟩ := Option.map_eq_some_iff.mp some
    exact other first there

/-- The regions of a pool that is destroyed are those that are left, if no other ones were. -/
theorem Informed.advance (informed : Informed state) {before next : Closing}
    (place : state.closed.Perm (before :: closed)) (same : next.pool = before.pool)
    (beyond : ∀ key value, contents state.map key = some value → value.pool = before.pool →
      before.Ahead key → next.Ahead key) : Informed { state with closed := next :: closed } := by
  refine ⟨informed.shaped, informed.valid, informed.apart, informed.known,
    fun closing member region inside mine => ?_⟩
  -- Of the pool itself nothing has been left behind; the others are as they were.
  rcases List.mem_cons.mp member with rfl | member
  · have owner := mine.trans same
    obtain ⟨calm, ahead⟩ :=
      informed.quiet before (place.mem_iff.mpr List.mem_cons_self) region inside owner
    refine ⟨calm, fun known entry => ?_⟩
    have there := (informed.known known.1 known.2).mpr ⟨region, inside, entry⟩
    have pool := ((informed.valid region inside).inside entry).1
    exact beyond known.1 known.2 there (pool.trans owner) (ahead known entry)
  · have listed := place.mem_iff.mpr (List.mem_cons_of_mem _ member)
    exact informed.quiet closing listed region inside mine

/-- The region that is found next is the first one behind a key. -/
theorem Informed.findNext (informed : Informed state) {rkey : Word} {rvalue : Value}
    (place : state.closed.Perm (⟨pool, lastKey, none⟩ :: closed))
    (found : critnibFind state.map lastKey .g = some (rkey, rvalue)) :
    contents state.map rkey = some rvalue ∧ Informed { state with
      closed := ⟨pool, lastKey, some ⟨rkey, rvalue, true⟩⟩ :: closed } := by
  -- The search for the next key finds the least one behind the last.
  rcases findGreater_spec informed.shaped lastKey with
    ⟨key, value, answer, stored, -, least⟩ | ⟨answer, -⟩
  · rw [found] at answer
    cases answer
    refine ⟨stored, informed.advance place rfl fun other value there mine ahead => ?_⟩
    -- No entry of the pool lies between the two keys, and the found one has its own pool.
    refine ⟨ahead.behind, ?_, ?_⟩
    · intro _ same
      cases same
      exact least other (by rw [there]; exact Option.some_ne_none _) ahead.behind
    · intro _ same different
      cases same
      rintro rfl
      rw [stored] at there
      cases there
      exact different mine
  · rw [found] at answer
    cases answer

/-- The region that has been found is not one of the pool, so that the next one is behind it. -/
theorem Informed.pass (informed : Informed state) {found : Found}
    (place : state.closed.Perm (⟨pool, lastKey, some found⟩ :: closed))
    (other : found.rvalue.pool ≠ pool) :
    Informed { state with closed := ⟨pool, found.rkey, none⟩ :: closed } := by
  refine informed.advance place rfl fun key value there mine ahead => Closing.ahead_of_lt ?_
  -- An entry of the pool is not in front of what was found, and not at it.
  exact lt_of_le_of_ne (ahead.found found rfl) (ahead.other found rfl other)

/-- The region that has been found is one of the pool, and is removed. -/
theorem Informed.forget (informed : Informed state) {found : Found}
    (place : state.closed.Perm (⟨pool, lastKey, some found⟩ :: closed))
    (mine : found.rvalue.pool = pool)
    (done : eraseValue state.map found.rkey found.rvalue = some map)
    (owner : state.regions.Perm (region :: rest))
    (entry : (found.rkey, found.rvalue) ∈ region.entries) :
    Informed { state with
      map := map
      regions := region.forgotten :: rest
      closed := ⟨pool, found.rkey, none⟩ :: closed } := by
  have member : region ∈ state.regions := owner.mem_iff.mpr List.mem_cons_self
  have valid := informed.valid region member
  have stored := (informed.known _ _).mpr ⟨region, member, entry⟩
  obtain ⟨last, erased, shaped, changed⟩ := eraseValue_spec informed.shaped stored
  rw [done] at erased
  cases erased
  -- There is no call on the region, and what is known of it is where it begins.
  obtain ⟨calm, -⟩ := informed.quiet _ (place.mem_iff.mpr List.mem_cons_self) region member
    ((valid.inside entry).1.symm.trans mine)
  have single : region.entries = [(found.rkey, found.rvalue)] := by
    cases phase : region.phase with
    | rest tracked =>
      cases tracked with
      | true =>
        simp only [Region.entries, phase, if_true, List.mem_singleton] at entry
        simp [Region.entries, phase, entry]
      | false =>
        simp [Region.entries, phase] at entry
    | adding | opening | freeing removed | closing =>
      rw [phase] at calm
      exact absurd calm id
    | divided part | added part | joined part | updated part =>
      rw [phase] at calm
      exact absurd calm id
  have forgotten : region.forgotten.entries = [] := rfl
  -- The region is exchanged for one that nothing is known of.
  have exchanged := informed.exchange [region] [region.forgotten] owner state.locked shaped changed
    ⟨region, List.mem_singleton_self _, valid.covers entry⟩
    (List.forall_mem_singleton.mpr ⟨valid.address, valid.positive, valid.bounded, trivial⟩)
    (List.pairwise_singleton _ _)
    (List.forall_mem_singleton.mpr fun other _ apart => apart region (List.mem_singleton_self _))
    (fun value => by simp [forgotten])
    (fun other value different => by simp [single, forgotten, different])
    (List.forall_mem_singleton.mpr fun closing _ _ => ⟨trivial, by simp [forgotten]⟩)
  refine exchanged.advance place rfl fun key value there _ ahead => Closing.ahead_of_lt ?_
  -- What was found is no longer there.
  refine lt_of_le_of_ne (ahead.found found rfl) fun same => ?_
  replace there : contents map key = some value := there
  replace same : found.rkey = key := same
  rw [changed, ← same, Function.update_self] at there
  cases there

/-- A pool is destroyed as long as the tracker knows something of its regions. -/
theorem Informed.closeEnd (informed : Informed state)
    (place : state.closed.Perm (⟨pool, lastKey, none⟩ :: closed))
    (found : critnibFind state.map lastKey .g = none) : Informed { state with
      regions := state.regions.filter fun region => region.pool ≠ pool, closed := closed } := by
  have kept : ∀ region ∈ state.regions.filter fun region => region.pool ≠ pool,
      region ∈ state.regions := fun region member => (List.mem_filter.mp member).1
  -- The other regions stay, and those of the pool are not known to the tracker any more.
  refine ⟨informed.shaped, fun region member => informed.valid region (kept region member),
    informed.apart.filter _, fun key value => ?_, fun entry member region inside same => ?_⟩
  · rw [informed.known]
    apply Iff.intro
    · rintro ⟨region, inside, mine⟩
      refine ⟨region, List.mem_filter.mpr ⟨inside, ?_⟩, mine⟩
      rw [decide_eq_true_eq]
      -- There is no region of the pool that the tracker knows of.
      intro same
      have ahead :=
        (informed.quiet _ (place.mem_iff.mpr List.mem_cons_self) region inside same).2 _ mine
      have there := (informed.known key value).mpr ⟨region, inside, mine⟩
      rcases findGreater_spec informed.shaped lastKey with ⟨_, _, answer, -⟩ | ⟨-, nothing⟩
      · rw [found] at answer
        cases answer
      · exact nothing key (by rw [there]; exact Option.some_ne_none _) ahead.behind
    · rintro ⟨region, inside, mine⟩
      exact ⟨region, kept region inside, mine⟩
  · exact informed.quiet entry (place.mem_iff.mpr (List.mem_cons_of_mem _ member)) region
      (kept region inside) same

end Closing

end SecretTyping.Umf.Tracker
