import SecretTyping.Umf.TrackerFound

/-! Whatever calls are made at the same time, the tracker tells of each pointer what it is into. -/

namespace SecretTyping.Umf.Tracker

open Critnib

variable {state after : State} {ptr : Word}

/-- What the tracker knows of a region is behind the address zero. -/
theorem Region.Valid.key_positive {region : Region} (valid : region.Valid) {key : Word}
    {value : Value} (entry : (key, value) ∈ region.entries) : (0 : Word) < key := by
  -- No region begins at zero, and an entry is inside of its region.
  have lower := (valid.inside entry).2.2.1
  have nonzero : region.ptr.toNat ≠ 0 := fun zero => valid.address (BitVec.eq_of_toNat_eq zero)
  rw [BitVec.lt_def]
  show 0 < key.toNat
  omega

/-- A step of a call leaves the tracker with what it has to know. -/
theorem Step.informed (step : Step state after) (informed : Informed state)
    (current : Current state) : Informed after := by
  -- The cases are those of the step; a call is only made for a pool that is open.
  cases step with
  | alloc isOpen given => exact informed.grow isOpen given trivial rfl
  | openHandle isOpen given => exact informed.grow isOpen given trivial rfl
  | add place done => exact (informed.add place id rfl done).2
  | @addOpened pool ptr size rest memory result map place done =>
    -- An opened region that cannot be added is given back, and the tracker does not know of it.
    obtain ⟨-, tracked⟩ := informed.add place id rfl done
    by_cases success : result = .success
    · simpa only [success, if_true, decide_true] using tracked
    · simp only [success, if_false, decide_false] at tracked ⊢
      exact tracked.drop (List.Perm.refl _) tracked.shaped rfl rfl
  | @remove pool ptr size tracked rest result map isOpen place done =>
    have fits : Phase.Fits size (.freeing (result = .success)) := trivial
    exact (informed.remove isOpen place done fits rfl).release ptr
  | free place => exact informed.drop place informed.shaped rfl rfl
  | @notFreed pool ptr size removed rest place =>
    have isOpen := (informed.perm place).isOpen List.mem_cons_self id
    cases removed with
    | true => exact informed.keep place isOpen informed.shaped rfl trivial rfl
    | false => exact informed.keep place isOpen informed.shaped rfl trivial rfl
  | @removeOpened pool ptr size tracked rest result map isOpen place done =>
    have fits : Phase.Fits size .closing := trivial
    exact (informed.remove isOpen place done fits rfl).release ptr
  | closeHandle isClosed place =>
    have isOpen := (informed.perm place).isOpen List.mem_cons_self id
    cases isClosed with
    | true => exact informed.drop place informed.shaped rfl rfl
    | false => exact informed.keep place isOpen informed.shaped rfl trivial rfl
  | divide isOpen free place valid found => exact informed.divide isOpen place valid found
  | addSecond place done => exact (informed.addSecond place done).2
  | @updateFirst pool ptr size firstSize rest memory map place done =>
    exact (informed.updateFirst place done).release ptr
  | join isOpen free place valid found => exact informed.join isOpen place found
  | @updateLow pool ptr size lowSize rest memory map place done =>
    exact (informed.updateLow place done).release ptr
  | @removeHigh pool ptr size lowSize rest map place done =>
    exact (informed.removeHigh place done).release (ptr + lowSize)
  | @close pool isOpen quiet =>
    -- A pool is only destroyed when no call goes on with its regions, and nothing has been removed
    -- yet.
    refine ⟨informed.shaped, informed.valid, informed.apart, informed.known,
      fun closing member region inside same => ?_⟩
    rcases List.mem_cons.mp member with rfl | member
    · refine ⟨quiet region inside same, fun known mine => ?_⟩
      exact Closing.ahead_of_lt ((informed.valid region inside).key_positive mine)
    · exact informed.quiet closing member region inside same
  | findNext place found => exact (informed.findNext place found).2
  | @pass pool lastKey found closed place other =>
    -- What has been found of the pool itself is fresh.
    refine informed.pass place fun mine => ?_
    have own := (current.closings _ (place.mem_iff.mpr List.mem_cons_self) found rfl).2
    exact other (own mine) mine
  | @forget pool lastKey found closed region rest map place mine done owner entry =>
    exact (informed.forget place mine done owner entry).release found.rkey
  | closeEnd place found => exact informed.closeEnd place found
  | find address found =>
    exact ⟨informed.shaped, informed.valid, informed.apart, informed.known, informed.quiet⟩
  | read place =>
    exact ⟨informed.shaped, informed.valid, informed.apart, informed.known, informed.quiet⟩

/-- A region has the address where it begins. -/
theorem Region.Valid.covers_ptr {region : Region} (valid : region.Valid) :
    region.Covers region.ptr :=
  ⟨Nat.le_refl _, Nat.lt_add_of_pos_right valid.positive⟩

/-- A step of a call leaves what has been found there, unless its value is freed. -/
theorem Step.current (step : Step state after) (informed : Informed state)
    (current : Current state) : Current after := by
  -- The cases are those of the step: it adds to the map, frees a value of an open pool or of its
  -- own, or finds something.
  cases step with
  | alloc isOpen given => exact current.grow fun _ _ there => there
  | openHandle isOpen given => exact current.grow fun _ _ there => there
  | add place done => exact current.grow (umfMemoryTrackerAdd_done informed.shaped done)
  | addOpened place done => exact current.grow (umfMemoryTrackerAdd_done informed.shaped done)
  | remove isOpen place done =>
    have member := place.mem_iff.mpr List.mem_cons_self
    exact current.releaseRegion informed member isOpen (informed.valid _ member).covers_ptr
      (umfMemoryTrackerRemove_done informed.shaped done)
  | free place => exact current.grow fun _ _ there => there
  | notFreed place => exact current.grow fun _ _ there => there
  | removeOpened isOpen place done =>
    have member := place.mem_iff.mpr List.mem_cons_self
    exact current.releaseRegion informed member isOpen (informed.valid _ member).covers_ptr
      (umfMemoryTrackerRemove_done informed.shaped done)
  | closeHandle isClosed place => exact current.grow fun _ _ there => there
  | divide isOpen free place valid found => exact current.grow fun _ _ there => there
  | addSecond place done => exact current.grow (umfMemoryTrackerAdd_done informed.shaped done)
  | updateFirst place done =>
    have member := place.mem_iff.mpr List.mem_cons_self
    exact current.releaseRegion informed member (informed.isOpen member id)
      (informed.valid _ member).covers_ptr (updateValue_done informed.shaped done)
  | join isOpen free place valid found => exact current.grow fun _ _ there => there
  | updateLow place done =>
    have member := place.mem_iff.mpr List.mem_cons_self
    exact current.releaseRegion informed member (informed.isOpen member id)
      (informed.valid _ member).covers_ptr (updateValue_done informed.shaped done)
  | @removeHigh pool ptr size lowSize rest map place done =>
    have member := place.mem_iff.mpr List.mem_cons_self
    have valid := informed.valid _ member
    have covers := (back_covers pool (.updated lowSize) valid.bounded valid.fits).2.2
    exact current.releaseRegion informed member (informed.isOpen member id) covers
      (eraseValue_done informed.shaped done).2
  | @close pool isOpen quiet =>
    -- The pool is open, so it is not being destroyed already.
    refine ⟨List.pairwise_cons.mpr ⟨fun other member => (isOpen other member).symm, current.once⟩,
      fun closing member => ?_, current.lookups⟩
    rcases List.mem_cons.mp member with rfl | member
    · intro _ none
      cases none
    · exact current.closings closing member
  | findNext place found =>
    obtain ⟨stored, -⟩ := informed.findNext place found
    refine current.advance place rfl fun last same => ?_
    cases same
    exact ⟨fun _ => stored, fun _ => rfl⟩
  | pass place other =>
    refine current.advance place rfl fun _ none => ?_
    cases none
  | forget place mine done owner entry => exact current.forget informed.shaped place mine done
  | closeEnd place found =>
    have once := (place.pairwise_iff fun different => Ne.symm different).mp current.once
    exact ⟨(List.pairwise_cons.mp once).2, fun closing member =>
      current.closings closing (place.mem_iff.mpr (List.mem_cons_of_mem _ member)), current.lookups⟩
  | @find ptr rkey rvalue address found =>
    -- What is found by the lookup is there at this moment.
    refine ⟨current.once, current.closings, fun lookup member => ?_⟩
    rcases List.mem_cons.mp member with rfl | member
    · rcases findLe_spec informed.shaped ptr with
        ⟨key, value, answer, stored, before, -⟩ | ⟨answer, -⟩
      · rw [found] at answer
        cases answer
        exact ⟨before, fun _ => stored⟩
      · rw [found] at answer
        cases answer
    · exact current.lookups lookup member
  | read place =>
    exact ⟨current.once, current.closings, fun lookup member =>
      current.lookups lookup (place.mem_iff.mpr (List.mem_cons_of_mem _ member))⟩

/-- The tracker always knows what it has to, and what has been found is there unless its value has
been freed. -/
theorem Reachable.sound (reached : Reachable state) : Informed state ∧ Current state := by
  -- By induction on the steps.
  induction reached with
  | start =>
    refine ⟨⟨shaped_critnibNew, fun _ none => absurd none List.not_mem_nil, List.Pairwise.nil,
      fun key value => ?_, fun _ none => absurd none List.not_mem_nil⟩,
      List.Pairwise.nil, fun _ none => absurd none List.not_mem_nil,
      fun _ none => absurd none List.not_mem_nil⟩
    refine iff_of_false (fun found => ?_) ?_
    · have empty : contents (critnibNew : Map) key = none := rfl
      exact Option.some_ne_none value (found.symm.trans empty)
    · rintro ⟨region, none, -⟩
      exact absurd none List.not_mem_nil
  | step reached step ih => exact ⟨step.informed ih.1 ih.2, step.current ih.1 ih.2⟩

/-- The tracker always knows what it has to. -/
theorem Reachable.informed (reached : Reachable state) : Informed state := reached.sound.1

/-- A region may be said to be the first one. -/
theorem exists_perm {region : Region} {regions : List Region} (member : region ∈ regions) :
    ∃ rest, regions.Perm (region :: rest) := by
  obtain ⟨before, behind, rfl⟩ := List.append_of_mem member
  exact ⟨before ++ behind, List.perm_middle⟩

/-- Where a region of the tracker ends is computed without overflow. -/
theorem Informed.ends (informed : Informed state) {key : Word} {value : Value}
    (found : contents state.map key = some value) :
    (key + value.size).toNat = key.toNat + value.size.toNat := by
  obtain ⟨region, member, entry⟩ := (informed.known key value).mp found
  have valid := informed.valid region member
  have bounded := valid.bounded
  obtain ⟨-, -, -, upper⟩ := valid.inside entry
  rw [BitVec.toNat_add]
  omega

/-- The tracker knows of a tracked region without a call. -/
theorem Informed.there (informed : Informed state) {region : Region}
    (member : region ∈ state.regions) (phase : region.phase = .rest true) :
    region.entries = [region.whole] ∧ contents state.map region.ptr ≠ none := by
  have entries : region.entries = [region.whole] := by
    rw [Region.entries, phase]
    rfl
  have known : (region.ptr, ⟨region.pool, region.size⟩) ∈ region.entries := by
    rw [entries]
    exact List.mem_cons_self
  refine ⟨entries, ?_⟩
  rw [(informed.known _ _).mpr ⟨region, member, known⟩]
  exact Option.some_ne_none _

/-- What is told of a pointer, by what is known of a region in front of it, is inside of memory that
an upstream provider has given for the pool. -/
theorem Informed.told (informed : Informed state) {rkey : Word} {rvalue : Value}
    (stored : contents state.map rkey = some rvalue) (before : rkey ≤ ptr) {info : AllocInfo}
    (told : allocInfo ptr (some (rkey, rvalue)) = (.success, some info)) :
    info.base.toNat ≤ ptr.toNat ∧ ptr.toNat < info.base.toNat + info.baseSize.toNat ∧
      ∃ region ∈ state.regions, region.pool = info.pool ∧
        region.ptr.toNat ≤ info.base.toNat ∧
        info.base.toNat + info.baseSize.toNat ≤ region.ptr.toNat + region.size.toNat := by
  -- The value is that of an entry, which lies inside of its region.
  obtain ⟨owner, home, entry⟩ := (informed.known rkey rvalue).mp stored
  obtain ⟨pool, -, lower, upper⟩ := (informed.valid owner home).inside entry
  rw [allocInfo] at told
  split at told
  · cases told
  · next inside =>
    cases told
    rw [BitVec.le_def, informed.ends stored] at inside
    exact ⟨BitVec.le_def.mp before, Nat.lt_of_not_le inside, owner, home, pool.symm, lower, upper⟩

/-- A pointer into a tracked region without a call is told with that region. -/
theorem Informed.told_region (informed : Informed state) {region : Region}
    (member : region ∈ state.regions) (phase : region.phase = .rest true)
    (covers : region.Covers ptr) :
    allocInfo ptr (critnibFind state.map ptr .le) =
      (.success, some ⟨region.ptr, region.size, region.pool⟩) := by
  obtain ⟨entries, there⟩ := informed.there member phase
  rcases findLe_spec informed.shaped ptr with
    ⟨rkey, rvalue, found, stored, before, greatest⟩ | ⟨-, nothing⟩
  · -- The region begins before the pointer, and nothing in it begins later.
    have first := BitVec.le_def.mp (greatest region.ptr there (BitVec.le_def.mpr covers.1))
    have begins := BitVec.le_def.mp before
    have inside := covers.2
    have mine := informed.owns member ⟨first, by omega⟩ stored
    rw [entries] at mine
    obtain ⟨rfl, rfl⟩ := Prod.mk.inj (List.mem_singleton.mp mine)
    rw [found, allocInfo, if_neg]
    rw [BitVec.le_def, informed.ends stored]
    show ¬region.ptr.toNat + region.size.toNat ≤ ptr.toNat
    omega
  · exact absurd (BitVec.le_def.mpr covers.1) (nothing region.ptr there)

/-- A pointer into no region is told with none. -/
theorem Informed.told_none (informed : Informed state)
    (nowhere : ∀ region ∈ state.regions, ¬region.Covers ptr) :
    allocInfo ptr (critnibFind state.map ptr .le) = (.invalidArgument, none) := by
  rcases findLe_spec informed.shaped ptr with
    ⟨rkey, rvalue, found, stored, before, -⟩ | ⟨found, -⟩
  · -- What is found ends before the pointer, as it is inside of a region.
    obtain ⟨owner, home, entry⟩ := (informed.known rkey rvalue).mp stored
    obtain ⟨-, -, lower, upper⟩ := (informed.valid owner home).inside entry
    have begins := BitVec.le_def.mp before
    rw [found, allocInfo, if_pos]
    rw [BitVec.le_def, informed.ends stored]
    by_contra inside
    exact nowhere owner home ⟨by omega, by omega⟩
  · rw [found, allocInfo]

/-- Whatever calls are made at the same time, a call that reads the value it has found for a pointer
before that is freed tells of memory around the pointer that an upstream provider has given for that
pool and not got back; what is found for a pointer into a tracked region without a call tells of
that region, and for a pointer into no region of none. -/
theorem tracker_agrees (reached : Reachable state) :
    (∀ lookup ∈ state.lookups, lookup.found.fresh = true → ∀ info,
      lookup.told = (.success, some info) →
      info.base.toNat ≤ lookup.ptr.toNat ∧
      lookup.ptr.toNat < info.base.toNat + info.baseSize.toNat ∧
      ∃ region ∈ state.regions, region.pool = info.pool ∧
        region.ptr.toNat ≤ info.base.toNat ∧
        info.base.toNat + info.baseSize.toNat ≤ region.ptr.toNat + region.size.toNat) ∧
    (∀ ptr, ∀ region ∈ state.regions, region.phase = .rest true → region.Covers ptr →
      allocInfo ptr (critnibFind state.map ptr .le) =
        (.success, some ⟨region.ptr, region.size, region.pool⟩)) ∧
    (∀ ptr, (∀ region ∈ state.regions, ¬region.Covers ptr) →
      allocInfo ptr (critnibFind state.map ptr .le) = (.invalidArgument, none)) := by
  -- What holds of a lookup is that its value is there if it is fresh.
  obtain ⟨informed, current⟩ := reached.sound
  refine ⟨fun lookup member fresh info told => ?_,
    fun ptr region member phase covers => informed.told_region member phase covers,
    fun ptr nowhere => informed.told_none nowhere⟩
  obtain ⟨before, there⟩ := current.lookups lookup member
  exact informed.told (there fresh) before told

/-- The map of the tracker when 64 bytes have been allocated for a pool. -/
def firstMap : Map := { (critnibNew : Map) with root := .leaf 1 4096 ⟨7, 64⟩, allocated := [1] }

/-- The map of the tracker when 32 bytes have been allocated for another pool. -/
def sampleMap : Map :=
  { firstMap with
    root := newNode 3 8192 4096 (shiftOf (4096 ^^^ 8192)) (.leaf 2 8192 ⟨9, 32⟩)
      (.leaf 1 4096 ⟨7, 64⟩)
    allocated := [3, 2, 1] }

/-- The state when two pools have memory, one is given more, and a call asks for a pointer. -/
def sampleState : State where
  map := sampleMap
  regions := [⟨7, 12288, 16, .adding⟩, settled 9 8192 32 true, settled 7 4096 64 true]
  locked := false
  closed := []
  lookups := [⟨4100, ⟨4096, ⟨7, 64⟩, true⟩⟩]

/-- The memory of two pools can be used, and asked for. -/
theorem reachable_sampleState : Reachable sampleState := by
  have isOpen : ∀ pool, ∀ closing ∈ ([] : List Closing), closing.pool ≠ pool :=
    fun _ _ none => absurd none List.not_mem_nil
  -- The first pool is given 64 bytes, which are added.
  have given : Given [] ⟨7, 4096, 64, .adding⟩ :=
    ⟨by decide, by decide, by decide, fun _ none => absurd none List.not_mem_nil⟩
  have added : umfMemoryTrackerAdd critnibNew 7 4096 64 ⟨true, some 1, none⟩ =
      some (.success, firstMap) := rfl
  have first := (Reachable.start.step (.alloc (isOpen 7) given)).step
    (.add (List.Perm.refl _) added)
  -- So is the other pool with 32 bytes behind them.
  have givenNext : Given [settled 7 4096 64 true] ⟨9, 8192, 32, .adding⟩ :=
    ⟨by decide, by decide, by decide, List.forall_mem_singleton.mpr (Or.inr (by decide))⟩
  have addedNext : umfMemoryTrackerAdd firstMap 9 8192 32 ⟨true, some 2, some 3⟩ =
      some (.success, sampleMap) := rfl
  have second := (first.step (.alloc (isOpen 9) givenNext)).step
    (.add (List.Perm.refl _) addedNext)
  -- The first pool is given 16 bytes more, and a pointer into its first ones is looked up.
  have givenLast : Given [settled 9 8192 32 true, settled 7 4096 64 true]
      ⟨7, 12288, 16, .adding⟩ := by
    refine ⟨by decide, by decide, by decide, fun other member => Or.inr ?_⟩
    rcases List.mem_cons.mp member with rfl | member
    · decide
    · cases List.mem_singleton.mp member
      decide
  have third := second.step (.alloc (isOpen 7) givenLast)
  have address : (4100 : Word) ≠ 0 := by decide
  have found : critnibFind sampleMap 4100 .le = some (4096, ⟨7, 64⟩) := rfl
  have asked := third.step (.find address found)
  exact asked

/-- A call under way tells of memory of its pool, and pointers into the memory of the other pool and
into none are told as such. -/
theorem tracker_agrees_sample :
    (∃ region ∈ sampleState.regions, region.pool = 7 ∧ region.ptr.toNat ≤ 4096 ∧
      4160 ≤ region.ptr.toNat + region.size.toNat) ∧
    allocInfo 8200 (critnibFind sampleState.map 8200 .le) = (.success, some ⟨8192, 32, 9⟩) ∧
    allocInfo 5000 (critnibFind sampleState.map 5000 .le) = (.invalidArgument, none) := by
  obtain ⟨read, whole, nowhere⟩ := tracker_agrees reachable_sampleState
  have member : settled 9 8192 32 true ∈ sampleState.regions :=
    List.mem_cons_of_mem _ List.mem_cons_self
  -- The lookup goes by what it has found, the other two by the map.
  refine ⟨?_, whole 8200 _ member rfl ⟨?_, ?_⟩, nowhere 5000 fun region member => ?_⟩
  · exact (read _ List.mem_cons_self rfl ⟨4096, 64, 7⟩ rfl).2.2
  · decide
  · decide
  · rintro ⟨lower, upper⟩
    rcases List.mem_cons.mp member with rfl | member
    · exact absurd lower (by decide)
    · rcases List.mem_cons.mp member with rfl | member
      · exact absurd lower (by decide)
      · cases List.mem_singleton.mp member
        exact absurd upper (by decide)

/-- Whatever calls are made at the same time, the tracker never finds that a region is there already
when it is added, and no assertion fails but one: that a size cannot fail to be changed, which it
does exactly if there is no memory for a leaf, although none is needed. What a pool that is
destroyed has found of its own is still there when it is removed, whatever steps have been made
since. -/
theorem tracker_assertions (reached : Reachable state) :
    (∀ region ∈ state.regions, region.phase = .adding ∨ region.phase = .opening →
      ∀ memory, ∃ result map, result ≠ .unknown ∧
        umfMemoryTrackerAdd state.map region.pool region.ptr region.size memory =
          some (result, map)) ∧
    (∀ region ∈ state.regions, ∀ firstSize, region.phase = .divided firstSize →
      ∀ memory, ∃ result map, result ≠ .unknown ∧
        umfMemoryTrackerAdd state.map region.pool (region.ptr + firstSize)
          (region.size - firstSize) memory = some (result, map)) ∧
    (∀ region ∈ state.regions, ∀ part, region.phase = .added part ∨ region.phase = .joined part →
      ∀ size memory, updateValue state.map region.pool region.ptr size memory = none ↔
        allocLeaf state.map memory.leaf = none) ∧
    (∀ region ∈ state.regions, ∃ result map,
      umfMemoryTrackerRemove state.map region.ptr = some (result, map)) ∧
    (∀ region ∈ state.regions, ∀ lowSize, region.phase = .updated lowSize →
      ∃ map, eraseValue state.map (region.ptr + lowSize) ⟨region.pool, region.size - lowSize⟩ =
        some map) ∧
    (∀ closing ∈ state.closed, ∀ found, closing.found = some found →
      found.rvalue.pool = closing.pool → found.fresh = true ∧
        ∃ map, eraseValue state.map found.rkey found.rvalue = some map) := by
  obtain ⟨informed, current⟩ := reached.sound
  refine ⟨?_, ?_, ?_, ?_, ?_, ?_⟩
  · -- A region that is being added is not in the map yet.
    rintro ⟨pool, ptr, size, phase⟩ member call memory
    obtain ⟨rest, place⟩ := exists_perm member
    obtain ⟨result, map, done, -⟩ :=
      umfMemoryTrackerAdd_spec informed.shaped (informed.valid _ member).address pool size memory
    refine ⟨result, map, ?_, done⟩
    rcases call with same | same
    · replace same : phase = .adding := same
      subst same
      exact (informed.add place id rfl done).1
    · replace same : phase = .opening := same
      subst same
      exact (informed.add place id rfl done).1
  · -- Nor is the second part of one that has been split.
    rintro ⟨pool, ptr, size, phase⟩ member firstSize rfl memory
    obtain ⟨rest, place⟩ := exists_perm member
    have valid := informed.valid _ member
    obtain ⟨address, -⟩ := back_covers pool .adding valid.bounded valid.fits
    obtain ⟨result, map, done, -⟩ :=
      umfMemoryTrackerAdd_spec informed.shaped address pool (size - firstSize) memory
    exact ⟨result, map, (informed.addSecond place done).1, done⟩
  · -- The first entry of what is being split or merged is there, so an update fails only for want
    -- of a leaf.
    intro region member part call size memory
    have there : contents state.map region.ptr ≠ none := by
      rcases call with phase | phase
      · rw [(informed.known region.ptr ⟨region.pool, region.size⟩).mpr
          ⟨region, member, by rw [Region.entries, phase]; exact List.mem_cons_self⟩]
        exact Option.some_ne_none _
      · rw [(informed.known region.ptr ⟨region.pool, part⟩).mpr
          ⟨region, member, by rw [Region.entries, phase]; exact List.mem_cons_self⟩]
        exact Option.some_ne_none _
    rcases updateValue_spec informed.shaped there region.pool size memory with
      ⟨refused, failed⟩ | ⟨given, after, done, -⟩
    · exact iff_of_true failed refused
    · rw [done]
      exact iff_of_false (Option.some_ne_none _) given
  · -- A removal has no assertion that depends on what is there.
    intro region member
    obtain ⟨result, map, done, -⟩ :=
      umfMemoryTrackerRemove_spec informed.shaped (informed.valid region member).address
    exact ⟨result, map, done⟩
  · -- The second entry of two regions that have been merged is there with its size.
    intro region member lowSize phase
    have entry : region.back lowSize ∈ region.entries := by
      rw [Region.entries, phase]
      exact List.mem_cons_of_mem _ List.mem_cons_self
    obtain ⟨map, done, -⟩ :=
      eraseValue_spec informed.shaped ((informed.known _ _).mpr ⟨region, member, entry⟩)
    exact ⟨map, done⟩
  · -- What a closing has found of its own pool is still there, as only the pool itself removes it.
    intro closing listed found some mine
    obtain ⟨there, own⟩ := current.closings closing listed found some
    obtain ⟨map, done, -⟩ := eraseValue_spec informed.shaped (there (own mine))
    exact ⟨own mine, map, done⟩

/-- The map of the tracker when the second part of 64 bytes has been added. -/
def partsMap : Map :=
  { sampleMap with
    root := store 4112 (newNode 5 4112 4096 (shiftOf (4096 ^^^ 4112)) (.leaf 4 4112 ⟨7, 48⟩)
      (.leaf 1 4096 ⟨7, 64⟩)) sampleMap.root
    allocated := [5, 4, 3, 2, 1] }

/-- The state when 64 bytes of a pool are being split, and the other pool is being destroyed. -/
def partsState : State where
  map := partsMap
  regions := [⟨7, 4096, 64, .added 16⟩, ⟨7, 12288, 16, .adding⟩, settled 9 8192 32 true]
  locked := true
  closed := [⟨9, 4096, some ⟨8192, ⟨9, 32⟩, true⟩⟩]
  lookups := [⟨4100, ⟨4096, ⟨7, 64⟩, true⟩⟩]

/-- The 64 bytes of a pool can be split while the other pool is destroyed. -/
theorem reachable_partsState : Reachable partsState := by
  have isOpen : ∀ closing ∈ ([] : List Closing), closing.pool ≠ 9 :=
    fun _ none => absurd none List.not_mem_nil
  have quiet : ∀ region ∈ sampleState.regions, region.pool = 9 → region.phase.Settled := by
    intro region member same
    rcases List.mem_cons.mp member with rfl | member
    · exact absurd same (by decide)
    · rcases List.mem_cons.mp member with rfl | member
      · exact trivial
      · cases List.mem_singleton.mp member
        exact trivial
  -- The other pool passes on the region that is split, and finds its own one.
  have found : critnibFind sampleMap 0 .g = some (4096, ⟨7, 64⟩) := rfl
  have foundNext : critnibFind sampleMap 4096 .g = some (8192, ⟨9, 32⟩) := rfl
  have closing := reachable_sampleState.step (.close isOpen quiet)
  have passing := (closing.step (.findNext (List.Perm.refl _) found)).step
    (.pass (List.Perm.refl _) fun _ => by decide)
  have finding := passing.step (.findNext (List.Perm.refl _) foundNext)
  -- The first pool splits its region before that one is removed.
  have stillOpen : ∀ closing ∈ [(⟨9, 4096, some ⟨8192, ⟨9, 32⟩, true⟩⟩ : Closing)],
      closing.pool ≠ 7 := List.forall_mem_singleton.mpr (by decide)
  have place : ([⟨7, 12288, 16, .adding⟩, settled 9 8192 32 true] ++ [settled 7 4096 64 true]).Perm
      ([settled 7 4096 64 true] ++ [⟨7, 12288, 16, .adding⟩, settled 9 8192 32 true]) :=
    List.perm_append_comm
  have valid : splitValid 4096 64 16 = true := rfl
  have divided := finding.step (.divide stillOpen rfl place valid rfl)
  have added : umfMemoryTrackerAdd sampleMap 7 (4096 + 16) (64 - 16) ⟨true, some 4, some 5⟩ =
      some (.success, partsMap) := rfl
  have after := divided.step (.addSecond (List.Perm.refl _) added)
  exact after

/-- The size of the first part is not changed if there is no memory for a leaf, and the other pool
can remove the region that it has found. -/
theorem tracker_assertions_parts :
    updateValue partsMap 7 4096 16 ⟨none, none⟩ = none ∧
      ∃ map, eraseValue partsMap 8192 ⟨9, 32⟩ = some map := by
  obtain ⟨-, -, updates, -, -, closings⟩ := tracker_assertions reachable_partsState
  have member : ⟨7, 4096, 64, .added 16⟩ ∈ partsState.regions := List.mem_cons_self
  refine ⟨(updates _ member 16 (Or.inl rfl) 16 ⟨none, none⟩).mpr rfl, ?_⟩
  exact (closings _ List.mem_cons_self ⟨8192, ⟨9, 32⟩, true⟩ rfl rfl).2

/-- Whatever calls have been made, the loop that clears the tracker for a pool ends, without an
assertion that fails, and removes what is known of the regions of the pool and nothing else. -/
theorem clear_exact (reached : Reachable state) (pool : Option Nat) {fuel : Nat}
    (enough : 2 ^ 64 < fuel) :
    ∃ count map, clearTrackerForThePool fuel state.map pool = some (count, map) ∧
      ∀ key value, contents map key = some value ↔
        contents state.map key = some value ∧ pool ≠ some value.pool ∧ pool ≠ none := by
  -- The loop removes what is behind the key zero.
  have informed := reached.informed
  have zero : (0 : Word).toNat = 0 := rfl
  obtain ⟨count, map, done, -, spec⟩ :=
    clearLoop_spec informed.shaped pool fuel 0 (by omega) 0
  refine ⟨count, map, done, fun key value => ?_⟩
  rw [spec]
  refine and_congr_right fun found => ?_
  -- Every key that is there is behind zero.
  obtain ⟨region, member, entry⟩ := (informed.known key value).mp found
  have behind := (informed.valid region member).key_positive entry
  rw [Cleared, not_and, not_or]
  exact ⟨fun other => other behind, fun other _ => other⟩

/-- The regions of a pool are removed while the other one splits its own, if there is enough
fuel. -/
theorem clear_exact_sample : ∃ count map,
    clearTrackerForThePool (2 ^ 64 + 1) partsState.map (some 9) = some (count, map) ∧
      ∀ key value, contents map key = some value ↔
        contents partsState.map key = some value ∧ some 9 ≠ some value.pool ∧ some 9 ≠ none :=
  clear_exact reachable_partsState (some 9) (Nat.lt_succ_self _)

end SecretTyping.Umf.Tracker
