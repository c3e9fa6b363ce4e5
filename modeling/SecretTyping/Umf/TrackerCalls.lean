import Mathlib.Logic.Relation
import SecretTyping.Umf.TrackerRuns

/-! A call that is made alone goes through its steps. -/

namespace SecretTyping.Umf.Tracker

open Critnib Relation

variable {state : State} {pool : Nat} {ptr size : Word} {map : Map} {rest : List Region}

/-- One state is led to from another one by steps. -/
abbrev Steps : State → State → Prop := ReflTransGen Step

/-- What steps lead to from a state that is reachable is reachable. -/
theorem Reachable.steps {after : State} (reached : Reachable state) (steps : Steps state after) :
    Reachable after := by
  -- By induction on the steps.
  induction steps with
  | refl => exact reached
  | tail _ step ih => exact ih.step step

/-- An allocation goes through its steps. -/
theorem trackingAlloc_steps (isOpen : state.Open pool)
    (given : Given state.regions ⟨pool, ptr, size, .adding⟩) {memory : AddMemory}
    {reply : Result × Word}
    (done : trackingAlloc state.map pool size (.success, ptr) memory = some (reply, map)) :
    reply = (.success, ptr) ∧ ∃ tracked, Steps state { state with
      map := map, regions := settled pool ptr size tracked :: state.regions } := by
  -- The upstream provider has given memory, so the call goes on and adds it.
  have address : ptr ≠ 0 := given.address
  rw [trackingAlloc, if_neg (by simpa using address)] at done
  cases added : umfMemoryTrackerAdd state.map pool ptr size memory with
  | none =>
    simp [added] at done
  | some answer =>
    obtain ⟨result, last⟩ := answer
    simp only [added, Option.some.injEq, Prod.mk.injEq] at done
    -- First the memory is given, then it is added; whether that succeeds only decides if it is
    -- tracked.
    obtain ⟨rfl, rfl⟩ := done
    have first := ReflTransGen.single (Step.alloc isOpen given)
    have second := first.tail (.add (List.Perm.refl _) added)
    exact ⟨rfl, _, second⟩

/-- A call that frees goes through its steps. -/
theorem trackingFree_steps (informed : Informed state) {tracked : Bool} (isOpen : state.Open pool)
    (place : state.regions.Perm (settled pool ptr size tracked :: rest)) {upstream reply : Result}
    {memory : AddMemory}
    (done : trackingFree state.map pool ptr size upstream memory = some (reply, map)) :
    reply = upstream ∧ ∃ tracked, Steps state (State.release { state with
      map := map
      regions := if upstream = .success then rest
        else settled pool ptr size tracked :: rest } ptr) := by
  -- The region is removed first, which may find nothing.
  have address : ptr ≠ 0 := ((informed.perm place).valid _ List.mem_cons_self).address
  rw [trackingFree, if_neg address] at done
  cases removed : umfMemoryTrackerRemove state.map ptr with
  | none => simp [removed] at done
  | some answer =>
    obtain ⟨result, middle⟩ := answer
    have first := ReflTransGen.single (Step.remove isOpen place removed)
    simp only [removed] at done
    -- Then it is freed, or else added again.
    by_cases success : upstream = .success
    · simp only [success, if_true, Option.some.injEq, Prod.mk.injEq] at done
      obtain ⟨rfl, rfl⟩ := done
      have second := first.tail (.free (List.Perm.refl _))
      simp only [success, if_true]
      exact ⟨trivial, false, second⟩
    · simp only [success, if_false] at done
      simp only [success, if_false]
      have second := first.tail (.notFreed (List.Perm.refl _))
      by_cases there : result = .success
      · -- The region has been removed, and is added again.
        subst there
        simp only [ne_eq, not_true_eq_false, if_false] at done
        cases added : umfMemoryTrackerAdd middle pool ptr size memory with
        | none => simp [added] at done
        | some answer =>
          obtain ⟨result, last⟩ := answer
          simp only [added, Option.some.injEq, Prod.mk.injEq] at done
          obtain ⟨rfl, rfl⟩ := done
          have third := second.tail (.add (List.Perm.refl _) added)
          exact ⟨rfl, _, third⟩
      · simp only [ne_eq, there, not_false_eq_true, if_true, Option.some.injEq,
          Prod.mk.injEq] at done
        obtain ⟨rfl, rfl⟩ := done
        refine ⟨rfl, false, ?_⟩
        simp only [there, decide_false, Bool.false_eq_true, if_false] at second
        exact second

/-- A split that succeeds goes through its steps; one that fails leaves the region tracked as a
whole, also if the upstream provider has split it, or changes nothing. -/
theorem trackingAllocationSplit_steps {tracked : Bool} {firstSize : Word}
    (isOpen : state.Open pool) (free : state.locked = false)
    (place : state.regions.Perm (settled pool ptr size tracked :: rest)) {upstream reply : Result}
    {memory : ChangeMemory}
    (done : trackingAllocationSplit state.map pool ptr size firstSize upstream memory =
      some (reply, map)) :
    (reply = .success ∧ Steps state (State.release { state with
        map := map
        regions := settled pool ptr firstSize true ::
          settled pool (ptr + firstSize) (size - firstSize) true :: rest } ptr)) ∨
      reply ≠ .success ∧ (map = state.map ∨ Steps state { state with
        map := map, regions := settled pool ptr size true :: rest }) := by
  -- The checks of the arguments, of memory and of the lock come first, and change nothing.
  rw [trackingAllocationSplit] at done
  split at done
  · cases done
    exact Or.inr ⟨by decide, Or.inl rfl⟩
  next valid =>
  split at done
  · cases done
    exact Or.inr ⟨by decide, Or.inl rfl⟩
  split at done
  · cases done
    exact Or.inr ⟨by decide, Or.inl rfl⟩
  split at done
  · next found =>
    -- The upstream provider refuses or splits.
    split at done
    · next failed =>
      cases done
      exact Or.inr ⟨failed, Or.inl rfl⟩
    · have first := ReflTransGen.single
        (Step.divide isOpen free place (by simpa using valid) found)
      cases added : umfMemoryTrackerAdd state.map pool (ptr + firstSize) (size - firstSize)
          memory.add with
      | none => simp [added] at done
      | some answer =>
        obtain ⟨result, middle⟩ := answer
        have second := first.tail (.addSecond (List.Perm.refl _) added)
        -- The second part is added, and then the first one is changed.
        by_cases success : result = .success
        · subst success
          simp only [added, Option.map_eq_some_iff, Prod.mk.injEq] at done
          obtain ⟨last, updated, rfl, rfl⟩ := done
          have third := second.tail (.updateFirst (List.Perm.refl _) updated)
          rw [← free] at third
          exact Or.inl ⟨rfl, third⟩
        · -- There has been no memory for the second part.
          have failed : some (result, middle) = some (reply, map) := by
            cases result <;> simp_all
          cases failed
          simp only [success, decide_false, if_false] at second
          rw [← free] at second
          exact Or.inr ⟨success, Or.inr second⟩
  · next failed =>
    cases done
    refine Or.inr ⟨fun success => failed success, Or.inl rfl⟩

/-- A merge that succeeds goes through its steps; one that fails changes nothing. -/
theorem trackingAllocationMerge_steps (informed : Informed state) {low high : Bool}
    {lowSize highSize : Word} (isOpen : state.Open pool) (free : state.locked = false)
    (place : state.regions.Perm (settled pool ptr lowSize low ::
      settled pool (ptr + lowSize) highSize high :: rest)) {upstream reply : Result}
    {memory : ChangeMemory}
    (done : trackingAllocationMerge state.map pool ptr (ptr + lowSize) (lowSize + highSize) upstream
      memory = some (reply, map)) :
    (reply = .success ∧ Steps state ((State.release { state with
        map := map
        regions := settled pool ptr (lowSize + highSize) true :: rest } ptr).release
          (ptr + lowSize))) ∨
      reply ≠ .success ∧ map = state.map := by
  -- As for a split, the checks come first.
  rw [trackingAllocationMerge] at done
  split at done
  · cases done
    exact Or.inr ⟨by decide, rfl⟩
  next valid =>
  split at done
  · cases done
    exact Or.inr ⟨by decide, rfl⟩
  split at done
  · cases done
    exact Or.inr ⟨by decide, rfl⟩
  split at done
  · cases done
    exact Or.inr ⟨by decide, rfl⟩
  next lowValue highValue found =>
  -- The upstream provider refuses or merges.
  split at done
  · next failed =>
    cases done
    exact Or.inr ⟨failed, rfl⟩
  -- Both assertions hold, as there is a result.
  obtain ⟨middle, updated, done⟩ := Option.bind_eq_some_iff.mp done
  obtain ⟨last, erased, done⟩ := Option.bind_eq_some_iff.mp done
  cases done
  -- What has been found of the second region is what is known of it.
  have moved := informed.perm place
  have second : highValue = ⟨pool, highSize⟩ := by
    have there : contents state.map (ptr + lowSize) = some highValue := by
      rw [mergeLookup] at found
      split at found
      · next one two _ highFound =>
        split at found
        · cases found
        split at found
        · cases found
        cases found
        exact highFound
      · cases found
    have known := (moved.tracked (List.mem_cons_of_mem _ List.mem_cons_self)
      (by rw [there]; exact Option.some_ne_none _)).2
    exact Option.some.inj (there.symm.trans known)
  have back : lowSize + highSize - lowSize = highSize := by
    rw [BitVec.add_comm, BitVec.add_sub_cancel]
  -- The three steps follow each other.
  rw [second, ← back] at erased
  have one := ReflTransGen.single (Step.join isOpen free place (by simpa using valid) found)
  have two := one.tail (.updateLow (List.Perm.refl _) updated)
  have three := two.tail (.removeHigh (List.Perm.refl _) erased)
  rw [← free] at three
  exact Or.inl ⟨rfl, three⟩

/-- A call that asks for a pointer goes through its steps, which change nothing, unless nothing is
found for the pointer. -/
theorem umfMemoryTrackerGetAllocInfo_steps {result : Result} {info : Option AllocInfo}
    (done : umfMemoryTrackerGetAllocInfo (some state.map) ptr = some (result, info)) :
    (critnibFind state.map ptr .le = none ∧ result = .invalidArgument ∧ info = none) ∨
      ∃ lookup : Lookup, lookup.ptr = ptr ∧ lookup.found.fresh = true ∧
        lookup.told = (result, info) ∧
        Step state { state with lookups := lookup :: state.lookups } ∧
        Step { state with lookups := lookup :: state.lookups } state := by
  have address : ptr ≠ 0 := by
    rintro rfl
    cases done
  -- What is found in one step is read in the next one, before anything else happens.
  rw [umfMemoryTrackerGetAllocInfo, if_neg address, Option.some.injEq] at done
  cases found : critnibFind state.map ptr .le with
  | none =>
    rw [found] at done
    cases done
    exact Or.inl ⟨rfl, rfl, rfl⟩
  | some entry =>
    obtain ⟨rkey, rvalue⟩ := entry
    rw [found] at done
    exact Or.inr ⟨⟨ptr, ⟨rkey, rvalue, true⟩⟩, rfl, rfl, done, .find address found,
      .read (List.Perm.refl _)⟩

/-- The loop that removes the regions of a pool goes through its steps. -/
theorem clearLoop_steps {fuel nItems count : Nat} {lastKey : Word} {closed : List Closing}
    (informed : Informed state) (current : Current state)
    (start : state.closed = ⟨pool, lastKey, none⟩ :: closed)
    (done : clearLoop (some pool) fuel state.map lastKey nItems = some (count, map)) :
    ∃ after, Steps state after ∧ after.map = map ∧
      after.regions.Perm (state.regions.filter fun region => region.pool ≠ pool) := by
  -- By induction on the fuel: each turn finds a region, and passes it or removes it.
  induction fuel generalizing state lastKey nItems closed with
  | zero => cases done
  | succ fuel ih =>
    have place : state.closed.Perm (⟨pool, lastKey, none⟩ :: closed) := by rw [start]
    rw [clearLoop] at done
    cases found : critnibFind state.map lastKey .g with
    -- There is nothing behind the last key, so that the pool is gone.
    | none =>
      rw [found] at done
      cases done
      exact ⟨_, ReflTransGen.single (.closeEnd place found), rfl, List.Perm.refl _⟩
    | some entry =>
      obtain ⟨rkey, rvalue⟩ := entry
      rw [found] at done
      dsimp only at done
      have first : Step state _ := .findNext place found
      obtain ⟨stored, informedNext⟩ := informed.findNext place found
      have currentNext := first.current informed current
      split at done
      · next other =>
        -- The region is one of another pool, and the loop goes on behind it.
        have different : rvalue.pool ≠ pool := by
          rintro rfl
          simp at other
        have second : Step { state with
            closed := ⟨pool, lastKey, some ⟨rkey, rvalue, true⟩⟩ :: closed } _ :=
          .pass (List.Perm.refl _) fun _ => different
        obtain ⟨after, steps, final, regions⟩ := ih (second.informed informedNext currentNext)
          (second.current informedNext currentNext) rfl done
        exact ⟨after, ((ReflTransGen.single second).head first).trans steps, final, regions⟩
      · next mine =>
        -- The region is one of the pool; it has an owner, which forgets it.
        have same : rvalue.pool = pool := by
          by_contra different
          have apart : some pool ≠ some rvalue.pool :=
            fun equal => different (Option.some.inj equal).symm
          exact mine (by simp [apart])
        obtain ⟨middle, erased, done⟩ := Option.bind_eq_some_iff.mp done
        obtain ⟨owner, home, entry⟩ := (informed.known rkey rvalue).mp stored
        obtain ⟨rest, turned⟩ := exists_perm home
        have second : Step { state with
            closed := ⟨pool, lastKey, some ⟨rkey, rvalue, true⟩⟩ :: closed } _ :=
          .forget (List.Perm.refl _) same erased turned entry
        obtain ⟨after, steps, final, regions⟩ := ih (second.informed informedNext currentNext)
          (second.current informedNext currentNext) rfl done
        refine ⟨after, ((ReflTransGen.single second).head first).trans steps, final, ?_⟩
        -- The region that has been removed is one of the pool, which is left out at the end.
        have whose : owner.pool = pool :=
          ((informed.valid owner home).inside entry).1.symm.trans same
        have without : ∀ region : Region, region.pool = pool →
            (region :: rest).filter (fun region => region.pool ≠ pool) =
              rest.filter fun region => region.pool ≠ pool :=
          fun region its => List.filter_cons_of_neg (by simp [its])
        have left := turned.filter fun region => region.pool ≠ pool
        rw [without owner whose] at left
        refine (regions.trans ?_).trans left.symm
        exact List.Perm.of_eq (without owner.forgotten whose)

/-- A pool that is destroyed while there are no calls of it goes through its steps, and none of its
regions is left. -/
theorem clearTrackerForThePool_steps {fuel count : Nat} (informed : Informed state)
    (current : Current state) (isOpen : state.Open pool)
    (quiet : ∀ region ∈ state.regions, region.pool = pool → region.phase.Settled)
    (done : clearTrackerForThePool fuel state.map (some pool) = some (count, map)) :
    ∃ after, Steps state after ∧ after.map = map ∧
      after.regions.Perm (state.regions.filter fun region => region.pool ≠ pool) := by
  -- The pool begins to be destroyed, and then the loop runs.
  have first := Step.close isOpen quiet
  obtain ⟨after, steps, final, regions⟩ := clearLoop_steps (first.informed informed current)
    (first.current informed current) rfl done
  exact ⟨after, steps.head first, final, regions⟩

end SecretTyping.Umf.Tracker
