import SecretTyping.Lib.Heap

/-! Singly linked chains of cells that end at null. -/

namespace SecretTyping.Memory

/-- How a cell holds a value and the link to the next cell; a link never set is none at all. -/
structure LinkLayout (Cell Value : Type) where
  value : Cell → Value
  link : Cell → Option Ptr

variable {Cell Value : Type}

/-- The pointer to the first cell of a chain. -/
def headPtr : List (Nat × Value) → Ptr
  | [] => none
  | (address, _) :: _ => some address

/-- An empty chain hangs at null. -/
@[simp] theorem headPtr_nil : headPtr ([] : List (Nat × Value)) = none := rfl

/-- A chain hangs at the address of its first cell. -/
@[simp] theorem headPtr_cons (address : Nat) (value : Value) (rest : List (Nat × Value)) :
    headPtr ((address, value) :: rest) = some address := rfl

/-- Only the empty chain hangs at null. -/
theorem headPtr_eq_none {nodes : List (Nat × Value)} : headPtr nodes = none ↔ nodes = [] := by
  cases nodes <;> simp [headPtr]

/-- The addresses of the cells of a chain. -/
def addressesOf (nodes : List (Nat × Value)) : List Nat := nodes.map Prod.fst

/-- The values along a chain. -/
def valuesOf (nodes : List (Nat × Value)) : List Value := nodes.map Prod.snd

/-- The addresses of two chains in a row. -/
@[simp] theorem addressesOf_append (first second : List (Nat × Value)) :
    addressesOf (first ++ second) = addressesOf first ++ addressesOf second := List.map_append

/-- The addresses of a chain with one more cell in front. -/
@[simp] theorem addressesOf_cons (node : Nat × Value) (rest : List (Nat × Value)) :
    addressesOf (node :: rest) = node.1 :: addressesOf rest := rfl

/-- The empty chain has no addresses. -/
@[simp] theorem addressesOf_nil : addressesOf ([] : List (Nat × Value)) = [] := rfl

/-- The values of two chains in a row. -/
@[simp] theorem valuesOf_append (first second : List (Nat × Value)) :
    valuesOf (first ++ second) = valuesOf first ++ valuesOf second := List.map_append

/-- The values of a chain with one more cell in front. -/
@[simp] theorem valuesOf_cons (node : Nat × Value) (rest : List (Nat × Value)) :
    valuesOf (node :: rest) = node.2 :: valuesOf rest := rfl

/-- The empty chain has no values. -/
@[simp] theorem valuesOf_nil : valuesOf ([] : List (Nat × Value)) = [] := rfl

/-- There are as many values along a chain as cells. -/
@[simp] theorem length_valuesOf (nodes : List (Nat × Value)) :
    (valuesOf nodes).length = nodes.length := List.length_map _

variable (layout : LinkLayout Cell Value)

/-- A heap holds a chain, each cell linked to the next and the last to null. -/
def Chained (heap : Heap Cell) : List (Nat × Value) → Prop
  | [] => True
  | (address, value) :: rest =>
    (∃ cell, heap.cells address = some cell ∧ layout.value cell = value ∧
      layout.link cell = some (headPtr rest)) ∧ Chained heap rest

variable {layout}

namespace Chained

variable {heap other : Heap Cell}

/-- Only the cells of a chain matter for whether it is held. -/
theorem congr {nodes : List (Nat × Value)} (chained : Chained layout heap nodes)
    (same : ∀ address ∈ addressesOf nodes, other.cells address = heap.cells address) :
    Chained layout other nodes := by
  -- By induction on the chain, each cell of which is the same in both heaps.
  induction nodes with
  | nil => trivial
  | cons node rest ih =>
    obtain ⟨⟨cell, live, held⟩, chainedRest⟩ := chained
    refine ⟨⟨cell, ?_, held⟩, ih chainedRest fun address member => ?_⟩
    · rw [same _ (by simp), live]
    · exact same address (by simp [member])

/-- The end of a chain is a chain. -/
theorem suffix {first second : List (Nat × Value)}
    (chained : Chained layout heap (first ++ second)) : Chained layout heap second := by
  induction first with
  | nil => exact chained
  | cons node rest ih => exact ih chained.2

/-- A change at the end of a chain that keeps the first cell there is a change of the chain. -/
theorem graft {first second changed : List (Nat × Value)}
    (chained : Chained layout heap (first ++ second)) (head : headPtr changed = headPtr second)
    (chainedChanged : Chained layout other changed)
    (frame : ∀ address ∈ addressesOf first, other.cells address = heap.cells address) :
    Chained layout other (first ++ changed) := by
  -- By induction on the cells before the change, whose links stay as they are.
  induction first with
  | nil => exact chainedChanged
  | cons node rest ih =>
    obtain ⟨⟨cell, live, value, link⟩, chainedRest⟩ := chained
    -- The link of the cell leads to the head of what comes behind, which is at the same address.
    have sameHead : headPtr (rest ++ changed) = headPtr (rest ++ second) := by
      cases rest with
      | nil => exact head
      | cons => rfl
    refine ⟨⟨cell, ?_, value, link.trans (congrArg some sameHead.symm)⟩,
      ih chainedRest fun address member => ?_⟩
    · rw [frame _ (by simp), live]
    · exact frame address (by simp [member])

/-- The cells of a chain are live. -/
theorem live {nodes : List (Nat × Value)} (chained : Chained layout heap nodes) {address : Nat}
    (member : address ∈ addressesOf nodes) : ∃ cell, heap.cells address = some cell := by
  -- By induction on the chain up to the address.
  induction nodes with
  | nil => simp at member
  | cons node rest ih =>
    obtain ⟨⟨cell, live, -⟩, chainedRest⟩ := chained
    rw [addressesOf_cons, List.mem_cons] at member
    rcases member with same | member
    · exact ⟨cell, same ▸ live⟩
    · exact ih chainedRest member

/-- The addresses of a chain are among those handed out. -/
theorem lt_next {nodes : List (Nat × Value)} (chained : Chained layout heap nodes) {address : Nat}
    (member : address ∈ addressesOf nodes) : address < heap.next := by
  obtain ⟨cell, live⟩ := chained.live member
  exact Heap.lt_next live

/-- There is at most one chain from a cell. -/
theorem unique {first second : List (Nat × Value)} (one : Chained layout heap first)
    (two : Chained layout heap second) (head : headPtr first = headPtr second) :
    first = second := by
  -- By induction on one of the chains: the cell decides on the value and on the next cell.
  induction first generalizing second with
  -- An empty chain has no head, so the other one is empty as well.
  | nil => exact (headPtr_eq_none.mp head.symm).symm
  | cons node rest ih =>
    obtain ⟨address, value⟩ := node
    cases second with
    | nil => cases head
    | cons node' rest' =>
      obtain ⟨address', value'⟩ := node'
      cases head
      obtain ⟨⟨cell, live, held, link⟩, chainedRest⟩ := one
      obtain ⟨⟨cell', live', held', link'⟩, chainedRest'⟩ := two
      -- The head is at one address, so both cells are the same one.
      rw [live] at live'
      cases live'
      have sameHead : headPtr rest = headPtr rest' := Option.some.inj (link.symm.trans link')
      rw [← held, ← held', ih chainedRest chainedRest' sameHead]

/-- A chain that ends at null has no cycle. -/
theorem nodup {nodes : List (Nat × Value)} (chained : Chained layout heap nodes) :
    (addressesOf nodes).Nodup := by
  -- By induction on the chain, whose rest does not repeat an address.
  induction nodes with
  | nil => exact List.nodup_nil
  | cons node rest ih =>
    rw [addressesOf_cons, List.nodup_cons]
    refine ⟨fun member => ?_, ih chained.2⟩
    -- Back at the first cell, the chain would be its own end, which is shorter.
    obtain ⟨again, inRest, same⟩ := List.mem_map.mp member
    obtain ⟨before, behind, split⟩ := List.append_of_mem inRest
    have end' : Chained layout heap (again :: behind) := by
      have chainedRest := chained.2
      rw [split] at chainedRest
      exact chainedRest.suffix
    have equal := end'.unique chained (congrArg some same)
    have lengths := congrArg List.length equal
    have split' := congrArg List.length split
    simp only [List.length_cons, List.length_append] at lengths split'
    omega

/-- A chain is no longer than there are addresses. -/
theorem length_le {nodes : List (Nat × Value)} (chained : Chained layout heap nodes) :
    nodes.length ≤ heap.next := by
  -- The addresses are different ones below the next address.
  have among : addressesOf nodes ⊆ List.range heap.next := by
    intro address member
    exact List.mem_range.mpr (chained.lt_next member)
  have counted := (List.subperm_of_subset chained.nodup among).length_le
  rwa [List.length_range, addressesOf, List.length_map] at counted

end Chained

variable (layout) in
/-- A heap holds a chain and nothing else. -/
structure HoldsOnly (heap : Heap Cell) (nodes : List (Nat × Value)) : Prop where
  chained : Chained layout heap nodes
  only : ∀ address cell, heap.cells address = some cell → address ∈ addressesOf nodes

namespace HoldsOnly

variable {heap : Heap Cell}

/-- The empty heap holds the empty chain. -/
theorem empty : HoldsOnly layout Heap.empty [] where
  chained := trivial
  only _ _ live := by cases live

/-- A new cell linked to the first cell is a new first cell. -/
theorem push {nodes : List (Nat × Value)} (holds : HoldsOnly layout heap nodes) {cell : Cell}
    (link : layout.link cell = some (headPtr nodes)) :
    HoldsOnly layout (heap.alloc cell).2 ((heap.next, layout.value cell) :: nodes) where
  chained := by
    refine ⟨⟨cell, Heap.alloc_same heap cell, rfl, link⟩, holds.chained.congr fun a member => ?_⟩
    -- The chain lies among the addresses handed out before.
    exact Heap.alloc_other heap (holds.chained.lt_next member).ne cell
  only address found live := by
    by_cases new : address = heap.next
    · simp [new]
    · rw [Heap.alloc_other heap new] at live
      simp [holds.only address found live]

/-- Without its first cell, a heap holds the rest of the chain. -/
theorem pop {address : Nat} {value : Value} {rest : List (Nat × Value)}
    (holds : HoldsOnly layout heap ((address, value) :: rest)) :
    HoldsOnly layout (heap.kill address) rest where
  chained := by
    have distinct := holds.chained.nodup
    rw [addressesOf_cons, List.nodup_cons] at distinct
    refine holds.chained.2.congr fun a member => Heap.kill_other heap fun same => ?_
    exact distinct.1 (same ▸ member)
  only other found live := by
    by_cases same : other = address
    · simp [same] at live
    · rw [Heap.kill_other heap same] at live
      have member := holds.only other found live
      rw [addressesOf_cons, List.mem_cons] at member
      exact member.resolve_left same

/-- A new cell is linked in between a cell and the ones behind it. -/
theorem insert {before behind : List (Nat × Value)} {address : Nat} {value : Value}
    (holds : HoldsOnly layout heap (before ++ (address, value) :: behind)) {cell own : Cell}
    (link : layout.link cell = some (headPtr behind)) (held : layout.value own = value)
    (relink : layout.link own = some (some heap.next)) :
    HoldsOnly layout ((heap.alloc cell).2.put address own)
      (before ++ (address, value) :: (heap.next, layout.value cell) :: behind) := by
  have distinct := holds.chained.nodup
  have handed : ∀ a ∈ addressesOf (before ++ (address, value) :: behind), a < heap.next :=
    fun _ member => holds.chained.lt_next member
  simp only [addressesOf_append, addressesOf_cons, List.nodup_append, List.nodup_cons,
    List.mem_cons, List.mem_append] at distinct handed
  obtain ⟨-, ⟨notBehind, -⟩, apart⟩ := distinct
  have old : address ≠ heap.next := (handed address (.inr (.inl rfl))).ne
  -- Elsewhere nothing has changed but for the new cell.
  have others : ∀ a, a ≠ address → a ≠ heap.next →
      ((heap.alloc cell).2.put address own).cells a = heap.cells a := by
    intro a notOwn notNew
    rw [Heap.put_other _ notOwn, Heap.alloc_other heap notNew]
  obtain ⟨⟨before', live, -⟩, chainedBehind⟩ := holds.chained.suffix
  constructor
  · -- The chain up to the cell is as it was, and behind the new cell too.
    refine holds.chained.graft rfl ?_ fun a member => ?_
    · refine ⟨⟨own, Heap.put_same ((Heap.alloc_other heap old cell).trans live) own, held, relink⟩,
        ⟨cell, ?_, rfl, link⟩, chainedBehind.congr fun a member => ?_⟩
      · rw [Heap.put_other _ old.symm, Heap.alloc_same]
      · exact others a (fun same => notBehind (same ▸ member))
          (handed a (.inr (.inr member))).ne
    · exact others a (apart a member address (.inl rfl)) (handed a (.inl member)).ne
  · -- What is live is the new cell, the changed one, or was live before.
    intro a found liveNow
    by_cases notNew : a = heap.next
    · simp [notNew]
    · by_cases notOwn : a = address
      · simp [notOwn]
      · rw [others a notOwn notNew] at liveNow
        have member := holds.only a found liveNow
        simp only [addressesOf_append, addressesOf_cons, List.mem_append, List.mem_cons] at member ⊢
        exact member.imp_right (Or.imp_right .inr)

/-- Without its last cell, a heap holds the chain before it. -/
theorem dropLast {before : List (Nat × Value)} {address last : Nat} {value lastValue : Value}
    (holds : HoldsOnly layout heap (before ++ [(address, value), (last, lastValue)])) {own : Cell}
    (held : layout.value own = value) (relink : layout.link own = some none) :
    HoldsOnly layout ((heap.put address own).kill last) (before ++ [(address, value)]) := by
  -- The cell before the last one ends the chain.
  have distinct := holds.chained.nodup
  simp only [addressesOf_append, addressesOf_cons, addressesOf_nil, List.nodup_append,
    List.nodup_cons, List.mem_cons, List.not_mem_nil, or_false] at distinct
  obtain ⟨-, ⟨notLast, -⟩, apart⟩ := distinct
  obtain ⟨⟨cell, live, -⟩, -⟩ := holds.chained.suffix
  constructor
  · -- The chain ends where the last cell but one is.
    refine holds.chained.graft rfl ⟨⟨own, ?_, held, relink⟩, trivial⟩ fun a member => ?_
    · rw [Heap.kill_other _ notLast, Heap.put_same live]
    · rw [Heap.kill_other _ (apart a member last (.inr rfl)),
        Heap.put_other _ (apart a member address (.inl rfl))]
  · -- The last cell is no longer live, and the others are in the chain.
    intro a found liveNow
    by_cases same : a = last
    · simp [same] at liveNow
    · by_cases notOwn : a = address
      · simp [notOwn]
      · rw [Heap.kill_other _ same, Heap.put_other _ notOwn] at liveNow
        have member := holds.only a found liveNow
        simp only [addressesOf_append, addressesOf_cons, addressesOf_nil, List.mem_append,
          List.mem_cons, List.not_mem_nil, or_false] at member ⊢
        exact member.imp_right fun either => either.resolve_right same

end HoldsOnly

end SecretTyping.Memory
