import SecretTyping.Lists.Node

/-! The benchmark linked list, on an explicit heap of its nodes. -/

namespace SecretTyping.Lists

open Memory

/-- The greatest int, of 32 bits. -/
def intMax : Int := 2147483647

/-- The result of int arithmetic, which the language leaves undefined out of range. -/
def checkedInt (value : Int) : Except Fault Int :=
  if -intMax - 1 ≤ value ∧ value ≤ intMax then .ok value else .error .overflow

/-- A list: its head, its tail, which no operation touches, its length and the heap of its nodes. -/
structure LinkedList where
  head : Ptr
  tail : Ptr
  length : Int
  heap : NodeHeap

/-- A list as its constructor leaves it. -/
def LinkedList.new : LinkedList := ⟨none, none, 0, Heap.empty⟩

/-- Remove the first value. -/
def removeHead (list : LinkedList) : Except Fault (Int × LinkedList) := do
  if list.head = none then return (-1, list)
  else
    let head ← getLink list.heap list.head
    let data ← getData list.heap list.head
    let heap ← list.heap.free list.head
    let length ← checkedInt (list.length - 1)
    return (data, { list with head, length, heap })

/-- The loop that looks for the last node and hangs a new one behind it. -/
def appendLoop (list : LinkedList) (data : Int) : Nat → Ptr → Except Fault LinkedList
  | 0, _ => .error .endless
  | fuel + 1, temp => do
    let link ← getLink list.heap temp
    if link = none then
      let (newNode, heap) ← makeNode list.heap data none
      let heap ← setLink heap temp newNode
      -- The tail is left as it is.
      let length ← checkedInt (list.length + 1)
      return { list with length, heap }
    else appendLoop list data fuel link

/-- Add a value at the end. -/
def append (list : LinkedList) (data : Int) : Except Fault LinkedList := do
  if list.head = none then
    let (head, heap) ← makeNode list.heap data none
    let length ← checkedInt (list.length + 1)
    return { list with head, length, heap }
  else appendLoop list data (loopBound list.heap) list.head

/-- Add a value at the front. -/
def prepend (list : LinkedList) (data : Int) : Except Fault LinkedList := do
  let (head, heap) ← makeNode list.heap data list.head
  let length ← checkedInt (list.length + 1)
  return { list with head, length, heap }

/-- The loop that looks for a value and hangs a new node behind it. -/
def insertAfterLoop (list : LinkedList) (existData newData : Int) :
    Nat → Ptr → Except Fault LinkedList
  -- Where the value does not occur, nothing is added.
  | _, none => .ok list
  | 0, some _ => .error .endless
  | fuel + 1, some temp => do
    if (← getData list.heap (some temp)) = existData then
      let (newNode, heap) ← makeNode list.heap newData (← getLink list.heap (some temp))
      let heap ← setLink heap (some temp) newNode
      let length ← checkedInt (list.length + 1)
      return { list with length, heap }
    else insertAfterLoop list existData newData fuel (← getLink list.heap (some temp))

/-- Add a value behind the first occurrence of another; an empty list gets it in any case. -/
def insertAfter (list : LinkedList) (existData newData : Int) : Except Fault LinkedList := do
  if list.head = none then
    let (head, heap) ← makeNode list.heap newData none
    let length ← checkedInt (list.length + 1)
    return { list with head, length, heap }
  else insertAfterLoop list existData newData (loopBound list.heap) list.head

/-- The loop that looks for the last node and deletes it. -/
def removeTailLoop (list : LinkedList) : Nat → Ptr → Ptr → Except Fault (Int × LinkedList)
  | _, none, _ => .ok (-2, list)
  | 0, some _, _ => .error .endless
  | fuel + 1, some current, prev => do
    let link ← getLink list.heap (some current)
    if link = none then
      let data ← getData list.heap (some current)
      -- The only node of a list has no previous one.
      let heap ← setLink list.heap prev none
      let heap ← heap.free (some current)
      let length ← checkedInt (list.length - 1)
      return (data, { list with length, heap })
    else removeTailLoop list fuel link (some current)

/-- Remove the last value. -/
def removeTail (list : LinkedList) : Except Fault (Int × LinkedList) := do
  if list.head = none then return (-1, list)
  else removeTailLoop list (loopBound list.heap) list.head none

/-- The loop that counts up to an index and hangs a new node before the one there. -/
def insertAtLoop (list : LinkedList) (index newData : Int) :
    Nat → Ptr → Ptr → Int → Except Fault LinkedList
  | _, none, _, _ => .ok list
  | 0, some _, _, _ => .error .endless
  | fuel + 1, some temp, prev, i => do
    if i = index then
      let (newNode, heap) ← makeNode list.heap newData (some temp)
      -- At the index zero there is no previous node to be linked.
      let heap ← setLink heap prev newNode
      let length ← checkedInt (list.length + 1)
      return { list with length, heap }
    else
      let i ← checkedInt (i + 1)
      insertAtLoop list index newData fuel (← getLink list.heap (some temp)) (some temp) i

/-- Add a value at an index. -/
def insertAtIndex (list : LinkedList) (index newData : Int) : Except Fault LinkedList := do
  -- A negative index passes this test; where there are nodes, the loop looks for it in vain.
  if (← checkedInt (index + 1)) > list.length then return list
  else if list.head = none then
    let (head, heap) ← makeNode list.heap newData none
    let length ← checkedInt (list.length + 1)
    return { list with head, length, heap }
  else insertAtLoop list index newData (loopBound list.heap) list.head none 0

/-- The loop that looks for a value. -/
def lookUpLoop (heap : NodeHeap) (data : Int) : Nat → Ptr → Except Fault Bool
  | _, none => .ok false
  | 0, some _ => .error .endless
  | fuel + 1, some temp => do
    if (← getData heap (some temp)) = data then return true
    else lookUpLoop heap data fuel (← getLink heap (some temp))

/-- Whether a value occurs. -/
def lookUp (list : LinkedList) (data : Int) : Except Fault Bool :=
  lookUpLoop list.heap data (loopBound list.heap) list.head

/-- A call on a list. -/
inductive Operation where
  | append (data : Int)
  | prepend (data : Int)
  | removeHead
  | removeTail
  | insertAfter (existData newData : Int)
  | insertAtIndex (index newData : Int)
  | lookUp (data : Int)
  deriving DecidableEq

/-- What a call returns. -/
inductive Outcome where
  | void
  | int (value : Int)
  | bool (value : Bool)
  deriving DecidableEq

/-- Carry out one call. -/
def perform (list : LinkedList) : Operation → Except Fault (Outcome × LinkedList)
  | .append data => (append list data).map (.void, ·)
  | .prepend data => (prepend list data).map (.void, ·)
  | .removeHead => (removeHead list).map fun (data, list) => (.int data, list)
  | .removeTail => (removeTail list).map fun (data, list) => (.int data, list)
  | .insertAfter existData newData => (insertAfter list existData newData).map (.void, ·)
  | .insertAtIndex index newData => (insertAtIndex list index newData).map (.void, ·)
  | .lookUp data => (lookUp list data).map (.bool ·, list)

/-- Carry out calls one after another. -/
def runOperations (list : LinkedList) : List Operation → Except Fault LinkedList
  | [] => .ok list
  | operation :: rest => do
    let (_, list) ← perform list operation
    runOperations list rest

end SecretTyping.Lists
