import SecretTyping.Lib.Sections
import SecretTyping.Lists.Queue
import SecretTyping.Lists.Sequence
import SecretTyping.Lists.Stack

/-! The tests whose threads work on stacks, queues and lists, each under a mutex of its own. -/

namespace SecretTyping.Bench

open SecretTyping.Lists Sections

/-- The two vectors that every test has of its structures and of their mutexes. -/
inductive Vectors where
  | zero
  | one
  deriving DecidableEq

/-- A structure by its vector and its index; all vectors have the same length. -/
structure SlotName (numDs : Nat) where
  vector : Vectors
  index : Fin numDs
  deriving DecidableEq

/-- What a thread draws at random for one round. -/
structure RoundDraw (numDs : Nat) where
  ds : Fin numDs
  op : Int
  x : Int
  deriving DecidableEq

/-- What the threads of a test do to its structures: add a value or remove one. -/
structure LockedTest (Operation Value : Type) where
  perform : Operation → Value → Value
  add : Int → Operation
  remove : Operation

variable {Operation Value Mutex Thread : Type} {numDs : Nat}

/-- One round of a thread's loop: the mutex that it takes, and what it does to which structure. -/
def LockedTest.round (test : LockedTest Operation Value) (lk : Vectors → Fin numDs → Mutex)
    (node crossover : Int) (draw : RoundDraw numDs) :
    Section Mutex (SlotName numDs) Operation :=
  let { ds, op, x } := draw
  -- A draw below the crossover leads to the structures of the other node.
  if node = 0 then
    if op = 0 then
      if x < crossover then ⟨lk .one ds, ⟨.one, ds⟩, test.add ds⟩
      else ⟨lk .zero ds, ⟨.zero, ds⟩, test.add ds⟩
    else
      if x < crossover then ⟨lk .one ds, ⟨.one, ds⟩, test.remove⟩
      else ⟨lk .zero ds, ⟨.zero, ds⟩, test.remove⟩
  else
    if op = 0 then
      if x < crossover then ⟨lk .zero ds, ⟨.zero, ds⟩, test.add ds⟩
      else ⟨lk .one ds, ⟨.one, ds⟩, test.add ds⟩
    else
      if x < crossover then ⟨lk .zero ds, ⟨.zero, ds⟩, test.remove⟩
      else ⟨lk .one ds, ⟨.one, ds⟩, test.remove⟩

/-- The test of the stacks pushes and pops. -/
def stackTest : LockedTest (Lifo.Call Int) (Except Memory.Fault Stack) where
  perform
    | .push data, stack => do (← stack).push data
    | .pop, stack => do
      let (_, _, stack) ← (← stack).pop
      return stack
  add := .push
  remove := .pop

/-- The test of the queues adds at the rear and removes at the front. -/
def queueTest : LockedTest (Fifo.Call Int) (Except Memory.Fault Queue) where
  perform
    | .add data, queue => do add (← queue) data
    | .del, queue => do
      let (_, queue) ← Exprs.del (← queue)
      return queue
  add := .add
  remove := .del

/-- The test of the lists appends and removes at the head. -/
def linkedListTest : LockedTest Lists.Operation (Except Memory.Fault LinkedList) where
  perform operation list := do
    let (_, list) ← perform (← list) operation
    return list
  add := .append
  remove := .removeHead

/-- The mutex of a structure. -/
def slotMutex (lk : Vectors → Fin numDs → Mutex) (slot : SlotName numDs) : Mutex :=
  lk slot.vector slot.index

/-- The threads of a test: each goes through round after round with its own node and crossover and
whatever it draws. -/
def LockedTest.system (test : LockedTest Operation Value) (lk : Vectors → Fin numDs → Mutex)
    (node crossover : Thread → Int) :
    System Thread Mutex (SlotName numDs) Operation Value where
  perform := test.perform
  programs thread works :=
    ∀ work ∈ works, ∃ draw, work = test.round lk (node thread) (crossover thread) draw

/-- Every round takes the mutex of the structure that it works on. -/
theorem LockedTest.round_lock (test : LockedTest Operation Value)
    (lk : Vectors → Fin numDs → Mutex) (node crossover : Int) (draw : RoundDraw numDs) :
    (test.round lk node crossover draw).lock =
      slotMutex lk (test.round lk node crossover draw).object := by
  -- The cases are the node, the operation and the side of the crossover.
  unfold LockedTest.round
  by_cases first : node = 0
  · by_cases adds : draw.op = 0 <;> by_cases crosses : draw.x < crossover <;>
      simp only [first, adds, crosses, if_true, if_false] <;> rfl
  · by_cases adds : draw.op = 0 <;> by_cases crosses : draw.x < crossover <;>
      simp only [first, adds, crosses, if_true, if_false] <;> rfl

/-- The mutex of a structure guards it. -/
theorem LockedTest.guarded (test : LockedTest Operation Value) (lk : Vectors → Fin numDs → Mutex)
    (node crossover : Thread → Int) :
    Guarded (test.system lk node crossover) (slotMutex lk) := by
  -- Every section of a thread is a round with some draw.
  intro thread works known work member
  obtain ⟨draw, same⟩ := known work member
  rw [same]
  exact test.round_lock lk (node thread) (crossover thread) draw

section Runs

variable [DecidableEq Thread] [DecidableEq Mutex]

/-- In every reachable state, a thread inside an operation on a structure holds the mutex of the
structure, and a structure that no thread is at holds what its operations make of it, one after
another in the order in which its mutex has been taken for them. -/
def LockedTest.Serialised (test : LockedTest Operation Value) (lk : Vectors → Fin numDs → Mutex)
    (node crossover : Thread → Int) (initial : SlotName numDs → Value) : Prop :=
  ∀ state, Reachable (test.system lk node crossover) initial state →
    (∀ thread work, (state.phase thread).Inside work →
      state.holder (slotMutex lk work.object) = some thread) ∧
    ∀ slot, (∀ thread work, (state.phase thread).Inside work → work.object ≠ slot) →
      state.store slot = contents test.perform (initial slot) (operationsOn slot state.taken)

/-- Every such test is serialised. -/
theorem LockedTest.serialised (test : LockedTest Operation Value)
    (lk : Vectors → Fin numDs → Mutex) (node crossover : Thread → Int)
    (initial : SlotName numDs → Value) : test.Serialised lk node crossover initial := by
  intro state reachable
  have guarded := test.guarded lk node crossover
  exact ⟨fun thread work inside => reachable.holds_guard guarded inside,
    fun slot outside => reachable.store_eq guarded outside⟩

/-- The tests of the stacks, the queues and the lists are serialised, for any threads on any nodes,
with any crossovers and draws, in any interleaving. -/
theorem locked_tests_serialised (lk : Vectors → Fin numDs → Mutex)
    (node crossover : Thread → Int) (stackInit : SlotName numDs → Except Memory.Fault Stack)
    (queueInit : SlotName numDs → Except Memory.Fault Queue)
    (llInit : SlotName numDs → Except Memory.Fault LinkedList) :
    stackTest.Serialised lk node crossover stackInit ∧
      queueTest.Serialised lk node crossover queueInit ∧
      linkedListTest.Serialised lk node crossover llInit :=
  ⟨stackTest.serialised lk node crossover stackInit,
    queueTest.serialised lk node crossover queueInit,
    linkedListTest.serialised lk node crossover llInit⟩

end Runs

/-- What goes wrong in one operation on a structure stays wrong. -/
theorem contents_error {Structure : Type}
    {perform : Operation → Except Memory.Fault Structure → Except Memory.Fault Structure}
    (strict : ∀ operation fault, perform operation (.error fault) = .error fault)
    (fault : Memory.Fault) (operations : List Operation) :
    contents perform (.error fault) operations = .error fault := by
  -- No operation brings the structure back.
  induction operations with
  | nil => rfl
  | cons operation rest ih =>
    show contents perform (perform operation (.error fault)) rest = .error fault
    rw [strict, ih]

/-- Operations on a stack are calls in a row. -/
theorem contents_stackTest (stack : Stack) (calls : List (Lifo.Call Int)) :
    contents stackTest.perform (.ok stack) calls =
      (Stack.runCalls stack calls).map fun (_, _, after) => after := by
  -- A stack that is lost stays lost.
  have strict : ∀ (call : Lifo.Call Int) fault,
      stackTest.perform call (.error fault) = .error fault := fun call fault => by
    cases call <;> rfl
  -- By induction on the calls, from the stack that the first one leaves.
  induction calls generalizing stack with
  | nil => rfl
  | cons call rest ih =>
    cases call with
    | push data =>
      show contents stackTest.perform (stack.push data) rest =
        (stack.push data >>= fun after => Stack.runCalls after rest).map _
      cases stack.push data with
      -- Where the call goes wrong, so does the run.
      | error fault => exact contents_error strict fault rest
      | ok after => exact ih after
    | pop =>
      -- What is popped is of no importance for the contents.
      show contents stackTest.perform (stack.pop >>= fun popped => pure popped.2.2) rest =
        (stack.pop >>= fun popped => Stack.runCalls popped.2.2 rest >>= fun others =>
          pure (popped.1 :: others.1, popped.2.1 ++ others.2.1, others.2.2)).map _
      cases stack.pop with
      | error fault => exact contents_error strict fault rest
      | ok popped =>
        refine (ih popped.2.2).trans ?_
        show _ = (Stack.runCalls popped.2.2 rest >>= _).map _
        cases Stack.runCalls popped.2.2 rest <;> rfl

/-- Operations on a queue are calls in a row. -/
theorem contents_queueTest (queue : Queue) (calls : List (Fifo.Call Int)) :
    contents queueTest.perform (.ok queue) calls =
      (runCalls Exprs.del queue calls).map Prod.snd := by
  -- A queue that is lost stays lost.
  have strict : ∀ (call : Fifo.Call Int) fault,
      queueTest.perform call (.error fault) = .error fault := fun call fault => by
    cases call <;> rfl
  -- By induction on the calls, from the queue that the first one leaves.
  induction calls generalizing queue with
  | nil => rfl
  | cons call rest ih =>
    cases call with
    | add data =>
      show contents queueTest.perform (Lists.add queue data) rest =
        (Lists.add queue data >>= fun after => runCalls Exprs.del after rest).map _
      cases Lists.add queue data with
      -- Where the call goes wrong, so does the run.
      | error fault => exact contents_error strict fault rest
      | ok after => exact ih after
    | del =>
      -- What is removed is of no importance for the contents.
      show contents queueTest.perform (Exprs.del queue >>= fun removed => pure removed.2) rest =
        (Exprs.del queue >>= fun removed => runCalls Exprs.del removed.2 rest >>= fun others =>
          pure (removed.1 :: others.1, others.2)).map _
      cases Exprs.del queue with
      | error fault => exact contents_error strict fault rest
      | ok removed =>
        refine (ih removed.2).trans ?_
        show _ = (runCalls Exprs.del removed.2 rest >>= _).map _
        cases runCalls Exprs.del removed.2 rest <;> rfl

/-- Operations on a list are calls in a row. -/
theorem contents_linkedListTest (list : LinkedList) (operations : List Lists.Operation) :
    contents linkedListTest.perform (.ok list) operations = runOperations list operations := by
  -- By induction on the calls, from the list that the first one leaves.
  induction operations generalizing list with
  | nil => rfl
  | cons operation rest ih =>
    show contents linkedListTest.perform (perform list operation >>= fun done => pure done.2) rest =
      (perform list operation >>= fun done => runOperations done.2 rest)
    cases perform list operation with
    | error fault => exact contents_error (fun _ _ => rfl) fault rest
    | ok done => exact ih done.2

section Contents

variable [DecidableEq Thread] [DecidableEq Mutex] {lk : Vectors → Fin numDs → Mutex}
  {node crossover : Thread → Int} {slot : SlotName numDs}

/-- A stack that was new, and that no thread is at, holds the values that its operations leave, in
the order in which its mutex has been taken. -/
theorem stackTest_contents
    {state : State Thread Mutex (SlotName numDs) (Lifo.Call Int) (Except Memory.Fault Stack)}
    (reachable : Reachable (stackTest.system lk node crossover) (fun _ => .ok Stack.new) state)
    (outside : ∀ thread work, (state.phase thread).Inside work → work.object ≠ slot) :
    ∃ stack nodes, state.store slot = .ok stack ∧ Stack.Piled stack nodes ∧
      Memory.valuesOf nodes = Lifo.contentsAfter [] (operationsOn slot state.taken) := by
  -- Calls in a row on a new stack end on a chain of the values.
  obtain ⟨-, store⟩ := stackTest.serialised lk node crossover _ state reachable
  obtain ⟨deleted, stack, nodes, run, piled, values, -⟩ :=
    Stack.runCalls_piled Stack.piled_new (operationsOn slot state.taken)
  refine ⟨stack, nodes, ?_, piled, values⟩
  rw [store slot outside, contents_stackTest, run]
  rfl

/-- A queue that was new, and that no thread is at, holds the values that its operations leave, in
the order in which its mutex has been taken. -/
theorem queueTest_contents
    {state : State Thread Mutex (SlotName numDs) (Fifo.Call Int) (Except Memory.Fault Queue)}
    (reachable : Reachable (queueTest.system lk node crossover) (fun _ => .ok Queue.new) state)
    (outside : ∀ thread work, (state.phase thread).Inside work → work.object ≠ slot) :
    ∃ queue nodes, state.store slot = .ok queue ∧ Lined queue nodes ∧
      Memory.valuesOf nodes = Fifo.contentsAfter [] (operationsOn slot state.taken) := by
  -- Calls in a row on a new queue end on a chain of the values.
  obtain ⟨-, store⟩ := queueTest.serialised lk node crossover _ state reachable
  obtain ⟨queue, nodes, run, lined, -, values⟩ := runCalls_lined (operationsOn slot state.taken)
  refine ⟨queue, nodes, ?_, lined, values⟩
  rw [store slot outside, contents_queueTest, run]
  rfl

end Contents

end SecretTyping.Bench
