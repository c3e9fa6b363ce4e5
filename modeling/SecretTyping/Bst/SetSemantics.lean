import Mathlib.Order.BooleanAlgebra.Set
import SecretTyping.Bst.Runs

/-! The benchmark tree as a set of keys, and the removals for which it is one. -/

namespace SecretTyping.Bst

open Memory

/-- What a call does to a set of keys. -/
def Operation.onKeys (keys : Set Int) : Operation → Set Int
  | .insert data => Insert.insert data keys
  | .remove data => keys \ {data}
  | .lookup _ | .update _ | .getDepth => keys

/-- The set of keys that calls on an empty set leave. -/
def keysAfter (operations : List Operation) : Set Int := operations.foldl Operation.onKeys ∅

/-- After the calls, the tree stores exactly the keys of the set. -/
def StoresKeys (operations : List Operation) : Prop :=
  ∃ tree, runOperations .new operations = .ok tree ∧
    storedKeys nodeLayout tree.heap tree.root = keysAfter operations

/-- A removal has nothing to remove, or it removes the only key there is. -/
def Harmless (before : List Operation) (data : Int) : Prop :=
  data ∉ keysAfter before ∨ keysAfter before = {data}

/-- Calls one after another are a run and one more call. -/
theorem runOperations_append (tree : BinarySearchTree) (first second : List Operation) :
    runOperations tree (first ++ second) =
      runOperations tree first >>= fun middle => runOperations middle second := by
  -- By induction on the first calls, of which any may fail.
  induction first generalizing tree with
  | nil => rfl
  | cons operation first ih =>
    simp only [List.cons_append, runOperations]
    cases perform tree operation with
    | error fault => rfl
    | ok step => exact ih step.2

/-- One more call acts on the set that the calls before it leave. -/
theorem keysAfter_concat (before : List Operation) (operation : Operation) :
    keysAfter (before ++ [operation]) = operation.onKeys (keysAfter before) := by
  simp [keysAfter]

/-- The keys of a represented tree. -/
theorem Represents.storedKeys {tree : BinarySearchTree} {shape : Shape Int}
    (represents : Represents tree shape) :
    Memory.storedKeys nodeLayout tree.heap tree.root = { key | key ∈ shape.keys } := by
  -- In an ordered tree the reachable keys are the keys of its shape.
  rw [represents.root]
  exact represents.stored.storedKeys_eq represents.ordered

/-- A removal does to the keys of a tree what it does to a set exactly when the key is absent or the
only one. -/
theorem keys_afterRemove (data : Int) (shape : Shape Int) :
    { key | key ∈ (afterRemove data shape).keys } = { key | key ∈ shape.keys } \ {data} ↔
      data ∉ shape.keys ∨ { key | key ∈ shape.keys } = {data} := by
  cases shape with
  -- From an empty tree nothing is removed.
  | leaf => simp [afterRemove, Shape.keys]
  | node address left held right =>
    let all : Set Int := { key | key ∈ (Shape.node address left held right).keys }
    have heldMember : held ∈ all := by simp [all, Shape.keys]
    change _ = all \ {data} ↔ data ∉ all ∨ all = {data}
    rw [afterRemove]
    split
    · next same =>
      subst same
      -- The tree is dropped, which is right when it held nothing but the root.
      have nothing : { key | key ∈ (Shape.leaf : Shape Int).keys } = ∅ := by simp [Shape.keys]
      rw [nothing, eq_comm, Set.sdiff_eq_empty, Set.subset_singleton_iff_eq]
      constructor
      · -- The root is one of the keys, so nothing else was there.
        rintro (empty | only)
        · rw [empty] at heldMember
          exact absurd heldMember (Set.notMem_empty held)
        · exact .inr only
      · rintro (absent | only)
        · exact absurd heldMember absent
        · exact .inr only
    · next other =>
      -- The tree stays, which is right when the key was not there.
      have notOnly : all ≠ {data} := by
        intro only
        rw [only] at heldMember
        exact other heldMember
      change all = all \ {data} ↔ _
      constructor
      · -- What is removed from the set was not in it.
        intro kept
        refine .inl fun member => ?_
        rw [kept] at member
        exact member.2 rfl
      · intro either
        exact (Set.sdiff_singleton_eq_self (either.resolve_right notOnly)).symm

/-- A call does to the keys of a tree what it does to a set, unless it is a harmful removal. -/
theorem keys_shapeAfter (tree : BinarySearchTree) (shape : Shape Int) (operation : Operation) :
    { key | key ∈ (shapeAfter tree shape operation).keys } =
        operation.onKeys { key | key ∈ shape.keys } ↔
      ∀ data, operation = .remove data →
        data ∉ shape.keys ∨ { key | key ∈ shape.keys } = {data} := by
  -- Insertion is right on every tree, and the calls that only read change nothing.
  cases operation with
  -- An insertion adds its key to those of the tree.
  | insert data =>
    refine ⟨fun _ other same => Operation.noConfusion same, fun _ => ?_⟩
    ext key
    exact Shape.mem_keys_insert data tree.heap.next shape key
  -- A removal is right just where the key is missing or the only one.
  | remove data =>
    refine (keys_afterRemove data shape).trans ⟨fun harmless other same => ?_, fun all => ?_⟩
    · cases same
      exact harmless
    · exact all data rfl
  | lookup data => simp [shapeAfter, Operation.onKeys]
  | update data => simp [shapeAfter, Operation.onKeys]
  | getDepth => simp [shapeAfter, Operation.onKeys]

/-- The empty tree stores no key. -/
theorem storesKeys_nil : StoresKeys [] := by
  -- Both the tree and the set are empty.
  have empty : Represents .new .leaf := represents_leaf rfl
  refine ⟨.new, rfl, ?_⟩
  rw [empty.storedKeys]
  simp [Shape.keys, keysAfter]

/-- After calls that left the right keys, one more call does so unless it is a harmful removal. -/
theorem storesKeys_concat {before : List Operation} (stores : StoresKeys before)
    (operation : Operation) :
    StoresKeys (before ++ [operation]) ↔
      ∀ data, operation = .remove data → Harmless before data := by
  -- The run so far stores what it should, in a represented tree.
  obtain ⟨tree, run, same⟩ := stores
  obtain ⟨reached, shape, runAgain, represents⟩ :=
    runOperations_represents (represents_leaf rfl : Represents .new .leaf) before
  cases run.symm.trans runAgain
  obtain ⟨result, after, done, again⟩ := perform_represents represents operation
  have runMore : runOperations .new (before ++ [operation]) = .ok after := by
    rw [runOperations_append, run]
    simp only [runOperations, done, Bind.bind, Except.bind]
  rw [represents.storedKeys] at same
  -- What one more call makes of the keys is known from its step.
  have step := keys_shapeAfter tree shape operation
  rw [same, ← keysAfter_concat, ← again.storedKeys] at step
  have members : ∀ data, data ∈ shape.keys ↔ data ∈ keysAfter before := fun data => by
    rw [← same]
    rfl
  -- There is one run only, so what it stores is what this run stores.
  refine Iff.trans ⟨?_, fun equal => ⟨after, runMore, equal⟩⟩ (step.trans ?_)
  · intro given
    obtain ⟨other, runOther, equal⟩ := given
    cases runMore.symm.trans runOther
    exact equal
  · simp only [Harmless, members]

/-- After every prefix of the calls the tree stores the keys of the set exactly when every removal
among them is of an absent key or of the only one. -/
theorem storesKeys_iff (operations : List Operation) :
    (∀ before, before <+: operations → StoresKeys before) ↔
      ∀ before data, before ++ [.remove data] <+: operations → Harmless before data := by
  constructor
  · intro stores before data isPrefix
    have earlier : before <+: operations := (List.prefix_append _ _).trans isPrefix
    exact (storesKeys_concat (stores before earlier) _).mp (stores _ isPrefix) data rfl
  · intro harmless before
    -- The calls are added one at a time.
    induction before using List.reverseRecOn with
    | nil => exact fun _ => storesKeys_nil
    | append_singleton before operation ih =>
      intro isPrefix
      have stores := ih ((List.prefix_append _ _).trans isPrefix)
      refine (storesKeys_concat stores operation).mpr fun data same => ?_
      exact harmless before data (same ▸ isPrefix)

/-- A smaller key than the one at the root is still stored after its removal. -/
theorem storesKeys_fails : ¬ StoresKeys [.insert 2, .insert 1, .remove 1] := by
  have second := (storesKeys_concat storesKeys_nil (.insert 2)).mpr (by simp)
  have third := (storesKeys_concat second (.insert 1)).mpr (by simp)
  intro stores
  -- Both keys are there, so the removal is neither idle nor of the only key.
  have kept : keysAfter [.insert 2, .insert 1] = {1, 2} := by simp [keysAfter, Operation.onKeys]
  have harmless := (storesKeys_concat third (.remove 1)).mp stores 1 rfl
  rcases harmless with absent | only
  · exact absent (by simp [kept])
  · have both : (2 : Int) ∈ ({1} : Set Int) := only ▸ (by simp [kept])
    simp at both

end SecretTyping.Bst
