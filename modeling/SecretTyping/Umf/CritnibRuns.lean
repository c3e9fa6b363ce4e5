import Mathlib.Order.Bounds.Basic
import SecretTyping.Umf.CritnibOrder

/-! Runs of operations on a tree, and the runs of a map that they are. -/

namespace SecretTyping.Umf.Critnib

variable {Value : Type}

/-- The keys of a map that are in a direction from a bound. -/
def candidates (map : Word → Option Value) (key : Word) (dir : FindDir) : Set Word :=
  {other | map other ≠ none ∧ match dir with
    | .l => other < key
    | .le => other ≤ key
    | .eq => other = key
    | .ge => key ≤ other
    | .g => key < other}

/-- Is a key the nearest of the candidates? -/
def IsNearest (dir : FindDir) (keys : Set Word) (key : Word) : Prop :=
  match dir with
  | .l | .le => IsGreatest keys key
  | .eq | .ge | .g => IsLeast keys key

/-- What a search in a map may return. -/
def MapFind (map : Word → Option Value) (key : Word) (dir : FindDir) :
    Option (Word × Value) → Prop
  | some found => map found.1 = some found.2 ∧ IsNearest dir (candidates map key dir) found.1
  | none => candidates map key dir = ∅

/-- The keys of the tree are those of the map. -/
theorem mem_keys_iff {tree : Tree Value} (shaped : tree.Shaped) {key : Word} :
    key ∈ tree.root.keys ↔ contents tree key ≠ none := by
  -- A key is held with some value.
  rw [Option.ne_none_iff_exists']
  exact exists_congr fun value => (contents_eq_some_iff shaped).symm

/-- A strict bound from above is the word before it. -/
theorem le_sub_one_iff {key : Word} (positive : key ≠ 0) (other : Word) :
    -- The bound is not zero, so one can be taken away from it.
    other ≤ key - 1 ↔ other < key := by
  rw [BitVec.le_def, BitVec.lt_def]
  bv_omega

/-- A strict bound from below is the word behind it. -/
theorem add_one_le_iff {key : Word} (bounded : key ≠ -1) (other : Word) :
    -- The bound is not the last word, so one can be added to it.
    key + 1 ≤ other ↔ key < other := by
  rw [BitVec.le_def, BitVec.lt_def]
  bv_omega

/-- What a search for the nearest key returns, as a search in the map. -/
theorem nearest_mapFind {direction : Direction} (lawful : direction.Lawful) {tree : Tree Value}
    (shaped : tree.Shaped) (bound key : Word) (dir : FindDir)
    (within : ∀ other, other ∈ candidates (contents tree) key dir ↔
      contents tree other ≠ none ∧ direction.within other bound = true)
    (nearest : ∀ keys found, (found ∈ keys ∧ ∀ other ∈ keys,
      ¬ direction.strictly found other = true) → IsNearest dir keys found) :
    MapFind (contents tree) key dir (Critnib.nearest direction bound tree.root) := by
  -- The keys of the tree are those of the map.
  have spec := nearest_spec lawful shaped.wellFormed bound
  cases result : Critnib.nearest direction bound tree.root with
  | none =>
    rw [result] at spec
    rw [MapFind, Set.eq_empty_iff_forall_notMem]
    intro other candidate
    obtain ⟨there, before⟩ := (within other).mp candidate
    exact spec other ((mem_keys_iff shaped).mpr there) before
  | some found =>
    rw [result] at spec
    obtain ⟨held, before, closest⟩ := spec
    have stored := (contents_eq_some_iff shaped).mpr held
    refine ⟨stored, nearest _ _ ⟨(within _).mpr ⟨?_, before⟩, ?_⟩⟩
    · rw [stored]
      exact Option.some_ne_none _
    · intro other candidate
      obtain ⟨there, possible⟩ := (within other).mp candidate
      exact closest other ((mem_keys_iff shaped).mpr there) possible

/-- The search to the left finds the greatest candidate. -/
theorem findLe_mapFind {tree : Tree Value} (shaped : tree.Shaped) (bound key : Word) {dir : FindDir}
    (backward : dir = .l ∨ dir = .le)
    (before : ∀ other, other ∈ candidates (contents tree) key dir ↔
      contents tree other ≠ none ∧ other ≤ bound) :
    MapFind (contents tree) key dir (findLe bound tree.root) := by
  -- What is not behind the bound is before it.
  apply nearest_mapFind lawful_le shaped
  · intro other
    rw [before, Direction.le, decide_eq_true_eq]
  · rintro keys found ⟨member, last⟩
    have greatest : IsGreatest keys found := by
      refine ⟨member, fun other inside => ?_⟩
      have notBehind := last other inside
      rw [Direction.le, decide_eq_true_eq] at notBehind
      exact not_lt.mp notBehind
    rcases backward with rfl | rfl
    · exact greatest
    · exact greatest

/-- The search to the right finds the least candidate. -/
theorem findGe_mapFind {tree : Tree Value} (shaped : tree.Shaped) (bound key : Word) {dir : FindDir}
    (forward : dir = .ge ∨ dir = .g)
    (behind : ∀ other, other ∈ candidates (contents tree) key dir ↔
      contents tree other ≠ none ∧ bound ≤ other) :
    MapFind (contents tree) key dir (findGe bound tree.root) := by
  -- What is not before the bound is behind it.
  apply nearest_mapFind lawful_ge shaped
  · intro other
    rw [behind, Direction.ge, decide_eq_true_eq]
  · rintro keys found ⟨member, first⟩
    have least : IsLeast keys found := by
      refine ⟨member, fun other inside => ?_⟩
      have notBefore := first other inside
      rw [Direction.ge, decide_eq_true_eq] at notBefore
      exact not_lt.mp notBefore
    rcases forward with rfl | rfl
    · exact least
    · exact least

/-- Where no key is in a direction, there is no candidate. -/
theorem mapFind_none {map : Word → Option Value} {key : Word} {dir : FindDir}
    (nowhere : ∀ other, other ∉ candidates map key dir) : MapFind map key dir none :=
  Set.eq_empty_iff_forall_notMem.mpr nowhere

/-- The search in a direction finds the nearest key of the map. -/
theorem critnibFind_mapFind {tree : Tree Value} (shaped : tree.Shaped) (key : Word)
    (dir : FindDir) : MapFind (contents tree) key dir (critnibFind tree key dir) := by
  -- A strict bound is the bound next to it, unless there is no word beyond it.
  cases dir with
  | le => exact findLe_mapFind shaped key key (Or.inr rfl) fun other => Iff.rfl
  | ge => exact findGe_mapFind shaped key key (Or.inl rfl) fun other => Iff.rfl
  | l =>
    rw [critnibFind]
    by_cases zero : key = 0
    · rw [if_pos zero]
      apply mapFind_none
      intro other candidate
      have less : other < key := candidate.2
      rw [zero, BitVec.lt_def] at less
      exact Nat.not_lt_zero _ less
    · rw [if_neg zero]
      apply findLe_mapFind shaped (key - 1) key (Or.inl rfl)
      intro other
      rw [le_sub_one_iff zero]
      exact Iff.rfl
  | g =>
    rw [critnibFind]
    by_cases full : key = -1
    · rw [if_pos full]
      apply mapFind_none
      intro other candidate
      have less : key < other := candidate.2
      rw [full, BitVec.lt_def] at less
      exact absurd other.isLt (Nat.not_lt.mpr less)
    · rw [if_neg full]
      apply findGe_mapFind shaped (key + 1) key (Or.inr rfl)
      intro other
      rw [add_one_le_iff full]
      exact Iff.rfl
  | eq =>
    rw [critnibFind]
    -- The search for the key itself finds it or nothing.
    cases result : findEq key tree.root with
    | none =>
      apply mapFind_none
      rintro other ⟨there, same⟩
      have same : other = key := same
      subst same
      obtain ⟨value, stored⟩ := Option.ne_none_iff_exists'.mp there
      have found := (findEq_eq_some_iff shaped.wellFormed).mpr
        ⟨rfl, (contents_eq_some_iff shaped).mp stored⟩
      rw [result] at found
      cases found
    | some found =>
      have entry : findEq key tree.root = some (found.1, found.2) := result
      obtain ⟨same, held⟩ := (findEq_eq_some_iff shaped.wellFormed).mp entry
      have stored : contents tree found.1 = some found.2 := by
        rw [same]
        exact (contents_eq_some_iff shaped).mpr held
      refine ⟨stored, ⟨?_, same⟩, ?_⟩
      · rw [stored]
        exact Option.some_ne_none _
      · intro other candidate
        have equal : other = key := candidate.2
        rw [same, equal]

/-- An operation on a tree; an insertion comes with what the allocator returns to it. -/
inductive Operation (Value : Type) where
  | insert (key : Word) (value : Value) (update : Bool) (memory : Memory)
  | remove (key : Word)
  | get (key : Word)
  | find (key : Word) (dir : FindDir)
  | findLe (key : Word)

/-- What an operation returns. -/
inductive Reply (Value : Type) where
  | outcome (outcome : Outcome)
  | value (value : Option Value)
  | found (entry : Option (Word × Value))

/-- Perform an operation on a tree. -/
def perform (tree : Tree Value) : Operation Value → Option (Reply Value × Tree Value)
  | .insert key value update memory =>
    (critnibInsert tree key value update memory).map fun (outcome, tree) => (.outcome outcome, tree)
  | .remove key => (critnibRemove tree key).map fun (value, tree) => (.value value, tree)
  | .get key => some (.value (critnibGet tree key), tree)
  | .find key dir => some (.found (critnibFind tree key dir), tree)
  | .findLe key => some (.value (critnibFindLe tree key), tree)

/-- Perform operations one after another. -/
def performAll (tree : Tree Value) :
    List (Operation Value) → Option (List (Reply Value) × Tree Value)
  | [] => some ([], tree)
  | operation :: rest => do
    let (reply, tree) ← perform tree operation
    let (replies, tree) ← performAll tree rest
    return (reply :: replies, tree)

/-- What an operation on a map may return and make of it. -/
def MapStep (before : Word → Option Value) :
    Operation Value → Reply Value → (Word → Option Value) → Prop
  | .insert key value update memory, .outcome outcome, after =>
    MapInsert before key value update memory outcome after
  | .remove key, .value value, after =>
    value = before key ∧ after = Function.update before key none
  | .get key, .value value, after => value = before key ∧ after = before
  | .find key dir, .found entry, after => MapFind before key dir entry ∧ after = before
  | .findLe key, .value value, after =>
    (∃ entry, MapFind before key .le entry ∧ value = entry.map Prod.snd) ∧ after = before
  | _, _, _ => False

/-- What operations on a map may return, one after another, and make of it. -/
def MapRun : (Word → Option Value) → List (Operation Value) → List (Reply Value) →
    (Word → Option Value) → Prop
  | before, [], [], after => after = before
  | before, operation :: operations, reply :: replies, after =>
    ∃ middle, MapStep before operation reply middle ∧ MapRun middle operations replies after
  | _, _, _, _ => False

/-- An operation on a shaped tree is possible, leaves it shaped, and is one on the map. -/
theorem perform_spec {tree : Tree Value} (shaped : tree.Shaped) (operation : Operation Value) :
    ∃ reply after, perform tree operation = some (reply, after) ∧ after.Shaped ∧
      MapStep (contents tree) operation reply (contents after) := by
  -- An insertion and a removal have their own lemmas, and the searches change nothing.
  cases operation with
  | insert key value update memory =>
    obtain ⟨outcome, after, performed, inserted⟩ :=
      critnibInsert_cases shaped key value update memory
    obtain ⟨shape, spec⟩ := inserted.spec shaped
    exact ⟨.outcome outcome, after, by rw [perform, performed]; rfl, shape, spec⟩
  | remove key =>
    obtain ⟨value, after, performed, removal⟩ := critnibRemove_cases shaped key
    obtain ⟨shape, spec⟩ := removal.spec shaped
    exact ⟨.value value, after, by rw [perform, performed]; rfl, shape, spec⟩
  | get key => exact ⟨_, tree, rfl, shaped, rfl, rfl⟩
  | find key dir => exact ⟨_, tree, rfl, shaped, critnibFind_mapFind shaped key dir, rfl⟩
  | findLe key =>
    exact ⟨_, tree, rfl, shaped, ⟨_, critnibFind_mapFind shaped key .le, rfl⟩, rfl⟩

/-- A new tree is shaped. -/
theorem shaped_critnibNew : (critnibNew : Tree Value).Shaped :=
  ⟨trivial, trivial⟩

/-- From a shaped tree, all operations are possible, and they are operations on the map. -/
theorem performAll_spec {tree : Tree Value} (shaped : tree.Shaped)
    (operations : List (Operation Value)) :
    ∃ replies after, performAll tree operations = some (replies, after) ∧ after.Shaped ∧
      MapRun (contents tree) operations replies (contents after) := by
  -- By induction on the operations, each of which leaves the tree shaped.
  induction operations generalizing tree with
  | nil => exact ⟨[], tree, rfl, shaped, rfl⟩
  | cons operation rest ih =>
    obtain ⟨reply, middle, performed, shape, step⟩ := perform_spec shaped operation
    obtain ⟨replies, after, performedRest, last, run⟩ := ih shape
    refine ⟨reply :: replies, after, ?_, last, contents middle, step, run⟩
    simp [performAll, performed, performedRest]

/-- Whatever operations are performed on a new tree, with whatever memory there is, no assertion
fails, and the replies are those of a map from words to values. -/
theorem critnib_refines_map (operations : List (Operation Value)) :
    ∃ replies tree, performAll critnibNew operations = some (replies, tree) ∧
      MapRun (fun _ => none) operations replies (critnibGet tree) := by
  obtain ⟨replies, tree, performed, -, run⟩ := performAll_spec shaped_critnibNew operations
  exact ⟨replies, tree, performed, run⟩

end SecretTyping.Umf.Critnib
