import SecretTyping.Umf.CritnibRuns

/-! Iteration over the keys in a range: what is visited, and what is passed over. -/

namespace SecretTyping.Umf.Critnib

open Digits

variable {Value State : Type}

/-- The leaves that are reached from left to right, where the nodes that seem to be below the least
key are passed over. -/
def reached (least : Word) : Node Value → List (Word × Value)
  | .null => []
  | .leaf _ key value => [(key, value)]
  | .node _ child path shift =>
    if path ||| pathMask shift < least then []
    else (List.finRange slnodes).flatMap fun i => reached least (child i)

/-- Is the key of an entry in a range? -/
def inRange (least greatest : Word) (entry : Word × Value) : Bool :=
  least ≤ entry.1 && entry.1 ≤ greatest

/-- Call a function for the entries of a list that are in a range, until it says to stop. -/
def visit (least greatest : Word) (func : Word → Value → State → Bool × State)
    (items : List (Word × Value)) (state : State) : Bool × State :=
  untilStop (fun entry => func entry.1 entry.2) (items.filter (inRange least greatest)) state

/-- A key is passed over if another one differs from it in a slice that has a mask below the least
key: the mask has the bits above the slice, not those below. -/
def PassedOver (least : Word) (keys : Set Word) (key : Word) : Prop :=
  ∃ other ∈ keys, other ≠ key ∧ pathMask (shiftOf (other ^^^ key)) < least

/-- Keys below two children of a node differ first in its slice. -/
theorem Branching.shiftOf_eq {child : Fin slnodes → Node Value} {path : Word} {shift : Sh}
    (branching : Branching child path shift) {i j : Fin slnodes} (apart : i ≠ j) {a b : Word}
    (first : a ∈ (child i).keys) (second : b ∈ (child j).keys) :
    a ≠ b ∧ shiftOf (a ^^^ b) = shift := by
  -- They have the same path, and not the same digit.
  have above := (branching.above_path first).trans (branching.above_path second).symm
  obtain ⟨value, first⟩ := first
  obtain ⟨other, second⟩ := second
  have digits : sliceIndex a shift ≠ sliceIndex b shift := by
    rwa [branching.inSlice i a value first, branching.inSlice j b other second]
  rw [ne_eq, sliceIndex_eq_iff] at digits
  have different : a.toNat ≠ b.toNat := by
    intro same
    rw [same] at digits
    exact digits rfl
  have differ : Digits.above shift.toNat a.toNat ≠ Digits.above shift.toNat b.toNat :=
    fun agree => digits ((above_eq_iff slice).mp agree).2
  refine ⟨fun same => different (congrArg BitVec.toNat same), ?_⟩
  apply BitVec.eq_of_toNat_eq
  rw [shiftOf_toNat]
  -- The highest difference is not below the slice and not above it.
  have least := le_highestDifference (by decide) branching.aligned differ
  have greatest := highestDifference_lt (by decide)
    (Nat.dvd_add branching.aligned (Nat.dvd_refl slice)) different above
  omega

/-- A key below a node is passed over there if it is passed over below its child, or the mask of the
node is below the least key. -/
theorem Branching.passedOver_iff {child : Fin slnodes → Node Value} {path : Word} {shift : Sh}
    (branching : Branching child path shift) (inner : ∀ i, (child i).WellFormed) {i : Fin slnodes}
    {key : Word} (held : key ∈ (child i).keys) (address : Address) (least : Word) :
    PassedOver least (Node.node address child path shift).keys key ↔
      PassedOver least (child i).keys key ∨ pathMask shift < least := by
  -- Another key is below the same child or below another one.
  apply Iff.intro
  · rintro ⟨other, ⟨value, j, below⟩, different, less⟩
    by_cases same : j = i
    · subst same
      exact Or.inl ⟨other, ⟨value, below⟩, different, less⟩
    · rw [(branching.shiftOf_eq same ⟨value, below⟩ held).2] at less
      exact Or.inr less
  · rintro (⟨other, ⟨value, below⟩, different, less⟩ | less)
    · exact ⟨other, ⟨value, i, below⟩, different, less⟩
    · -- A fork has another child, which has a key.
      have another : ∃ j, j ≠ i ∧ (child j).isNull = false := by
        obtain ⟨first, second, apart, one, two⟩ := branching.forks
        by_cases same : first = i
        · exact ⟨second, fun equal => apart (same.trans equal.symm), two⟩
        · exact ⟨first, same, one⟩
      obtain ⟨j, apart, there⟩ := another
      obtain ⟨other, value, below⟩ := exists_holds (inner j) there
      obtain ⟨different, shifted⟩ := branching.shiftOf_eq apart ⟨value, below⟩ held
      exact ⟨other, ⟨value, j, below⟩, different, by rwa [shifted]⟩

/-- What is reached is what the tree holds and is not passed over. -/
theorem mem_reached {node : Node Value} (wellFormed : node.WellFormed) (least : Word) {key : Word}
    {value : Value} :
    (key, value) ∈ reached least node ↔
      node.Holds key value ∧ ¬ PassedOver least node.keys key := by
  -- By induction on the node; its path has no bits that its mask does not have.
  induction node with
  | null => simp [reached, Node.Holds]
  | leaf address found stored =>
    -- A leaf is reached, and has no other key that it could be passed over for.
    simp only [reached, List.mem_singleton, Prod.mk.injEq, Node.Holds]
    apply Iff.intro
    · rintro ⟨rfl, rfl⟩
      refine ⟨⟨rfl, rfl⟩, ?_⟩
      rintro ⟨other, ⟨value, rfl, -⟩, different, -⟩
      exact different rfl
    · rintro ⟨⟨rfl, rfl⟩, -⟩
      exact ⟨rfl, rfl⟩
  | node address child path shift ih =>
    obtain ⟨branching, inner⟩ := wellFormed
    have mask : path ||| pathMask shift = pathMask shift := by
      rw [← branching.masked]
      apply BitVec.eq_of_getLsbD_eq
      intro i inside
      simp only [BitVec.getLsbD_or, BitVec.getLsbD_and]
      cases (pathMask shift).getLsbD i <;> simp
    rw [reached, mask]
    -- The node is left out if its mask is below the least key, or all its children are searched.
    split
    · next less =>
      simp only [List.not_mem_nil, false_iff, not_and, not_not]
      rintro ⟨i, held⟩
      exact (branching.passedOver_iff inner ⟨value, held⟩ address least).mpr (Or.inr less)
    · next notLess =>
      simp only [List.mem_flatMap, List.mem_finRange, true_and, fun i => ih i (inner i)]
      apply Iff.intro
      · -- A key that is reached is passed over neither below its child nor at this node.
        rintro ⟨i, held, notPassed⟩
        refine ⟨⟨i, held⟩, ?_⟩
        rw [branching.passedOver_iff inner ⟨value, held⟩ address least]
        exact fun passed => passed.elim notPassed notLess
      · rintro ⟨⟨i, held⟩, notPassed⟩
        rw [branching.passedOver_iff inner ⟨value, held⟩ address least] at notPassed
        exact ⟨i, held, fun passed => notPassed (Or.inl passed)⟩

/-- The keys that are reached go up from left to right. -/
theorem pairwise_reached {node : Node Value} (wellFormed : node.WellFormed) (least : Word) :
    (reached least node).Pairwise fun first second => first.1 < second.1 := by
  -- By induction on the node, whose children are in the order of their keys.
  induction node with
  | null => exact List.Pairwise.nil
  | leaf address found stored => exact List.pairwise_singleton _ _
  | node address child path shift ih =>
    obtain ⟨branching, inner⟩ := wellFormed
    rw [reached]
    split
    · exact List.Pairwise.nil
    · rw [List.pairwise_flatMap]
      refine ⟨fun i _ => ih i (inner i), ?_⟩
      -- Keys below a later child are greater.
      apply (List.pairwise_lt_finRange slnodes).imp
      intro i j before first left second right
      have beyond : Direction.ge.beyond i j = true := by simpa [Direction.ge] using before
      have ordered := branching.strictly lawful_ge beyond
        ⟨first.2, ((mem_reached (inner i) least).mp left).1⟩
        ⟨second.2, ((mem_reached (inner j) least).mp right).1⟩
      simpa [Direction.ge] using ordered

/-- Visiting goes on behind the first part of a list if it has not stopped there. -/
theorem visit_append (least greatest : Word) (func : Word → Value → State → Bool × State)
    (first second : List (Word × Value)) (state : State) :
    visit least greatest func (first ++ second) state =
      if (visit least greatest func first state).1 then visit least greatest func first state
      else visit least greatest func second (visit least greatest func first state).2 := by
  rw [visit, visit, visit, List.filter_append]
  -- By induction on the entries that are called for.
  induction first.filter (inRange least greatest) generalizing state with
  | nil => rfl
  | cons entry rest ih =>
    rw [List.cons_append, untilStop, untilStop]
    cases called : func entry.1 entry.2 state with
    | mk stop after =>
      cases stop with
      | true => rfl
      | false => exact ih after

/-- Nothing is visited where no entry is in the range. -/
theorem visit_none {least greatest : Word} {items : List (Word × Value)}
    (apart : ∀ entry ∈ items, inRange least greatest entry = false)
    (func : Word → Value → State → Bool × State) (state : State) :
    visit least greatest func items state = (false, state) := by
  -- The list of the entries in the range is empty.
  have none : items.filter (inRange least greatest) = [] := by
    rw [List.filter_eq_nil_iff]
    intro entry member
    rw [apart entry member]
    exact Bool.false_ne_true
  rw [visit, none, untilStop]

/-- An iteration does what a visit does; where it stops by itself, no key that is greater than those
of its subtree is in the range. -/
structure Visits (greatest : Word) (keys : Set Word) (iterated visited : Bool × State) : Prop where
  same : iterated.2 = visited.2
  stops : visited.1 = true → iterated.1 = true
  behind : iterated.1 = true → visited.1 = true ∨
    ∀ key, (∀ other ∈ keys, other < key) → greatest < key

/-- The path of a node is not greater than a key below it. -/
theorem Branching.path_le {child : Fin slnodes → Node Value} {path : Word} {shift : Sh}
    (branching : Branching child path shift) {i : Fin slnodes} {key : Word}
    (held : key ∈ (child i).keys) : path ≤ key := by
  -- The path has some of the bits of the key.
  obtain ⟨value, held⟩ := held
  rw [← branching.onPath i key value held, BitVec.le_def, BitVec.toNat_and]
  exact Nat.and_le_left

/-- An iteration that does not stop visits the same. -/
theorem Visits.goesOn {greatest : Word} {keys : Set Word} {iterated visited : Bool × State}
    (visits : Visits greatest keys iterated visited) (goesOn : iterated.1 = false) :
    visited.1 = false := by
  -- What is visited would have stopped the iteration.
  by_contra ends
  have stopped := visits.stops (by simpa using ends)
  rw [goesOn] at stopped
  exact Bool.false_ne_true stopped

/-- Where nothing is in the range, nothing is visited. -/
theorem visits_none {least greatest : Word} {keys : Set Word} {items : List (Word × Value)}
    (apart : ∀ entry ∈ items, inRange least greatest entry = false)
    (func : Word → Value → State → Bool × State) (state : State) {ends : Bool}
    (behind : ends = true → ∀ key, (∀ other ∈ keys, other < key) → greatest < key) :
    Visits greatest keys (ends, state) (visit least greatest func items state) := by
  rw [visit_none apart]
  exact ⟨rfl, fun stopped => absurd stopped Bool.false_ne_true, fun ended => Or.inr (behind ended)⟩

/-- An iteration over children visits what is reached below them. -/
theorem untilStop_visits {least greatest : Word} (func : Word → Value → State → Bool × State)
    {child : Fin slnodes → Node Value} {path : Word} {shift : Sh}
    (branching : Branching child path shift) (inner : ∀ i, (child i).WellFormed)
    {slots : List (Fin slnodes)} (ordered : slots.Pairwise (· < ·))
    (each : ∀ i state, Visits greatest (child i).keys (iter least greatest func (child i) state)
      (visit least greatest func (reached least (child i)) state)) (state : State) :
    Visits greatest {key | ∃ i ∈ slots, key ∈ (child i).keys}
      (untilStop (fun i state => iter least greatest func (child i) state) slots state)
      (visit least greatest func (slots.flatMap fun i => reached least (child i)) state) := by
  -- By induction on the slots; a child that stops the iteration has the last keys in the range.
  induction slots generalizing state with
  | nil => exact visits_none (fun entry member => absurd member List.not_mem_nil) func state nofun
  | cons i rest ih =>
    -- The first child is iterated over, and then the rest if it has not stopped.
    obtain ⟨first, later⟩ := List.pairwise_cons.mp ordered
    have visits := each i state
    rw [List.flatMap_cons, visit_append, untilStop]
    cases iterated : iter least greatest func (child i) state with
    | mk stopped after =>
      rw [iterated] at visits
      cases stopped with
      -- It goes on, and the rest is visited as the induction says.
      | false =>
        have same : after = (visit least greatest func (reached least (child i)) state).2 :=
          visits.same
        rw [visits.goesOn rfl, if_neg Bool.false_ne_true, ← same]
        obtain ⟨restSame, restStops, restBehind⟩ := ih later after
        refine ⟨restSame, restStops, fun ends => (restBehind ends).imp_right ?_⟩
        rintro last key above
        apply last
        rintro other ⟨j, there, held⟩
        exact above other ⟨j, List.mem_cons_of_mem i there, held⟩
      | true =>
        -- It stops as the function said so, or as its keys are behind the range.
        by_cases ends : (visit least greatest func (reached least (child i)) state).1 = true
        · rw [if_pos ends]
          exact ⟨visits.same, fun _ => rfl, fun _ => Or.inl ends⟩
        · -- The keys of the children that are left out are greater than the range.
          have last := (visits.behind rfl).resolve_left ends
          have apart : ∀ entry ∈ rest.flatMap fun j => reached least (child j),
              inRange least greatest entry = false := by
            intro entry member
            obtain ⟨j, there, inside⟩ := List.mem_flatMap.mp member
            have held := ((mem_reached (inner j) least).mp inside).1
            have greater : greatest < entry.1 := by
              apply last
              rintro other below
              have beyond : Direction.ge.beyond i j = true := by
                simpa [Direction.ge] using first j there
              simpa [Direction.ge] using branching.strictly lawful_ge beyond below
                ⟨entry.2, held⟩
            rw [inRange, decide_eq_false (not_le.mpr greater), Bool.and_false]
          have same : after = (visit least greatest func (reached least (child i)) state).2 :=
            visits.same
          rw [if_neg ends, ← same]
          apply visits_none apart
          rintro - key above
          apply last
          exact fun other held => above other ⟨i, List.mem_cons_self, held⟩

/-- An iteration visits the leaves of a subtree that are reached. -/
theorem iter_visits {least greatest : Word} (func : Word → Value → State → Bool × State)
    {node : Node Value} (wellFormed : node.WellFormed) (state : State) :
    Visits greatest node.keys (iter least greatest func node state)
      (visit least greatest func (reached least node) state) := by
  -- By induction on the node; the ends of the range are compared with its path first.
  induction node generalizing state with
  | null => exact visits_none (fun entry member => absurd member List.not_mem_nil) func state nofun
  | leaf address key value =>
    have same : iter least greatest func (.leaf address key value) state =
        visit least greatest func (reached least (.leaf address key value)) state := by
      rw [iter, visit, reached, List.filter_cons, List.filter_nil, inRange]
      -- The function is called for the leaf if that is in the range.
      by_cases inside : least ≤ key ∧ key ≤ greatest
      · rw [if_pos inside, if_pos (by simp [inside.1, inside.2]), untilStop]
        cases called : func key value state with
        | mk stop after => cases stop <;> rfl
      · rw [if_neg inside, if_neg (by simpa using inside), untilStop]
    rw [same]
    exact ⟨rfl, id, Or.inl⟩
  | node address child path shift ih =>
    have wellFormed := wellFormed
    obtain ⟨branching, inner⟩ := wellFormed
    rw [iter]
    -- The path is behind the range, in front of it, or neither.
    by_cases beyond : path > greatest
    · rw [if_pos beyond]
      have greater : ∀ key ∈ (Node.node address child path shift).keys, greatest < key := by
        rintro key ⟨value, i, held⟩
        exact lt_of_lt_of_le beyond (branching.path_le ⟨value, held⟩)
      apply visits_none
      · intro entry member
        have held := ((mem_reached wellFormed least).mp member).1
        rw [inRange, decide_eq_false (not_le.mpr (greater entry.1 ⟨entry.2, held⟩)), Bool.and_false]
      · rintro - key above
        -- A node has a leaf.
        obtain ⟨found, held⟩ := exists_holds wellFormed rfl
        exact lt_trans (greater found held) (above found held)
    · rw [if_neg beyond, reached]
      by_cases behind : path ||| pathMask shift < least
      · rw [if_pos behind, if_pos behind]
        exact visits_none (fun entry member => absurd member List.not_mem_nil) func state nofun
      · -- The children are iterated over one by one.
        rw [if_neg behind, if_neg behind]
        have visits := untilStop_visits func branching inner (List.pairwise_lt_finRange slnodes)
          (fun i state => ih i (inner i) state) state
        refine ⟨visits.same, visits.stops, fun ends => (visits.behind ends).imp_right ?_⟩
        rintro last key above
        apply last
        rintro other ⟨i, -, value, held⟩
        exact above other ⟨value, i, held⟩

/-- Keys that are below the highest slice are not passed over if they are in the range. -/
theorem not_passedOver {least : Word} {keys : Set Word} {key : Word}
    (small : ∀ other ∈ keys, other.toNat < 2 ^ 60) (member : key ∈ keys) (inside : least ≤ key) :
    ¬ PassedOver least keys key := by
  rintro ⟨other, held, different, less⟩
  have numbers : other.toNat ≠ key.toNat := fun same => different (BitVec.eq_of_toNat_eq same)
  -- They are the same above the highest slice, so they differ in a lower one.
  have agree : above 60 other.toNat = above 60 key.toNat := by
    rw [above, above, Nat.div_eq_of_lt (small other held), Nat.div_eq_of_lt (small key member)]
  have lower : highestDifference slice other.toNat key.toNat + slice ≤ 60 :=
    highestDifference_lt (by decide) (by decide) numbers agree
  rw [← shiftOf_toNat] at lower
  -- The mask of a lower slice has the bits of the highest one.
  have bit : (pathMask (shiftOf (other ^^^ key))).getLsbD 60 = true := by
    -- The range begins at zero, or all keys are small: then no mask is below the least key.
    rw [getLsbD_pathMask, decide_eq_true lower]
    rfl
  rw [← BitVec.testBit_toNat] at bit
  have large := Nat.ge_two_pow_of_testBit bit
  have bounded := small key member
  rw [BitVec.lt_def] at less
  rw [BitVec.le_def] at inside
  omega

/-- The entries of a map that are reached by an iteration over a range, from the least key on. -/
structure IsRange (map : Word → Option Value) (least greatest : Word)
    (items : List (Word × Value)) : Prop where
  ascending : items.Pairwise fun first second => first.1 < second.1
  mem_iff : ∀ key value, (key, value) ∈ items ↔ map key = some value ∧ least ≤ key ∧
    key ≤ greatest ∧ ¬ PassedOver least {key | map key ≠ none} key

/-- An iteration over a range calls the function for the entries that are not passed over, from the
least key on, until it says to stop; no entry is passed over if the range begins at zero, or if all
keys are below the highest slice. -/
theorem critnibIter_visits (operations : List (Operation Value)) (least greatest : Word)
    (func : Word → Value → State → Bool × State) (state : State) :
    ∃ replies tree items, performAll critnibNew operations = some (replies, tree) ∧
      IsRange (critnibGet tree) least greatest items ∧
      critnibIter tree least greatest func state =
        (untilStop (fun entry => func entry.1 entry.2) items state).2 ∧
      ((least = 0 ∨ ∀ key, critnibGet tree key ≠ none → key.toNat < 2 ^ 60) →
        ∀ key value, critnibGet tree key = some value → least ≤ key → key ≤ greatest →
          (key, value) ∈ items) := by
  -- What is reached is in order, and so are those of its entries that are in the range.
  obtain ⟨replies, tree, performed, shaped, -⟩ := performAll_spec shaped_critnibNew operations
  have keys : tree.root.keys = {key | critnibGet tree key ≠ none} := by
    ext key
    exact mem_keys_iff shaped
  -- What is reached and in the range is what the function is called for.
  have range : IsRange (critnibGet tree) least greatest
      ((reached least tree.root).filter (inRange least greatest)) := by
    refine ⟨(pairwise_reached shaped.wellFormed least).filter _, fun key value => ?_⟩
    rw [List.mem_filter, mem_reached shaped.wellFormed,
      ← critnibGet_eq_some_iff shaped.wellFormed, keys, inRange, Bool.and_eq_true,
      decide_eq_true_eq, decide_eq_true_eq]
    tauto
  refine ⟨replies, tree, _, performed, range, (iter_visits func shaped.wellFormed state).same, ?_⟩
  intro complete key value stored lower upper
  refine (range.mem_iff key value).mpr ⟨stored, lower, upper, ?_⟩
  -- Nothing is less than zero.
  rcases complete with zero | small
  · rintro ⟨other, -, -, less⟩
    rw [zero] at less
    exact absurd less (BitVec.not_lt_zero)
  · apply not_passedOver (fun other held => small other held) _ lower
    show critnibGet tree key ≠ none
    rw [stored]
    exact Option.some_ne_none value

end SecretTyping.Umf.Critnib
