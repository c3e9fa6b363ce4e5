/-! Lists in the ascending order of a comparison, and what is found, inserted and erased in them. -/

namespace SecretTyping.Sorted

variable {Item : Type}

section Definitions

variable (compare : Item → Item → Ordering)

/-- Each item is less than those behind it. -/
def Ascending (items : List Item) : Prop :=
  items.Pairwise fun first second => compare first second = .lt

/-- The item that is equal to another one. -/
def lookup (probe : Item) (items : List Item) : Option Item :=
  items.find? fun item => compare probe item == .eq

/-- The first item that is greater. -/
def next (probe : Item) (items : List Item) : Option Item :=
  items.find? fun item => compare probe item == .lt

/-- The last item that is less. -/
def previous (probe : Item) (items : List Item) : Option Item :=
  (items.filter fun item => compare probe item == .gt).getLast?

/-- The first item that is not less. -/
def ceiling (probe : Item) (items : List Item) : Option Item :=
  items.find? fun item => compare probe item != .gt

/-- The last item that is not greater. -/
def floor (probe : Item) (items : List Item) : Option Item :=
  (items.filter fun item => compare probe item != .lt).getLast?

/-- Put an item between those that are less and those that are greater. -/
def insert (item : Item) (items : List Item) : List Item :=
  (items.filter fun other => compare item other == .gt) ++
    item :: items.filter fun other => compare item other == .lt

/-- Leave out the item that is equal to another one. -/
def erase (probe : Item) (items : List Item) : List Item :=
  items.filter fun item => compare probe item != .eq

/-- Change the item that is equal to another one. -/
def modify (probe : Item) (change : Item → Item) (items : List Item) : List Item :=
  items.map fun item => if compare probe item == .eq then change item else item

/-- The items that are less than a probe, the one that is equal to it if there is one, and those
that are greater. -/
structure Cut (probe : Item) (below : List Item) (same : Option Item) (beyond : List Item) :
    Prop where
  less : ∀ item ∈ below, compare probe item = .gt
  equal : ∀ item ∈ same, compare probe item = .eq
  greater : ∀ item ∈ beyond, compare probe item = .lt

end Definitions

variable {compare : Item → Item → Ordering} {probe : Item} {below beyond : List Item}
  {same : Option Item}

/-- The list that is cut at a probe. -/
abbrev joined (below : List Item) (same : Option Item) (beyond : List Item) : List Item :=
  below ++ (same.toList ++ beyond)

/-- What passes a test of the comparison, in a list that is cut. -/
theorem Cut.filter (cut : Cut compare probe below same beyond) (test : Ordering → Bool) :
    (joined below same beyond).filter (fun item => test (compare probe item)) =
      joined (if test .gt then below else []) (if test .eq then same else none)
        (if test .lt then beyond else []) := by
  -- Each part passes the test as a whole or not at all.
  have part : ∀ (items : List Item) (result : Ordering),
      (∀ item ∈ items, compare probe item = result) →
      items.filter (fun item => test (compare probe item)) = if test result then items else [] := by
    intro items result all
    split
    · next passes =>
      -- All items of the part pass.
      rw [List.filter_eq_self]
      intro item member
      rw [all item member]
      exact passes
    · next fails =>
      -- None of them does.
      rw [List.filter_eq_nil_iff]
      intro item member
      rw [all item member]
      exact fails
  have middle : ∀ item ∈ same.toList, compare probe item = .eq := by
    intro item member
    exact cut.equal item (Option.mem_toList.mp member)
  -- The three parts are the items that compare as greater, as equal and as less.
  rw [joined, List.filter_append, List.filter_append, part below .gt cut.less,
    part same.toList .eq middle, part beyond .lt cut.greater]
  congr 2
  split <;> rfl

/-- What is found first by a test of the comparison, in a list that is cut. -/
theorem Cut.find (cut : Cut compare probe below same beyond) (test : Ordering → Bool) :
    (joined below same beyond).find? (fun item => test (compare probe item)) =
      (joined (if test .gt then below else []) (if test .eq then same else none)
        (if test .lt then beyond else [])).head? := by
  rw [← cut.filter, List.head?_filter]

/-- The item that is equal to the probe is where the list is cut. -/
theorem Cut.lookup (cut : Cut compare probe below same beyond) :
    lookup compare probe (joined below same beyond) = same := by
  rw [Sorted.lookup, cut.find (· == .eq)]
  cases same <;> rfl

/-- The next item is the first one beyond. -/
theorem Cut.next (cut : Cut compare probe below same beyond) :
    next compare probe (joined below same beyond) = beyond.head? := by
  rw [Sorted.next, cut.find (· == .lt)]
  rfl

/-- The previous item is the last one below. -/
theorem Cut.previous (cut : Cut compare probe below same beyond) :
    previous compare probe (joined below same beyond) = below.getLast? := by
  rw [Sorted.previous, cut.filter (· == .gt)]
  show (below ++ []).getLast? = _
  rw [List.append_nil]

/-- The first item that is not less is the one where the list is cut, or the first one beyond. -/
theorem Cut.ceiling (cut : Cut compare probe below same beyond) :
    ceiling compare probe (joined below same beyond) = same.or beyond.head? := by
  rw [Sorted.ceiling, cut.find (· != .gt)]
  cases same <;> rfl

/-- The last item that is not greater is the one where the list is cut, or the last one below. -/
theorem Cut.floor (cut : Cut compare probe below same beyond) :
    floor compare probe (joined below same beyond) = same.or below.getLast? := by
  rw [Sorted.floor, cut.filter (· != .lt)]
  show (below ++ (same.toList ++ [])).getLast? = _
  rw [List.append_nil]
  cases same with
  | none =>
    show (below ++ []).getLast? = _
    rw [List.append_nil, Option.none_or]
  | some item => exact List.getLast?_concat

/-- An item is inserted where the list is cut. -/
theorem Cut.insert (cut : Cut compare probe below same beyond) :
    insert compare probe (joined below same beyond) = below ++ probe :: beyond := by
  rw [Sorted.insert, cut.filter (· == .gt), cut.filter (· == .lt)]
  show (below ++ []) ++ probe :: ([] ++ ([] ++ beyond)) = _
  rw [List.append_nil, List.nil_append, List.nil_append]

/-- What is erased is where the list is cut. -/
theorem Cut.erase (cut : Cut compare probe below same beyond) :
    erase compare probe (joined below same beyond) = below ++ beyond := by
  rw [Sorted.erase, cut.filter (· != .eq)]
  rfl

/-- What is changed is where the list is cut. -/
theorem Cut.modify (cut : Cut compare probe below same beyond) (change : Item → Item) :
    modify compare probe change (joined below same beyond) =
      joined below (same.map change) beyond := by
  -- Each of the other parts stays as it is.
  have stays : ∀ items : List Item, (∀ item ∈ items, (compare probe item == .eq) = false) →
      items.map (fun item => if compare probe item == .eq then change item else item) = items := by
    intro items different
    rw [List.map_congr_left (g := id), List.map_id]
    intro item member
    rw [different item member]
    rfl
  have left := stays below fun item member => by rw [cut.less item member]; rfl
  have right := stays beyond fun item member => by rw [cut.greater item member]; rfl
  rw [Sorted.modify, joined, List.map_append, List.map_append, left, right]
  cases same with
  | none => rfl
  -- The item that is equal is changed.
  | some item =>
    have equal : compare probe item = .eq := cut.equal item rfl
    simp [joined, equal]

/-- An item that is found is in the list, and equal to the probe. -/
theorem mem_of_lookup {items : List Item} {item : Item}
    (found : lookup compare probe items = some item) :
    item ∈ items ∧ compare probe item = .eq := by
  have equal := List.find?_some (p := fun item => compare probe item == .eq) found
  exact ⟨List.mem_of_find?_eq_some found, eq_of_beq equal⟩

/-- The last item that is not greater is one behind which all are greater. -/
theorem floor_of_greater {item : Item} (below : List Item) (upper : compare probe item ≠ .lt)
    (greater : ∀ other ∈ beyond, compare probe other = .lt) :
    floor compare probe (below ++ item :: beyond) = some item := by
  have none : beyond.filter (fun other => compare probe other != .lt) = [] := by
    rw [List.filter_eq_nil_iff]
    intro other member
    simp [greater other member]
  rw [Sorted.floor, List.filter_append, List.filter_cons_of_pos (by simpa using upper), none]
  exact List.getLast?_concat

/-- What is left of a list in ascending order is in ascending order. -/
theorem ascending_erase {items : List Item} (ascending : Ascending compare items) (probe : Item) :
    Ascending compare (erase compare probe items) :=
  ascending.filter _

variable [Std.TransCmp compare]

/-- A list in ascending order is cut at each of its items. -/
theorem cut_of_mem {item : Item} (ascending : Ascending compare (below ++ item :: beyond))
    (equal : compare probe item = .eq) : Cut compare probe below (some item) beyond := by
  obtain ⟨-, right, across⟩ := List.pairwise_append.mp ascending
  obtain ⟨after, -⟩ := List.pairwise_cons.mp right
  constructor
  · intro other member
    have less := across other member item List.mem_cons_self
    exact Std.OrientedCmp.gt_of_lt
      (Std.TransCmp.lt_of_lt_of_eq less (Std.OrientedCmp.eq_symm equal))
  · rintro other ⟨⟩
    exact equal
  · intro other member
    exact Std.TransCmp.lt_of_eq_of_lt equal (after other member)

/-- What is behind an item that is greater than the probe is greater, too. -/
theorem greater_of_mem {item : Item} (ascending : Ascending compare (below ++ item :: beyond))
    (less : compare probe item = .lt) : ∀ other ∈ beyond, compare probe other = .lt := by
  obtain ⟨-, right, -⟩ := List.pairwise_append.mp ascending
  intro other member
  exact Std.TransCmp.lt_trans less ((List.pairwise_cons.mp right).1 other member)

/-- What is in front of an item that is less than the probe is less, too. -/
theorem less_of_mem {item : Item} (ascending : Ascending compare (below ++ item :: beyond))
    (greater : compare probe item = .gt) : ∀ other ∈ below, compare probe other = .gt := by
  obtain ⟨-, -, across⟩ := List.pairwise_append.mp ascending
  intro other member
  have before := across other member item List.mem_cons_self
  exact Std.TransCmp.gt_trans greater (Std.OrientedCmp.gt_of_lt before)

/-- A list in ascending order is cut at each probe. -/
theorem exists_cut {items : List Item} (ascending : Ascending compare items) (probe : Item) :
    ∃ below same beyond, items = joined below same beyond ∧
      Cut compare probe below same beyond := by
  -- By induction on the items; the probe is before the first one, or it, or behind it.
  induction items with
  | nil => exact ⟨[], none, [], rfl, nofun, nofun, nofun⟩
  | cons first rest ih =>
    obtain ⟨after, ascending⟩ := List.pairwise_cons.mp ascending
    cases compared : compare probe first with
    | lt =>
      -- The first item is behind the probe, and so are all others.
      refine ⟨[], none, first :: rest, rfl, nofun, nofun, ?_⟩
      rw [List.forall_mem_cons]
      exact ⟨compared, fun item member => Std.TransCmp.lt_trans compared (after item member)⟩
    | eq =>
      -- The first item is equal, and the others are behind it.
      refine ⟨[], some first, rest, rfl, nofun, ?_, ?_⟩
      · rintro item ⟨⟩
        exact compared
      · exact fun item member => Std.TransCmp.lt_of_eq_of_lt compared (after item member)
    | gt =>
      -- The first item is before the probe, and the rest is cut where it would be alone.
      obtain ⟨below, same, beyond, rfl, cut⟩ := ih ascending
      refine ⟨first :: below, same, beyond, rfl, ?_, cut.equal, cut.greater⟩
      rw [List.forall_mem_cons]
      exact ⟨compared, cut.less⟩

/-- An item that is inserted leaves the list in ascending order. -/
theorem ascending_insert {items : List Item} (ascending : Ascending compare items) (item : Item) :
    Ascending compare (insert compare item items) := by
  -- What is below the item stays below it, and what is beyond stays beyond.
  obtain ⟨below, same, beyond, rfl, cut⟩ := exists_cut ascending item
  obtain ⟨left, right, across⟩ := List.pairwise_append.mp ascending
  obtain ⟨-, last, -⟩ := List.pairwise_append.mp right
  rw [cut.insert, Ascending, List.pairwise_append, List.pairwise_cons]
  refine ⟨left, ⟨cut.greater, last⟩, ?_⟩
  intro first member second later
  rcases List.mem_cons.mp later with rfl | later
  · exact Std.OrientedCmp.lt_of_gt (cut.less first member)
  · exact across first member second (List.mem_append_right _ later)

end SecretTyping.Sorted
