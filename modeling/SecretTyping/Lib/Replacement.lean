import SecretTyping.Lib.Lexical

/-! The first occurrence of a pattern in a text, and what a replacement of it keeps apart. -/

namespace SecretTyping

variable {pattern replacement : Text}

/-- A pattern behind a text does not occur in the two of them any earlier. -/
def Leads (pattern before : Text) : Prop :=
  findText pattern (before ++ pattern) = some before.length

/-- Whether a pattern occurs earlier can be computed. -/
instance (pattern before : Text) : Decidable (Leads pattern before) :=
  inferInstanceAs (Decidable (_ = _))

/-- A pattern is found at the start of a text that begins with it. -/
theorem findText_append (pattern after : Text) : findText pattern (pattern ++ after) = some 0 := by
  cases whole : pattern ++ after with
  | nil =>
    have empty : pattern = [] := (List.append_eq_nil_iff.mp whole).1
    rw [empty]
    rfl
  | cons c rest =>
    have found : pattern.isPrefixOf (c :: rest) = true := by
      rw [List.isPrefixOf_iff_prefix, ← whole]
      exact List.prefix_append pattern after
    rw [findText, if_pos found]

/-- A pattern that does not begin a text is looked for behind the first character. -/
theorem findText_cons {c : Char} {rest : Text} (absent : ¬ pattern <+: c :: rest) :
    findText pattern (c :: rest) = (findText pattern rest).map (· + 1) := by
  rw [findText, if_neg]
  rw [List.isPrefixOf_iff_prefix]
  exact absent

/-- A text leads up to a pattern if its tail does and the pattern is not found at once. -/
theorem leads_cons {c : Char} {before : Text} :
    Leads pattern (c :: before) ↔
      ¬ pattern <+: c :: (before ++ pattern) ∧ Leads pattern before := by
  unfold Leads
  by_cases found : pattern <+: c :: (before ++ pattern)
  · obtain ⟨after, whole⟩ := found
    rw [List.cons_append, ← whole, findText_append]
    simp
  · rw [List.cons_append, findText_cons found]
    simp [found]

/-- Nothing leads up to a pattern that stands alone. -/
theorem leads_nil (pattern : Text) : Leads pattern [] := by
  have alone := findText_append pattern []
  rw [List.append_nil] at alone
  exact alone

/-- A text without the first character of a pattern leads up to it. -/
theorem leads_of_not_mem {c : Char} {tail before : Text} (absent : c ∉ before) :
    Leads (c :: tail) before := by
  -- By induction on the text, at no character of which the pattern begins.
  induction before with
  | nil => exact leads_nil _
  | cons d rest ih =>
    rw [List.mem_cons, not_or] at absent
    refine leads_cons.mpr ⟨?_, ih absent.2⟩
    intro found
    exact absent.1 (List.cons_prefix_cons.mp found).1

/-- Texts that lead up to a character are those without it. -/
theorem leads_singleton_iff {c : Char} {before : Text} : Leads [c] before ↔ c ∉ before := by
  -- By induction on the text, each character of which is another one.
  constructor
  · intro leads
    induction before with
    | nil => exact List.not_mem_nil
    | cons d rest ih =>
      obtain ⟨absent, later⟩ := leads_cons.mp leads
      rw [List.mem_cons, not_or]
      refine ⟨?_, ih later⟩
      intro same
      exact absent (List.cons_prefix_cons.mpr ⟨same, List.nil_prefix⟩)
  · exact leads_of_not_mem

/-- What stands behind an occurrence does not matter for it to be the first one. -/
theorem findText_of_leads {before : Text} (leads : Leads pattern before) (after : Text) :
    findText pattern (before ++ pattern ++ after) = some before.length := by
  -- By induction on the text before the occurrence.
  induction before with
  | nil => exact findText_append pattern after
  | cons c rest ih =>
    obtain ⟨absent, leads⟩ := leads_cons.mp leads
    have absent' : ¬ pattern <+: c :: (rest ++ pattern ++ after) := by
      -- The pattern is too short to reach behind the occurrence.
      intro found
      apply absent
      apply List.prefix_of_prefix_length_le found ⟨after, rfl⟩
      rw [List.length_cons, List.length_append]
      omega
    rw [List.cons_append, List.cons_append, findText_cons absent', ih leads]
    rfl

/-- A pattern is found where it occurs first. -/
theorem findText_eq_some_iff {text : Text} {position : Nat} :
    findText pattern text = some position ↔
      ∃ before after, text = before ++ pattern ++ after ∧ Leads pattern before ∧
        before.length = position := by
  constructor
  · -- By induction on the text, which begins with the pattern or holds it further on.
    intro found
    induction text generalizing position with
    | nil =>
      rw [findText] at found
      split at found
      · rename_i empty
        rw [List.isEmpty_iff.mp empty]
        exact ⟨[], [], rfl, rfl, Option.some.inj found⟩
      · cases found
    | cons c rest ih =>
      by_cases first : pattern <+: c :: rest
      · obtain ⟨after, whole⟩ := first
        rw [← whole, findText_append] at found
        exact ⟨[], after, whole.symm, leads_nil pattern, Option.some.inj found⟩
      · rw [findText_cons first] at found
        obtain ⟨earlier, found, next⟩ := Option.map_eq_some_iff.mp found
        obtain ⟨before, after, whole, leads, length⟩ := ih found
        refine ⟨c :: before, after, by rw [whole]; rfl, leads_cons.mpr ⟨?_, leads⟩, ?_⟩
        · intro again
          apply first
          rw [whole]
          exact again.trans ⟨after, rfl⟩
        · rw [List.length_cons, length]
          exact next
  · intro ⟨before, after, whole, leads, length⟩
    rw [whole, ← length]
    exact findText_of_leads leads after

/-- A pattern is not found exactly where it does not occur. -/
theorem findText_eq_none_iff {text : Text} :
    findText pattern text = none ↔ ¬ ∃ before after, text = before ++ pattern ++ after := by
  constructor
  · -- An occurrence that begins no text further left is found; by induction on what precedes it.
    intro absent ⟨before, after, whole⟩
    induction before generalizing text with
    | nil =>
      rw [whole, List.nil_append, findText_append] at absent
      cases absent
    | cons c rest ih =>
      by_cases first : pattern <+: c :: (rest ++ pattern ++ after)
      · obtain ⟨later, split⟩ := first
        rw [whole, List.cons_append, List.cons_append, ← split, findText_append] at absent
        cases absent
      · rw [whole, List.cons_append, List.cons_append, findText_cons first,
          Option.map_eq_none_iff] at absent
        exact ih absent rfl
  · intro absent
    cases found : findText pattern text with
    | none => rfl
    | some position =>
      obtain ⟨before, after, whole, -, -⟩ := findText_eq_some_iff.mp found
      exact absurd ⟨before, after, whole⟩ absent

/-- Two first occurrences in one text are the same. -/
theorem Leads.eq {before before' after after' : Text} (leads : Leads pattern before)
    (leads' : Leads pattern before')
    (same : before ++ pattern ++ after = before' ++ pattern ++ after') : before = before' := by
  -- Both are as long as the text before the place where the pattern is found.
  have found := findText_of_leads leads after
  rw [same, findText_of_leads leads' after'] at found
  have length : before.length = before'.length := (Option.some.inj found).symm
  rw [List.append_assoc, List.append_assoc] at same
  exact List.append_inj_left same length

/-- What stands behind a text is at the position that its length says. -/
theorem getElem?_behind (before tail after : Text) (c : Char) :
    (before ++ (c :: tail) ++ after)[before.length]? = some c := by
  rw [List.append_assoc, List.getElem?_append_right (Nat.le_refl _), Nat.sub_self]
  rfl

/-- Where two texts that begin differently can take each other's place at two positions with the
same result, the second position is no earlier. -/
theorem not_earlier {c d : Char} (differ : c ≠ d) {tail tail' before before' after after' : Text}
    (same : before ++ (c :: tail) ++ after = before' ++ (c :: tail) ++ after')
    (same' : before ++ (d :: tail') ++ after = before' ++ (d :: tail') ++ after') :
    ¬ before'.length < before.length := by
  -- The character at the earlier position is kept, but begins both texts.
  intro earlier
  have kept : ∀ more : Text,
      (before ++ more ++ after)[before'.length]? = before[before'.length]? := by
    intro more
    rw [List.append_assoc, List.getElem?_append_left earlier]
  have first := getElem?_behind before' tail after' c
  have second := getElem?_behind before' tail' after' d
  rw [← same, kept] at first
  rw [← same', kept, first] at second
  exact differ (Option.some.inj second)

/-- Texts that begin differently can take each other's place with the same result at one position
only. -/
theorem place_eq {c d : Char} (differ : c ≠ d) {tail tail' before before' after after' : Text}
    (same : before ++ (c :: tail) ++ after = before' ++ (c :: tail) ++ after')
    (same' : before ++ (d :: tail') ++ after = before' ++ (d :: tail') ++ after') :
    before = before' := by
  have notEarlier := not_earlier differ same same'
  have notLater := not_earlier differ same.symm same'.symm
  have level : before.length = before'.length := by omega
  rw [List.append_assoc, List.append_assoc] at same
  exact List.append_inj_left same level

/-- Replace the first occurrence of a pattern. -/
def replaceFirst (pattern replacement text : Text) : Option Text :=
  (findText pattern text).map fun position =>
    text.take position ++ replacement ++ text.drop (position + pattern.length)

/-- The replacement stands in the place of the first occurrence. -/
theorem replaceFirst_eq_some_iff {text result : Text} :
    replaceFirst pattern replacement text = some result ↔
      ∃ before after, text = before ++ pattern ++ after ∧ Leads pattern before ∧
        result = before ++ replacement ++ after := by
  -- The text is cut where the pattern is found.
  constructor
  · intro replaced
    obtain ⟨position, found, parts⟩ := Option.map_eq_some_iff.mp replaced
    obtain ⟨before, after, whole, leads, rfl⟩ := findText_eq_some_iff.mp found
    refine ⟨before, after, whole, leads, ?_⟩
    rw [← parts, whole, ← List.length_append, List.drop_left, List.append_assoc before pattern,
      List.take_left]
  · intro ⟨before, after, whole, leads, parts⟩
    apply Option.map_eq_some_iff.mpr
    refine ⟨before.length, findText_eq_some_iff.mpr ⟨before, after, whole, leads, rfl⟩, ?_⟩
    rw [parts, whole, ← List.length_append, List.drop_left, List.append_assoc before pattern,
      List.take_left]

/-- Only a text without the pattern has nothing to replace. -/
theorem replaceFirst_eq_none_iff {text : Text} :
    replaceFirst pattern replacement text = none ↔
      ¬ ∃ before after, text = before ++ pattern ++ after := by
  rw [replaceFirst, Option.map_eq_none_iff, findText_eq_none_iff]

/-- No end of a text is its beginning, but for the empty one and the text itself. -/
def Unbordered (text : Text) : Prop :=
  ∀ size < text.length, 0 < size → ¬ text.drop size <+: text

/-- Whether a text overlaps itself can be computed. -/
instance (text : Text) : Decidable (Unbordered text) :=
  inferInstanceAs (Decidable (∀ size < text.length, 0 < size → ¬ text.drop size <+: text))

/-- Two occurrences of a text that does not overlap itself are one, or apart. -/
theorem Unbordered.apart (unbordered : Unbordered replacement) {before before' after after' : Text}
    (same : before ++ replacement ++ after = before' ++ replacement ++ after')
    (earlier : before.length < before'.length) :
    ∃ between, before' = before ++ replacement ++ between ∧
      after = between ++ replacement ++ after' := by
  -- The later occurrence begins behind the beginning of the earlier one.
  rw [List.append_assoc, List.append_assoc] at same
  obtain ⟨gap, split, rest⟩ : ∃ gap, before' = before ++ gap ∧
      replacement ++ after = gap ++ (replacement ++ after') := by
    rcases List.append_eq_append_iff.mp same with ⟨gap, split, rest⟩ | ⟨gap, split, -⟩
    · exact ⟨gap, split, rest⟩
    · rw [split, List.length_append] at earlier
      omega
  rcases List.append_eq_append_iff.mp rest with ⟨between, split', rest'⟩ | ⟨tail, split', rest'⟩
  · refine ⟨between, ?_, ?_⟩
    · rw [split, split', List.append_assoc]
    · rw [rest', List.append_assoc]
  · -- Otherwise the earlier one ends inside the later one, or where that begins.
    cases tail with
    | nil =>
      rw [List.append_nil] at split'
      exact ⟨[], by rw [split, ← split', List.append_nil], rest'.symm⟩
    | cons c tail =>
      have nonempty : 0 < gap.length := by
        rw [split, List.length_append] at earlier
        omega
      have shorter : gap.length < replacement.length := by
        rw [split', List.length_append, List.length_cons]
        omega
      have border : replacement.drop gap.length = c :: tail := by
        conv_lhs => rw [split']
        exact List.drop_left
      exfalso
      apply unbordered gap.length shorter nonempty
      rw [border]
      apply List.prefix_of_prefix_length_le ⟨after, rest'.symm⟩ ⟨after', rfl⟩
      rw [split', List.length_append]
      omega

/-- Two occurrences in one text are the same, or one comes behind the other. -/
theorem Unbordered.eq_or_apart (unbordered : Unbordered replacement)
    {before before' after after' : Text}
    (same : before ++ replacement ++ after = before' ++ replacement ++ after') :
    (before = before' ∧ after = after') ∨
      (∃ between, before' = before ++ replacement ++ between ∧
        after = between ++ replacement ++ after') ∨
      ∃ between, before = before' ++ replacement ++ between ∧
        after' = between ++ replacement ++ after := by
  rcases Nat.lt_trichotomy before.length before'.length with earlier | level | later
  · exact .inr (.inl (unbordered.apart same earlier))
  · rw [List.append_assoc, List.append_assoc] at same
    exact .inl ⟨List.append_inj_left same level,
      List.append_cancel_left (List.append_inj_right same level)⟩
  · exact .inr (.inr (unbordered.apart same.symm later))

end SecretTyping
