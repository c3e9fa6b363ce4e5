import Mathlib.Data.List.TakeWhile
import Mathlib.Data.Set.List
import SecretTyping.Exprs.Meta

/-! The meta options that the script accepts are the well-formed ones, and it reads them back. -/

namespace SecretTyping.Exprs

/-- A value of a meta option: a text, or a range of integers. -/
inductive Value where
  | plain (text : Text) (colonless : ':' ∉ text) (whole : findText ellipses text = none)
  | range (before after : Text) (first last : Int) (opens : int before = some first)
    (closes : int after = some last)

/-- A value as it is written. -/
def Value.text : Value → Text
  | .plain text .. => text
  | .range before after .. => before ++ ellipses ++ after

/-- The values that a value stands for: all integers of a range from the first to the last. -/
def Value.values : Value → List Text
  | .plain text .. => [text]
  | .range _ _ first last .. => (Exprs.range first (last + 1)).map str

/-- A well-formed meta option, whose values are not all there is before the end. -/
structure Argument where
  option : Text
  parts : List Value
  colonless : ':' ∉ option
  present : [':'].intercalate (parts.map Value.text) ≠ []

/-- A meta option as it is written. -/
def Argument.text (argument : Argument) : Text :=
  argument.option ++ [':'] ++ [':'].intercalate (argument.parts.map Value.text)

/-- The option as the commands have it. -/
def Argument.flag (argument : Argument) : Text := dashed argument.option

/-- All values of a meta option. -/
def Argument.values (argument : Argument) : List Text := argument.parts.flatMap Value.values

/-- The integers of a range. -/
theorem mem_range (start stop i : Int) : i ∈ range start stop ↔ start ≤ i ∧ i < stop := by
  -- The integers are the first one and offsets to it.
  simp only [range, List.mem_map, List.mem_range]
  constructor
  · intro ⟨offset, small, same⟩
    omega
  · intro ⟨least, most⟩
    exact ⟨(i - start).toNat, by omega, by omega⟩

/-- Characters that may stand in a number. -/
def isNumeric (c : Char) : Bool :=
  isSpace c || (decimal c).isSome || c == '_' || c == '-' || c == '+'

/-- What is read as the rest of a number consists of the characters of numbers. -/
theorem digits_numeric {text : Text} {number result : Nat}
    (read : digits number text = some result) : ∀ c ∈ text, isNumeric c := by
  -- By induction on what is read, an underscore together with the digit behind it.
  fun_induction digits number text with
  | case1 number => simp
  | case2 number c rest ih =>
    obtain ⟨digit, first, later⟩ := Option.bind_eq_some_iff.mp read
    have others := ih digit later
    simp only [List.mem_cons, forall_eq_or_imp]
    exact ⟨by simp [isNumeric], by simp [isNumeric, first], others⟩
  | case3 number c rest single ih =>
    obtain ⟨digit, first, later⟩ := Option.bind_eq_some_iff.mp read
    have others := ih digit later
    simp only [List.mem_cons, forall_eq_or_imp]
    exact ⟨by simp [isNumeric, first], others⟩

/-- What is not space stays when space is taken away in front. -/
theorem mem_dropWhile {text : Text} {c : Char} (mem : c ∈ text) :
    isSpace c ∨ c ∈ text.dropWhile isSpace := by
  -- The text is what is taken away and what stays.
  rw [← List.takeWhile_append_dropWhile (p := isSpace) (l := text), List.mem_append] at mem
  exact mem.imp_left List.mem_takeWhile_imp

/-- What is not space stays when the space around a text is taken away. -/
theorem mem_strip {text : Text} {c : Char} (mem : c ∈ text) : isSpace c ∨ c ∈ strip text := by
  -- Space is taken away in front, and then at the end.
  rcases mem_dropWhile mem with space | stays
  · exact .inl space
  · rcases mem_dropWhile (List.mem_reverse.mpr stays) with space | stays
    · exact .inl space
    · exact .inr (List.mem_reverse.mpr stays)

/-- An integer is not empty and consists of the characters of numbers. -/
theorem int_numeric {text : Text} {number : Int} (read : int text = some number) :
    text ≠ [] ∧ ∀ c ∈ text, isNumeric c := by
  -- What is read without a sign starts with a digit.
  have unsigned : ∀ {rest : Text} {result : Nat}, natural rest = some result →
      rest ≠ [] ∧ ∀ c ∈ rest, isNumeric c := by
    intro rest result read
    cases rest with
    | nil => cases read
    | cons c rest =>
      obtain ⟨digit, first, later⟩ := Option.bind_eq_some_iff.mp read
      have others := digits_numeric later
      simp only [List.mem_cons, forall_eq_or_imp]
      exact ⟨by simp, by simp [isNumeric, first], others⟩
  -- So does what stands within the space, but for a sign.
  have stripped : strip text ≠ [] ∧ ∀ c ∈ strip text, isNumeric c := by
    rw [int] at read
    split at read
    · next rest whole =>
      obtain ⟨result, read, -⟩ := Option.map_eq_some_iff.mp read
      have others := (unsigned read).2
      rw [whole]
      simp only [List.mem_cons, forall_eq_or_imp]
      exact ⟨by simp, by simp [isNumeric], others⟩
    · next rest whole =>
      obtain ⟨result, read, -⟩ := Option.map_eq_some_iff.mp read
      have others := (unsigned read).2
      rw [whole]
      simp only [List.mem_cons, forall_eq_or_imp]
      exact ⟨by simp, by simp [isNumeric], others⟩
    · next rest _ _ =>
      obtain ⟨result, read, -⟩ := Option.map_eq_some_iff.mp read
      exact unsigned read
  refine ⟨?_, ?_⟩
  · intro empty
    rw [empty] at stripped
    exact stripped.1 rfl
  · intro c mem
    rcases mem_strip mem with space | stays
    · simp [isNumeric, space]
    · exact stripped.2 c stays

/-- A character that stands in no number stands in no integer. -/
theorem not_mem_int {text : Text} {number : Int} (read : int text = some number) {c : Char}
    (other : isNumeric c = false) : c ∉ text := by
  intro mem
  have numeric := (int_numeric read).2 c mem
  rw [other] at numeric
  cases numeric

/-- No value has a colon in it. -/
theorem Value.colon_not_mem (value : Value) : ':' ∉ value.text := by
  -- There is no colon in an integer.
  cases value with
  | plain text colonless whole => exact colonless
  | range before after first last opens closes =>
    have colon : isNumeric ':' = false := by decide
    simp only [Value.text, List.mem_append, not_or]
    exact ⟨⟨not_mem_int opens colon, by decide⟩, not_mem_int closes colon⟩

/-- A value is read back. -/
theorem parseMetaValue_text (value : Value) : parseMetaValue value.text = .ok value.values := by
  cases value with
  | plain text colonless whole => simp [parseMetaValue, Value.text, Value.values, whole]
  | range before after first last opens closes =>
    -- There is no dot in the first integer, so the ellipses are found behind it.
    have dot : isNumeric '.' = false := by decide
    have found : findText ellipses (before ++ ellipses ++ after) = some before.length :=
      findText_of_leads (leads_of_not_mem (not_mem_int opens dot)) after
    have first_ne : before.length ≠ 0 := by simp [(int_numeric opens).1]
    have last_ne : after.length ≠ 0 := by simp [(int_numeric closes).1]
    have inner : ¬ before.length + 3 = (before ++ ellipses ++ after).length := by
      simp only [List.length_append, ellipses, List.length_cons, List.length_nil]
      omega
    have front : (before ++ ellipses ++ after).take before.length = before := by simp
    have back : (before ++ ellipses ++ after).drop (before.length + 3) = after := by
      have length : before.length + 3 = (before ++ ellipses).length := by simp [ellipses]
      rw [length, List.drop_left]
    simp only [parseMetaValue, Value.text, found, inner, first_ne, if_false, front, back, opens,
      closes, Value.values]

/-- The first colon is found behind the option. -/
theorem Argument.found (argument : Argument) :
    findText [':'] argument.text = some argument.option.length :=
  findText_of_leads (leads_of_not_mem argument.colonless) _

/-- A well-formed meta option passes the checks. -/
theorem checkMeta_text (argument : Argument) : checkMeta argument.text = .ok () := by
  -- Something stands behind the colon.
  have inner : argument.option.length + 1 ≠ argument.text.length := by
    have present := List.length_pos_iff.mpr argument.present
    simp only [Argument.text, List.length_append, List.length_singleton]
    omega
  simp only [checkMeta, argument.found, inner, if_false]

/-- The option of a meta option is read back. -/
theorem parseMetaOption_text (argument : Argument) :
    parseMetaOption argument.text = argument.flag := by
  simp only [parseMetaOption, argument.found, Argument.flag]
  congr 1
  simp [Argument.text]

/-- The values of a meta option are read back. -/
theorem parseMetaValues_text (argument : Argument) :
    parseMetaValues argument.text = .ok argument.values := by
  have behind : argument.text.drop (argument.option.length + 1) =
      [':'].intercalate (argument.parts.map Value.text) := by
    simp [Argument.text]
  -- The values are split at the colons, none of which is in a value.
  have split : ([':'].intercalate (argument.parts.map Value.text)).splitOn ':' =
      argument.parts.map Value.text := by
    apply List.splitOn_intercalate
    · intro text mem
      obtain ⟨value, -, same⟩ := List.mem_map.mp mem
      rw [← same]
      exact value.colon_not_mem
    · intro none
      exact argument.present (by rw [none]; rfl)
  have read : (argument.parts.map Value.text).mapM parseMetaValue =
      .ok (argument.parts.map Value.values) := by
    rw [List.mapM_map, funext (f := parseMetaValue ∘ Value.text) parseMetaValue_text]
    exact List.mapM_pure
  simp only [parseMetaValues, argument.found, behind, split, read]
  rfl

/-- A text without a colon that is parsed as a value is one. -/
theorem exists_value {val : Text} (colonless : ':' ∉ val) {values : List Text}
    (parsed : parseMetaValue val = .ok values) : ∃ value : Value, value.text = val := by
  rw [parseMetaValue] at parsed
  split at parsed
  · next whole => exact ⟨.plain val colonless whole, rfl⟩
  · next eidx found =>
    obtain ⟨before, after, whole, -, length⟩ := findText_eq_some_iff.mp found
    split at parsed
    · cases parsed
    · split at parsed
      · cases parsed
      · split at parsed
        · next first last opens closes =>
          -- What stands on both sides of the ellipses is cut out.
          have front : val.take eidx = before := by simp [whole, ← length]
          have back : val.drop (eidx + 3) = after := by
            have behind : eidx + 3 = (before ++ ellipses).length := by simp [← length, ellipses]
            rw [whole, behind, List.drop_left]
          rw [front] at opens
          rw [back] at closes
          exact ⟨.range before after first last opens closes, whole.symm⟩
        · cases parsed

/-- No part of a text that is split has the character in it at which the text is split. -/
theorem not_mem_of_mem_splitOn {c : Char} {text part : Text} (mem : part ∈ text.splitOn c) :
    c ∉ part := by
  -- By induction on the text, which goes to the first part or starts a new one.
  induction text generalizing part with
  | nil =>
    rw [List.splitOn_nil, List.mem_singleton] at mem
    simp [mem]
  | cons d rest ih =>
    rw [List.splitOn_cons_eq_if_modifyHead] at mem
    split at mem
    · rcases List.mem_cons.mp mem with first | later
      · simp [first]
      · exact ih later
    · next other =>
      cases parts : rest.splitOn c with
      | nil => exact absurd parts (List.splitOn_ne_nil c rest)
      | cons first others =>
        rw [parts, List.modifyHead_cons, List.mem_cons] at mem
        rw [parts] at ih
        rcases mem with start | later
        · rw [start, List.mem_cons, not_or]
          exact ⟨fun same => other (beq_iff_eq.mpr same.symm), ih List.mem_cons_self⟩
        · exact ih (List.mem_cons_of_mem _ later)

/-- Where all items of a list are mapped, each of them is. -/
theorem exists_of_mapM {Item Result Error : Type} {make : Item → Except Error Result}
    {items : List Item} {results : List Result} (mapped : items.mapM make = .ok results) :
    ∀ item ∈ items, ∃ result, make item = .ok result := by
  -- By induction on the items; the first that fails ends the loop.
  induction items generalizing results with
  | nil => simp
  | cons item rest ih =>
    rw [List.mapM_cons] at mapped
    cases first : make item with
    | error error =>
      rw [first] at mapped
      cases mapped
    | ok result =>
      cases others : rest.mapM make with
      | error error =>
        rw [first, others] at mapped
        cases mapped
      | ok more =>
        simp only [List.mem_cons, forall_eq_or_imp]
        exact ⟨⟨result, first⟩, ih others⟩

/-- The meta options that are accepted are those that are well-formed. -/
theorem exists_argument_iff (metaOption : Text) :
    (∃ argument : Argument, argument.text = metaOption) ↔
      checkMeta metaOption = .ok () ∧ ∃ values, parseMetaValues metaOption = .ok values := by
  constructor
  · intro ⟨argument, same⟩
    rw [← same]
    exact ⟨checkMeta_text argument, argument.values, parseMetaValues_text argument⟩
  · intro ⟨checked, values, parsed⟩
    rw [checkMeta] at checked
    split at checked
    · cases checked
    · next idx found =>
      obtain ⟨option, behind, whole, leads, length⟩ := findText_eq_some_iff.mp found
      split at checked
      · cases checked
      · next inner =>
        have rest : metaOption.drop (idx + 1) = behind := by simp [whole, ← length]
        -- Each of the parts between the colons is a value.
        simp only [parseMetaValues, found, rest] at parsed
        cases mapped : (behind.splitOn ':').mapM parseMetaValue with
        | error fault =>
          rw [mapped] at parsed
          cases parsed
        | ok lists =>
          have each : ∀ part ∈ behind.splitOn ':', ∃ value : Value, value.text = part := by
            intro part mem
            obtain ⟨values, read⟩ := exists_of_mapM mapped part mem
            exact exists_value (not_mem_of_mem_splitOn mem) read
          obtain ⟨parts, same⟩ : behind.splitOn ':' ∈ Set.range (List.map Value.text) := by
            rw [Set.range_list_map]
            exact each
          have joined : [':'].intercalate (parts.map Value.text) = behind := by
            rw [same, List.intercalate_splitOn]
          have present : behind ≠ [] := by
            intro empty
            simp [whole, empty, ← length] at inner
          refine ⟨⟨option, parts, leads_singleton_iff.mp leads, by rw [joined]; exact present⟩, ?_⟩
          show option ++ [':'] ++ _ = _
          rw [joined, whole]

/-- The dictionary of well-formed meta options. -/
def dictOf (arguments : List Argument) : Dict :=
  arguments.foldl (fun metaDict argument => addMeta metaDict argument.flag argument.values) []

/-- Well-formed meta options pass the checks and make up a dictionary. -/
theorem generateCommands_text (arguments : List Argument) (remains : List Text) :
    generateCommands (arguments.map Argument.text) remains =
      (expand (dictOf arguments) [[]]).map fun combos =>
        combos.map fun combo => [' '].intercalate remains ++ ' ' :: combo := by
  -- No check and no value fails.
  have checked : parseCommandLine (arguments.map Argument.text) = .ok () := by
    induction arguments with
    | nil => rfl
    | cons argument rest ih =>
      show (checkMeta argument.text >>= fun _ => parseCommandLine (rest.map Argument.text)) = _
      rw [checkMeta_text]
      exact ih
  have built : buildDict (arguments.map Argument.text) = .ok (dictOf arguments) := by
    rw [buildDict, List.foldlM_map]
    simp only [parseMetaValues_text, parseMetaOption_text]
    exact List.foldlM_pure
  rw [generateCommands, checked, built]
  rfl

end SecretTyping.Exprs
