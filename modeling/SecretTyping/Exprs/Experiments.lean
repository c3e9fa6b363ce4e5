import Mathlib.Data.List.Induction
import SecretTyping.Exprs.Arguments

/-! The commands are those of all choices of values, unless a repeated option is reached. -/

namespace SecretTyping.Exprs

open Product

/-- The meta options with an option. -/
def occurrences (arguments : List Argument) (option : Text) : List Argument :=
  arguments.filter fun argument => argument.flag = option

/-- The distinct options, in the order in which they first come. -/
def options (arguments : List Argument) : List Text := (arguments.map Argument.flag).eraseDups

/-- The values of an option, which are those of all its occurrences. -/
def valuesOf (arguments : List Argument) (option : Text) : List Text :=
  (occurrences arguments option).flatMap Argument.values

/-- An option with each of its values. -/
def column (arguments : List Argument) (option : Text) : List (Text × Text) :=
  (valuesOf arguments option).map fun value => (option, value)

/-- The columns of the distinct options. -/
def columns (arguments : List Argument) : List (List (Text × Text)) :=
  (options arguments).map (column arguments)

/-- The command for a choice of values. -/
def commandOf (remains : List Text) (choices : List (Text × Text)) : Text :=
  [' '].intercalate remains ++ ' ' ::
    choices.flatMap fun (option, value) => ' ' :: option ++ ' ' :: value

/-- There are commands: one for each choice of one value for each option, and no others. -/
def Expands (arguments : List Argument) (remains : List Text) (result : Except Fault (List Text)) :
    Prop :=
  ∃ commands, result = .ok commands ∧
    Enumerates commands (fun choice : Choice (columns arguments) =>
      commandOf remains (chosen (columns arguments) choice)) ∧
    commands.length =
      ((options arguments).map fun option => (valuesOf arguments option).length).prod

/-- What the dictionary has for an option: its first values, and then a list for each repetition. -/
def entriesOf (arguments : List Argument) (option : Text) : List Entry :=
  match occurrences arguments option with
  | [] => []
  | first :: later => first.values.map .text ++ later.map fun argument => .list argument.values

/-- One more meta option is one more occurrence of its option. -/
theorem occurrences_concat (arguments : List Argument) (argument : Argument) (option : Text) :
    occurrences (arguments ++ [argument]) option =
      occurrences arguments option ++ if argument.flag = option then [argument] else [] := by
  rw [occurrences, List.filter_append]
  congr 1
  simp [List.filter_cons]

/-- One more meta option may bring one more option. -/
theorem options_concat (arguments : List Argument) (argument : Argument) :
    options (arguments ++ [argument]) =
      if argument.flag ∈ options arguments then options arguments
      else options arguments ++ [argument.flag] := by
  simp only [options, List.map_append, List.map_singleton, List.eraseDups_append,
    List.mem_eraseDups]
  -- What is left of the new option depends on whether it is there.
  generalize arguments.map Argument.flag = flags
  split
  · next known => simp [List.removeAll, known]
  · next new => simp [List.removeAll, new, List.eraseDups_cons]

/-- The options are those that occur. -/
theorem mem_options {arguments : List Argument} {option : Text} :
    option ∈ options arguments ↔ occurrences arguments option ≠ [] := by
  rw [options, List.mem_eraseDups, occurrences, ne_eq, List.filter_eq_nil_iff]
  simp

/-- What the dictionary has. -/
theorem dictOf_eq (arguments : List Argument) :
    dictOf arguments =
      (options arguments).map fun option => (option, entriesOf arguments option) := by
  -- By induction on the meta options, the last one first.
  induction arguments using List.reverseRecOn with
  | nil => rfl
  | append_singleton arguments argument ih =>
    have keys : (dictOf arguments).map Prod.fst = options arguments := by
      rw [ih, List.map_map]
      exact List.map_id' _
    have added : dictOf (arguments ++ [argument]) =
        addMeta (dictOf arguments) argument.flag argument.values := by
      simp [dictOf]
    simp only [added, addMeta, keys, options_concat, List.contains_iff_mem]
    split
    · next known =>
      rw [ih, List.map_map]
      apply List.map_congr_left
      intro option mem
      -- The values go behind those of the option that they are for.
      cases earlier : occurrences arguments option with
      | nil => exact absurd earlier (mem_options.mp mem)
      | cons first later =>
        by_cases same : option = argument.flag
        · subst same
          simp [entriesOf, occurrences_concat, earlier]
        · simp [entriesOf, occurrences_concat, earlier, same, Ne.symm same]
    · next new =>
      rw [ih, List.map_append, List.map_singleton]
      have none : occurrences arguments argument.flag = [] := by
        by_contra some
        exact new (mem_options.mpr some)
      congr 1
      · apply List.map_congr_left
        intro option mem
        have differs : argument.flag ≠ option := by
          intro same
          exact new (same ▸ mem)
        simp [entriesOf, occurrences_concat, differs]
      · simp [entriesOf, occurrences_concat, none]

/-- A combination with one more option and value. -/
def extended (s : Text) (choice : Text × Text) : Text := s ++ ' ' :: choice.1 ++ ' ' :: choice.2

/-- Where all values are texts there are the next combinations. -/
theorem nextCombos_text (combos : List Text) (opt : Text) (vals : List Text) :
    nextCombos combos opt (vals.map .text) =
      .ok (combos.flatMap fun s => (vals.map fun v => (opt, v)).map (extended s)) := by
  -- No combination fails.
  have each : ∀ s, (vals.map Entry.text).mapM (extend s opt) =
      pure ((vals.map fun v => (opt, v)).map (extended s)) := by
    intro s
    rw [List.mapM_map, List.map_map]
    exact List.mapM_pure
  simp only [nextCombos, each, List.mapM_pure, List.flatMap_def]
  rfl

/-- A list among the values ends the script where there are combinations. -/
theorem nextCombos_list {combos : List Text} (some : combos ≠ []) (opt : Text)
    {vals : List Entry} {list : List Text} (mem : .list list ∈ vals) :
    nextCombos combos opt vals = .error .typeError := by
  -- Whatever comes before the list, the script ends with the first combination.
  have each : ∀ s, vals.mapM (extend s opt) = .error .typeError := by
    intro s
    induction vals with
    | nil => cases mem
    | cons entry rest ih =>
      rw [List.mapM_cons]
      cases entry with
      | list _ => rfl
      | text v =>
        have later : Entry.list list ∈ rest := by simpa using mem
        rw [ih later]
        rfl
  cases combos with
  | nil => exact absurd rfl some
  | cons s rest =>
    rw [nextCombos, List.mapM_cons, each]
    rfl

/-- Without combinations nothing is left to fail. -/
theorem expand_nil (metaDict : Dict) : expand metaDict [] = .ok [] := by
  induction metaDict with
  | nil => rfl
  | cons entry rest ih => exact ih

/-- An option that is given once has texts only. -/
theorem entriesOf_once {arguments : List Argument} {option : Text}
    (once : (occurrences arguments option).length = 1) :
    entriesOf arguments option = (valuesOf arguments option).map .text := by
  obtain ⟨argument, only⟩ := List.length_eq_one_iff.mp once
  simp [entriesOf, valuesOf, only]

/-- An option that is repeated has a list among its values. -/
theorem entriesOf_repeated {arguments : List Argument} {option : Text}
    (repeated : 2 ≤ (occurrences arguments option).length) :
    ∃ list, .list list ∈ entriesOf arguments option := by
  match given : occurrences arguments option with
  | [] => simp [given] at repeated
  | [_] => simp [given] at repeated
  | first :: second :: later => exact ⟨second.values, by simp [entriesOf, given]⟩

/-- Each option that is repeated comes behind one that is given once and has no values. -/
def RepeatsUnreached (arguments : List Argument) (opts : List Text) : Prop :=
  ∀ before option after, opts = before ++ option :: after →
    2 ≤ (occurrences arguments option).length →
    ∃ earlier ∈ before, (occurrences arguments earlier).length = 1 ∧
      valuesOf arguments earlier = []

/-- What is repeated at the start is behind nothing. -/
theorem not_repeatsUnreached_cons {arguments : List Argument} {option : Text} {rest : List Text}
    (repeated : 2 ≤ (occurrences arguments option).length) :
    ¬ RepeatsUnreached arguments (option :: rest) := by
  intro unreached
  obtain ⟨earlier, mem, -⟩ := unreached [] option rest rfl repeated
  cases mem

/-- An option that is given once protects what follows it exactly if it has no values. -/
theorem repeatsUnreached_cons {arguments : List Argument} {option : Text} {rest : List Text}
    (once : (occurrences arguments option).length = 1) :
    RepeatsUnreached arguments (option :: rest) ↔
      valuesOf arguments option = [] ∨ RepeatsUnreached arguments rest := by
  constructor
  · intro unreached
    by_cases empty : valuesOf arguments option = []
    · exact .inl empty
    · right
      intro before other after split repeated
      obtain ⟨earlier, mem, single, none⟩ :=
        unreached (option :: before) other after (by rw [split]; rfl) repeated
      rcases List.mem_cons.mp mem with same | mem
      · rw [same] at none
        exact absurd none empty
      · exact ⟨earlier, mem, single, none⟩
  · intro either before other after split repeated
    cases before with
    | nil =>
      -- The option at the start is not repeated.
      cases split
      omega
    | cons first before =>
      simp only [List.cons_append, List.cons.injEq] at split
      obtain ⟨same, split⟩ := split
      rcases either with empty | unreached
      · exact ⟨first, List.mem_cons_self, same ▸ once, same ▸ empty⟩
      · obtain ⟨earlier, mem, single, none⟩ := unreached before other after split repeated
        exact ⟨earlier, List.mem_cons_of_mem _ mem, single, none⟩

/-- Where no option is repeated there is nothing to be protected. -/
theorem repeatsUnreached_of_nodup {arguments : List Argument}
    (distinct : (arguments.map Argument.flag).Nodup) (opts : List Text) :
    RepeatsUnreached arguments opts := by
  intro before option after split repeated
  -- The option stands among the flags as often as it occurs.
  have most := List.nodup_iff_count_le_one.mp distinct option
  rw [List.count, List.countP_map, List.countP_eq_length_filter] at most
  have same : occurrences arguments option =
      arguments.filter ((· == option) ∘ Argument.flag) := by
    apply List.filter_congr
    intro argument mem
    exact Bool.eq_iff_iff.mpr (by simp)
  rw [same] at repeated
  omega

/-- The loop goes on behind an option that is given once. -/
theorem expand_once {arguments : List Argument} {option : Text}
    (once : (occurrences arguments option).length = 1) (rest : Dict) (combos : List Text) :
    expand ((option, entriesOf arguments option) :: rest) combos =
      expand rest (combos.flatMap fun s => (column arguments option).map (extended s)) := by
  -- The values of the option are texts.
  show (nextCombos combos option (entriesOf arguments option) >>= _) = _
  rw [entriesOf_once once, nextCombos_text]
  rfl

/-- The script ends at an option that is repeated, if there are combinations. -/
theorem expand_repeated {arguments : List Argument} {option : Text}
    (repeated : 2 ≤ (occurrences arguments option).length) (rest : Dict) {combos : List Text}
    (some : combos ≠ []) :
    expand ((option, entriesOf arguments option) :: rest) combos = .error .typeError := by
  obtain ⟨list, mem⟩ := entriesOf_repeated repeated
  show (nextCombos combos option (entriesOf arguments option) >>= _) = _
  rw [nextCombos_list some option mem]
  rfl

/-- There are next combinations where there are combinations and values. -/
theorem flatMap_extended_ne_nil {combos : List Text} (some : combos ≠ [])
    {choices : List (Text × Text)} (values : choices ≠ []) :
    (combos.flatMap fun s => choices.map (extended s)) ≠ [] := by
  intro none
  obtain ⟨s, mem⟩ := List.exists_mem_of_ne_nil combos some
  exact values (List.map_eq_nil_iff.mp (List.flatMap_eq_nil_iff.mp none s mem))

/-- The loop over the options comes to its end unless it reaches one that is repeated. -/
theorem expand_cases (arguments : List Argument) {opts : List Text}
    (known : ∀ option ∈ opts, option ∈ options arguments) {combos : List Text}
    (some : combos ≠ []) :
    (RepeatsUnreached arguments opts ∧
      expand (opts.map fun option => (option, entriesOf arguments option)) combos =
        .ok ((opts.map (column arguments)).foldl
          (fun combos choices => combos.flatMap fun s => choices.map (extended s)) combos)) ∨
    (¬ RepeatsUnreached arguments opts ∧
      expand (opts.map fun option => (option, entriesOf arguments option)) combos =
        .error .typeError) := by
  -- By induction on the options that are left.
  induction opts generalizing combos with
  | nil =>
    refine .inl ⟨?_, rfl⟩
    intro before option after split
    simp at split
  | cons option rest ih =>
    simp only [List.mem_cons, forall_eq_or_imp] at known
    have given : (occurrences arguments option).length ≠ 0 := by
      simpa using mem_options.mp known.1
    by_cases once : (occurrences arguments option).length = 1
    · rw [List.map_cons, List.map_cons, List.foldl_cons, expand_once once,
        repeatsUnreached_cons once]
      by_cases empty : valuesOf arguments option = []
      · -- There are no combinations any more.
        have none : (combos.flatMap fun s => (column arguments option).map (extended s)) = [] := by
          simp [column, empty]
        left
        refine ⟨.inl empty, ?_⟩
        rw [none, expand_nil, foldl_flatMap]
        rfl
      · have values : column arguments option ≠ [] := by simpa [column] using empty
        rw [or_iff_right empty]
        exact ih known.2 (flatMap_extended_ne_nil some values)
    · right
      have repeated : 2 ≤ (occurrences arguments option).length := by omega
      exact ⟨not_repeatsUnreached_cons repeated, expand_repeated repeated _ some⟩

/-- A combination is the text of its options and values. -/
theorem foldl_extended (choices : List (Text × Text)) (s : Text) :
    choices.foldl extended s =
      s ++ choices.flatMap fun (option, value) => ' ' :: option ++ ' ' :: value := by
  -- By induction on the choices, each of which is added at the end.
  induction choices generalizing s with
  | nil => simp
  | cons choice rest ih =>
    rw [List.foldl_cons, ih]
    simp [extended]

/-- For well-formed meta options the commands are those of all choices, one for each, exactly where
each option that is repeated comes behind one that is given once and has no values. -/
theorem expands_iff (arguments : List Argument) (remains : List Text) :
    Expands arguments remains (generateCommands (arguments.map Argument.text) remains) ↔
      RepeatsUnreached arguments (options arguments) := by
  have start : [([] : Text)] ≠ [] := by simp
  rw [generateCommands_text, dictOf_eq]
  rcases expand_cases arguments (fun option (mem : option ∈ options arguments) => mem) start with
    ⟨unreached, ends⟩ | ⟨reached, fails⟩
  · refine iff_of_true ?_ unreached
    rw [ends, foldl_flatMap]
    -- The commands are made of the sequences of options and values.
    refine ⟨(sequences (columns arguments)).map (commandOf remains), ?_, ?_, ?_⟩
    · simp [Except.map, columns, commandOf, foldl_extended, Function.comp_def]
    · exact (sequences_enumerates (columns arguments)).map (commandOf remains)
    · rw [List.length_map, length_sequences]
      simp [columns, column, Function.comp_def]
  · refine iff_of_false ?_ reached
    rw [fails]
    intro ⟨commands, ended, _⟩
    cases ended

/-- Two values for one option, each given by a meta option of its own. -/
def repeatedOption : List Argument :=
  [⟨['n'], [.plain ['1'] (by decide) rfl], by decide, by decide⟩,
    ⟨['n'], [.plain ['2'] (by decide) rfl], by decide, by decide⟩]

/-- The script does not come to all choices for every list of well-formed meta options. -/
theorem exists_not_expands :
    ¬ ∀ (arguments : List Argument) (remains : List Text),
      Expands arguments remains (generateCommands (arguments.map Argument.text) remains) := by
  intro all
  obtain ⟨commands, ended, -⟩ := all repeatedOption []
  -- The list of the second value cannot be added to a text.
  have fails : generateCommands (repeatedOption.map Argument.text) [] = .error .typeError := rfl
  rw [fails] at ended
  cases ended

end SecretTyping.Exprs
