import SecretTyping.Lib.Lexical

/-! Paths in a tree of directories without links, and the files that they lead to. -/

namespace SecretTyping.Paths

/-- The parts of a path between its slashes. -/
def parts (path : Text) : List Text := path.splitOn '/'

/-- Go on from a directory, given by its parts from the root, to a part of a path. -/
def enter (directory : List Text) (part : Text) : List Text :=
  if part = [] ∨ part = ['.'] then directory
  else if part = ['.', '.'] then directory.dropLast
  else directory ++ [part]

/-- Go on to one part after another. -/
def walk (directory path : List Text) : List Text := path.foldl enter directory

/-- The directory that a path starts from: the root, or else the working directory. -/
def startOf (directory : List Text) (path : Text) : List Text :=
  if path.head? = some '/' then [] else directory

/-- The parts from the root of the file that a path leads to. -/
def resolve (directory : List Text) (path : Text) : List Text :=
  walk (startOf directory path) (parts path)

/-- A file is named by its path from the root. -/
def joined : List Text → Text
  | [] => []
  | part :: rest => part ++ rest.flatMap ('/' :: ·)

/-- The file that a path leads to, seen from a working directory. -/
def fileAt (directory : List Text) (path : Text) : Text := joined (resolve directory path)

/-- What parts of a path add below the part before them; there is nothing if they lead out of it. -/
def addedBelow : List Text → List Text → Option (List Text)
  | below, [] => some below
  | below, part :: rest =>
    if part = [] ∨ part = ['.'] then addedBelow below rest
    else if part = ['.', '.'] then if below = [] then none else addedBelow below.dropLast rest
    else addedBelow (below ++ [part]) rest

/-- The path from the root up to a word that stands behind a text in a path. -/
def frontOf (directory : List Text) (before : Text) : Text :=
  (walk (startOf directory before) (parts before).dropLast).flatMap (· ++ ['/']) ++
    (parts before).getLastD []

/-- The path of the file, before and behind a word that stands between two texts in a path; there is
no such place if the path leads out of the part with the word again. -/
def shown (directory : List Text) (before after : Text) : Option (Text × Text) :=
  match addedBelow [] (parts after).tail with
  | none => none
  | some below =>
    some (frontOf directory before, (parts after).headD [] ++ below.flatMap ('/' :: ·))

/-- A word that makes any part of a path that it stands in the name of a file. -/
structure Naming (word : Text) : Prop where
  slashless : '/' ∉ word
  dotless : ∃ c ∈ word, c ≠ '.'

/-- The parts of two texts in a row are those of both, of which two make one. -/
theorem parts_append (before after : Text) :
    parts (before ++ after) = (parts before).dropLast ++
      (parts after).modifyHead ((parts before).getLastD [] ++ ·) := by
  -- By induction on the first text, each slash of which ends a part.
  unfold parts
  induction before with
  | nil =>
    obtain ⟨part, others, found⟩ := List.exists_cons_of_ne_nil (List.splitOn_ne_nil '/' after)
    simp [found]
  | cons c rest ih =>
    obtain ⟨part, others, found⟩ := List.exists_cons_of_ne_nil (List.splitOn_ne_nil '/' rest)
    rw [List.cons_append, List.splitOn_cons_eq_if_modifyHead,
      List.splitOn_cons_eq_if_modifyHead, ih, found]
    by_cases slash : (c == '/') = true
    · simp [slash]
    · cases others with
      | nil =>
        cases after.splitOn '/' <;> simp [slash]
      | cons next others => simp [slash]

/-- A word without a slash is a part by itself. -/
theorem Naming.parts_eq {word : Text} (naming : Naming word) : parts word = [word] :=
  List.splitOn_eq_singleton naming.slashless

/-- A path is cut at the part with the word. -/
theorem Naming.parts_around {word : Text} (naming : Naming word) (before after : Text) :
    parts (before ++ word ++ after) = (parts before).dropLast ++
      ((parts before).getLastD [] ++ word ++ (parts after).headD []) :: (parts after).tail := by
  -- The word belongs to the last part before it and to the first one behind it.
  have nonempty : parts after ≠ [] := List.splitOn_ne_nil '/' after
  obtain ⟨part, others, found⟩ := List.exists_cons_of_ne_nil nonempty
  rw [List.append_assoc, parts_append, parts_append word, naming.parts_eq, found]
  simp

/-- A part with the word is neither empty nor a dot part, so it is entered. -/
theorem Naming.enter_around {word : Text} (naming : Naming word) (directory : List Text)
    (front back : Text) :
    enter directory (front ++ word ++ back) = directory ++ [front ++ word ++ back] := by
  obtain ⟨c, inside, notDot⟩ := naming.dotless
  have member : c ∈ front ++ word ++ back :=
    List.mem_append_left _ (List.mem_append_right _ inside)
  -- A dot part has no other character than dots.
  have other : ∀ dots : Text, (∀ d ∈ dots, d = '.') → front ++ word ++ back ≠ dots :=
    fun dots all same => notDot (all c (same ▸ member))
  have nothing := other [] (by simp)
  have dot := other ['.'] (by simp)
  have dots := other ['.', '.'] (by simp)
  simp only [enter, nothing, dot, dots, or_self, if_false]

/-- What comes before the word decides where the path starts. -/
theorem Naming.startOf_around {word : Text} (naming : Naming word) (directory : List Text)
    (before after : Text) :
    startOf directory (before ++ word ++ after) = startOf directory before := by
  cases before with
  | cons c rest => rfl
  | nil =>
    cases found : word with
    | nil =>
      obtain ⟨c, inside, -⟩ := naming.dotless
      rw [found] at inside
      exact absurd inside List.not_mem_nil
    | cons c rest =>
      -- The word does not begin with a slash.
      have other : c ≠ '/' := fun same =>
        naming.slashless (by rw [found, same]; exact List.mem_cons_self)
      simp [startOf, other]

/-- A path is walked to the part with the word first, and then on. -/
theorem Naming.resolve_around {word : Text} (naming : Naming word) (directory : List Text)
    (before after : Text) :
    resolve directory (before ++ word ++ after) =
      walk (walk (startOf directory before) (parts before).dropLast ++
        [(parts before).getLastD [] ++ word ++ (parts after).headD []]) (parts after).tail := by
  unfold resolve walk
  rw [naming.startOf_around, naming.parts_around, List.foldl_append, List.foldl_cons,
    naming.enter_around]

/-- Parts that do not lead out of a part leave it where it is. -/
theorem walk_of_addedBelow {path below added : List Text}
    (stays : addedBelow below path = some added) (directory : List Text) (part : Text) :
    walk (directory ++ part :: below) path = directory ++ part :: added := by
  -- By induction on the parts.
  induction path generalizing below with
  | nil =>
    rw [addedBelow] at stays
    rw [Option.some.inj stays]
    rfl
  | cons next rest ih =>
    rw [addedBelow] at stays
    unfold walk at ih ⊢
    rw [List.foldl_cons, enter]
    split at stays
    · next same =>
      rw [if_pos same]
      exact ih stays
    · next other =>
      rw [if_neg other]
      split at stays
      · next up =>
        rw [if_pos up]
        split at stays
        · cases stays
        · next inside =>
          -- The last part that has been added is taken away again.
          have shorter : (directory ++ part :: below).dropLast =
              directory ++ part :: below.dropLast := by
            rw [List.dropLast_append_of_ne_nil (List.cons_ne_nil _ _),
              List.dropLast_cons_of_ne_nil inside]
          rw [shorter]
          exact ih stays
      · next down =>
        rw [if_neg down, List.append_assoc, List.cons_append]
        exact ih stays

/-- Parts that lead out of a part end where they do for any other part in its place. -/
theorem walk_of_left {path below : List Text} (left : addedBelow below path = none)
    (directory : List Text) (part other : Text) :
    walk (directory ++ part :: below) path = walk (directory ++ other :: below) path := by
  -- By induction on the parts, up to the one that leads out.
  induction path generalizing below with
  | nil => cases left
  | cons next rest ih =>
    rw [addedBelow] at left
    unfold walk at ih ⊢
    rw [List.foldl_cons, List.foldl_cons, enter, enter]
    split at left
    · next same =>
      rw [if_pos same, if_pos same]
      exact ih left
    · next otherwise =>
      rw [if_neg otherwise, if_neg otherwise]
      split at left
      · next up =>
        rw [if_pos up, if_pos up]
        split at left
        · next empty =>
          -- The part itself is taken away.
          rw [empty, List.dropLast_concat, List.dropLast_concat]
        · next inside =>
          rw [List.dropLast_append_of_ne_nil (List.cons_ne_nil _ _),
            List.dropLast_append_of_ne_nil (List.cons_ne_nil _ _),
            List.dropLast_cons_of_ne_nil inside, List.dropLast_cons_of_ne_nil inside]
          exact ih left
      · next down =>
        rw [if_neg down, if_neg down, List.append_assoc, List.append_assoc, List.cons_append,
          List.cons_append]
        exact ih left

/-- The name of a file, around one of its parts. -/
theorem joined_around (above below : List Text) (part : Text) :
    joined (above ++ part :: below) =
      above.flatMap (· ++ ['/']) ++ part ++ below.flatMap ('/' :: ·) := by
  -- A slash between two parts belongs to the one or to the other.
  have slashes : ∀ above : List Text, (above ++ part :: below).flatMap ('/' :: ·) =
      '/' :: (above.flatMap (· ++ ['/']) ++ part ++ below.flatMap ('/' :: ·)) := by
    intro above
    induction above with
    | nil => simp
    | cons first rest ih => simp [ih]
  cases above with
  | nil => rfl
  | cons first rest =>
    rw [List.cons_append, joined, slashes]
    simp

/-- A path that shows a word leads to a file that shows it. -/
theorem Naming.fileAt_of_shown {word : Text} (naming : Naming word) {directory : List Text}
    {before after front back : Text} (found : shown directory before after = some (front, back)) :
    fileAt directory (before ++ word ++ after) = front ++ word ++ back := by
  unfold shown at found
  rw [fileAt, naming.resolve_around]
  split at found
  · cases found
  · next below stays =>
    obtain ⟨rfl, rfl⟩ := Prod.mk.inj (Option.some.inj found)
    rw [walk_of_addedBelow stays, joined_around, frontOf]
    simp only [List.append_assoc]

/-- Where a path leads out of the part with a word, any other word in its place leads to the same
file. -/
theorem Naming.fileAt_of_left {word other : Text} (naming : Naming word) (naming' : Naming other)
    {directory : List Text} {before after : Text} (left : shown directory before after = none) :
    fileAt directory (before ++ word ++ after) = fileAt directory (before ++ other ++ after) := by
  unfold shown at left
  rw [fileAt, fileAt, naming.resolve_around, naming'.resolve_around]
  split at left
  · next leaves => rw [walk_of_left leaves]
  · cases left

/-- A path through a directory with a word as its name, that does not lead out of it again, shows
the word. -/
theorem shown_directory (directory : List Text) (before : Text) {rest : Text}
    (inside : addedBelow [] (parts rest) ≠ none) :
    ∃ back, shown directory before ('/' :: rest) = some (frontOf directory before, back) := by
  -- The slash ends the part with the word.
  have split : parts ('/' :: rest) = [] :: parts rest := by
    unfold parts
    rw [List.splitOn_cons_eq_if_modifyHead]
    rfl
  obtain ⟨below, added⟩ := Option.ne_none_iff_exists'.mp inside
  exact ⟨_, by rw [shown, split, List.tail_cons, added]⟩

end SecretTyping.Paths
