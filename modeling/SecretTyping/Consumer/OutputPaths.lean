import SecretTyping.Consumer.Outputs
import SecretTyping.Lib.Paths
import SecretTyping.Lib.Replacement

/-! The paths that the files of one translation unit are written to, and the files they lead to. -/

namespace SecretTyping

open LastWrite Paths Rewriter

/-- The word that is replaced in the name of a file. -/
def inputWord : Text := "input".toList

/-- The word that is put in its place. -/
def outputWord : Text := "output".toList

/-- The path of a file is its name with the first occurrence of the word replaced. -/
theorem outputFileName_eq (fileName : Text) :
    outputFileName fileName = replaceFirst inputWord outputWord fileName :=
  rfl

/-- The word that is put in does not overlap itself. -/
theorem outputWord_unbordered : Unbordered outputWord := by decide

/-- Both words make the part of a path that they stand in the name of a file. -/
theorem words_naming : Naming inputWord ∧ Naming outputWord :=
  ⟨⟨by simp [inputWord], 'i', by simp [inputWord], by simp⟩,
    ⟨by simp [outputWord], 'o', by simp [outputWord], by simp⟩⟩

/-- A file that is not in a system header. -/
def userFile (name : Text) : FileEntry := ⟨name, false⟩

/-- A file below the input directory in the given place. -/
def BelowInput (place file : Text) : Prop := ∃ rest, file = place ++ "input/".toList ++ rest

/-- A name that is not one of the header that defines the wrapper, which is skipped. -/
def Mapped (name : Text) : Prop := (userFile name).isSecretType = false

section Paths

/- Files are named by their paths from the root; the tool runs in a working directory. -/
variable {directory : List Text} {edits : List Insertion} {names : List Text}

/-- The loop writes a file to a file. -/
def GoesTo (directory : List Text) (edits : List Insertion) (name file : Text) : Prop :=
  ∃ buffer, fileWrite (fileAt directory) edits (userFile name) = some (file, buffer)

/-- Every file goes to a file of its own, which is at the same place below the output directory for
a file below the input directory and is never an input file. -/
structure MapsApart (directory : List Text) (place : Text) (edits : List Insertion)
    (names : List Text) : Prop where
  inRange : ∀ canOpen tree,
    writeOutput (fileAt directory) canOpen edits (names.map userFile) tree ≠ .error .outOfRange
  distinct : ∀ name ∈ names, ∀ other ∈ names, ∀ file, GoesTo directory edits name file →
    GoesTo directory edits other file → fileAt directory name = fileAt directory other
  relative : ∀ name ∈ names, Mapped name → ∀ rest,
    fileAt directory name = place ++ "input/".toList ++ rest →
      GoesTo directory edits name (place ++ "output/".toList ++ rest)
  fresh : ∀ name ∈ names, ∀ file, GoesTo directory edits name file →
    (∀ other ∈ names, file ≠ fileAt directory other) ∧ ¬ BelowInput place file

/-- The file of a name shows the first occurrence of the word in it between two texts. -/
def Shows (directory : List Text) (name front back : Text) : Prop :=
  ∃ before after, name = before ++ inputWord ++ after ∧ Leads inputWord before ∧
    shown directory before after = some (front, back)

/-- The file of every name shows the first word in it, as its input directory if it is below that,
and no other file has the other word in its place. -/
structure PlacedApart (directory : List Text) (place : Text) (names : List Text) : Prop where
  /-- The word is in the name, and the part with it is not left again. -/
  named : ∀ name ∈ names, Mapped name → ∃ front back, Shows directory name front back
  within : ∀ name ∈ names, Mapped name → ∀ front back, Shows directory name front back →
    BelowInput place (front ++ inputWord ++ back) → front = place
  unswapped : ∀ name ∈ names, ∀ other ∈ names, Mapped name → Mapped other →
    ∀ front between back, Shows directory name front (between ++ outputWord ++ back) →
      ¬ Shows directory other (front ++ outputWord ++ between) back
  fresh : ∀ name ∈ names, Mapped name → ∀ front back, Shows directory name front back →
    (∀ other ∈ names, front ++ outputWord ++ back ≠ fileAt directory other) ∧
      ¬ BelowInput place (front ++ outputWord ++ back)

/-- A name shows its word at one place. -/
theorem Shows.unique {name front back front' back' : Text} (shows : Shows directory name front back)
    (again : Shows directory name front' back') : front = front' ∧ back = back' := by
  obtain ⟨before, after, rfl, leads, found⟩ := shows
  obtain ⟨before', after', same, leads', found'⟩ := again
  -- The first occurrence of the word is at one place of the name.
  have first := leads.eq leads' same
  subst first
  rw [List.append_cancel_left same] at found
  exact Prod.mk.inj (Option.some.inj (found.symm.trans found'))

/-- The file of a name shows the word where the name does. -/
theorem Shows.fileAt_eq {name front back : Text} (shows : Shows directory name front back) :
    fileAt directory name = front ++ inputWord ++ back := by
  obtain ⟨before, after, rfl, -, found⟩ := shows
  exact words_naming.1.fileAt_of_shown found

/-- A file with a buffer goes to where its path leads unless it is skipped. -/
theorem goesTo_iff {name : Text}
    (buffered : getRewriteBufferFor edits (fileAt directory name) ≠ none) (file : Text) :
    GoesTo directory edits name file ↔
      Mapped name ∧
        (replaceFirst inputWord outputWord name).map (fileAt directory) = some file := by
  -- Besides the buffer, only the name of the header decides.
  unfold GoesTo fileWrite FileEntry.isWrittenOut Mapped
  rw [← outputFileName_eq]
  cases found : getRewriteBufferFor edits (fileAt directory name) with
  | none => exact absurd found buffered
  | some buffer =>
    cases header : (userFile name).isSecretType with
    | true => simp
    | false => simp [userFile, found]

/-- A name that shows its word goes to the file with the other word in its place. -/
theorem Shows.goesTo_iff {name front back : Text} (shows : Shows directory name front back)
    (buffered : getRewriteBufferFor edits (fileAt directory name) ≠ none) (file : Text) :
    GoesTo directory edits name file ↔ Mapped name ∧ file = front ++ outputWord ++ back := by
  -- Where the word is shown, the other word is shown in its place.
  obtain ⟨before, after, whole, leads, found⟩ := shows
  have replaced : replaceFirst inputWord outputWord name = some (before ++ outputWord ++ after) :=
    replaceFirst_eq_some_iff.mpr ⟨before, after, whole, leads, rfl⟩
  rw [SecretTyping.goesTo_iff buffered, replaced, Option.map_some,
    words_naming.2.fileAt_of_shown found, Option.some.injEq, eq_comm (a := file)]

/-- A file with a buffer has a path to be written to, unless it is skipped or the word is not in its
name. -/
theorem hasPath_iff {name : Text}
    (buffered : getRewriteBufferFor edits (fileAt directory name) ≠ none) :
    HasPath (fileAt directory) edits (userFile name) ↔
      (Mapped name → ∃ before after, name = before ++ inputWord ++ after) := by
  -- The word is what the replacement looks for.
  unfold HasPath FileEntry.isWrittenOut Mapped
  have written : (!(userFile name).isInSystemHeader && !(userFile name).isSecretType) = true ↔
      (userFile name).isSecretType = false := by
    simp [userFile]
  rw [written]
  apply imp_congr_right
  intro _
  show (getRewriteBufferFor edits (fileAt directory name) ≠ none → outputFileName name ≠ none) ↔ _
  rw [outputFileName_eq, ne_eq (replaceFirst ..), replaceFirst_eq_none_iff, not_not]
  exact ⟨fun path => path buffered, fun word _ => word⟩

/-- Files that all have a path never stop the loop, whatever it can open. -/
theorem writeOutput_ends (canOpen : Text → Bool) {files : List FileEntry}
    (paths : ∀ file ∈ files, HasPath (fileAt directory) edits file) (tree : OutputTree) :
    ∃ result, writeOutput (fileAt directory) canOpen edits files tree = .ok result := by
  -- By induction on the files, with the tests in the order of the loop.
  induction files generalizing tree with
  | nil => exact ⟨tree, rfl⟩
  | cons file rest ih =>
    have others := fun tree => ih (fun other member => paths other (.tail _ member)) tree
    have path := paths file List.mem_cons_self
    unfold HasPath FileEntry.isWrittenOut at path
    rw [writeOutput]
    cases found : getRewriteBufferFor edits (fileAt directory file.name) with
    | none => exact others tree
    | some buffer =>
      -- A file of a system header, or the header itself, is passed.
      by_cases system : file.isInSystemHeader = true
      · simpa [system] using others tree
      · by_cases header : file.isSecretType = true
        · simpa [system, header] using others tree
        · have named := path (by simp [system, header]) (by simp [found])
          cases same : outputFileName file.name with
          | none => exact absurd same named
          | some outputFile =>
            by_cases opens : canOpen outputFile = true
            · simpa [system, header, opens] using others _
            · exact ⟨tree, by simp [system, header, opens]⟩

/-- A file without a path stops a loop that can open all the paths before it. -/
theorem writeOutput_stops {canOpen : Text → Bool} (opens : ∀ path, canOpen path = true)
    {files : List FileEntry} (pathless : ¬ ∀ file ∈ files, HasPath (fileAt directory) edits file)
    (tree : OutputTree) :
    writeOutput (fileAt directory) canOpen edits files tree = .error .outOfRange := by
  -- By induction on the files before the first one without a path.
  induction files generalizing tree with
  | nil => exact absurd (fun file member => nomatch member) pathless
  | cons file rest ih =>
    -- A file with a path does not stop the loop, so that a later one does.
    by_cases path : HasPath (fileAt directory) edits file
    · rw [writeOutput_cons opens path]
      apply ih
      intro paths
      exact pathless (List.forall_mem_cons.mpr ⟨path, paths⟩)
    · exact writeOutput_outOfRange path rest tree

/-- The loop never looks for the word in vain, whatever it can open, exactly when every file has a
path. -/
theorem inRange_iff (files : List FileEntry) :
    (∀ canOpen tree,
      writeOutput (fileAt directory) canOpen edits files tree ≠ .error .outOfRange) ↔
      ∀ file ∈ files, HasPath (fileAt directory) edits file := by
  -- If all files can be opened, one without a path stops the loop.
  constructor
  · intro inRange
    by_contra pathless
    exact inRange (fun _ => true) (fun _ => none) (writeOutput_stops (fun _ => rfl) pathless _)
  · intro paths canOpen tree stopped
    obtain ⟨result, ended⟩ := writeOutput_ends canOpen paths tree
    rw [stopped] at ended
    cases ended

/-- The input directory is a directory with the word as its name. -/
theorem inputDirectory_eq (place rest : Text) :
    place ++ "input/".toList ++ rest = place ++ inputWord ++ ('/' :: rest) := by
  rw [List.append_assoc, List.append_assoc]
  rfl

/-- The output directory is a directory with the other word as its name. -/
theorem outputDirectory_eq (place rest : Text) :
    place ++ "output/".toList ++ rest = place ++ outputWord ++ ('/' :: rest) := by
  rw [List.append_assoc, List.append_assoc]
  rfl

/-- A file below the input directory goes to the same place below the output directory exactly when
the word that it shows is that directory. -/
theorem moved_below_iff {place front back rest : Text}
    (below : front ++ inputWord ++ back = place ++ "input/".toList ++ rest) :
    front ++ outputWord ++ back = place ++ "output/".toList ++ rest ↔ front = place := by
  rw [inputDirectory_eq] at below
  rw [outputDirectory_eq]
  constructor
  · -- The two words begin with different letters, and so only the directory can have been replaced.
    intro moved
    have differ : 'i' ≠ 'o' := by decide
    exact place_eq differ below moved
  · intro same
    rw [same, List.append_assoc, List.append_assoc] at below
    rw [same, List.append_cancel_left (List.append_cancel_left below)]

section Buffered

variable {place : Text}
  (buffered : ∀ name ∈ names, getRewriteBufferFor edits (fileAt directory name) ≠ none)

include buffered

/-- The loop never looks for the word in vain exactly when every file that is not skipped has it. -/
theorem inRange_names_iff :
    (∀ canOpen tree, writeOutput (fileAt directory) canOpen edits (names.map userFile) tree ≠
      .error .outOfRange) ↔
        ∀ name ∈ names, Mapped name → ∃ before after, name = before ++ inputWord ++ after := by
  rw [inRange_iff, List.forall_mem_map]
  exact forall₂_congr fun name member => hasPath_iff (buffered name member)

/-- When the files are right, the word is in every name, and its part is not left again. -/
theorem MapsApart.shows (maps : MapsApart directory place edits names) {name : Text}
    (member : name ∈ names) (mapped : Mapped name) :
    ∃ front back, Shows directory name front back := by
  obtain ⟨first, last, whole⟩ := (inRange_names_iff buffered).mp maps.inRange name member mapped
  cases replaced : replaceFirst inputWord outputWord name with
  | none => exact absurd ⟨first, last, whole⟩ (replaceFirst_eq_none_iff.mp replaced)
  | some path =>
    obtain ⟨before, after, split, leads, parts⟩ := replaceFirst_eq_some_iff.mp replaced
    cases found : shown directory before after with
    | some place =>
      obtain ⟨front, back⟩ := place
      exact ⟨front, back, before, after, split, leads, found⟩
    | none =>
      -- The path of the output would lead to the file itself.
      have same := words_naming.1.fileAt_of_left words_naming.2 found
      rw [← split, ← parts] at same
      have goes : GoesTo directory edits name (fileAt directory name) :=
        (goesTo_iff (buffered name member) _).mpr
          ⟨mapped, by rw [replaced, Option.map_some, same]⟩
      exact absurd rfl ((maps.fresh name member _ goes).1 name member)

/-- When the files are right, the words are in their places. -/
theorem MapsApart.placedApart (maps : MapsApart directory place edits names) :
    PlacedApart directory place names := by
  refine ⟨fun name member mapped => maps.shows buffered member mapped,
    fun name member mapped front back shows below => ?_,
    fun name member other member' mapped mapped' front between back shows shows' => ?_,
    fun name member mapped front back shows => ?_⟩
  · -- A file of the input directory goes to the output directory.
    obtain ⟨rest, below⟩ := below
    have goes := maps.relative name member mapped rest (shows.fileAt_eq.trans below)
    have moved := ((shows.goesTo_iff (buffered name member) _).mp goes).2
    exact (moved_below_iff below).mp moved.symm
  · -- Two files with the words swapped would go to one file.
    have same : front ++ outputWord ++ (between ++ outputWord ++ back) =
        front ++ outputWord ++ between ++ outputWord ++ back := by
      simp only [List.append_assoc]
    have files := maps.distinct name member other member' _
      ((shows.goesTo_iff (buffered name member) _).mpr ⟨mapped, rfl⟩)
      ((shows'.goesTo_iff (buffered other member') _).mpr ⟨mapped', same⟩)
    rw [shows.fileAt_eq, shows'.fileAt_eq] at files
    simp only [List.append_assoc] at files
    cases List.append_cancel_left files
  · -- No output is one of the inputs.
    exact maps.fresh name member _ ((shows.goesTo_iff (buffered name member) _).mpr ⟨mapped, rfl⟩)

/-- When the words are in their places, the files are right. -/
theorem PlacedApart.mapsApart (placed : PlacedApart directory place names) :
    MapsApart directory place edits names := by
  -- A file goes where its word shows, with the other word in its place.
  have goes : ∀ name ∈ names, ∀ file, GoesTo directory edits name file → Mapped name ∧
      ∃ front back, Shows directory name front back ∧ file = front ++ outputWord ++ back := by
    intro name member file goes
    have mapped := ((goesTo_iff (buffered name member) file).mp goes).1
    obtain ⟨front, back, shows⟩ := placed.named name member mapped
    exact ⟨mapped, front, back, shows, ((shows.goesTo_iff (buffered name member) file).mp goes).2⟩
  refine ⟨(inRange_names_iff buffered).mpr fun name member mapped => ?_,
    fun name member other member' file left right => ?_,
    fun name member mapped rest below => ?_, fun name member file left => ?_⟩
  · obtain ⟨-, -, before, after, whole, -, -⟩ := placed.named name member mapped
    exact ⟨before, after, whole⟩
  · -- Names that go to one file lead to one file or have the words swapped.
    obtain ⟨mapped, front, back, shows, parts⟩ := goes name member file left
    obtain ⟨mapped', front', back', shows', parts'⟩ := goes other member' file right
    rcases outputWord_unbordered.eq_or_apart (parts.symm.trans parts') with
      ⟨rfl, rfl⟩ | ⟨between, rfl, rfl⟩ | ⟨between, rfl, rfl⟩
    · rw [shows.fileAt_eq, shows'.fileAt_eq]
    · exact absurd shows'
        (placed.unswapped name member other member' mapped mapped' _ _ _ shows)
    · exact absurd shows
        (placed.unswapped other member' name member mapped' mapped _ _ _ shows')
  · -- The word is in the place of the directory, so that only that is replaced.
    obtain ⟨front, back, shows⟩ := placed.named name member mapped
    have split := shows.fileAt_eq.symm.trans below
    have same := placed.within name member mapped front back shows ⟨rest, split⟩
    exact (shows.goesTo_iff (buffered name member) _).mpr
      ⟨mapped, ((moved_below_iff split).mpr same).symm⟩
  · -- What is written is neither an input nor below the input directory.
    obtain ⟨mapped, front, back, shows, rfl⟩ := goes name member file left
    exact placed.fresh name member mapped front back shows

end Buffered

/-- The files are right exactly when the words are in their places. -/
theorem mapsApart_iff (directory : List Text) (place : Text)
    (buffered : ∀ name ∈ names, getRewriteBufferFor edits (fileAt directory name) ≠ none) :
    MapsApart directory place edits names ↔ PlacedApart directory place names :=
  ⟨fun maps => maps.placedApart buffered, fun placed => placed.mapsApart buffered⟩

/-- What is written of a file is its buffer. -/
theorem buffer_of_fileWrite {file : FileEntry} {target : Text} {buffer : RewriteBuffer}
    (written : fileWrite (fileAt directory) edits file = some (target, buffer)) :
    getRewriteBufferFor edits (fileAt directory file.name) = some buffer := by
  unfold fileWrite at written
  split at written
  · obtain ⟨held, found, path⟩ := Option.bind_eq_some_iff.mp written
    obtain ⟨_, _, same⟩ := Option.map_eq_some_iff.mp path
    rw [found, (Prod.mk.inj same).2]
  · cases written

/-- When the words are in their places, every file that is not skipped is found where its path leads
with all that was inserted into it. -/
theorem writeOutput_keeps {canOpen : Text → Bool} (opens : ∀ path, canOpen path = true)
    {place : Text}
    (buffered : ∀ name ∈ names, getRewriteBufferFor edits (fileAt directory name) ≠ none)
    (placed : PlacedApart directory place names) (tree : OutputTree) :
    ∃ result, writeOutput (fileAt directory) canOpen edits (names.map userFile) tree =
        .ok result ∧
      ∀ name ∈ names, ∀ file buffer,
        fileWrite (fileAt directory) edits (userFile name) = some (file, buffer) →
          result file = some buffer := by
  have maps := placed.mapsApart buffered
  refine ⟨_, (writeOutput_eq_ok_iff opens edits _ tree _).mpr
    ⟨(inRange_iff _).mp maps.inRange, rfl⟩, ?_⟩
  intro name member file buffer written
  -- No other file is written there.
  have unique : final ((names.map userFile).filterMap (fileWrite (fileAt directory) edits)) file =
      some buffer := by
    apply final_of_unique
    · exact List.mem_filterMap.mpr ⟨userFile name, List.mem_map_of_mem member, written⟩
    · intro entry found same
      obtain ⟨entered, listed, written'⟩ := List.mem_filterMap.mp found
      obtain ⟨other, member', rfl⟩ := List.mem_map.mp listed
      have goes : GoesTo directory edits other file := ⟨entry.2, by rw [written', ← same]⟩
      have leads := maps.distinct other member' name member file goes ⟨buffer, written⟩
      have held : getRewriteBufferFor edits (fileAt directory other) = some entry.2 :=
        buffer_of_fileWrite written'
      have held' : getRewriteBufferFor edits (fileAt directory name) = some buffer :=
        buffer_of_fileWrite written
      rw [leads, held'] at held
      exact (Option.some.inj held).symm
  rw [foldl_write, unique]
  rfl

/-- Files that are named in an input directory, without an earlier word and without leading out of
it again, have the words in their places. -/
theorem placedApart_of_below {before : Text} (leads : Leads inputWord before)
    (below : ∀ name ∈ names, ∃ rest, name = before ++ inputWord ++ ('/' :: rest) ∧
      addedBelow [] (parts rest) ≠ none) :
    PlacedApart directory (frontOf directory before) names := by
  -- Each of the names shows the word as that of the directory.
  have shows : ∀ name ∈ names, ∃ back,
      Shows directory name (frontOf directory before) back := by
    intro name member
    obtain ⟨rest, whole, inside⟩ := below name member
    obtain ⟨back, found⟩ := shown_directory directory before inside
    exact ⟨back, before, '/' :: rest, whole, leads, found⟩
  have fronts : ∀ name ∈ names, ∀ front back, Shows directory name front back →
      front = frontOf directory before := by
    intro name member front back given
    obtain ⟨back', given'⟩ := shows name member
    exact (given.unique given').1
  -- Where the other word stands in its place, a file is not below the input directory.
  have differ : ∀ back back' : Text, frontOf directory before ++ outputWord ++ back ≠
      frontOf directory before ++ inputWord ++ back' := by
    intro back back' same
    rw [List.append_assoc, List.append_assoc] at same
    cases List.append_cancel_left same
  refine ⟨fun name member _ => ⟨_, shows name member⟩,
    fun name member _ front back given _ => fronts name member front back given,
    fun name member other member' _ _ front between back given given' => ?_,
    fun name member _ front back given => ?_⟩
  · -- Both would show the word at the same distance from the root.
    have first := fronts name member _ _ given
    have second := fronts other member' _ _ given'
    have lengths := congrArg List.length (first.trans second.symm)
    have positive : outputWord.length = 6 := rfl
    rw [List.length_append, List.length_append] at lengths
    omega
  · rw [fronts name member _ _ given]
    refine ⟨fun other member' same => ?_, fun inside => ?_⟩
    · obtain ⟨back', given'⟩ := shows other member'
      rw [given'.fileAt_eq] at same
      exact differ back back' same
    · obtain ⟨rest, same⟩ := inside
      rw [inputDirectory_eq] at same
      exact differ back _ same

/-- A file that the header goes into has a buffer. -/
theorem buffered_of_headers {name : Text} (member : name ∈ names) :
    getRewriteBufferFor (names.map fun name => headerInsertion (fileAt directory name))
      (fileAt directory name) ≠ none := by
  -- The header is an insertion into the file.
  have inserted : headerInsertion (fileAt directory name) ∈
      (names.map fun name => headerInsertion (fileAt directory name)).filter
        fun insertion => insertion.location.file = fileAt directory name :=
    List.mem_filter.mpr ⟨List.mem_map_of_mem member, decide_eq_true rfl⟩
  unfold getRewriteBufferFor
  rw [if_neg]
  · exact Option.some_ne_none _
  · rw [List.isEmpty_iff]
    exact List.ne_nil_of_mem inserted

end Paths

/-- The directory that the samples are run in. -/
def workingDirectory : List Text := ["home".toList, "inputs".toList]

/-- The headers that go into files. -/
def headersFor (names : List Text) : List Insertion :=
  names.map fun name => headerInsertion (fileAt workingDirectory name)

/-- Two files below the input directory of the working directory. -/
def inputFiles : List Text :=
  ["input/Examples/main.cpp".toList, "input/Examples/../include/Node.hpp".toList]

/-- The files below the input directory go to the output directory. -/
theorem mapsApart_inputFiles :
    MapsApart workingDirectory "home/inputs/".toList (headersFor inputFiles) inputFiles := by
  -- Both names begin with the directory and stay in it.
  have leads : Leads inputWord [] := by decide
  apply (mapsApart_iff _ _ fun name member => buffered_of_headers member).mpr
  refine placedApart_of_below leads fun name member => ?_
  rcases List.mem_cons.mp member with rfl | member
  · exact ⟨"Examples/main.cpp".toList, rfl, by decide⟩
  · rw [List.mem_singleton.mp member]
    exact ⟨"Examples/../include/Node.hpp".toList, rfl, by decide⟩

/-- A header that stands in another directory. -/
def otherHeader : Text := "../common/types.hpp".toList

/-- A header without the word in its path stops the loop. -/
theorem not_mapsApart_otherHeader :
    (∀ name ∈ [otherHeader], getRewriteBufferFor (headersFor [otherHeader])
      (fileAt workingDirectory name) ≠ none) ∧
      ¬ MapsApart workingDirectory "home/inputs/".toList (headersFor [otherHeader])
        [otherHeader] := by
  refine ⟨fun name member => buffered_of_headers member, fun maps => ?_⟩
  have paths := (inRange_iff _).mp maps.inRange (userFile otherHeader) (List.mem_singleton_self _)
  have path := paths (by decide) (buffered_of_headers (List.mem_singleton_self _))
  apply path
  decide

/-- A header whose path leads out of the input directory and back into it is written over itself. -/
def detour : Text := "input/y/../../input/x/h.hpp".toList

/-- A path that leads out of the input directory again does not have its words in their places. -/
example : (replaceFirst inputWord outputWord detour).map (fileAt workingDirectory) =
    some (fileAt workingDirectory detour) := by decide

end SecretTyping
