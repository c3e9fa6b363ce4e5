import SecretTyping.Consumer.Consumer

/-! What the tool leaves in its output tree when several translation units write it. -/

namespace SecretTyping

open LastWrite Rewriter Search

variable {Cls : Type} {fileAt : Text → Text}

/-- Whether a file is one of those that are written out. -/
def FileEntry.isWrittenOut (file : FileEntry) : Bool :=
  !file.isInSystemHeader && !file.isSecretType

/-- What the loop over the files writes for one of them, and to which file. -/
def fileWrite (fileAt : Text → Text) (edits : List Insertion) (file : FileEntry) :
    Option (Text × RewriteBuffer) :=
  -- A file is written when it is no system header, has a buffer, and has a path.
  if file.isWrittenOut then
    (getRewriteBufferFor edits (fileAt file.name)).bind fun buffer =>
      (outputFileName file.name).map fun path => (fileAt path, buffer)
  else none

/-- A file that is written out has a path to be written to. -/
def HasPath (fileAt : Text → Text) (edits : List Insertion) (file : FileEntry) : Prop :=
  file.isWrittenOut = true → getRewriteBufferFor edits (fileAt file.name) ≠ none →
    outputFileName file.name ≠ none

/-- A file with a path is written as the loop writes it, or passed over. -/
theorem writeOutput_cons {canOpen : Text → Bool} (opens : ∀ path, canOpen path = true)
    {edits : List Insertion} {file : FileEntry} (path : HasPath fileAt edits file)
    (rest : List FileEntry) (tree : OutputTree) :
    writeOutput fileAt canOpen edits (file :: rest) tree =
      writeOutput fileAt canOpen edits rest
        ((fileWrite fileAt edits file).toList.foldl write tree) := by
  -- The tests of the loop are met in the order the loop makes them.
  unfold HasPath FileEntry.isWrittenOut at path
  rw [writeOutput, fileWrite, FileEntry.isWrittenOut]
  cases found : getRewriteBufferFor edits (fileAt file.name) with
  | none => simp
  | some buffer =>
    by_cases system : file.isInSystemHeader = true
    · simp [system]
    · by_cases header : file.isSecretType = true
      · simp [header]
      · have named := path (by simp [system, header]) (by simp [found])
        cases same : outputFileName file.name with
        | none => exact absurd same named
        | some outputFile => simp [system, header, opens]

/-- A file without a path stops the loop. -/
theorem writeOutput_outOfRange {canOpen : Text → Bool} {edits : List Insertion}
    {file : FileEntry} (pathless : ¬ HasPath fileAt edits file) (rest : List FileEntry)
    (tree : OutputTree) :
    writeOutput fileAt canOpen edits (file :: rest) tree = .error .outOfRange := by
  -- A file without a path passes every test that comes before its name is changed.
  simp only [HasPath, FileEntry.isWrittenOut, Bool.and_eq_true, Bool.not_eq_true',
    Classical.not_imp, not_not] at pathless
  obtain ⟨⟨system, header⟩, buffered, unnamed⟩ := pathless
  rw [writeOutput]
  cases found : getRewriteBufferFor edits (fileAt file.name) with
  | none => exact absurd found buffered
  | some buffer => simp [system, header, unnamed]

/-- Where every path can be opened, the loop writes each file in turn, provided all have a path. -/
theorem writeOutput_eq_ok_iff {canOpen : Text → Bool} (opens : ∀ path, canOpen path = true)
    (edits : List Insertion) (files : List FileEntry) (tree result : OutputTree) :
    writeOutput fileAt canOpen edits files tree = .ok result ↔
      (∀ file ∈ files, HasPath fileAt edits file) ∧
        result = (files.filterMap (fileWrite fileAt edits)).foldl write tree := by
  -- By induction on the files, of which the first either has a path or stops the loop.
  induction files generalizing tree with
  | nil => simp [writeOutput, eq_comm]
  | cons file rest ih =>
    by_cases path : HasPath fileAt edits file
    · rw [writeOutput_cons opens path, ih]
      cases written : fileWrite fileAt edits file <;> simp [written, path]
    · rw [writeOutput_outOfRange path]
      simp [path]

section Units

variable [DecidableEq Cls] (fileAt : Text → Text) (depth : Nat)

/-- Everything inserted for a translation unit, if the typer comes to its end. -/
def TranslationUnit.edits (unit : TranslationUnit Cls) : List Insertion :=
  match start unit.context depth unit.varDecls with
  | .ok state => includeSecretHeader fileAt unit state.edits
  | .error _ => []

/-- What a translation unit writes, in order. -/
def TranslationUnit.writes (unit : TranslationUnit Cls) : List (Text × RewriteBuffer) :=
  unit.fileinfo.filterMap (fileWrite fileAt (unit.edits fileAt depth))

/-- A translation unit is processed to its end. -/
structure TranslationUnit.Completes (unit : TranslationUnit Cls) : Prop where
  typed : ∃ state, start unit.context depth unit.varDecls = .ok state
  paths : ∀ file ∈ unit.fileinfo, HasPath fileAt (unit.edits fileAt depth) file

end Units

end SecretTyping
