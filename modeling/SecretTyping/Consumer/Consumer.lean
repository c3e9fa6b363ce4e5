import SecretTyping.Lib.LastWrite
import SecretTyping.Typer.Order

/-! The consumer of one translation unit, and the run of the tool over a list of them. -/

namespace SecretTyping

open LastWrite Rewriter

variable {Cls : Type}

/-- A file that the preprocessor entered, as the source manager lists it, with the path that led to
it. -/
structure FileEntry where
  name : Text
  isInSystemHeader : Bool
  deriving DecidableEq

/-- A translation unit: the files read for it, its classes and its variables as they are matched. -/
structure TranslationUnit (Cls : Type) where
  mainFile : Text
  /-- Every file once, in the order of the source manager. -/
  fileinfo : List FileEntry
  context : ASTContext Cls
  varDecls : List (VarDecl Cls)

/-- The rewritten content of a file: what has been inserted into it, in order. -/
structure RewriteBuffer where
  file : Text
  insertions : List Insertion
  deriving DecidableEq

/-- The text that a buffer is written out as. -/
def RewriteBuffer.text (input : Text → Text) (buffer : RewriteBuffer) : Text :=
  render buffer.insertions buffer.file (input buffer.file)

/-- The output tree: what each file was last written with, if it was written at all. -/
abbrev OutputTree := Text → Option RewriteBuffer

/-- Why the tool stops before it has processed all its sources. -/
inductive Stop where
  | typer (fault : Fault)
  /-- A file name without the word to replace is replaced at no position. -/
  | outOfRange
  deriving DecidableEq

/-- The text that goes to the start of every file but the main one. -/
def includeheaders : Text :=
  -- The lines of the raw string, with the indentation they have in the source.
  "#ifdef UMF \n".toList ++
    ("\t                #include \"numatype.hpp\"\n".toList ++
      ("\t                #include <umf/mempolicy.h>\n".toList ++
        ("\t                #include <umf/memspace.h>\n".toList ++
          ("                    #include \"utils_examples.h\"\n".toList ++
            ("                    #include <stdio.h>\n".toList ++
              ("                    #include <string.h>\n".toList ++
                ("                #endif\n".toList ++
                  ("                #include \"secrettype.hpp\"\n".toList ++
                    "                ".toList))))))))

/-- The insertion of the header into a file. -/
def headerInsertion (file : Text) : Insertion := ⟨.before, ⟨file, 0⟩, includeheaders⟩

/-- Whether a file is the header that declares the tests. -/
def FileEntry.isTestSuite (file : FileEntry) : Bool :=
  (findText "TestSuite.hpp".toList file.name).isSome

/-- Whether a file is the header that defines the wrapper. -/
def FileEntry.isSecretType (file : FileEntry) : Bool :=
  (findText "secretLib/secrettype.hpp".toList file.name).isSome

/-- The path a file is written to. -/
def outputFileName (fileName : Text) : Option Text :=
  -- Only the first occurrence of the word is replaced.
  (findText "input".toList fileName).map fun position =>
    fileName.take position ++ "output".toList ++ fileName.drop (position + 5)

/-- The buffer of a file, if anything was inserted into it. -/
def getRewriteBufferFor (edits : List Insertion) (file : Text) : Option RewriteBuffer :=
  -- A file into which nothing was inserted has no buffer.
  let insertions := edits.filter fun insertion => insertion.location.file = file
  if insertions.isEmpty then none else some { file, insertions }

section Files

/- Two paths may lead to one file: locations and buffers are those of files, and so are outputs. -/
variable (fileAt : Text → Text)

/-- Put the header into one file, unless it is skipped. -/
def includeHeaderIn (mainFile : Text) (edits : List Insertion) (file : FileEntry) :
    List Insertion :=
  -- The header that declares the tests is tested for before the main file.
  if file.isTestSuite then edits
  else if fileAt file.name = fileAt mainFile then edits
  else edits ++ [headerInsertion (fileAt file.name)]

/-- Put the header into every file that is not skipped. -/
def includeSecretHeader (unit : TranslationUnit Cls) (edits : List Insertion) : List Insertion :=
  unit.fileinfo.foldl (includeHeaderIn fileAt unit.mainFile) edits

/-- Write the buffers of the listed files. -/
def writeOutput (canOpen : Text → Bool) (edits : List Insertion) :
    List FileEntry → OutputTree → Except Stop OutputTree
  | [], tree => .ok tree
  | file :: rest, tree =>
    match getRewriteBufferFor edits (fileAt file.name) with
    | none => writeOutput canOpen edits rest tree
    | some buffer =>
      if file.isInSystemHeader then writeOutput canOpen edits rest tree
      else if file.isSecretType then writeOutput canOpen edits rest tree
      else
        match outputFileName file.name with
        | none => .error .outOfRange
        | some outputFile =>
          -- A path that cannot be opened ends the loop, not the tool.
          if canOpen outputFile then
            writeOutput canOpen edits rest (write tree (fileAt outputFile, buffer))
          else .ok tree

variable [DecidableEq Cls] (canOpen : Text → Bool) (depth : Nat)

end Files

end SecretTyping
