import EdgeProbe.Artifact.Files
import EdgeProbe.Pipeline
import EdgeProbe.Settings.Environment
import EdgeProbe.Text.Scan

/-!
# Writing artifacts

Either five variables name the files, of which only coverage builds need the last, or the files have
fixed names in one directory. Nothing is written if one of the files that are due exists. Numbers
are little-endian. Fuzzing builds write the dictionary if there is anything in it; coverage builds
write the lines of their probes instead, and remove a dictionary that is there from before.
-/

namespace EdgeProbe

/-! ## Where artifacts go -/

structure OutputPaths where
  mapSize : String
  blockCount : String
  buildId : String
  dictionary : String
  /-- In coverage builds only. -/
  sourceMap : Option String
  deriving DecidableEq, Inhabited

namespace OutputPaths

def ofVariables (buildType : BuildType) (vars : Variables) : Except Fatal OutputPaths := do
  let required := fun name =>
    match vars name with
    | some path => Except.ok path
    | none => Except.error (Fatal.missingOutputPath name)
  let mapSize ← required "AFL_BCCLANG_MAP_FILE"
  let blockCount ← required "AFL_BCCLANG_BBMAP_FILE"
  let buildId ← required "AFL_BCCLANG_BUILD_ID"
  let dictionary ← required "AFL_BCCLANG_DICT_FILE"
  let sourceMap ←
    match buildType with
    | .coverage => (required "AFL_BCCLANG_COVERAGE_TO_SRC_FILE").map some
    | .fuzzing => pure none
  return { mapSize, blockCount, buildId, dictionary, sourceMap }

def inDirectory (dir : String) (buildType : BuildType) : OutputPaths :=
  { mapSize := Text.joinPath dir "afl.mapsize"
    blockCount := Text.joinPath dir "afl.bbsize"
    buildId := Text.joinPath dir "afl.buildid"
    dictionary := Text.joinPath dir "afl.dict"
    sourceMap :=
      match buildType with
      | .coverage => some (Text.joinPath dir "afl.cov2src")
      | .fuzzing => none }

end OutputPaths

/-! ## Writing -/

inductive FileAction where
  | create | delete
  deriving DecidableEq, Inhabited

inductive WriteError where
  | present (path : String)
  | failed (action : FileAction) (path : String) (error : FileError)
  deriving DecidableEq, Inhabited

namespace WriteError

def actionText : FileAction → String
  | .create => "Cannot create "
  | .delete => "Cannot delete "

def message : WriteError → String
  | present path => (Fatal.outputExists path).message
  | failed action path error => actionText action ++ path ++ ": " ++ error.text

end WriteError

/-- Work on files that reports what it does, also when it fails. -/
abbrev FileWork (m : Type → Type) := ExceptT WriteError (StateT (List Log.Record) m)

namespace BuildArtifacts

def dictionaryText (a : BuildArtifacts) : String :=
  a.dictionary.render a.dictType a.counter a.buildId

/-- The text files that are due. -/
def textFiles (a : BuildArtifacts) (paths : OutputPaths) : List (String × String) :=
  match a.buildType with
  | .fuzzing => if a.dictionary.isEmpty then [] else [(paths.dictionary, a.dictionaryText)]
  | .coverage =>
    match paths.sourceMap, a.sourceMap with
    | some path, some lines => if lines.isEmpty then [] else [(path, lines.render)]
    | _, _ => []

/-- The files that are due, in the order they are written in. -/
def dueFiles (a : BuildArtifacts) (paths : OutputPaths) : List (String × List UInt8) :=
  [(paths.mapSize, leBytes 4 (UInt64.ofNat a.mapSize)),
    (paths.blockCount, leBytes 4 (UInt64.ofNat a.blockCount)),
    (paths.buildId, leBytes 8 a.buildId)] ++
    (a.textFiles paths).map fun file => (file.1, file.2.toUTF8.toList)

variable {m : Type → Type} [Monad m] (files : FileAccess m)

def note (record : Log.Record) : FileWork m Unit :=
  modify fun records => records ++ [record]

/-- Refuses to go on if one of some files is there. -/
def refusePresent : List (String × List UInt8) → FileWork m Unit
  | [] => return ()
  | file :: rest => do
    if ← (files.isPresent file.1 : m Bool) then throw (.present file.1)
    refusePresent rest

/-- Removes a dictionary that is there from before. -/
def removeStale (path : String) : FileWork m Unit := do
  match ← (files.remove path : m (Except FileError Unit)) with
  | .ok () => note { level := .debug, message := "Removed stale dictionary " ++ path }
  | .error e => if e.kind == .notFound then return () else throw (.failed .delete path e)

def createFile (file : String × List UInt8) : FileWork m Unit := do
  match ← (files.create file.1 file.2 : m (Except FileError Unit)) with
  | .ok () => return ()
  | .error e =>
    if e.kind == .alreadyExists then throw (.present file.1)
    else throw (.failed .create file.1 e)

def write (a : BuildArtifacts) (paths : OutputPaths) : FileWork m Unit := do
  let due := a.dueFiles paths
  refusePresent files due
  if a.buildType == .coverage then removeStale files paths.dictionary
  due.forM (createFile files)
  if a.buildType == .fuzzing && !a.dictionary.isEmpty then
    note {
      level := .info
      message := "Created " ++ toString (a.dictionary.entries a.dictType).length ++
        " entries in dictionary" }

end BuildArtifacts

end EdgeProbe
