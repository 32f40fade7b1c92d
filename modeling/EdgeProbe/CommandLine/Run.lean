import EdgeProbe.Artifact.Write
import EdgeProbe.CommandLine.Arguments
import EdgeProbe.Interchange.Module

/-!
# The command

Reads a module, instruments it, and writes the artifacts and then the module. The settings come from
variables. Whatever file system there is, the run is the same.
-/

namespace EdgeProbe

/-- What keeps the command from doing its work. -/
inductive CommandError where
  | settings (cause : Fatal)
  | unreadable (path : String) (error : FileError)
  | unparsable (path : String)
  | outputPaths (cause : Fatal)
  | refused (refusal : Refusal)
  | notWritten (error : WriteError)
  | unwritable (path : String) (error : FileError)
  deriving DecidableEq, Inhabited

def CommandError.message : CommandError → String
  | settings cause => cause.message
  | unreadable path error => "Cannot read " ++ path ++ ": " ++ error.text
  | unparsable path => "Cannot parse module " ++ path ++ ": not a module"
  | outputPaths cause => cause.message
  | refused refusal => refusal.message
  | notWritten error => error.message
  | unwritable path error => "Cannot write " ++ path ++ ": " ++ error.text

/-- How a command ended, with all that it reported. -/
inductive CommandResult where
  | done
  | failed (error : CommandError)
  | fault (cause : Fault)
  deriving DecidableEq, Inhabited

def CommandResult.exitCode : CommandResult → UInt32
  | .done => 0
  | .failed _ => 1
  | .fault _ => 101

structure CommandReport where
  records : List Log.Record
  result : CommandResult
  deriving DecidableEq, Inhabited

/-- What the command says last. -/
def CommandReport.lastWords (r : CommandReport) : List Log.Record :=
  match r.result with
  | .done => []
  | .failed error => [{ level := .error, message := error.message }]
  | .fault _ => [{ level := .error, message := "violated assumption" }]

/-- All that the command says, as it is shown. -/
def CommandReport.text (r : CommandReport) (quiet verbose : Bool) : String :=
  (Log.Verbosity.of quiet verbose).text (r.records ++ r.lastWords)

namespace Command

/-- The variables that a run looks at. -/
def variableNames : List String :=
  ["AFL_BUILD_TYPE", "AFL_CONVERT_COMPARISON_TYPE", "AFL_DICT_TYPE", "AFL_MAP_SIZE",
    "AFL_NO_COLLISION", "AFL_QUIET", "AFL_IGNORE_STRINGS_TO", "AFL_HARDEN", "AFL_USE_ASAN",
    "AFL_USE_MSAN", "AFL_BCCLANG_MAP_FILE", "AFL_BCCLANG_BBMAP_FILE", "AFL_BCCLANG_BUILD_ID",
    "AFL_BCCLANG_DICT_FILE", "AFL_BCCLANG_COVERAGE_TO_SRC_FILE"]

variable {m : Type → Type} [Monad m] (files : FileAccess m)

/-- The settings of a command, whose own seed comes first. -/
def config (c : Command) (vars : Variables) : Except Fatal Config :=
  (Config.ofVariables vars).map fun config =>
    { config with seed := c.seed.or config.seed }

def outputPaths (c : Command) (config : Config) (vars : Variables) :
    Except Fatal OutputPaths :=
  match c.artifactsDir with
  | some dir => .ok (.inDirectory dir config.buildType)
  | none => OutputPaths.ofVariables config.buildType vars

def wroteRecord (path : String) (a : BuildArtifacts) : Log.Record :=
  { level := .info
    message := "Wrote " ++ path
    pairs := [("map_size", toString a.mapSize),
      ("build_id", String.ofList (Text.hexPadded 16 a.buildId.toNat))] }

/-- Writes the artifacts and then the module. -/
def writeAll (c : Command) (a : BuildArtifacts) (paths : OutputPaths) (module : Module)
    (records : List Log.Record) : m CommandReport := do
  let (written, notes) ← (a.write files paths).run.run []
  let records := records ++ notes
  match written with
  | .error error => return ⟨records, .failed (.notWritten error)⟩
  | .ok () =>
    match ← files.overwrite c.output module.render.toUTF8.toList with
    | .error error => return ⟨records, .failed (.unwritable c.output error)⟩
    | .ok () => return ⟨records ++ [wroteRecord c.output a], .done⟩

/-- Instruments a module that has been read. -/
def runOn (c : Command) (config : Config) (drawn : UInt64) (paths : OutputPaths)
    (module : Module) : m CommandReport := do
  match Pipeline.run config drawn { module } with
  | .ok (.ok a, s) => c.writeAll files a paths s.module s.log.reverse
  | .ok (.error refusal, s) => return ⟨s.log.reverse, .failed (.refused refusal)⟩
  | .error cause => return ⟨[], .fault cause⟩

/-- Runs the command. `drawn` is the seed to use when neither the command nor the settings give
one. -/
def run (c : Command) (vars : Variables) (drawn : UInt64) : m CommandReport := do
  match c.config vars with
  | .error cause => return ⟨[], .failed (.settings cause)⟩
  | .ok config =>
    match ← files.readText c.input with
    | .error error => return ⟨[], .failed (.unreadable c.input error)⟩
    | .ok text =>
      match Module.parse? text with
      | none => return ⟨[], .failed (.unparsable c.input)⟩
      | some module =>
        match c.outputPaths config vars with
        | .error cause => return ⟨[], .failed (.outputPaths cause)⟩
        | .ok paths => c.runOn files config drawn paths module

end Command

end EdgeProbe
