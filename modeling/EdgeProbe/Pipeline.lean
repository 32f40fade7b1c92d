import EdgeProbe.Lowering.Compare
import EdgeProbe.Lowering.Select
import EdgeProbe.Lowering.StringCompare
import EdgeProbe.Probe.Instrument
import EdgeProbe.Validity.Verify

/-!
# The whole way of a module

Literals are harvested, selections lowered, comparisons taken apart and edges instrumented, in this
order, and the module is checked before the first stage and after each one.
-/

namespace EdgeProbe

inductive Stage where
  | input | harvesting | selects | compares | strings | edges
  deriving DecidableEq, Inhabited

namespace Stage

def text : Stage → String
  | input => "input"
  | harvesting => "literal harvesting"
  | selects => "select lowering"
  | compares => "integer comparison splitting"
  | strings => "string comparison splitting"
  | edges => "edge instrumentation"

/-- The name at the beginning of a sentence. -/
def title : Stage → String
  | input => "Input"
  | harvesting => "Literal harvesting"
  | selects => "Select lowering"
  | compares => "Integer comparison splitting"
  | strings => "String comparison splitting"
  | edges => "Edge instrumentation"

end Stage

/-- Where on its way a module was refused. -/
inductive Place where
  | settings
  | within (stage : Stage)
  | after (stage : Stage)
  deriving DecidableEq, Inhabited

/-- Why a module was refused. -/
structure Refusal where
  place : Place
  cause : Fatal
  deriving DecidableEq, Inhabited

def Refusal.message (r : Refusal) : String :=
  match r.place with
  | .settings => r.cause.message
  | .within stage => stage.title ++ " failed: " ++ r.cause.message
  | .after stage => "Invalid IR after " ++ stage.text ++ ": " ++ r.cause.message

abbrev Pipeline := ExceptT Refusal (StateT PassState Checked)

structure PipelineStats where
  harvest : HarvestStats := {}
  selects : Nat := 0
  compares : CompareStats := {}
  strings : StringStats := {}
  probes : Nat := 0
  deriving DecidableEq, Inhabited

/-- What the fuzzer needs to know about an instrumented program. -/
structure BuildArtifacts where
  /-- The size of the coverage map that has to be provided. -/
  mapSize : Nat
  blockCount : Nat
  buildId : UInt64
  buildType : BuildType
  dictType : DictType
  counter : CounterMode
  dictionary : Dictionary
  sourceMap : Option SourceMap
  stats : PipelineStats := {}
  deriving DecidableEq, Inhabited

namespace Pipeline

/-- Runs a pass, and says where it was if it is refused. -/
def runPass {α : Type} (place : Place) (pass : Pass α) : Pipeline α :=
  pass.adapt fun cause => ⟨place, cause⟩

def verifyModule : Pass Unit := do
  match ← Pass.query fun m => m.verify.run with
  | .ok () => return ()
  | .error cause => throw cause

def check (stage : Stage) : Pipeline Unit :=
  runPass (.after stage) verifyModule

/-- Settings that cannot be met are refused before anything else. -/
def checkSettings (config : Config) : Pass Unit :=
  match config.mapSize with
  | .ok _ => return ()
  | .error cause => throw cause

/-- Selections are lowered only where comparisons are taken apart. -/
def lowerSelects (config : Config) : Pipeline Nat := do
  if config.convert == .none then return 0
  let count ← runPass (.within .selects) Pass.lowerSelects
  check .selects
  return count

def doneRecord (module : String) (dictionary : Dictionary) (buildId : UInt64) : Log.Record :=
  { level := .debug
    message := "Pipeline done"
    pairs := [("module", module), ("dictionary", toString dictionary.size),
      ("build_id", String.ofList (Text.hexPadded 16 buildId.toNat))] }

/-- Takes a module all the way. `drawn` is the seed of runs whose settings do not give one. -/
def run (config : Config) (drawn : UInt64) : Pipeline BuildArtifacts := do
  runPass .settings (checkSettings config)
  check .input
  let harvest ← runPass (.within .harvesting) (Pass.harvest config)
  check .harvesting
  let selects ← lowerSelects config
  let compares ← runPass (.within .compares) (Pass.splitCompares config)
  check .compares
  let strings ← runPass (.within .strings) (Pass.splitStrings config)
  check .strings
  let report ← runPass (.within .edges) (Pass.instrumentEdges config drawn)
  check .edges
  let name := (← get).module.name
  runPass .settings (Pass.report (doneRecord name report.dictionary report.buildId))
  return {
    mapSize := report.areaSize
    blockCount := report.blockCount
    buildId := report.buildId
    buildType := config.buildType
    dictType := config.dictType
    counter := config.counter
    dictionary := report.dictionary
    sourceMap := report.sourceMap
    stats := { harvest, selects, compares, strings, probes := report.probes } }

end Pipeline

end EdgeProbe
