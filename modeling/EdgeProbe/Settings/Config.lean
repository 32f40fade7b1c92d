import EdgeProbe.Word

/-!
# Settings of a run

Everything a pass may ask about the run it belongs to. Fuzzing and coverage builds start from
different settings, and three derived questions (`denseIds`, `tracesIds`, `mapSize?`) decide what
probes look like.
-/

namespace EdgeProbe

inductive BuildType where
  | fuzzing | coverage
  deriving DecidableEq, Inhabited

def BuildType.text : BuildType → String
  | .fuzzing => "FUZZING"
  | .coverage => "COVERAGE"

/-- Which records of the dictionary are written. -/
inductive DictType where
  /-- One for each distinct token. -/
  | normal
  /-- One for each token and probe it is seen through. -/
  | optimized
  deriving DecidableEq, Inhabited

def DictType.text : DictType → String
  | .normal => "NORMAL"
  | .optimized => "OPTIMIZED"

/-- Which comparisons are taken apart. -/
inductive ConvertMode where
  | all
  | none
  /-- All but those whose constant went to the dictionary. -/
  | notDict
  deriving DecidableEq, Inhabited

def ConvertMode.text : ConvertMode → String
  | .all => "ALL"
  | .none => "NONE"
  | .notDict => "NOT_DICT"

/-- How a probe finds its place in the coverage map. -/
inductive CounterMode where
  /-- Random slots, mixed with the slot of the probe before: collisions are tolerated. -/
  | classic
  /-- The identifier itself. -/
  | noCollision
  deriving DecidableEq, Inhabited

def CounterMode.text : CounterMode → String
  | .classic => "ORIGINAL"
  | .noCollision => "NO_COLLISION"

structure Hardening where
  harden : Bool := false
  asan : Bool := false
  msan : Bool := false
  deriving DecidableEq, Inhabited

def Hardening.text (h : Hardening) : String :=
  if h.harden then "hardened" else if h.asan || h.msan then "ASAN/MSAN" else "non-hardened"

structure Limits where
  /-- Tokens of one class on one instruction. -/
  maxFanOut : Nat := 20
  minTokenLen : Nat := 3
  maxTokenLen : Nat := 32
  /-- Bytes that a comparison call may be unrolled to. -/
  maxUnrollLen : Nat := 4096
  deriving DecidableEq, Inhabited

/-- The size of the coverage map in bytes when none is asked for. -/
def defaultMapSize : Nat := 65536

/-- The largest coverage map in bytes, which coverage builds always use. -/
def largestMapSize : Nat := 4194303

/-- The largest coverage map that can be asked for, in KiB. -/
def largestMapSizeKib : Nat := 4095

/-- The seed that keeps the identifiers of coverage builds the same from build to build: the
letters `cove`, the first one lowest. -/
def coverageSeed : UInt64 := 1702260579

structure Config where
  buildType : BuildType
  dictType : DictType
  convert : ConvertMode
  counter : CounterMode := .classic
  mapSizeKib : Option Nat := none
  quiet : Bool := false
  /-- Callees whose string arguments are of no interest. -/
  ignoreStringsTo : List String := []
  hardening : Hardening := {}
  limits : Limits := {}
  seed : Option UInt64 := none
  deriving DecidableEq, Inhabited

namespace Config

def fuzzing (dictType : DictType) (convert : ConvertMode) : Config :=
  { buildType := .fuzzing, dictType, convert }

def coverage (convert : ConvertMode) : Config :=
  { buildType := .coverage, dictType := .normal, convert, seed := some coverageSeed }

def isCoverage (config : Config) : Bool :=
  config.buildType == .coverage

/-- Map slots are the identifiers themselves. Coverage builds need it to lead back from a slot to
its edge. -/
def denseIds (config : Config) : Bool :=
  config.isCoverage || config.counter == .noCollision

/-- Probes also report their identifier to the trace hook. -/
def tracesIds (config : Config) : Bool :=
  config.isCoverage || config.dictType == .optimized

/-- The size of the coverage map in bytes. A size that is too large is refused in coverage builds
too, which have no other use for it. -/
def mapSize? (config : Config) : Except Nat Nat :=
  let requested := config.mapSizeKib.getD 0
  if largestMapSizeKib < requested then .error requested
  else if config.isCoverage then .ok largestMapSize
  else if requested = 0 then .ok defaultMapSize
  else .ok (requested * 1024)

end Config

end EdgeProbe
