import EdgeProbe.Failure
import EdgeProbe.Text.Scan

/-!
# Settings from variables

`Config.ofVariables` reads the settings of a run from named variables, wherever these come from.
Three of them choose among names and must be set; of the others some hold values and some count by
being set at all.
-/

namespace EdgeProbe

/-- The values of the variables that are set. -/
abbrev Variables := String → Option String

/-- A variable that must hold one of several names. -/
def chooseAmong {α : Type} (vars : Variables) (setting expected : String)
    (table : List (String × α)) : Except Fatal α :=
  match vars setting with
  | none => .error (.missingSelection setting expected)
  | some value =>
    match table.lookup value with
    | some choice => .ok choice
    | none => .error (.invalidSelection setting value expected)

/-- A decimal number of at most 64 bits, perhaps with a plus sign. -/
def decimalWord? (cs : List Char) : Option Nat :=
  let digits := if cs.head? == some '+' then cs.drop 1 else cs
  if digits.isEmpty || !digits.all Char.isDigit then none
  else
    let value := digits.foldl (fun n c => n * 10 + (c.toNat - '0'.toNat)) 0
    if value < UInt64.size then some value else none

/-- The names in a list parted by commas. -/
def namesIn (list : String) : List String :=
  let pieces := Text.splitAt (· == ',') list.toList
  ((pieces.map Text.trim).filter (!·.isEmpty)).map String.ofList

namespace Config

def ofVariables (vars : Variables) : Except Fatal Config := do
  let buildType ← chooseAmong vars "AFL_BUILD_TYPE" "COVERAGE,FUZZING"
    [("COVERAGE", BuildType.coverage), ("FUZZING", BuildType.fuzzing)]
  let convert ← chooseAmong vars "AFL_CONVERT_COMPARISON_TYPE" "NONE,ALL,NOT_DICT"
    [("NONE", ConvertMode.none), ("ALL", ConvertMode.all), ("NOT_DICT", ConvertMode.notDict)]
  let config ←
    match buildType with
    | .coverage => pure (coverage convert)
    | .fuzzing => do
      let dictType ← chooseAmong vars "AFL_DICT_TYPE" "NORMAL,OPTIMIZED"
        [("NORMAL", DictType.normal), ("OPTIMIZED", DictType.optimized)]
      pure (fuzzing dictType convert)
  let mapSizeKib ←
    match vars "AFL_MAP_SIZE" with
    | none => pure none
    | some value =>
      match decimalWord? (Text.trim value.toList) with
      | some kib => pure (some kib)
      | none => throw (.invalidMapSize value)
  let isSet := fun name => (vars name).isSome
  return { config with
    mapSizeKib
    counter := if isSet "AFL_NO_COLLISION" then .noCollision else config.counter
    quiet := isSet "AFL_QUIET"
    ignoreStringsTo := ((vars "AFL_IGNORE_STRINGS_TO").map namesIn).getD []
    hardening :=
      { harden := isSet "AFL_HARDEN", asan := isSet "AFL_USE_ASAN", msan := isSet "AFL_USE_MSAN" } }

/-- The size of the coverage map in bytes, or why it is refused. -/
def mapSize (config : Config) : Except Fatal Nat :=
  match config.mapSize? with
  | .ok size => .ok size
  | .error requested => .error (.mapSizeOverflow requested)

end Config

end EdgeProbe
