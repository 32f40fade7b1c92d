import EdgeProbe.Code.Function
import EdgeProbe.Text.Scan

/-!
# Where an instruction comes from

The fragment of a tag for a source location: the name of the file, with hyphens and dots replaced,
and the line.
-/

namespace EdgeProbe

/-- Hyphens become two underscores and dots one. -/
def tagChar (c : Char) : List Char :=
  if c == '-' then ['_', '_'] else if c == '.' then ['_'] else [c]

def DebugLoc.fragment (loc : DebugLoc) : String :=
  let file := (Text.fileName? loc.file).getD loc.file
  String.ofList (file.toList.flatMap tagChar) ++ "_" ++ toString loc.line

namespace Function

/-- The first location among instructions. -/
def firstLoc? (f : Function) : List InstId → Checked (Option DebugLoc)
  | [] => return none
  | id :: rest => do
    match (← f.inst id).loc with
    | some loc => return some loc
    | none => f.firstLoc? rest

/-- The location of an instruction or, if it has none, the first one in its block. -/
def nearestLoc? (f : Function) (id : InstId) : Checked (Option DebugLoc) := do
  let own ← f.inst id
  match own.loc, own.block with
  | some loc, _ => return some loc
  | none, some block => f.firstLoc? (← f.block block).insts
  | none, none => return none

def provenance (f : Function) (id : InstId) : Checked String := do
  match ← f.nearestLoc? id with
  | some loc => return loc.fragment
  | none => return "NDEBUG"

end Function

end EdgeProbe
