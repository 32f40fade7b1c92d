import EdgeProbe.Code.Module
import EdgeProbe.Flow.Edges
import EdgeProbe.Text.Scan

/-!
# Calls that consume literals

Comparison calls, the instructions that lead to one, and the names of functions whose arguments
are of no interest.
-/

namespace EdgeProbe

/-- The functions that compare strings or memory. -/
def compareFunctions : List String :=
  ["strcmp", "strcasecmp", "strncmp", "strncasecmp", "memcmp"]

/-- Words in the names of functions whose strings are noise: logging, error reports and the
building of strings. -/
def deniedWords : List String :=
  ["assert", "abort", "err", "warn", "debug", "fatal", "strcat", "strncat", "strcpy", "strncpy",
    "append", "prepend", "strdup", "write", "print", "memcpy"]

/-- Further names of such functions. -/
def deniedNames : List String := ["puts", "fputs"]

/-- The strings passed to a function of this name are left alone. -/
def isDenied (name : String) (ignored : List String) : Bool :=
  deniedWords.any (Text.contains (Text.lowerCase name)) || deniedNames.contains name ||
    ignored.contains name

def InstKind.args : InstKind → List Value
  | .call _ args _ => args
  | _ => []

namespace Module

variable (m : Module) (f : Function)

/-- The function that an instruction calls by name and in the C convention. -/
def cCallee? (id : InstId) : Checked (Option String) := do
  match ← f.kind id with
  | .call (.direct target) _ _ =>
    let target ← m.function target
    return if target.conv == .c then some target.name else none
  | _ => return none

def isCompareCall (id : InstId) : Checked Bool := do
  match ← m.cCallee? f id with
  | some name => return compareFunctions.contains name
  | none => return false

/-- Adds those comparison calls among instructions that are not there yet. -/
def addCompareCalls : List InstId → List InstId → Checked (List InstId)
  | found, [] => return found
  | found, id :: rest => do
    if (← m.isCompareCall f id) && !found.contains id then addCompareCalls (found ++ [id]) rest
    else addCompareCalls found rest

/-- Goes over the readers of a value: a comparison call counts itself, any other instruction leads
to the comparison calls that read it. -/
def consumersAmong : List InstId → List InstId → Checked (List InstId)
  | found, [] => return found
  | found, user :: rest => do
    if ← m.isCompareCall f user then consumersAmong (found ++ [user]) rest
    else do
      let found ← m.addCompareCalls f found (← f.instUsers user)
      consumersAmong found rest

/-- The comparison calls that read a value themselves or through one more instruction. -/
def compareConsumers (value skip : InstId) : Checked (List InstId) := do
  m.consumersAmong f [] ((← f.instUsers value).filter (· != skip))

end Module

end EdgeProbe
