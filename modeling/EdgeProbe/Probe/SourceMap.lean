import EdgeProbe.Code.Module
import EdgeProbe.Code.Symbol
import EdgeProbe.Sorted.Set

/-!
# From probes back to lines

Coverage builds note for each probe the lines of the blocks it stands for.
-/

namespace EdgeProbe

/-- The lines by identifier, in ascending order. -/
structure SourceMap where
  lines : List (Nat × String) := []
  deriving DecidableEq, Inhabited

namespace SourceMap

def get? (s : SourceMap) (id : Nat) : Option String :=
  s.lines.lookup id

def size (s : SourceMap) : Nat :=
  s.lines.length

def isEmpty (s : SourceMap) : Bool :=
  s.lines.isEmpty

def render (s : SourceMap) : String :=
  String.join (s.lines.map fun line => toString line.1 ++ "=" ++ line.2 ++ "\n")

end SourceMap

namespace Module

variable (m : Module) (f : Function)

/-- The instruction was in the program: it calls neither an intrinsic nor what probes call. -/
def isProgram (kind : InstKind) : Checked Bool := do
  match kind with
  | .call (.direct id) _ _ =>
    let callee ← m.function id
    return !callee.isIntrinsic && !Text.startsWith callee.name Symbol.start
  | _ => return true

/-- The line of an instruction, if it has one that counts. -/
def lineAt (id : InstId) : Checked (List String) := do
  let inst ← f.inst id
  if ← m.isProgram inst.kind then
    return (inst.loc.map fun loc => loc.file ++ ":" ++ toString loc.line).toList
  else return []

/-- The lines of a block, in order and without repetition. -/
def blockSourceLines (block : BlockId) : Checked (List String) := do
  let lines ← (← f.block block).insts.mapM (m.lineAt f)
  return (SortedSet.ofList lines.flatten).members

def sourceLines (blocks : List BlockId) : Checked String := do
  return String.intercalate "," (← blocks.mapM (m.blockSourceLines f)).flatten

end Module

end EdgeProbe
