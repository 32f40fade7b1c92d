import EdgeProbe.Flow.Dominators
import EdgeProbe.Validity.Shape

/-!
# Well-formed modules

`Module.verify` accepts a module whose functions are in static single assignment form: names stand
for something, live blocks lead to live blocks, blocks have their shape, and every value is computed
before it is used, on all paths. It stops at the first flaw.
-/

namespace EdgeProbe

/-- Where the live instructions stand. Of several places of one instruction the last counts. -/
abbrev Positions := Std.HashMap InstId (BlockId × Nat)

namespace Function

variable (f : Function)

/-- Checks that live blocks lead to live blocks and unwind to landing pads. -/
def checkSuccessors (block : BlockId) : Check Unit := do
  let b ← f.block block
  if let some target := b.term.successors.find? (!f.layout.contains ·) then
    throw (.deadSuccessor b.name target)
  if let .invoke _ _ _ unwind := b.term then
    if !(← f.isLandingPad unwind) then throw (.unwindTarget b.name)

/-- Notes the places of the instructions of a block, which have to own up to it. -/
def notePositions (positions : Positions) (block : BlockId) : Check Positions := do
  (← f.block block).insts.zipIdx.foldlM (fun positions (id, pos) => do
    if (← f.inst id).block != some block then throw (.staleParent id)
    return positions.insert id (block, pos)) positions

/-- Checks the use of an instruction in a block, at a position or at its end. Nothing is asked of
uses that no path leads to. -/
def checkUse (d : Dominators) (positions : Positions) (id : InstId) (block : BlockId)
    (pos : Option Nat) : Check Unit := do
  match positions[id]? with
  | none => throw (.erasedUse id)
  | some (home, place) =>
    if d.isReachable block then
      let precedes :=
        if home == block then (pos.map fun pos => decide (place < pos)).getD true
        else d.dominates home block
      if !precedes then throw (.undominatedUse id (← f.block block).name)

/-- Checks the operands of an instruction. A phi reads its operands at the end of the blocks they
come from. -/
def checkOperands (d : Dominators) (positions : Positions) (block : BlockId) (pos : Nat)
    (id : InstId) : Check Unit := do
  match ← f.kind id with
  | .phi _ incoming =>
    incoming.forM fun (value, source) => do
      if let .inst used := value then f.checkUse d positions used source none
  | kind =>
    kind.operands.forM fun value => do
      if let .inst used := value then f.checkUse d positions used block (some pos)

def checkBlockUses (d : Dominators) (positions : Positions) (block : BlockId) : Check Unit := do
  let b ← f.block block
  b.insts.zipIdx.forM fun (id, pos) => f.checkOperands d positions block pos id
  b.term.operands.forM fun value => do
    if let .inst used := value then f.checkUse d positions used block none

end Function

namespace Module

variable (m : Module) (f : Function)

def verifyFunction : Check Unit := do
  ExceptT.mk (.ok (m.checkNames f))
  if !decide f.layout.Nodup then throw .repeatedBlock
  f.layout.forM f.checkSuccessors
  let preds ← f.predecessorMap
  f.layout.forM fun block => m.checkBlockShape f block (preds.getD block [])
  let d ← Dominators.ofPredecessors f preds
  let positions ← f.layout.foldlM f.notePositions ∅
  f.layout.forM (f.checkBlockUses d positions)

/-- Checks the functions that have a body, and says what is wrong with the first that is not
well-formed. -/
def verifyFunctions : List Function → ExceptT Fatal Checked Unit
  | [] => return ()
  | f :: rest => do
    if !f.isDeclaration then
      match ← (m.verifyFunction f).run with
      | .ok () => pure ()
      | .error flaw => throw (.verification f.name flaw)
    verifyFunctions rest

def verify : ExceptT Fatal Checked Unit :=
  m.verifyFunctions m.functions.toList

end Module

end EdgeProbe
