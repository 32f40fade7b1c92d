import EdgeProbe.Flow.Edges
import EdgeProbe.Pass

/-!
# Landing pads with one predecessor

A landing pad that several edges unwind to gets a copy for each of them. What followed the pad stays
in the old block, where a phi joins the values of the copies.
-/

namespace EdgeProbe

namespace Function

/-- The landing pads that more than one edge leads to. -/
def sharedLandingPads (f : Function) : Checked (List BlockId) := do
  let preds ← f.predecessorMap
  f.layout.filterM fun id => do
    if ← f.isLandingPad id then return 1 < (preds.getD id []).length else return false

/-- The block ends in an invocation that unwinds to the pad. -/
def unwindsTo (f : Function) (pad pred : BlockId) : Checked Bool := do
  match (← f.block pred).term with
  | .invoke _ _ _ unwind => return unwind == pad
  | _ => return false

/-- All blocks, up to the first that does not, unwind to the pad. -/
def allUnwind (f : Function) (pad : BlockId) : List BlockId → Checked Bool
  | [] => return true
  | pred :: rest => do
    if ← f.unwindsTo pad pred then f.allUnwind pad rest else return false

end Function

/-- Makes the exceptional edge lead elsewhere. -/
def Terminator.setUnwind (target : BlockId) : Terminator → Terminator
  | .invoke callee args normal _ => .invoke callee args normal target
  | term => term

namespace Edit

/-- Puts a copy of a pad on the edge from a predecessor, and yields its value. -/
def copyPad (pad : BlockId) (name valueName : String) (loc : Option DebugLoc) (n : Nat)
    (pred : BlockId) : Edit (Value × BlockId) := do
  let copy ← addBlockBefore (name ++ "." ++ toString n) pad
  let value ← pushInst copy .landingPad valueName loc
  setTerminator copy (.br pad)
  update fun f => f.modifyBlock pred fun b => { b with term := b.term.setUnwind copy }
  update fun f => f.replacePhiIncomingBlock pad pred copy
  return (.inst value, copy)

/-- Gives each predecessor of a pad its own copy. -/
def splitLandingPad (pad : BlockId) : Edit Unit := do
  let preds ← query (·.predecessors pad)
  let unwound ← query fun f => f.allUnwind pad preds
  let landing? ← query (·.landingPadInst? pad)
  match landing?, unwound with
  | some landing, true =>
    let name := (← query (·.block pad)).name
    let inst ← query (·.inst landing)
    let incoming ← preds.zipIdx.mapM fun (pred, n) =>
      copyPad pad name inst.name inst.loc (n + 1) pred
    replaceKind landing (.phi .ptr incoming)
  | _, _ => throw (.sharedLandingPad (← get).name pad preds.length)

/-- Splits the landing pads that are shared, and counts them. -/
def splitSharedLandingPads : Edit Nat := do
  let shared ← query Function.sharedLandingPads
  shared.forM splitLandingPad
  return shared.length

end Edit

end EdgeProbe
