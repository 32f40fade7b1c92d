import EdgeProbe.Code.Module
import EdgeProbe.Flow.Edges

/-!
# Names and the shape of a block

Every index in a function has to lie inside the arena it points into. The checks go over all blocks
and instructions, dead ones too, so that nothing that follows has to ask again. Phis come first and
have one entry for each predecessor. A landing pad follows them, and only exceptional edges lead to
its block. Operands have the types that their instruction asks for.
-/

namespace EdgeProbe

/-! ## Names that stand for something -/

namespace Function

def hasBlock (f : Function) (id : BlockId) : Bool :=
  id.index < f.blocks.size

def hasInst (f : Function) (id : InstId) : Bool :=
  id.index < f.insts.size

end Function

namespace Module

variable (m : Module) (f : Function)

def knowsValue : Value → Bool
  | .inst id => f.hasInst id
  | .arg index => index < f.params.length
  | .global id => id.index < m.globals.size
  | .func id => id.index < m.functions.size
  | .const _ => true

def knowsCallee : Callee → Bool
  | .direct id => id.index < m.functions.size
  | .indirect _ => true

/-- The callee of a terminator and the blocks of a phi are checked apart from the operands. -/
def knowsTerminator (term : Terminator) : Bool :=
  term.operands.all (m.knowsValue f) &&
    match term with
    | .invoke callee _ _ _ => m.knowsCallee callee
    | _ => true

def knowsKind (kind : InstKind) : Bool :=
  kind.operands.all (m.knowsValue f) &&
    match kind with
    | .phi _ incoming => incoming.all fun entry => f.hasBlock entry.2
    | .call callee _ _ => m.knowsCallee callee
    | _ => true

def checkBlockNames : Nat → List Block → Except Flaw Unit
  | _, [] => return ()
  | index, b :: rest => do
    if let some inst := b.insts.find? (!f.hasInst ·) then
      throw (.unknownInst index b.name inst)
    if let some target := b.term.successors.find? (!f.hasBlock ·) then
      throw (.unknownSuccessor index b.name target)
    if !m.knowsTerminator f b.term then
      throw (.unknownTerminatorOperand index b.name)
    checkBlockNames (index + 1) rest

def checkInstNames : Nat → List Inst → Except Flaw Unit
  | _, [] => return ()
  | index, i :: rest => do
    if !m.knowsKind f i.kind then
      throw (.unknownOperand index)
    checkInstNames (index + 1) rest

def checkNames : Except Flaw Unit := do
  if let some block := f.layout.find? (!f.hasBlock ·) then
    throw (.unknownLayoutBlock block)
  m.checkBlockNames f 0 f.blocks.toList
  m.checkInstNames f 0 f.insts.toList
  if let some (inst, _) := f.annotations.toList.find? fun entry => !f.hasInst entry.1 then
    throw (.unknownTokenInst inst)

end Module

/-! ## The shape of a block -/

/-- A check that finds a flaw or none. -/
abbrev Check := ExceptT Flaw Checked

def BlockId.sort (ids : List BlockId) : List BlockId :=
  ids.mergeSort fun a b => a.index ≤ b.index

/-- Of equal neighbours, one. -/
def BlockId.withoutRepeats : List BlockId → List BlockId
  | [] => []
  | id :: rest => if rest.head? == some id then withoutRepeats rest else id :: withoutRepeats rest

namespace Function

/-- An edge that leads to the block by unwinding only. -/
def unwindsOnlyTo (f : Function) (block pred : BlockId) : Checked Bool := do
  match (← f.block pred).term with
  | .invoke _ _ normal unwind => return unwind == block && normal != block
  | _ => return false

/-- Every predecessor, up to the first that does not, unwinds to the block. -/
def allUnwindTo (f : Function) (block : BlockId) : List BlockId → Checked Bool
  | [] => return true
  | pred :: rest => do
    if ← f.unwindsOnlyTo block pred then f.allUnwindTo block rest else return false

end Function

namespace Module

variable (m : Module) (f : Function)

/-- Checks an instruction at a position of a block, given how many phis lead the block, its
predecessors, and these without repetition. -/
def checkInstShape (block : BlockId) (name : String) (phiCount : Nat)
    (preds distinct : List BlockId) (pos : Nat) (id : InstId) : Check Unit := do
  match ← f.kind id with
  | .phi _ incoming =>
    if phiCount ≤ pos then throw (.latePhi id name)
    let sources := BlockId.sort (incoming.map (·.2))
    if sources != distinct then throw (.phiSources id name sources distinct)
  | .landingPad =>
    if pos != phiCount then throw (.lateLandingPad name)
    let unwound ← f.allUnwindTo block preds
    if preds.isEmpty || !unwound then throw (.landingPadEdges name)
  | .icmp _ lhs rhs =>
    let l ← f.valueType lhs
    let r ← f.valueType rhs
    if l != r then throw (.comparedTypes id l r)
  | .binary _ lhs rhs =>
    let l ← f.valueType lhs
    let r ← f.valueType rhs
    if l != r then throw (.mixedTypes id l r)
  | .call (.direct target) args _ =>
    let target ← m.function target
    if target.params.length != args.length then
      throw (.callArity target.name args.length target.params.length)
  | _ => return ()

def checkBlockShape (block : BlockId) (preds : List BlockId) : Check Unit := do
  let b ← f.block block
  let phiCount := (← f.phis block).length
  let distinct := BlockId.withoutRepeats (BlockId.sort preds)
  b.insts.zipIdx.forM fun (id, pos) =>
    m.checkInstShape f block b.name phiCount preds distinct pos id
  if let .condBr cond _ _ := b.term then
    if (← f.valueType cond) != .i1 then throw (.branchCondition b.name)

end Module

end EdgeProbe
