import EdgeProbe.Code.Module
import EdgeProbe.Code.Symbol
import EdgeProbe.Flow.Edges
import EdgeProbe.Text.Scan
import EdgeProbe.Token.Dictionary

/-!
# Where probes go

Every edge of a conditional branch or an invocation gets a probe, and so does, in fuzzing builds,
every edge out of a block that carries tokens. Functions that may be called through pointers get one
at their entry. Sites come in the order of functions and of their layout.
-/

namespace EdgeProbe

inductive ProbeSite where
  | entry (function : FuncId)
  /-- The edge with this number out of a block. -/
  | edge (function : FuncId) (block : BlockId) (index : Nat)
  deriving DecidableEq, Inhabited

namespace ProbeSite

def function : ProbeSite → FuncId
  | .entry function => function
  | .edge function _ _ => function

/-- The blocks whose tokens and lines a probe stands for: both ends of its edge. -/
def blocks (site : ProbeSite) (f : Function) : Checked (List BlockId) := do
  match site with
  | .entry _ => return f.entryBlock?.toList
  | .edge _ block index =>
    match (← f.successors block)[index]? with
    | some target => return if target == block then [block] else [block, target]
    | none => return [block]

end ProbeSite

/-- What selecting sites leads to, unless the module is not fit for it. -/
abbrev Selection := ExceptT Fatal Checked

namespace Function

/-- The edges out of a block get probes. -/
def wantsProbes (f : Function) (config : Config) (preds : PredecessorMap) (block : BlockId) :
    Selection Bool := do
  let annotated ← if config.isCoverage then pure false else f.blockHasTokens block
  match (← f.block block).term with
  | .switch _ _ _ => throw (.switchPresent f.name block)
  | .condBr _ _ _ => return true
  | .invoke _ _ _ unwind =>
    let count := (preds.getD unwind []).length
    if count != 1 then throw (.sharedLandingPad f.name unwind count)
    return true
  | .ret _ | .br _ | .resume _ | .unreachable => return annotated

/-- The sites among the edges out of blocks. -/
def edgeSites (f : Function) (config : Config) (id : FuncId) (preds : PredecessorMap) :
    List BlockId → Selection (List ProbeSite)
  | [] => return []
  | block :: rest => do
    let here ←
      if ← f.wantsProbes config preds block then do
        let count := (← f.successors block).length
        pure ((List.range count).map (ProbeSite.edge id block))
      else pure []
    return here ++ (← f.edgeSites config id preds rest)

/-- The sites of a function that has a body. -/
def probeSites (f : Function) (config : Config) (pointedTo : Option (List String)) (id : FuncId) :
    Selection (List ProbeSite) := do
  let preds ← f.predecessorMap
  let edges ← f.edgeSites config id preds f.layout
  return if pointedTo.any (·.contains f.name) then .entry id :: edges else edges

end Function

namespace Module

/-- The sites of some functions of a module. -/
def sitesAmong (m : Module) (config : Config) (pointedTo : Option (List String)) :
    List FuncId → Selection (List ProbeSite)
  | [] => return []
  | id :: rest => do
    let f ← m.function id
    let here ← if f.isDeclaration then pure [] else f.probeSites config pointedTo id
    return here ++ (← m.sitesAmong config pointedTo rest)

def probeSites (m : Module) (config : Config) (pointedTo : Option (List String)) :
    Selection (List ProbeSite) :=
  m.sitesAmong config pointedTo m.functionIds

/-- The functions that may be called through pointers, if that is known. -/
def pointedTo? (m : Module) : Checked (Option (List String)) := do
  match m.findFunction? "main" with
  | none => return none
  | some id =>
    match (← m.function id).metadata? Symbol.pointedToList with
    | none => return none
    | some list => return some ((Text.words list.toList).map String.ofList)

end Module

end EdgeProbe
