import EdgeProbe.Code.Value

/-!
# Flaws of a function

The ways in which a function can fail to be well-formed, each with what is said about it. Blocks
are cited by name, and also by index where the name may be a stranger's.
-/

namespace EdgeProbe

inductive Flaw where
  | unknownLayoutBlock (block : BlockId)
  | unknownInst (index : Nat) (name : String) (inst : InstId)
  | unknownSuccessor (index : Nat) (name : String) (target : BlockId)
  | unknownTerminatorOperand (index : Nat) (name : String)
  | unknownOperand (index : Nat)
  | unknownTokenInst (inst : InstId)
  | repeatedBlock
  | deadSuccessor (name : String) (target : BlockId)
  | unwindTarget (name : String)
  | latePhi (inst : InstId) (name : String)
  | phiSources (inst : InstId) (name : String) (sources predecessors : List BlockId)
  | lateLandingPad (name : String)
  | landingPadEdges (name : String)
  | comparedTypes (inst : InstId) (lhs rhs : Ty)
  | mixedTypes (inst : InstId) (lhs rhs : Ty)
  | callArity (callee : String) (given expected : Nat)
  | branchCondition (name : String)
  | staleParent (inst : InstId)
  | erasedUse (inst : InstId)
  | undominatedUse (inst : InstId) (name : String)
  deriving DecidableEq, Inhabited

def InstId.text (id : InstId) : String :=
  "%" ++ toString id.index

namespace Flaw

def message : Flaw → String
  | unknownLayoutBlock block => "layout lists unknown block " ++ block.text
  | unknownInst index name inst =>
    "block " ++ toString index ++ " (" ++ name ++ ") holds unknown instruction " ++ inst.text
  | unknownSuccessor index name target =>
    "block " ++ toString index ++ " (" ++ name ++ ") branches to unknown block " ++ target.text
  | unknownTerminatorOperand index name =>
    "terminator of block " ++ toString index ++ " (" ++ name ++ ") has an unknown operand"
  | unknownOperand index => "instruction %" ++ toString index ++ " has an unknown operand"
  | unknownTokenInst inst => "dictionary entry on unknown instruction " ++ inst.text
  | repeatedBlock => "block listed twice in layout"
  | deadSuccessor name target => name ++ " branches to a dead block " ++ target.text
  | unwindTarget name => "unwind target of " ++ name ++ " is not a landing pad"
  | latePhi inst name => "φ " ++ inst.text ++ " in " ++ name ++ " does not lead its block"
  | phiSources inst name sources predecessors =>
    "φ " ++ inst.text ++ " in " ++ name ++ " has incoming " ++ BlockId.listText sources ++
      ", predecessors are " ++ BlockId.listText predecessors
  | lateLandingPad name => "landing pad in " ++ name ++ " is not first"
  | landingPadEdges name => "landing pad " ++ name ++ " not entered through unwind edges"
  | comparedTypes inst lhs rhs =>
    "icmp " ++ inst.text ++ " compares " ++ lhs.structureText ++ " with " ++ rhs.structureText
  | mixedTypes inst lhs rhs =>
    "binary " ++ inst.text ++ " mixes " ++ lhs.structureText ++ " and " ++ rhs.structureText
  | callArity callee given expected =>
    "call to " ++ callee ++ " with " ++ toString given ++ " arguments, expected " ++
      toString expected
  | branchCondition name => "branch condition of " ++ name ++ " is not an i1"
  | staleParent inst => "instruction " ++ inst.text ++ " has a stale parent"
  | erasedUse inst => "use of erased instruction " ++ inst.text
  | undominatedUse inst name => inst.text ++ " does not dominate its use in " ++ name

end Flaw

end EdgeProbe
