import Std.Data.TreeMap
import EdgeProbe.Code.Function

/-!
# Edges and places of the flow graph

An edge is a successor of the terminator of a live block. Two edges may lead from one block to
another, and lists of predecessors have an entry for each edge, in layout order. Blocks begin with
their phis, which a landing pad may follow. `users` lists what reads an instruction, in layout order.
-/

namespace EdgeProbe

/-! ## Edges -/

abbrev PredecessorMap := Std.TreeMap BlockId (List BlockId)

namespace Function

def successors (f : Function) (id : BlockId) : Checked (List BlockId) :=
  (f.block id).map fun b => b.term.successors

/-- The sources, among some blocks, of the edges into a block. -/
def edgesInto (f : Function) (target : BlockId) : List BlockId → Checked (List BlockId)
  | [] => return []
  | source :: rest => do
    let here := (← f.successors source).filter (· == target)
    return here.map (fun _ => source) ++ (← f.edgesInto target rest)

def predecessors (f : Function) (target : BlockId) : Checked (List BlockId) :=
  f.edgesInto target f.layout

def addEdges (source : BlockId) (targets : List BlockId) (found : PredecessorMap) :
    PredecessorMap :=
  targets.foldl (fun found target => found.insert target (found.getD target [] ++ [source])) found

/-- The predecessors of every block that has any, from one walk. -/
def predecessorMap (f : Function) : Checked PredecessorMap :=
  f.layout.foldlM (fun found source => return addEdges source (← f.successors source) found) ∅

/-- Looks for a source beside the one found so far, and stops when there is one. -/
def soleEdgeInto (f : Function) (target : BlockId) :
    Option BlockId → List BlockId → Checked (Option BlockId)
  | found, [] => return found
  | found, source :: rest => do
    match (← f.successors source).count target, found with
    | 0, found => f.soleEdgeInto target found rest
    | 1, none => f.soleEdgeInto target (some source) rest
    | _, _ => return none

/-- The predecessor of a block that exactly one edge enters. -/
def singlePredecessor? (f : Function) (target : BlockId) : Checked (Option BlockId) :=
  f.soleEdgeInto target none f.layout

end Function

/-! ## Where instructions stand and who reads them -/

/-- Something that reads a value. -/
inductive User where
  | inst (id : InstId)
  | term (block : BlockId)
  deriving DecidableEq, Inhabited

namespace Function

/-- The instructions in front of the first one whose kind is not as asked. -/
def leading (f : Function) (holds : InstKind → Bool) : List InstId → Checked (List InstId)
  | [] => return []
  | id :: rest => do
    if holds (← f.kind id) then return id :: (← f.leading holds rest) else return []

def firstWith? (f : Function) (holds : InstKind → Bool) : List InstId → Checked (Option InstId)
  | [] => return none
  | id :: rest => do
    if holds (← f.kind id) then return some id else f.firstWith? holds rest

def phis (f : Function) (id : BlockId) : Checked (List InstId) := do
  f.leading InstKind.isPhi (← f.block id).insts

/-- The first instruction that is not a phi is a landing pad. -/
def isLandingPad (f : Function) (id : BlockId) : Checked Bool := do
  match ← f.firstWith? (!·.isPhi) (← f.block id).insts with
  | some inst => return (← f.kind inst).isLandingPad
  | none => return false

def landingPadInst? (f : Function) (id : BlockId) : Checked (Option InstId) := do
  f.firstWith? InstKind.isLandingPad (← f.block id).insts

/-- The first position after the phis and the landing pad. -/
def firstInsertionPoint (f : Function) (id : BlockId) : Checked Nat := do
  return (← f.leading (fun kind => kind.isPhi || kind.isLandingPad) (← f.block id).insts).length

/-- The block an instruction belongs to and its place there. -/
def position? (f : Function) (id : InstId) : Checked (Option (BlockId × Nat)) := do
  match (← f.inst id).block with
  | none => return none
  | some block => return ((← f.block block).insts.idxOf? id).map fun pos => (block, pos)

/-- The readers of a value among instructions. -/
def readersAmong (f : Function) (value : Value) : List InstId → Checked (List InstId)
  | [] => return []
  | id :: rest => do
    let reads := (← f.kind id).operands.contains value
    let readers ← f.readersAmong value rest
    return if reads then id :: readers else readers

/-- The readers of a value in a block and at its end. -/
def usersIn (f : Function) (value : Value) (id : BlockId) : Checked (List User) := do
  let b ← f.block id
  let readers := (← f.readersAmong value b.insts).map User.inst
  return if b.term.operands.contains value then readers ++ [.term id] else readers

def users (f : Function) (id : InstId) : Checked (List User) := do
  return (← f.layout.mapM (f.usersIn (.inst id))).flatten

def instUsers (f : Function) (id : InstId) : Checked (List InstId) := do
  return (← f.users id).filterMap fun
    | .inst id => some id
    | .term _ => none

end Function

end EdgeProbe
