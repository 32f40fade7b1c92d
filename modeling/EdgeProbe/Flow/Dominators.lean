import EdgeProbe.Flow.Edges

/-!
# Dominators

A block dominates another one if every path from the entry to that one leads through it.
`Dominators` holds, for each block that can be reached, the closest of the others that dominate it.
They are found by rounds over the blocks in reverse postorder: a block's closest dominator is where
the walks up from its predecessors meet, and rounds go on until one changes nothing.
-/

namespace EdgeProbe

/-- A block whose successors are being visited, and those still to come. -/
structure Visit where
  block : BlockId
  pending : List BlockId

namespace Function

/-- Goes on with a depth-first walk. `found` holds the blocks reached so far and `done` those whose
successors have all been visited, the last one first. -/
def walk (f : Function) : Nat → List Visit → Std.HashMap BlockId Unit → List BlockId →
    Checked (List BlockId)
  | _, [], _, done => return done
  | 0, _, _, done => return done
  | fuel + 1, ⟨block, []⟩ :: outer, found, done => f.walk fuel outer found (block :: done)
  | fuel + 1, ⟨block, succ :: pending⟩ :: outer, found, done =>
    if found.contains succ then f.walk fuel (⟨block, pending⟩ :: outer) found done
    else do
      let succs ← f.successors succ
      f.walk fuel (⟨succ, succs⟩ :: ⟨block, pending⟩ :: outer) (found.insert succ ()) done

/-- How many steps a walk can take: each block is left once and each edge is looked at once. -/
def walkBound (f : Function) : Nat :=
  f.blocks.foldl (fun n b => n + 1 + b.term.successors.length) 0

/-- The blocks that can be reached from the entry, in reverse postorder. -/
def reversePostorder (f : Function) : Checked (List BlockId) := do
  match f.entryBlock? with
  | none => return []
  | some entry =>
    let succs ← f.successors entry
    f.walk f.walkBound [⟨entry, succs⟩] (.ofList [(entry, ())]) []

end Function

structure Dominators where
  /-- The closest dominator other than the block itself; the entry is its own. -/
  parent : Std.HashMap BlockId BlockId
  /-- The place in reverse postorder. -/
  order : Std.HashMap BlockId Nat

namespace Dominators

/-- The block where the walks up from two blocks meet. The one that comes later in reverse
postorder takes the next step. -/
def meet (d : Dominators) : Nat → BlockId → BlockId → Checked BlockId
  | fuel, a, b =>
    if a == b then return a
    else
      match fuel, d.order[a]?, d.order[b]? with
      | fuel + 1, some m, some n =>
        if n < m then
          match d.parent[a]? with
          | some a => d.meet fuel a b
          | none => throw .endlessDominators
        else
          match d.parent[b]? with
          | some b => d.meet fuel a b
          | none => throw .endlessDominators
      | _, _, _ => throw .endlessDominators

/-- The meeting point of the walks up from those predecessors that have been reached. -/
def meetAll (d : Dominators) : Option BlockId → List BlockId → Checked (Option BlockId)
  | found, [] => return found
  | found, pred :: rest => do
    if d.parent.contains pred then
      match found with
      | none => d.meetAll (some pred) rest
      | some current => d.meetAll (some (← d.meet (2 * d.order.size) pred current)) rest
    else d.meetAll found rest

/-- Looks at the blocks in turn, and tells whether anything changed. -/
def round (preds : PredecessorMap) : List BlockId → Bool → Dominators → Checked (Dominators × Bool)
  | [], changed, d => return (d, changed)
  | block :: rest, changed, d => do
    match ← d.meetAll none (preds.getD block []) with
    | none => round preds rest changed d
    | some parent =>
      if d.parent[block]? == some parent then round preds rest changed d
      else round preds rest true { d with parent := d.parent.insert block parent }

def rounds (preds : PredecessorMap) (blocks : List BlockId) : Nat → Dominators → Checked Dominators
  | 0, _ => throw .endlessDominators
  | fuel + 1, d => do
    let (d, changed) ← round preds blocks false d
    if changed then rounds preds blocks fuel d else return d

/-- The dominators of a function with these predecessors. -/
def ofPredecessors (f : Function) (preds : PredecessorMap) : Checked Dominators := do
  let blocks ← f.reversePostorder
  let order := Std.HashMap.ofList blocks.zipIdx
  match blocks with
  | [] => return ⟨∅, order⟩
  | entry :: rest =>
    let bound := (blocks.length + 1) * (blocks.length + 1)
    rounds preds rest bound ⟨.ofList [(entry, entry)], order⟩

def ofFunction (f : Function) : Checked Dominators := do
  ofPredecessors f (← f.predecessorMap)

def isReachable (d : Dominators) (block : BlockId) : Bool :=
  d.order.contains block

/-- The first block is met on the walk up from the second. -/
def isAbove (d : Dominators) (a : BlockId) : Nat → BlockId → Bool
  | fuel, b =>
    a == b ||
      match fuel, d.parent[b]? with
      | fuel + 1, some parent => parent != b && d.isAbove a fuel parent
      | _, _ => false

def dominates (d : Dominators) (a b : BlockId) : Bool :=
  d.isReachable a && d.isReachable b && d.isAbove a d.order.size b

end Dominators

end EdgeProbe
