import EdgeProbe.Pass

/-!
# Chains of blocks in the place of an instruction

A comparison is taken apart by splitting its block in front of it, putting a chain of blocks in
between, and turning the comparison itself into the phi that joins them, so that all its uses
follow. What is added is named after a common stem and has the location of the instruction.
-/

namespace EdgeProbe

structure Label where
  stem : String
  loc : Option DebugLoc

namespace Edit

/-- The label for what takes the place of an instruction. -/
def labelFor (stem : String) (id : InstId) : Edit Label := do
  return { stem, loc := (← query (·.inst id)).loc }

/-- Appends an instruction to a block. -/
def emit (l : Label) (block : BlockId) (kind : InstKind) (name : String) : Edit InstId :=
  pushInst block kind (l.stem ++ name) l.loc

def emitValue (l : Label) (block : BlockId) (kind : InstKind) (name : String) : Edit Value := do
  return .inst (← emit l block kind name)

def blockBefore (l : Label) (name : String) (before : BlockId) : Edit BlockId :=
  addBlockBefore (l.stem ++ name) before

/-- Splits the block of an instruction so that it leads a new one; yields both halves. -/
def splitAt (l : Label) (id : InstId) (name : String) : Edit (Option (BlockId × BlockId)) := do
  match ← query (·.position? id) with
  | none => return none
  | some (block, pos) =>
    let tail ← apply fun f => f.splitBlock block pos (l.stem ++ name)
    return some (block, tail)

end Edit

end EdgeProbe
