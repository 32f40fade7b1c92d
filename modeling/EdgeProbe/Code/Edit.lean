import EdgeProbe.Flow.Edges

/-!
# Editing functions

The steps that all changes of code are made of. Each keeps the records of a function in agreement:
which block lists an instruction, and from which blocks the phis of a successor are entered.
-/

namespace EdgeProbe

namespace Function

/-- A new block that is not in the layout yet. -/
def allocBlock (f : Function) (name : String) : Function × BlockId :=
  ({ f with blocks := f.blocks.push ⟨name, [], .unreachable⟩ }, ⟨f.blocks.size⟩)

def insertLayout (f : Function) (pos : Nat) (id : BlockId) : Function :=
  { f with layout := f.layout.insertIdx pos id }

/-- Adds a block right after another one, or at the end of the layout. -/
def addBlock (f : Function) (name : String) (after : Option BlockId) : Function × BlockId :=
  let pos := ((after.bind (f.layout.idxOf? ·)).map (· + 1)).getD f.layout.length
  let (f, id) := f.allocBlock name
  (f.insertLayout pos id, id)

/-- Adds a block right before another one, or at the end of the layout. -/
def addBlockBefore (f : Function) (name : String) (before : BlockId) : Function × BlockId :=
  let pos := (f.layout.idxOf? before).getD f.layout.length
  let (f, id) := f.allocBlock name
  (f.insertLayout pos id, id)

/-- Adds an instruction to a block at a position, or at its end when it is not that long. -/
def insertInst (f : Function) (block : BlockId) (pos : Nat) (kind : InstKind) (name : String)
    (loc : Option DebugLoc) : Checked (Function × InstId) := do
  let id : InstId := ⟨f.insts.size⟩
  let f := { f with insts := f.insts.push { kind, name, loc, block := some block } }
  let f ← f.modifyBlock block fun b =>
    { b with insts := b.insts.insertIdx (min pos b.insts.length) id }
  return (f, id)

/-- Adds an instruction at the end of a block. -/
def pushInst (f : Function) (block : BlockId) (kind : InstKind) (name : String)
    (loc : Option DebugLoc) : Checked (Function × InstId) := do
  f.insertInst block (← f.block block).insts.length kind name loc

def setTerminator (f : Function) (block : BlockId) (term : Terminator) : Checked Function :=
  f.modifyBlock block fun b => { b with term }

/-- Changes an instruction in place, so that all its uses now read the new one. -/
def replaceKind (f : Function) (id : InstId) (kind : InstKind) : Checked Function :=
  f.modifyInst id fun i => { i with kind }

def redirectSuccessor (f : Function) (block : BlockId) (index : Nat) (target : BlockId) :
    Checked Function :=
  f.modifyBlock block fun b => { b with term := b.term.setSuccessor index target }

end Function

namespace InstKind

/-- Renames a source of a phi. -/
def renameIncoming (source target : BlockId) : InstKind → InstKind
  | .phi ty incoming =>
    .phi ty (incoming.map fun entry =>
      if entry.2 == source then (entry.1, target) else entry)
  | kind => kind

end InstKind

namespace Function

/-- Renames a source in the phis of a block. -/
def replacePhiIncomingBlock (f : Function) (block source target : BlockId) : Checked Function := do
  (← f.phis block).foldlM (fun f phi =>
    f.modifyInst phi fun i => { i with kind := i.kind.renameIncoming source target }) f

/-- Makes a block the owner of instructions. -/
def ownInsts (f : Function) (block : BlockId) (ids : List InstId) : Checked Function :=
  ids.foldlM (fun f id => f.modifyInst id fun i => { i with block := some block }) f

/-- Moves the instructions of a block from a position on, and its terminator, to a new block right
after it, to which the old one now branches. -/
def splitBlock (f : Function) (block : BlockId) (pos : Nat) (name : String) :
    Checked (Function × BlockId) := do
  let (f, tail) := f.addBlock name (some block)
  let b ← f.block block
  let f ← f.ownInsts tail (b.insts.drop pos)
  let f ← f.modifyBlock block fun b => { b with insts := b.insts.take pos, term := .br tail }
  let f ← f.modifyBlock tail fun t => { t with insts := b.insts.drop pos, term := b.term }
  let f ← b.term.successors.foldlM (fun f succ => f.replacePhiIncomingBlock succ block tail) f
  return (f, tail)

end Function

end EdgeProbe
