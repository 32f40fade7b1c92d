import EdgeProbe.Code.Inst
import EdgeProbe.Failure
import EdgeProbe.Text.Scan
import EdgeProbe.Token.Annotations

/-!
# Functions

A function owns an arena of blocks and an arena of instructions. Both only grow, so an index keeps
its meaning for good, and an instruction that is changed in place keeps all its uses. Which
blocks are live, and in which order, is the layout: a block outside it is dead.

Looking up an index is `Checked`: nothing is assumed of the names a function holds.
-/

namespace EdgeProbe

structure DebugLoc where
  file : String
  line : Nat
  deriving DecidableEq, Inhabited

structure Inst where
  kind : InstKind
  name : String := ""
  loc : Option DebugLoc := none
  /-- The block that lists the instruction. -/
  block : Option BlockId
  /-- Made by halving a wider comparison. -/
  split : Bool := false
  deriving DecidableEq, Inhabited

structure Block where
  name : String
  insts : List InstId
  term : Terminator
  deriving DecidableEq, Inhabited

structure Function where
  name : String
  params : List Ty
  ret : Ty
  conv : CallConv := .c
  blocks : Array Block := #[]
  layout : List BlockId := []
  insts : Array Inst := #[]
  annotations : Annotations := {}
  metadata : SortedMap String String := .empty
  deriving DecidableEq, Inhabited

namespace Function

def declare (name : String) (params : List Ty) (ret : Ty) : Function :=
  { name, params, ret }

def isDeclaration (f : Function) : Bool :=
  f.layout.isEmpty

/-- Intrinsics are operations of the machine in the form of calls. -/
def isIntrinsic (f : Function) : Bool :=
  Text.startsWith f.name "llvm."

def entryBlock? (f : Function) : Option BlockId :=
  f.layout.head?

def block (f : Function) (id : BlockId) : Checked Block :=
  match f.blocks[id.index]? with
  | some b => .ok b
  | none => .error (.danglingBlock id)

def inst (f : Function) (id : InstId) : Checked Inst :=
  match f.insts[id.index]? with
  | some i => .ok i
  | none => .error (.danglingInst id)

def kind (f : Function) (id : InstId) : Checked InstKind :=
  (f.inst id).map Inst.kind

def modifyBlock (f : Function) (id : BlockId) (change : Block → Block) : Checked Function :=
  if id.index < f.blocks.size then
    .ok { f with blocks := f.blocks.modify id.index change }
  else .error (.danglingBlock id)

def modifyInst (f : Function) (id : InstId) (change : Inst → Inst) : Checked Function :=
  if id.index < f.insts.size then
    .ok { f with insts := f.insts.modify id.index change }
  else .error (.danglingInst id)

def putMetadata (f : Function) (key value : String) : Function :=
  { f with metadata := f.metadata.put key value }

def metadata? (f : Function) (key : String) : Option String :=
  f.metadata.get? key

/-- The type of an operand, following at most `depth` instructions whose type is that of one of
their own operands. -/
def valueTypeWithin (f : Function) : Nat → Value → Checked Ty
  | depth, .inst id => do
    match ← f.kind id with
    | .phi ty _ | .load ty _ => return ty
    | .landingPad | .gep _ _ | .alloca _ => return .ptr
    | .icmp _ _ _ => return .i1
    | .cast _ _ width => return .int width
    | .store _ _ => return .void
    | .call _ _ ret => return ret
    | .binary _ operand _ | .select _ operand _ =>
      match depth with
      | 0 => throw (.cyclicType id)
      | depth + 1 => valueTypeWithin f depth operand
  | _, .arg index => return (f.params[index]?).getD .void
  | _, .const (.int width _) => return .int width
  | _, .const .null | _, .global _ | _, .func _ => return .ptr

/-- The type of an operand. A chain of instructions that does not come back to where it was is no
longer than there are instructions. -/
def valueType (f : Function) (value : Value) : Checked Ty :=
  f.valueTypeWithin f.insts.size value

def instType (f : Function) (id : InstId) : Checked Ty :=
  f.valueType (.inst id)

def intWidth? (f : Function) (value : Value) : Checked (Option Nat) :=
  (f.valueType value).map Ty.intWidth?

/-- Live instructions in layout order. -/
def liveInsts (f : Function) : Checked (List InstId) := do
  return (← f.layout.mapM fun id => do return (← f.block id).insts).flatten

end Function

end EdgeProbe
