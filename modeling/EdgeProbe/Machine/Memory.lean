import EdgeProbe.Failure
import EdgeProbe.Text.Hex

/-!
# Memory of the reference machine

A flat run of bytes that only grows. Its first sixteen bytes are never handed out, so null and
what lies near it is not a valid address. What stands in for missing functions may keep something of
its own from call to call, which goes along with the bytes and has no address.
-/

namespace EdgeProbe

/-- Why a run ends without a result. -/
inductive Trap where
  | noSuchFunction (name : String)
  | unresolved (name : String)
  | outOfBounds (addr : UInt64) (len : Nat)
  | stepBudget
  | unreachable (function : String)
  | unwind (function : String)
  | missingIncoming (function : String) (phi : InstId) (source : BlockId)
  | readTooEarly (function : String) (inst : InstId)
  | latePhi (function : String) (phi : InstId)
  deriving DecidableEq, Inhabited

namespace Trap

def malformed (function reason : String) : String :=
  "malformed IR in " ++ function ++ ": " ++ reason

def message : Trap → String
  | noSuchFunction name => "no function named " ++ name
  | unresolved name => "call to " ++ name ++ ", which has no body and no handler"
  | outOfBounds addr len =>
    "out of bounds access of " ++ toString len ++ " bytes at 0x" ++
      String.ofList (Text.hex addr.toNat)
  | stepBudget => "step budget exhausted"
  | unreachable function => "reached unreachable in " ++ function
  | unwind function => "unwinding out of " ++ function ++ " is not supported"
  | missingIncoming function phi source =>
    malformed function ("φ " ++ phi.text ++ " has no entry for " ++ source.text)
  | readTooEarly function inst =>
    malformed function (inst.text ++ " read before it was computed")
  | latePhi function phi => malformed function ("φ " ++ phi.text ++ " after a non-φ instruction")

/-- The module, and not the program in it, is to blame. -/
def isMalformed : Trap → Bool
  | missingIncoming _ _ _ | readTooEarly _ _ | latePhi _ _ => true
  | _ => false

end Trap

/-- What keeps a run from going on: a trap of the program, or a violated assumption. -/
inductive Stop where
  | trap (cause : Trap)
  | fault (cause : Fault)
  deriving DecidableEq, Inhabited

structure Memory where
  bytes : Array UInt8
  /-- The words that the stand-ins for missing functions keep for themselves. -/
  kept : List UInt64 := []
  deriving DecidableEq, Inhabited

/-- Work on memory, which is left as it is when the work is done or stopped. -/
abbrev Access := EStateM Stop Memory

namespace Memory

/-- How many bytes at the start are never handed out. -/
def reserved : Nat := 16

/-- One more than the largest size that memory can have. -/
def sizeBound : Nat := addressBound

def empty : Memory where
  bytes := Array.replicate reserved 0

def size (m : Memory) : Nat :=
  m.bytes.size

/-- Appends zeros up to the next multiple of eight, where a fresh region begins, and the region, of
at least one byte. -/
def alloc (len : Nat) : Access UInt64 := fun m =>
  let start := roundUp m.size 8
  let stop := start + max len 1
  if stop < sizeBound then
    .ok (UInt64.ofNat start) { m with bytes := m.bytes ++ Array.replicate (stop - m.size) 0 }
  else .error (.fault (.outOfMemory stop)) m

/-- All of a range lies in memory that was handed out or may be padding. -/
def inBounds (m : Memory) (addr : UInt64) (len : Nat) : Bool :=
  reserved ≤ addr.toNat && addr.toNat + len ≤ m.size

def read (m : Memory) (addr : UInt64) (len : Nat) : Except Trap (Array UInt8) :=
  if m.inBounds addr len then .ok (m.bytes.extract addr.toNat (addr.toNat + len))
  else .error (.outOfBounds addr len)

/-- Replaces bytes from an index on. -/
def overwrite (bytes : Array UInt8) : Nat → List UInt8 → Array UInt8
  | _, [] => bytes
  | index, byte :: rest => overwrite (bytes.setIfInBounds index byte) (index + 1) rest

@[simp] theorem size_overwrite (bytes : Array UInt8) (index : Nat) (data : List UInt8) :
    (overwrite bytes index data).size = bytes.size := by
  induction data generalizing bytes index with
  | nil => rfl
  | cons byte rest ih => simp [overwrite, ih]

/-- Writes all the bytes, or none. -/
def write (addr : UInt64) (data : List UInt8) : Access Unit := fun m =>
  if m.inBounds addr data.length then .ok () { m with bytes := overwrite m.bytes addr.toNat data }
  else .error (.trap (.outOfBounds addr data.length)) m

def byte (m : Memory) (addr : UInt64) : Except Trap UInt8 :=
  if m.inBounds addr 1 then .ok (m.bytes.getD addr.toNat 0)
  else .error (.outOfBounds addr 1)

/-- A fresh region that holds some bytes. -/
def allocBytes (data : List UInt8) : Access UInt64 := do
  let addr ← alloc data.length
  write addr data
  return addr

/-- A word from at most eight bytes. -/
def readWord (m : Memory) (addr : UInt64) (size : Nat) : Except Stop UInt64 :=
  if 8 < size then .error (.fault (.wideAccess size))
  else
    match m.read addr size with
    | .ok bytes => .ok (ofLeBytes bytes.toList)
    | .error trap => .error (.trap trap)

/-- Writes the lowest bytes of a word, at most eight. -/
def writeWord (addr : UInt64) (size : Nat) (value : UInt64) : Access Unit :=
  if 8 < size then throw (.fault (.wideAccess size)) else write addr (leBytes size value)

/-- What is left of memory after some work on it, whether that was stopped or not. -/
def after {α : Type} (m : Memory) (work : Access α) : Memory :=
  match work m with
  | .ok _ m => m
  | .error _ m => m

end Memory

end EdgeProbe
