import EdgeProbe.Code.Symbol
import EdgeProbe.Machine.Memory
import EdgeProbe.Text.Scan

/-!
# Functions that the machine knows

The comparisons of strings and of memory, as C defines them on unsigned bytes, and the copying of
memory.
-/

namespace EdgeProbe

/-- The first byte less the second. -/
def byteDifference (a b : UInt8) : Int64 :=
  Int64.ofInt ((a.toNat : Int) - (b.toNat : Int))

namespace Memory

/-- Compares strings byte by byte up to a difference, a NUL or as many bytes as are left. -/
def compareFrom (m : Memory) (ignoreCase : Bool) : Nat → UInt64 → UInt64 → Except Trap Int64
  | 0, _, _ => .ok 0
  | left + 1, lhs, rhs => do
    let a := Text.foldCase ignoreCase (← m.byte lhs)
    let b := Text.foldCase ignoreCase (← m.byte rhs)
    if a != b || a == 0 then return byteDifference a b
    else m.compareFrom ignoreCase left (lhs + 1) (rhs + 1)

/-- Compares strings of at most `limit` bytes. No comparison gets past the end of memory. -/
def compareStrings (m : Memory) (ignoreCase : Bool) (limit : Option Nat) (lhs rhs : UInt64) :
    Except Trap Int64 :=
  m.compareFrom ignoreCase (min (limit.getD (m.size + 1)) (m.size + 1)) lhs rhs

/-- Compares regions of one length. -/
def compareRegions (m : Memory) (lhs rhs : UInt64) (len : Nat) : Except Trap Int64 := do
  let a ← m.read lhs len
  let b ← m.read rhs len
  match (a.zip b).find? fun pair => pair.1 != pair.2 with
  | some (x, y) => return byteDifference x y
  | none => return 0

/-- Copies a region, which is read before it is written. -/
def copy (target source : UInt64) (len : Nat) : Access Unit := fun m =>
  match m.read source len with
  | .ok data => write target data.toList m
  | .error trap => .error (.trap trap) m

end Memory

inductive Builtin where
  | compareStrings (ignoreCase limited : Bool)
  | compareRegions
  | copy
  | trace
  deriving DecidableEq, Inhabited

/-- The built-in function that a declaration of this name stands for. -/
def Builtin.ofName? (name : String) : Option Builtin :=
  if name == "strcmp" then some (.compareStrings false false)
  else if name == "strcasecmp" then some (.compareStrings true false)
  else if name == "strncmp" then some (.compareStrings false true)
  else if name == "strncasecmp" then some (.compareStrings true true)
  else if name == "memcmp" then some .compareRegions
  else if Text.startsWith name "llvm.memcpy" then some .copy
  else if name == Symbol.traceHook then some .trace
  else none

end EdgeProbe
