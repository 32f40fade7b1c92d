import EdgeProbe.Word

/-!
# Operators on words

Comparisons, two-operand arithmetic and changes of width. Each one's meaning is a function of the
width and of the words; operands wider than their type are cut down where that matters.
-/

namespace EdgeProbe

inductive Predicate where
  | eq | ne | ugt | uge | ult | ule | sgt | sge | slt | sle
  deriving DecidableEq, Inhabited

namespace Predicate

def isEquality : Predicate → Bool
  | .eq | .ne => true
  | _ => false

def evaluate (pred : Predicate) (width : Nat) (lhs rhs : UInt64) : Bool :=
  let l := mask width lhs
  let r := mask width rhs
  let sl := signExtend width l
  let sr := signExtend width r
  match pred with
  | .eq => l == r
  | .ne => l != r
  | .ugt => r < l
  | .uge => r ≤ l
  | .ult => l < r
  | .ule => l ≤ r
  | .sgt => sr < sl
  | .sge => sr ≤ sl
  | .slt => sl < sr
  | .sle => sl ≤ sr

def mnemonic : Predicate → String
  | .eq => "eq"
  | .ne => "ne"
  | .ugt => "ugt"
  | .uge => "uge"
  | .ult => "ult"
  | .ule => "ule"
  | .sgt => "sgt"
  | .sge => "sge"
  | .slt => "slt"
  | .sle => "sle"

end Predicate

inductive BinOp where
  | add | sub | mul | and | or | xor | shl | lshr | ashr
  deriving DecidableEq, Inhabited

namespace BinOp

/-- Shifts take their amount from the low 32 bits of the right operand, and one by 64 or more
leaves nothing but the fill. -/
def evaluate (op : BinOp) (width : Nat) (lhs rhs : UInt64) : UInt64 :=
  let amount := rhs.toUInt32.toNat
  let result : UInt64 :=
    match op with
    | .add => lhs + rhs
    | .sub => lhs - rhs
    | .mul => lhs * rhs
    | .and => lhs &&& rhs
    | .or => lhs ||| rhs
    | .xor => lhs ^^^ rhs
    | .shl => if amount < 64 then lhs <<< UInt64.ofNat amount else 0
    | .lshr => if amount < 64 then mask width lhs >>> UInt64.ofNat amount else 0
    | .ashr => (signExtend width lhs >>> Int64.ofNat (min amount 63)).toUInt64
  mask width result

def mnemonic : BinOp → String
  | .add => "add"
  | .sub => "sub"
  | .mul => "mul"
  | .and => "and"
  | .or => "or"
  | .xor => "xor"
  | .shl => "shl"
  | .lshr => "lshr"
  | .ashr => "ashr"

end BinOp

inductive CastOp where
  | trunc | zext | sext
  deriving DecidableEq, Inhabited

namespace CastOp

def mnemonic : CastOp → String
  | .trunc => "trunc"
  | .zext => "zext"
  | .sext => "sext"

end CastOp

end EdgeProbe
