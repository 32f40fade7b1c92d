import EdgeProbe.Word

/-!
# Operands and their types

A value is an integer of some width, a pointer, or nothing at all. Blocks, instructions, globals and
functions are named by their index in the arena that holds them, and the four kinds of index are
kept apart by type. An operand is one of these names, a parameter of the enclosing function or a
constant.
-/

namespace EdgeProbe

/-! ## Types -/

inductive Ty where
  | void
  | int (width : Nat)
  | ptr
  deriving DecidableEq, Inhabited

namespace Ty

def i1 : Ty := .int 1
def i8 : Ty := .int 8
def i32 : Ty := .int 32
def i64 : Ty := .int 64

def intWidth? : Ty → Option Nat
  | .int width => some width
  | _ => none

/-- How many bytes a value takes in memory. -/
def storeSize : Ty → Nat
  | .void => 0
  | .int width => byteCount width
  | .ptr => 8

/-- The type as listings write it. -/
def text : Ty → String
  | .void => "void"
  | .int width => "i" ++ toString width
  | .ptr => "ptr"

/-- The type as messages about ill-typed code write it. -/
def structureText : Ty → String
  | .void => "Void"
  | .int width => "Int(" ++ toString width ++ ")"
  | .ptr => "Ptr"

end Ty

/-! ## Names and operands -/

structure BlockId where
  index : Nat
  deriving DecidableEq, Inhabited, Hashable

structure InstId where
  index : Nat
  deriving DecidableEq, Inhabited, Hashable

structure GlobalId where
  index : Nat
  deriving DecidableEq, Inhabited, Hashable

structure FuncId where
  index : Nat
  deriving DecidableEq, Inhabited, Hashable

/-- Blocks come by index. -/
instance : Ord BlockId where
  compare := compareOn BlockId.index

instance : Std.TransOrd BlockId :=
  inferInstanceAs (Std.TransCmp (compareOn BlockId.index))

instance : Std.LawfulEqOrd BlockId where
  compare_self := Std.ReflOrd.compare_self
  eq_of_compare h := congrArg BlockId.mk (Std.LawfulEqOrd.eq_of_compare h)

/-- Functions come by index. -/
instance : Ord FuncId where
  compare := compareOn FuncId.index

instance : Std.TransOrd FuncId :=
  inferInstanceAs (Std.TransCmp (compareOn FuncId.index))

instance : Std.LawfulEqOrd FuncId where
  compare_self := Std.ReflOrd.compare_self
  eq_of_compare h := congrArg FuncId.mk (Std.LawfulEqOrd.eq_of_compare h)

/-- The block as messages name it. -/
def BlockId.text (id : BlockId) : String :=
  "BlockId(" ++ toString id.index ++ ")"

/-- A list of blocks as messages write it. -/
def BlockId.listText (ids : List BlockId) : String :=
  "[" ++ String.intercalate ", " (ids.map BlockId.text) ++ "]"

inductive Constant where
  | int (width : Nat) (bits : UInt64)
  | null
  deriving DecidableEq, Inhabited

namespace Constant

/-- The constant of this width congruent to the value. -/
def ofWord (width : Nat) (value : UInt64) : Constant :=
  .int width (mask width value)

def ofBool (value : Bool) : Constant :=
  .ofWord 1 (if value then 1 else 0)

def isZero : Constant → Bool
  | .int _ bits => bits == 0
  | .null => false

def isOne : Constant → Bool
  | .int _ bits => bits == 1
  | .null => false

/-- All bits of the width are set, and no other. -/
def isMinusOne : Constant → Bool
  | .int width bits => bits == mask width 0xffffffffffffffff
  | .null => false

/-- The bytes of an integer of whole bytes, at most eight of them. -/
def leBytes? : Constant → Option (List UInt8)
  | .int width bits =>
    if width % 8 = 0 ∧ width ≤ 64 then some (leBytes (width / 8) bits) else none
  | .null => none

end Constant

inductive Value where
  | inst (id : InstId)
  | arg (index : Nat)
  | const (value : Constant)
  | global (id : GlobalId)
  | func (id : FuncId)
  deriving DecidableEq, Inhabited

namespace Value

def ofWord (width : Nat) (value : UInt64) : Value :=
  .const (.ofWord width value)

def ofBool (value : Bool) : Value :=
  .const (.ofBool value)

def const? : Value → Option Constant
  | .const value => some value
  | _ => none

def inst? : Value → Option InstId
  | .inst id => some id
  | _ => none

def isConstInt : Value → Bool
  | .const (.int _ _) => true
  | _ => false

end Value

end EdgeProbe
