import EdgeProbe.Code.Initializer
import EdgeProbe.Code.Inst
import EdgeProbe.Json.Value

/-!
# Code as JSON

Types, operands, instructions, terminators and initializers in the interchange format: a variant
is its name, alone or with what it holds, and indices are plain numbers. Each `toJson` has an
`ofJson?` beside it that reads it back and refuses what does not fit.
-/

namespace EdgeProbe

open Json (ofNat natBelow? nat32? nat64? word? byte? list? pair? option? record? variant? isUnit
  choice?)

def unitTable {α : Type} (name : α → String) (all : List α) : List (String × α) :=
  all.map fun a => (name a, a)

namespace Ty

def toJson : Ty → Json
  | .void => .str "Void"
  | .int width => .obj [("Int", ofNat width)]
  | .ptr => .str "Ptr"

def ofJson? (j : Json) : Option Ty := do
  match ← variant? j with
  | ("Void", payload) => if isUnit payload then some .void else none
  | ("Ptr", payload) => if isUnit payload then some .ptr else none
  | ("Int", some width) => return .int (← nat32? width)
  | _ => none

end Ty

namespace BlockId

def toJson (id : BlockId) : Json := ofNat id.index

def ofJson? (j : Json) : Option BlockId := (nat32? j).map BlockId.mk

end BlockId

namespace InstId

def toJson (id : InstId) : Json := ofNat id.index

def ofJson? (j : Json) : Option InstId := (nat32? j).map InstId.mk

end InstId

namespace GlobalId

def toJson (id : GlobalId) : Json := ofNat id.index

def ofJson? (j : Json) : Option GlobalId := (nat32? j).map GlobalId.mk

end GlobalId

namespace FuncId

def toJson (id : FuncId) : Json := ofNat id.index

def ofJson? (j : Json) : Option FuncId := (nat32? j).map FuncId.mk

end FuncId

namespace Constant

def toJson : Constant → Json
  | .int width bits =>
    .obj [("Int", .obj [("width", ofNat width), ("bits", ofNat bits.toNat)])]
  | .null => .str "Null"

def ofJson? (j : Json) : Option Constant := do
  match ← variant? j with
  | ("Null", payload) => if isUnit payload then some .null else none
  | ("Int", some body) =>
    let r ← record? ["width", "bits"] body
    return .int (← r.required "width" nat32?) (← r.required "bits" word?)
  | _ => none

end Constant

namespace Value

def toJson : Value → Json
  | .inst id => .obj [("Inst", id.toJson)]
  | .arg index => .obj [("Arg", ofNat index)]
  | .const value => .obj [("Const", value.toJson)]
  | .global id => .obj [("Global", id.toJson)]
  | .func id => .obj [("Func", id.toJson)]

def ofJson? (j : Json) : Option Value := do
  match ← variant? j with
  | ("Inst", some id) => return .inst (← InstId.ofJson? id)
  | ("Arg", some index) => return .arg (← nat32? index)
  | ("Const", some value) => return .const (← Constant.ofJson? value)
  | ("Global", some id) => return .global (← GlobalId.ofJson? id)
  | ("Func", some id) => return .func (← FuncId.ofJson? id)
  | _ => none

end Value

namespace Predicate

def typeName : Predicate → String
  | .eq => "Eq"
  | .ne => "Ne"
  | .ugt => "Ugt"
  | .uge => "Uge"
  | .ult => "Ult"
  | .ule => "Ule"
  | .sgt => "Sgt"
  | .sge => "Sge"
  | .slt => "Slt"
  | .sle => "Sle"

def all : List Predicate := [.eq, .ne, .ugt, .uge, .ult, .ule, .sgt, .sge, .slt, .sle]

def toJson (pred : Predicate) : Json := .str pred.typeName

def ofJson? : Json → Option Predicate := choice? (unitTable typeName all)

end Predicate

namespace BinOp

def typeName : BinOp → String
  | .add => "Add"
  | .sub => "Sub"
  | .mul => "Mul"
  | .and => "And"
  | .or => "Or"
  | .xor => "Xor"
  | .shl => "Shl"
  | .lshr => "LShr"
  | .ashr => "AShr"

def all : List BinOp := [.add, .sub, .mul, .and, .or, .xor, .shl, .lshr, .ashr]

def toJson (op : BinOp) : Json := .str op.typeName

def ofJson? : Json → Option BinOp := choice? (unitTable typeName all)

end BinOp

namespace CastOp

def typeName : CastOp → String
  | .trunc => "Trunc"
  | .zext => "ZExt"
  | .sext => "SExt"

def toJson (op : CastOp) : Json := .str op.typeName

def ofJson? : Json → Option CastOp := choice? (unitTable typeName [.trunc, .zext, .sext])

end CastOp

namespace CallConv

def typeName : CallConv → String
  | .c => "C"
  | .fast => "Fast"
  | .cold => "Cold"

def toJson (conv : CallConv) : Json := .str conv.typeName

def ofJson? : Json → Option CallConv := choice? (unitTable typeName [.c, .fast, .cold])

end CallConv

namespace Callee

def toJson : Callee → Json
  | .direct id => .obj [("Direct", id.toJson)]
  | .indirect target => .obj [("Indirect", target.toJson)]

def ofJson? (j : Json) : Option Callee := do
  match ← variant? j with
  | ("Direct", some id) => return .direct (← FuncId.ofJson? id)
  | ("Indirect", some target) => return .indirect (← Value.ofJson? target)
  | _ => none

end Callee

namespace InstKind

def incomingToJson (entry : Value × BlockId) : Json :=
  .arr [entry.1.toJson, entry.2.toJson]

def toJson : InstKind → Json
  | .phi ty incoming =>
    .obj [("Phi", .obj [("ty", ty.toJson), ("incoming", .ofList incomingToJson incoming)])]
  | .landingPad => .str "LandingPad"
  | .icmp pred lhs rhs =>
    .obj [("Icmp", .obj [("pred", pred.toJson), ("lhs", lhs.toJson), ("rhs", rhs.toJson)])]
  | .binary op lhs rhs =>
    .obj [("Binary", .obj [("op", op.toJson), ("lhs", lhs.toJson), ("rhs", rhs.toJson)])]
  | .cast op value width =>
    .obj [("Cast", .obj [("op", op.toJson), ("value", value.toJson), ("to", ofNat width)])]
  | .select cond onTrue onFalse =>
    .obj [("Select", .obj [("cond", cond.toJson), ("on_true", onTrue.toJson),
      ("on_false", onFalse.toJson)])]
  | .load ty ptr => .obj [("Load", .obj [("ty", ty.toJson), ("ptr", ptr.toJson)])]
  | .store value ptr => .obj [("Store", .obj [("value", value.toJson), ("ptr", ptr.toJson)])]
  | .gep base offset =>
    .obj [("Gep", .obj [("base", base.toJson), ("offset", offset.toJson)])]
  | .alloca size => .obj [("Alloca", .obj [("size", ofNat size)])]
  | .call callee args ret =>
    .obj [("Call", .obj [("callee", callee.toJson), ("args", .ofList Value.toJson args),
      ("ret", ret.toJson)])]

def ofJson? (j : Json) : Option InstKind := do
  match ← variant? j with
  | ("LandingPad", payload) => if isUnit payload then some .landingPad else none
  | ("Phi", some body) =>
    let r ← record? ["ty", "incoming"] body
    return .phi (← r.required "ty" Ty.ofJson?)
      (← r.required "incoming" (list? (pair? Value.ofJson? BlockId.ofJson?)))
  | ("Icmp", some body) =>
    let r ← record? ["pred", "lhs", "rhs"] body
    return .icmp (← r.required "pred" Predicate.ofJson?) (← r.required "lhs" Value.ofJson?)
      (← r.required "rhs" Value.ofJson?)
  | ("Binary", some body) =>
    let r ← record? ["op", "lhs", "rhs"] body
    return .binary (← r.required "op" BinOp.ofJson?) (← r.required "lhs" Value.ofJson?)
      (← r.required "rhs" Value.ofJson?)
  | ("Cast", some body) =>
    let r ← record? ["op", "value", "to"] body
    return .cast (← r.required "op" CastOp.ofJson?) (← r.required "value" Value.ofJson?)
      (← r.required "to" nat32?)
  | ("Select", some body) =>
    let r ← record? ["cond", "on_true", "on_false"] body
    return .select (← r.required "cond" Value.ofJson?) (← r.required "on_true" Value.ofJson?)
      (← r.required "on_false" Value.ofJson?)
  | ("Load", some body) =>
    let r ← record? ["ty", "ptr"] body
    return .load (← r.required "ty" Ty.ofJson?) (← r.required "ptr" Value.ofJson?)
  | ("Store", some body) =>
    let r ← record? ["value", "ptr"] body
    return .store (← r.required "value" Value.ofJson?) (← r.required "ptr" Value.ofJson?)
  | ("Gep", some body) =>
    let r ← record? ["base", "offset"] body
    return .gep (← r.required "base" Value.ofJson?) (← r.required "offset" Value.ofJson?)
  | ("Alloca", some body) =>
    let r ← record? ["size"] body
    return .alloca (← r.required "size" nat32?)
  | ("Call", some body) =>
    let r ← record? ["callee", "args", "ret"] body
    return .call (← r.required "callee" Callee.ofJson?)
      (← r.required "args" (list? Value.ofJson?)) (← r.required "ret" Ty.ofJson?)
  | _ => none

end InstKind

namespace Terminator

def caseToJson (case : UInt64 × BlockId) : Json :=
  .arr [ofNat case.1.toNat, case.2.toJson]

def toJson : Terminator → Json
  | .ret value => .obj [("Ret", .ofOption Value.toJson value)]
  | .br target => .obj [("Br", target.toJson)]
  | .condBr cond onTrue onFalse =>
    .obj [("CondBr", .obj [("cond", cond.toJson), ("on_true", onTrue.toJson),
      ("on_false", onFalse.toJson)])]
  | .switch value default cases =>
    .obj [("Switch", .obj [("value", value.toJson), ("default", default.toJson),
      ("cases", .ofList caseToJson cases)])]
  | .invoke callee args normal unwind =>
    .obj [("Invoke", .obj [("callee", callee.toJson), ("args", .ofList Value.toJson args),
      ("normal", normal.toJson), ("unwind", unwind.toJson)])]
  | .resume value => .obj [("Resume", value.toJson)]
  | .unreachable => .str "Unreachable"

def ofJson? (j : Json) : Option Terminator := do
  match ← variant? j with
  | ("Unreachable", payload) => if isUnit payload then some .unreachable else none
  | ("Ret", some value) => return .ret (← option? Value.ofJson? value)
  | ("Br", some target) => return .br (← BlockId.ofJson? target)
  | ("CondBr", some body) =>
    let r ← record? ["cond", "on_true", "on_false"] body
    return .condBr (← r.required "cond" Value.ofJson?) (← r.required "on_true" BlockId.ofJson?)
      (← r.required "on_false" BlockId.ofJson?)
  | ("Switch", some body) =>
    let r ← record? ["value", "default", "cases"] body
    return .switch (← r.required "value" Value.ofJson?) (← r.required "default" BlockId.ofJson?)
      (← r.required "cases" (list? (pair? word? BlockId.ofJson?)))
  | ("Invoke", some body) =>
    let r ← record? ["callee", "args", "normal", "unwind"] body
    return .invoke (← r.required "callee" Callee.ofJson?)
      (← r.required "args" (list? Value.ofJson?)) (← r.required "normal" BlockId.ofJson?)
      (← r.required "unwind" BlockId.ofJson?)
  | ("Resume", some value) => return .resume (← Value.ofJson? value)
  | _ => none

end Terminator

namespace Initializer

mutual

def toJson : Initializer → Json
  | .int width bits =>
    .obj [("Int", .obj [("width", ofNat width), ("bits", ofNat bits.toNat)])]
  | .bytes data => .obj [("Bytes", .ofBytes data)]
  | .struct fields => .obj [("Struct", .arr (fieldsToJson fields))]
  | .zero size => .obj [("Zero", ofNat size)]

def fieldsToJson : List Initializer → List Json
  | [] => []
  | field :: rest => field.toJson :: fieldsToJson rest

end

/-- Reads an initializer without fields. -/
def leafOfJson? (j : Json) : Option Initializer := do
  match ← variant? j with
  | ("Int", some body) =>
    let r ← record? ["width", "bits"] body
    return .int (← r.required "width" nat32?) (← r.required "bits" word?)
  | ("Bytes", some data) => return .bytes (← list? byte? data)
  | ("Zero", some size) => return .zero (← nat64? size)
  | _ => none

mutual

def ofJson? : Json → Option Initializer
  | .obj [(name, .arr items)] =>
    if name.text == "Struct" then (fieldsOfJson? items).map .struct
    else leafOfJson? (.obj [(name, .arr items)])
  | j => leafOfJson? j

def fieldsOfJson? : List Json → Option (List Initializer)
  | [] => some []
  | item :: rest => do return (← ofJson? item) :: (← fieldsOfJson? rest)

end

end Initializer

end EdgeProbe
