import EdgeProbe.Code.Module
import EdgeProbe.Text.Hex

/-!
# Listings

The readable form of a module: a line for each global, then each function with a line for each
instruction. Operands are written by name, so a listing of a function that holds a name of nothing
does not exist.
-/

namespace EdgeProbe

/-- A byte of a literal. Printable ones but quotes and backslashes stand for themselves. -/
def literalByte (byte : UInt8) : List Char :=
  if byte == 0x09 then ['\\', 't']
  else if byte == 0x0a then ['\\', 'n']
  else if byte == 0x0d then ['\\', 'r']
  else if byte == 0x22 then ['\\', '"']
  else if byte == 0x27 then ['\\', Char.ofNat 0x27]
  else if byte == 0x5c then ['\\', '\\']
  else if 0x20 ≤ byte && byte < 0x7f then [Char.ofNat byte.toNat]
  else '\\' :: 'x' :: Text.hexField 2 byte.toNat

def literalText (bytes : List UInt8) : String :=
  String.ofList (bytes.flatMap literalByte)

def commaSeparated (items : List String) : String :=
  String.intercalate ", " items

namespace Initializer

mutual

/-- The structure of an initializer that is not a plain string of bytes. -/
def text : Initializer → String
  | .int width bits =>
    "Int \x7b width: " ++ toString width ++ ", bits: " ++ toString bits.toNat ++ " \x7d"
  | .bytes data => "Bytes([" ++ commaSeparated (data.map fun b => toString b.toNat) ++ "])"
  | .struct fields => "Struct([" ++ commaSeparated (fieldTexts fields) ++ "])"
  | .zero size => "Zero(" ++ toString size ++ ")"

def fieldTexts : List Initializer → List String
  | [] => []
  | field :: rest => field.text :: fieldTexts rest

end

end Initializer

namespace Function

/-- An instruction by its index and, if it has one, its name. -/
def instText (f : Function) (id : InstId) : Checked String := do
  let name := (← f.inst id).name
  let index := toString id.index
  return if name.isEmpty then "%" ++ index else "%" ++ index ++ "." ++ name

def blockText (f : Function) (id : BlockId) : Checked String :=
  return "%" ++ (← f.block id).name

def caseText (f : Function) (case : UInt64 × BlockId) : Checked String := do
  return toString case.1.toNat ++ " -> " ++ (← f.blockText case.2)

end Function

namespace Module

variable (m : Module) (f : Function)

def valueText : Value → Checked String
  | .inst id => f.instText id
  | .arg index => return "%arg" ++ toString index
  | .const (.int width bits) => return "i" ++ toString width ++ " " ++ toString bits.toNat
  | .const .null => return "null"
  | .global id => return "@" ++ (← m.global id).name
  | .func id => return "@" ++ (← m.function id).name

def calleeText : Callee → Checked String
  | .direct id => return "@" ++ (← m.function id).name
  | .indirect target => m.valueText f target

def argsText (args : List Value) : Checked String :=
  return commaSeparated (← args.mapM (m.valueText f))

def incomingText (entry : Value × BlockId) : Checked String := do
  return "[ " ++ (← m.valueText f entry.1) ++ ", " ++ (← f.blockText entry.2) ++ " ]"

/-- An instruction without its result. -/
def operationText : InstKind → Checked String
  | .phi ty incoming => do
    return "phi " ++ ty.text ++ " " ++ commaSeparated (← incoming.mapM (m.incomingText f))
  | .landingPad => return "landingpad"
  | .icmp pred lhs rhs => do
    return "icmp " ++ pred.mnemonic ++ " " ++ (← m.valueText f lhs) ++ ", " ++
      (← m.valueText f rhs)
  | .binary op lhs rhs => do
    return op.mnemonic ++ " " ++ (← m.valueText f lhs) ++ ", " ++ (← m.valueText f rhs)
  | .cast op value width => do
    return op.mnemonic ++ " " ++ (← m.valueText f value) ++ " to i" ++ toString width
  | .select cond onTrue onFalse => do
    return "select " ++ (← m.valueText f cond) ++ ", " ++ (← m.valueText f onTrue) ++ ", " ++
      (← m.valueText f onFalse)
  | .load ty ptr => do return "load " ++ ty.text ++ ", " ++ (← m.valueText f ptr)
  | .store value ptr => do
    return "store " ++ (← m.valueText f value) ++ ", " ++ (← m.valueText f ptr)
  | .gep base offset => do
    return "getelementptr i8, " ++ (← m.valueText f base) ++ ", " ++ (← m.valueText f offset)
  | .alloca size => return "alloca [" ++ toString size ++ " x i8]"
  | .call callee args ret => do
    return "call " ++ ret.text ++ " " ++ (← m.calleeText f callee) ++ "(" ++
      (← m.argsText f args) ++ ")"

/-- The instruction has a result to be named in front of it. -/
def hasResult : InstKind → Bool
  | .store _ _ => false
  | .call _ _ ret => ret != .void
  | _ => true

def instLine (id : InstId) : Checked String := do
  let inst ← f.inst id
  let operation ← m.operationText f inst.kind
  let result ← f.instText id
  let text := if hasResult inst.kind then result ++ " = " ++ operation else operation
  return "  " ++ text ++ (if inst.split then " ; split" else "") ++ "\n"

def terminatorText : Terminator → Checked String
  | .ret none => return "ret void"
  | .ret (some value) => return "ret " ++ (← m.valueText f value)
  | .br target => return "br label " ++ (← f.blockText target)
  | .condBr cond onTrue onFalse => do
    return "br " ++ (← m.valueText f cond) ++ ", label " ++ (← f.blockText onTrue) ++
      ", label " ++ (← f.blockText onFalse)
  | .switch value default cases => do
    return "switch " ++ (← m.valueText f value) ++ ", label " ++ (← f.blockText default) ++
      " [" ++ commaSeparated (← cases.mapM f.caseText) ++ "]"
  | .invoke callee args normal unwind => do
    return "invoke " ++ (← m.calleeText f callee) ++ "(" ++ (← m.argsText f args) ++
      ") to label " ++ (← f.blockText normal) ++ " unwind label " ++ (← f.blockText unwind)
  | .resume value => return "resume " ++ (← m.valueText f value)
  | .unreachable => return "unreachable"

def blockLines (id : BlockId) : Checked String := do
  let b ← f.block id
  let insts ← b.insts.mapM (m.instLine f)
  return b.name ++ ":    ; b" ++ toString id.index ++ "\n" ++ String.join insts ++
    "  " ++ (← m.terminatorText f b.term) ++ "\n"

def paramTexts : Nat → List Ty → List String
  | _, [] => []
  | index, ty :: rest => (ty.text ++ " %arg" ++ toString index) :: paramTexts (index + 1) rest

def functionText (id : FuncId) : Checked String := do
  let f ← m.function id
  let head := f.ret.text ++ " @" ++ f.name ++ "(" ++ commaSeparated (paramTexts 0 f.params) ++ ")"
  if f.isDeclaration then return "declare " ++ head ++ "\n"
  let blocks ← f.layout.mapM (m.blockLines f)
  return "define " ++ head ++ " \x7b\n" ++ String.join blocks ++ "\x7d\n"

end Module

def Global.line (g : Global) : String :=
  let storage := if g.threadLocal then "thread_local " else ""
  let mutability := if g.constant then "constant" else "global"
  let contents :=
    match g.contents with
    | none => "external " ++ storage ++ mutability
    | some (.bytes data) => storage ++ mutability ++ " c\"" ++ literalText data ++ "\""
    | some contents => storage ++ mutability ++ " " ++ contents.text
  "@" ++ g.name ++ " = " ++ contents ++ "\n"

namespace Module

def text (m : Module) : Checked String := do
  let globals := m.globals.toList.map Global.line
  let functions ← m.functionIds.mapM m.functionText
  return "; module " ++ m.name ++ "\n" ++ String.join globals ++ String.join functions

end Module

end EdgeProbe
