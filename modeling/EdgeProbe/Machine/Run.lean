import Std.Data.HashMap
import EdgeProbe.Flow.Edges
import EdgeProbe.Machine.State

/-!
# Running functions

`World.run` follows an activation of a function from block to block. Phis are free; every other
instruction and every terminator takes a step. Each block that is entered and each call that is made
uses a step, so a run needs no more fuel than it has steps.
-/

namespace EdgeProbe

abbrev Frame := Std.HashMap InstId UInt64

/-- A call of a function that has a body. -/
structure Activation where
  function : Function
  args : List UInt64

/-- How far an activation has come: the values computed so far, the block that was left last, if
any, and the one to go on with. -/
structure Cursor where
  frame : Frame
  source : Option BlockId
  block : BlockId

/-- How the execution of a block ends. -/
inductive Outcome where
  | result (value : UInt64)
  | jump (next : Cursor)

/-- Function pointers are numbers from here on. -/
def functionBase : UInt64 := 0xffff000000000000

/-- How calls are made while a block is executed. -/
abbrev Caller := FuncId → List UInt64 → Exec UInt64

namespace World

variable (w : World)

def globalAddr (id : GlobalId) : Checked UInt64 :=
  match w.globals[id.index]? with
  | some addr => .ok addr
  | none => .error (.danglingGlobal id)

def eval (a : Activation) (frame : Frame) : Value → Exec UInt64
  | .inst id =>
    match frame[id]? with
    | some value => pure value
    | none => Exec.stop (.readTooEarly a.function.name id)
  | .arg index => pure ((a.args[index]?).getD 0)
  | .const (.int _ bits) => pure bits
  | .const .null => pure 0
  | .global id => Exec.ofChecked (w.globalAddr id)
  | .func id => pure (functionBase + UInt64.ofNat id.index)

/-- The width of an operand; pointers count as words. -/
def widthOf (a : Activation) (value : Value) : Exec Nat := do
  return (← Exec.ofChecked (a.function.intWidth? value)).getD 64

/-- The function that a pointer leads to. -/
def functionAt? (addr : UInt64) : Option FuncId :=
  if functionBase ≤ addr then
    let index := (addr - functionBase).toNat
    if index < w.module.functions.size then some ⟨index⟩ else none
  else none

def performCall (caller : Caller) (a : Activation) (frame : Frame) (callee : Callee)
    (args : List Value) : Exec UInt64 := do
  let values ← args.mapM (w.eval a frame)
  match callee with
  | .direct id => caller id values
  | .indirect target =>
    let addr ← w.eval a frame target
    match w.functionAt? addr with
    | some id => caller id values
    | none => Exec.stop (.outOfBounds addr 0)

/-- The value of an instruction, computed from the values of those before it. -/
def step (caller : Caller) (a : Activation) (frame : Frame) (id : InstId) : Exec UInt64 := do
  match ← Exec.ofChecked (a.function.kind id) with
  | .phi _ _ => Exec.stop (.latePhi a.function.name id)
  | .landingPad => return 0
  | .icmp pred lhs rhs =>
    let width ← widthOf a lhs
    let l ← w.eval a frame lhs
    let r ← w.eval a frame rhs
    return if pred.evaluate width l r then 1 else 0
  | .binary op lhs rhs =>
    let width ← widthOf a (.inst id)
    let l ← w.eval a frame lhs
    let r ← w.eval a frame rhs
    return op.evaluate width l r
  | .cast op value width =>
    let source ← widthOf a value
    let bits := mask source (← w.eval a frame value)
    match op with
    | .trunc | .zext => return mask width bits
    | .sext => return mask width (signExtend source bits).toUInt64
  | .select cond onTrue onFalse =>
    if (← w.eval a frame cond) &&& 1 == 1 then w.eval a frame onTrue else w.eval a frame onFalse
  | .load ty ptr =>
    let addr ← w.eval a frame ptr
    let raw ← Exec.ofStop (← Exec.ask fun memory => memory.readWord addr ty.storeSize)
    match ty with
    | .int width => return mask width raw
    | _ => return raw
  | .store value ptr =>
    let size := (← Exec.ofChecked (a.function.valueType value)).storeSize
    let bits ← w.eval a frame value
    let addr ← w.eval a frame ptr
    Exec.access (Memory.writeWord addr size bits)
    return 0
  | .gep base offset =>
    let width ← widthOf a offset
    let distance := signExtend width (← w.eval a frame offset)
    return (← w.eval a frame base) + distance.toUInt64
  | .alloca size => Exec.access (Memory.alloc size)
  | .call callee args _ => w.performCall caller a frame callee args

/-- The values that phis take when their block is entered. All are read before any is set. -/
def phiValues (a : Activation) (frame : Frame) (source : BlockId) :
    List InstId → Exec (List (InstId × UInt64))
  | [] => return []
  | phi :: rest => do
    match ← Exec.ofChecked (a.function.kind phi) with
    | .phi _ incoming =>
      match incoming.find? fun entry => entry.2 == source with
      | some entry =>
        let value ← w.eval a frame entry.1
        return (phi, value) :: (← phiValues a frame source rest)
      | none => Exec.stop (.missingIncoming a.function.name phi source)
    | _ => phiValues a frame source rest

def runInsts (caller : Caller) (a : Activation) : List InstId → Frame → Exec Frame
  | [], frame => return frame
  | id :: rest, frame => do
    Exec.tick
    let value ← w.step caller a frame id
    runInsts caller a rest (frame.insert id value)

/-- Executes the end of a block. -/
def runTerminator (caller : Caller) (a : Activation) (frame : Frame) (block : BlockId)
    (term : Terminator) : Exec Outcome := do
  let jump := fun target => Outcome.jump { frame, source := some block, block := target }
  match term with
  | .ret none => return .result 0
  | .ret (some value) => return .result (← w.eval a frame value)
  | .br target => return jump target
  | .condBr cond onTrue onFalse =>
    return jump (if (← w.eval a frame cond) &&& 1 == 1 then onTrue else onFalse)
  | .switch value default cases =>
    let width ← widthOf a value
    let bits := mask width (← w.eval a frame value)
    match cases.find? fun case => mask width case.1 == bits with
    | some (_, target) => return jump target
    | none => return jump default
  | .invoke callee args normal _ =>
    let _ ← w.performCall caller a frame callee args
    return jump normal
  | .resume _ => Exec.stop (.unwind a.function.name)
  | .unreachable => Exec.stop (.unreachable a.function.name)

/-- The phis of a block that is entered from another one, with the values they take. -/
def enteredPhis (a : Activation) (frame : Frame) (source : Option BlockId) (phis : List InstId) :
    Exec (List (InstId × UInt64)) :=
  match source with
  | some source => w.phiValues a frame source phis
  | none => pure []

def runBlock (caller : Caller) (a : Activation) : Cursor → Exec Outcome
  | ⟨frame, source, block⟩ => do
    let b ← Exec.ofChecked (a.function.block block)
    let phis ← Exec.ofChecked (a.function.phis block)
    let entered ← w.enteredPhis a frame source phis
    let frame := entered.foldl (fun frame entry => frame.insert entry.1 entry.2) frame
    let frame ← w.runInsts caller a (b.insts.drop phis.length) frame
    Exec.tick
    w.runTerminator caller a frame block b.term

/-- The call of a built-in function. -/
def runBuiltin (builtin : Builtin) (args : List UInt64) : Exec UInt64 := do
  let arg := fun i => (args[i]?).getD 0
  match builtin with
  | .compareStrings ignoreCase limited =>
    let limit := if limited then some (arg 2).toNat else none
    let result ← Exec.ofTrap
      (← Exec.ask fun memory => memory.compareStrings ignoreCase limit (arg 0) (arg 1))
    return result.toUInt64
  | .compareRegions =>
    let result ← Exec.ofTrap
      (← Exec.ask fun memory => memory.compareRegions (arg 0) (arg 1) (arg 2).toNat)
    return result.toUInt64
  | .copy =>
    Exec.access (Memory.copy (arg 0) (arg 1) (arg 2).toNat)
    return 0
  | .trace =>
    Exec.report (arg 0).toUInt32
    return 0

/-- The call of a function without a body. Its result has the width that was declared. -/
def callDeclared (f : Function) (args : List UInt64) : Exec UInt64 := do
  let width := f.ret.intWidth?.getD 64
  match Builtin.ofName? f.name with
  | some builtin => return mask width (← runBuiltin builtin args)
  | none =>
    match w.handlers.lookup f.name with
    | some handler => return mask width (← Exec.access (handler args))
    | none => Exec.stop (.unresolved f.name)

/-- Calls a function, by `runBody` if it has a body. -/
def enter (runBody : Activation → Cursor → Exec UInt64) : Caller := fun id args => do
  let f ← Exec.ofChecked (w.module.function id)
  match f.entryBlock? with
  | some block => runBody ⟨f, args⟩ ⟨∅, none, block⟩
  | none => w.callDeclared f args

def run : Nat → Activation → Cursor → Exec UInt64
  | 0, _, _ => Exec.stop .stepBudget
  | fuel + 1, a, c => do
    match ← w.runBlock (w.enter (run fuel)) a c with
    | .result value => return value
    | .jump next => run fuel a next

/-- Calls a function by index. -/
def callId (id : FuncId) (args : List UInt64) : Exec UInt64 := do
  let left := (← get).stepsLeft
  w.enter (w.run (left + 1)) id args

/-- Calls a function by name. -/
def call (name : String) (args : List UInt64) : Exec UInt64 := do
  match w.module.findFunction? name with
  | some id => w.callId id args
  | none => Exec.stop (.noSuchFunction name)

end World

end EdgeProbe
