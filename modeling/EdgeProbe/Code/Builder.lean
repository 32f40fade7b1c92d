import EdgeProbe.Code.Edit
import EdgeProbe.Code.Module

/-!
# Building functions

A function is built by appending to a current block, which has to be chosen first. Instructions get
the location that was set last.
-/

namespace EdgeProbe

structure FunctionBuilder where
  function : Function
  current : Option BlockId := none
  loc : Option DebugLoc := none
  deriving DecidableEq, Inhabited

/-- Steps of building. -/
abbrev Build := StateT FunctionBuilder Checked

namespace FunctionBuilder

def start (name : String) (params : List Ty) (ret : Ty) (conv : CallConv) : FunctionBuilder :=
  { function := { Function.declare name params ret with conv } }

/-- Adds the function to a module, in the place of a declaration of the same name, so that calls of
that lead to it. -/
def finishIn (b : FunctionBuilder) (m : Module) : Module × FuncId :=
  match m.findFunction? b.function.name with
  | none => m.addFunction b.function
  | some id =>
    match m.functions[id.index]? with
    | some f =>
      if f.isDeclaration then (m.setFunction id b.function, id) else m.addFunction b.function
    | none => m.addFunction b.function

end FunctionBuilder

namespace Build

def metadata (key value : String) : Build Unit :=
  modify fun b => { b with function := b.function.putMetadata key value }

def createBlock (name : String) : Build BlockId :=
  modifyGet fun b =>
    let (f, id) := b.function.addBlock name none
    (id, { b with function := f })

def switchTo (block : BlockId) : Build Unit :=
  modify fun b => { b with current := some block }

/-- Sets the location of the instructions to come. -/
def setLoc (loc : Option DebugLoc) : Build Unit :=
  modify fun b => { b with loc }

def current : Build BlockId := do
  match (← get).current with
  | some block => return block
  | none => throw .noCurrentBlock

/-- Appends an instruction and yields its result. -/
def push (kind : InstKind) (name : String) : Build Value := do
  let block ← current
  let b ← get
  let (f, id) ← b.function.pushInst block kind name b.loc
  set { b with function := f }
  return .inst id

def icmp (pred : Predicate) (lhs rhs : Value) : Build Value :=
  push (.icmp pred lhs rhs) ""

def binary (op : BinOp) (lhs rhs : Value) : Build Value :=
  push (.binary op lhs rhs) ""

def add (lhs rhs : Value) : Build Value :=
  binary .add lhs rhs

def sub (lhs rhs : Value) : Build Value :=
  binary .sub lhs rhs

def cast (op : CastOp) (value : Value) (width : Nat) : Build Value :=
  push (.cast op value width) ""

def select (cond onTrue onFalse : Value) : Build Value :=
  push (.select cond onTrue onFalse) ""

def load (ty : Ty) (ptr : Value) : Build Value :=
  push (.load ty ptr) ""

def store (value ptr : Value) : Build Value :=
  push (.store value ptr) ""

/-- The address a constant distance after another. -/
def gep (base : Value) (offset : UInt64) : Build Value :=
  push (.gep base (.ofWord 64 offset)) ""

def alloca (size : Nat) : Build Value :=
  push (.alloca size) ""

def call (callee : FuncId) (args : List Value) (ret : Ty) : Build Value :=
  push (.call (.direct callee) args ret) ""

def phi (ty : Ty) (incoming : List (Value × BlockId)) : Build Value :=
  push (.phi ty incoming) ""

def landingPad : Build Value :=
  push .landingPad ""

/-- Ends the current block. -/
def terminate (term : Terminator) : Build Unit := do
  let block ← current
  let b ← get
  set { b with function := ← b.function.setTerminator block term }

def invoke (callee : FuncId) (args : List Value) (normal unwind : BlockId) : Build Unit :=
  terminate (.invoke (.direct callee) args normal unwind)

end Build

end EdgeProbe
