import EdgeProbe.Code.Function
import EdgeProbe.Code.Initializer

/-!
# Modules

A module is what is instrumented at a time: globals and functions, found by index or by name.
-/

namespace EdgeProbe

structure Global where
  name : String
  constant : Bool := false
  threadLocal : Bool := false
  /-- Absent for a global that another module defines. -/
  contents : Option Initializer := none
  deriving Inhabited

structure Module where
  name : String
  globals : Array Global := #[]
  functions : Array Function := #[]
  deriving Inhabited

namespace Module

def function (m : Module) (id : FuncId) : Checked Function :=
  match m.functions[id.index]? with
  | some f => .ok f
  | none => .error (.danglingFunction id)

def global (m : Module) (id : GlobalId) : Checked Global :=
  match m.globals[id.index]? with
  | some g => .ok g
  | none => .error (.danglingGlobal id)

def functionIds (m : Module) : List FuncId :=
  (List.range m.functions.size).map FuncId.mk

def findFunction? (m : Module) (name : String) : Option FuncId :=
  (m.functions.findIdx? fun f => f.name == name).map FuncId.mk

def findGlobal? (m : Module) (name : String) : Option GlobalId :=
  (m.globals.findIdx? fun g => g.name == name).map GlobalId.mk

def addGlobal (m : Module) (g : Global) : Module × GlobalId :=
  ({ m with globals := m.globals.push g }, ⟨m.globals.size⟩)

def addFunction (m : Module) (f : Function) : Module × FuncId :=
  ({ m with functions := m.functions.push f }, ⟨m.functions.size⟩)

/-- Replaces a function that exists. -/
def setFunction (m : Module) (id : FuncId) (f : Function) : Module :=
  { m with functions := m.functions.setIfInBounds id.index f }

/-- The global of this name, declared if there is none. -/
def getOrInsertGlobal (m : Module) (name : String) (threadLocal : Bool) : Module × GlobalId :=
  match m.findGlobal? name with
  | some id => (m, id)
  | none => m.addGlobal { name, threadLocal }

/-- The function of this name, declared if there is none. -/
def getOrInsertFunction (m : Module) (name : String) (params : List Ty) (ret : Ty) :
    Module × FuncId :=
  match m.findFunction? name with
  | some id => (m, id)
  | none => m.addFunction (.declare name params ret)

/-- What `constantBytes?` finds, following at most `depth` address computations. -/
def constantBytesWithin (m : Module) (f : Function) : Nat → Value → Checked (Option (List UInt8))
  | _, .global id => do
    let g ← m.global id
    match g.contents with
    | some (.bytes data) => return if g.constant then some data else none
    | _ => return none
  | depth, .inst id => do
    match ← f.kind id with
    | .gep base (.const (.int _ bits)) =>
      match depth with
      | 0 => throw (.cyclicAddress id)
      | depth + 1 =>
        let data? ← m.constantBytesWithin f depth base
        return data?.bind fun data =>
          if bits.toNat ≤ data.length then some (data.drop bits.toNat) else none
    | _ => return none
  | _, _ => return none

/-- The bytes a pointer is known to designate: those of a constant global, from an offset on when
the pointer is computed from it by constant steps. -/
def constantBytes? (m : Module) (f : Function) (value : Value) : Checked (Option (List UInt8)) :=
  m.constantBytesWithin f f.insts.size value

end Module

/-- The bytes before the first NUL. -/
def beforeNul (bytes : List UInt8) : List UInt8 :=
  bytes.takeWhile (· != 0)

end EdgeProbe
