import EdgeProbe.Machine.Run

/-!
# The reference machine

`Machine` runs the functions of a module over a memory of its own, which holds the globals first
and then whatever was asked for. It is how a module is compared with what the passes make of it.
-/

namespace EdgeProbe

structure Machine where
  world : World
  store : Store
  /-- Where the coverage map is, and its size. -/
  coverage : Option (UInt64 × Nat) := none

namespace Machine

/-- Gives each global a region with its contents, or with a word when they are not known. -/
def placeGlobals : List Global → Array UInt64 → Access (Array UInt64)
  | [], addrs => return addrs
  | g :: rest, addrs => do
    let addr ←
      match g.contents with
      | some contents => Memory.allocBytes contents.toBytes
      | none => Memory.alloc 8
    placeGlobals rest (addrs.push addr)

def ofModule (m : Module) : Except Stop Machine :=
  match placeGlobals m.globals.toList #[] .empty with
  | .ok globals memory => .ok { world := { module := m, globals }, store := { memory } }
  | .error cause _ => .error cause

/-- Takes steps of a run. -/
def exec {α : Type} (m : Machine) (steps : Exec α) : Except Stop α × Machine :=
  match steps m.store with
  | .ok a store => (.ok a, { m with store })
  | .error cause store => (.error cause, { m with store })

/-- The address of a global that the module has. -/
def globalAddr? (m : Machine) (name : String) : Option UInt64 :=
  (m.world.module.findGlobal? name).bind fun id => m.world.globals[id.index]?

/-- Works on memory between runs. -/
def access {α : Type} (m : Machine) (work : Access α) : Except Stop α × Machine :=
  m.exec (Exec.access work)

/-- Lets the module know where the coverage map is, if it asks. -/
def tellArea (m : Machine) (base : UInt64) : Access Unit :=
  match m.globalAddr? Symbol.areaPointer with
  | some slot => Memory.writeWord slot 8 base
  | none => pure ()

/-- Allocates a coverage map and lets the module know where it is. -/
def withCoverageMap (m : Machine) (size : Nat) : Except Stop Machine :=
  match Memory.alloc size m.store.memory with
  | .ok base memory =>
    .ok { m with
      store := { m.store with memory := memory.after (m.tellArea base) }
      coverage := some (base, size) }
  | .error cause _ => .error cause

/-- The contents of the coverage map. -/
def coverageMap (m : Machine) : Array UInt8 :=
  match m.coverage with
  | some (base, size) => (m.store.memory.read base size).toOption.getD #[]
  | none => #[]

/-- The places in the coverage map that are not zero, with what they hold. -/
def hits (m : Machine) : List (Nat × UInt8) :=
  let map := m.coverageMap
  (List.range map.size).filterMap fun slot =>
    let count := map.getD slot 0
    if count == 0 then none else some (slot, count)

def resetCoverage (m : Machine) : Machine :=
  match m.coverage with
  | some (base, size) =>
    let memory := m.store.memory.after (Memory.write base (List.replicate size 0))
    { m with store := { m.store with memory } }
  | none => m

def setStepBudget (m : Machine) (steps : Nat) : Machine :=
  { m with store := { m.store with stepsLeft := steps } }

/-- Lets `handler` stand in for the functions of this name. -/
def register (m : Machine) (name : String) (handler : Handler) : Machine :=
  { m with world := { m.world with handlers := (name, handler) :: m.world.handlers } }

/-- The identifiers reported to the trace hook, in order. -/
def trace (m : Machine) : List UInt32 :=
  m.store.trace.reverse

def clearTrace (m : Machine) : Machine :=
  { m with store := { m.store with trace := [] } }

/-- Calls a function by name. The machine that is left has seen the run also if it was stopped. -/
def call (m : Machine) (name : String) (args : List UInt64) : Except Stop UInt64 × Machine :=
  m.exec (m.world.call name args)

end Machine

end EdgeProbe
