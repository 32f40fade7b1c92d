import EdgeProbe.Code.Module
import EdgeProbe.Machine.Builtin

/-!
# State of the reference machine

What stays as it is during a run (`World`: the module, where its globals are and what stands in for
missing functions) is kept apart from what a run changes (`Store`: memory, the trace and the steps
that are left). A run that ends early leaves the store as it was then.
-/

namespace EdgeProbe

/-- A stand-in for a function without a body, given the arguments. It works on memory and on what the
stand-ins keep for themselves. -/
abbrev Handler := List UInt64 → Access UInt64

structure Store where
  memory : Memory
  /-- Identifiers reported to the trace hook, the last one first. -/
  trace : List UInt32 := []
  stepsLeft : Nat := 1000000
  deriving Inhabited

structure World where
  module : Module
  /-- The addresses of the globals, by index. -/
  globals : Array UInt64
  handlers : List (String × Handler) := []

/-- Steps of a run. -/
abbrev Exec := EStateM Stop Store

namespace Exec

def stop {α : Type} (trap : Trap) : Exec α :=
  throw (.trap trap)

/-- Goes on with what a lookup finds. -/
def ofChecked {α : Type} : Checked α → Exec α
  | .ok a => pure a
  | .error fault => throw (.fault fault)

def ofTrap {α : Type} : Except Trap α → Exec α
  | .ok a => pure a
  | .error trap => throw (.trap trap)

def ofStop {α : Type} : Except Stop α → Exec α
  | .ok a => pure a
  | .error cause => throw cause

/-- Uses a step of the budget. -/
def tick : Exec Unit := fun s =>
  match s.stepsLeft with
  | 0 => .error (.trap .stepBudget) s
  | left + 1 => .ok () { s with stepsLeft := left }

/-- Asks memory something. -/
def ask {α : Type} (question : Memory → α) : Exec α := fun s =>
  .ok (question s.memory) s

/-- Works on memory. -/
def access {α : Type} (work : Access α) : Exec α := fun ⟨memory, trace, stepsLeft⟩ =>
  match work memory with
  | .ok a memory => .ok a ⟨memory, trace, stepsLeft⟩
  | .error cause memory => .error cause ⟨memory, trace, stepsLeft⟩

def report (id : UInt32) : Exec Unit := fun s =>
  .ok () { s with trace := id :: s.trace }

end Exec

end EdgeProbe
