import EdgeProbe.Code.Symbol
import EdgeProbe.Pass

/-!
# The code of a probe

A probe reports its identifier to the trace hook, if there is one, and counts up a byte of the
coverage map. In classic mode the byte is the one at the probe's slot mixed with what the last probe
left behind, and the probe leaves half its own slot.
-/

namespace EdgeProbe

/-- What probes refer to. -/
structure Hooks where
  area : GlobalId
  /-- In classic mode only. -/
  previous : Option GlobalId
  /-- In builds whose identifiers are traced only. -/
  trace : Option FuncId
  deriving DecidableEq, Inhabited

namespace Hooks

def declarePrevious (config : Config) : Pass (Option GlobalId) := do
  if config.denseIds then return none
  return some (← Pass.update fun m => m.getOrInsertGlobal Symbol.previousLocation true)

def declareTrace (config : Config) : Pass (Option FuncId) := do
  if !config.tracesIds then return none
  return some (← Pass.update fun m => m.getOrInsertFunction Symbol.traceHook [.i32] .void)

/-- Declares what is missing. -/
def declare (config : Config) : Pass Hooks := do
  let area ← Pass.update fun m => m.getOrInsertGlobal Symbol.areaPointer false
  let previous ← declarePrevious config
  let trace ← declareTrace config
  return { area, previous, trace }

end Hooks

namespace Edit

def place (block : BlockId) (pos : Nat) (kind : InstKind) : Edit Value := do
  return .inst (← insertInst block pos kind "" none)

/-- Calls the trace hook. Yields the position to go on with, as all parts of a probe do. -/
def placeTrace (hooks : Hooks) (block : BlockId) (pos id : Nat) : Edit Nat := do
  match hooks.trace with
  | none => return pos
  | some trace =>
    let _ ← place block pos (.call (.direct trace) [.ofWord 32 (UInt64.ofNat id)] .void)
    return pos + 1

/-- Computes the index into the map. -/
def placeIndex (hooks : Hooks) (block : BlockId) (pos slot : Nat) : Edit (Nat × Value) := do
  match hooks.previous with
  | none => return (pos, .ofWord 64 (UInt64.ofNat slot))
  | some previous =>
    let last ← place block pos (.load .i32 (.global previous))
    let mixed ← place block (pos + 1) (.binary .xor last (.ofWord 32 (UInt64.ofNat slot)))
    let wide ← place block (pos + 2) (.cast .zext mixed 64)
    return (pos + 3, wide)

/-- Puts a probe at a position of a block. -/
def placeProbe (hooks : Hooks) (block : BlockId) (pos id slot : Nat) : Edit Unit := do
  let pos ← placeTrace hooks block pos id
  let base ← place block pos (.load .ptr (.global hooks.area))
  let (pos, index) ← placeIndex hooks block (pos + 1) slot
  let counter ← place block pos (.gep base index)
  let count ← place block (pos + 1) (.load .i8 counter)
  let more ← place block (pos + 2) (.binary .add count (.ofWord 8 1))
  let _ ← place block (pos + 3) (.store more counter)
  match hooks.previous with
  | none => return ()
  | some previous =>
    let half := Value.ofWord 32 (UInt64.ofNat (slot / 2))
    let _ ← place block (pos + 4) (.store half (.global previous))

end Edit

end EdgeProbe
