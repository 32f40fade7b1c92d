import Std.Data.TreeSet
import EdgeProbe.Probe.Hooks
import EdgeProbe.Probe.LandingPad
import EdgeProbe.Probe.Site
import EdgeProbe.Probe.SourceMap
import EdgeProbe.Random.ChaCha
import EdgeProbe.Settings.Environment

/-!
# Instrumenting edges

Sites are numbered from one. A probe goes into the target of its edge when that is the only edge
into it, and otherwise into a new block on the edge. Tokens are recorded under the identifiers of
the probes that stand for their block, before any probe is placed.
-/

namespace EdgeProbe

/-- A site with the identifier and the slot of its probe. -/
structure PlannedProbe where
  site : ProbeSite
  id : Nat
  slot : Nat
  deriving DecidableEq, Inhabited

structure InstrumentReport where
  probes : Nat
  areaSize : Nat
  /-- One more than the last identifier. -/
  blockCount : Nat
  seed : UInt64
  buildId : UInt64
  dictionary : Dictionary
  /-- In coverage builds only. -/
  sourceMap : Option SourceMap
  deriving DecidableEq, Inhabited

namespace Function

/-- Gives a phi that is entered from `source` the same value for `copy`. -/
def copyIncoming (source copy : BlockId) : InstKind → InstKind
  | .phi ty incoming =>
    match incoming.find? fun entry => entry.2 == source with
    | some entry => .phi ty (incoming ++ [(entry.1, copy)])
    | none => .phi ty incoming
  | kind => kind

/-- Gives the phis of a block the same value for `copy` as for `source`. -/
def copyPhiIncoming (f : Function) (block source copy : BlockId) : Checked Function := do
  (← f.phis block).foldlM (fun f phi =>
    f.modifyInst phi fun i => { i with kind := copyIncoming source copy i.kind }) f

end Function

namespace Edit

/-- Puts a probe at the entry of a function. -/
def probeEntry (hooks : Hooks) (id slot : Nat) : Edit Unit := do
  match (← get).entryBlock? with
  | none => return ()
  | some entry =>
    let pos ← query (·.firstInsertionPoint entry)
    placeProbe hooks entry pos id slot

/-- Puts a probe into the target of the only edge into it, which is named for that. -/
def probeTarget (hooks : Hooks) (target : BlockId) (id slot : Nat) : Edit Unit := do
  let b ← query (·.block target)
  if Text.contains b.name Symbol.probeBlock then
    throw (.alreadyInstrumented (← get).name b.name)
  let name := Symbol.probeBlock ++ b.givenName ++ "." ++ toString id
  update fun f => f.modifyBlock target fun b => { b with name }
  let pos ← query (·.firstInsertionPoint target)
  placeProbe hooks target pos id slot

/-- Puts a probe into a new block on an edge. -/
def probeEdge (hooks : Hooks) (block : BlockId) (index : Nat) (target : BlockId) (id slot : Nat) :
    Edit Unit := do
  let probe ← addBlockBefore (Symbol.probeBlock ++ "New." ++ toString id) target
  setTerminator probe (.br target)
  update fun f => f.redirectSuccessor block index probe
  if (← query (·.successors block)).contains target then
    update fun f => f.copyPhiIncoming target block probe
  else update fun f => f.replacePhiIncomingBlock target block probe
  placeProbe hooks probe 0 id slot

def placePlanned (hooks : Hooks) (planned : PlannedProbe) : Edit Unit := do
  match planned.site with
  | .entry _ => probeEntry hooks planned.id planned.slot
  | .edge _ block index =>
    match (← query (·.successors block))[index]? with
    | none => return ()
    | some target =>
      if (← query (·.singlePredecessor? target)) == some block then
        probeTarget hooks target planned.id planned.slot
      else probeEdge hooks block index target planned.id planned.slot

end Edit

/-- Numbers sites from one and gives each a slot: its identifier or, in classic mode, a number that
is drawn below the largest power of two within the map. -/
def planProbes (config : Config) (mapSize : Nat) (seed : UInt64) (sites : List ProbeSite) :
    List PlannedProbe :=
  sites.zipIdx.map fun (site, n) =>
    { site
      id := n + 1
      slot := if config.denseIds then n + 1
        else Random.below (Nat.log2 mapSize) (Random.word seed n) }

/-- The build id comes from the words after those that slots were drawn from. -/
def drawBuildId (config : Config) (seed : UInt64) (probes : Nat) : UInt64 :=
  let drawn := if config.denseIds then 0 else probes
  Random.joined (Random.word seed drawn) (Random.word seed (drawn + 1))

/-- Blocks of a module come by function, and those of one function by index. -/
def compareBlocks : FuncId × BlockId → FuncId × BlockId → Ordering :=
  compareLex (compareOn Prod.fst) (compareOn Prod.snd)

instance : Std.TransCmp compareBlocks :=
  inferInstanceAs (Std.TransCmp (compareLex (compareOn Prod.fst) (compareOn Prod.snd)))

instance : Std.LawfulEqCmp compareBlocks where
  compare_self := Std.ReflCmp.compare_self
  eq_of_compare h := by
    have ⟨hfunction, hblock⟩ := Ordering.then_eq_eq.mp h
    exact Prod.ext (Std.LawfulEqOrd.eq_of_compare hfunction) (Std.LawfulEqOrd.eq_of_compare hblock)

/-- The tokens recorded so far, and the blocks that some probe stands for. -/
structure Recording where
  dictionary : Dictionary := {}
  reached : Std.TreeSet (FuncId × BlockId) compareBlocks := ∅

namespace Module

variable (m : Module)

/-- Records the tokens of the blocks that a probe stands for. -/
def recordProbe (r : Recording) (planned : PlannedProbe) : Checked Recording := do
  let function := planned.site.function
  let f ← m.function function
  (← planned.site.blocks f).foldlM (fun r block => do
    return {
      dictionary := ← r.dictionary.recordBlock f block planned.id
      reached := r.reached.insert (function, block) }) r

/-- Records the tokens of the live blocks of a function that no probe stands for. -/
def recordRest (r : Recording) (function : FuncId) : Checked Recording := do
  let f ← m.function function
  f.layout.foldlM (fun r block => do
    if r.reached.contains (function, block) then return r
    else return { r with dictionary := ← r.dictionary.recordBlock f block 0 }) r

/-- The dictionary of a module with these probes. -/
def recordTokens (plan : List PlannedProbe) : Checked Dictionary := do
  let r ← plan.foldlM m.recordProbe {}
  return (← m.functionIds.foldlM m.recordRest r).dictionary

def linesOf (planned : PlannedProbe) : Checked (Nat × String) := do
  let f ← m.function planned.site.function
  return (planned.id, ← m.sourceLines f (← planned.site.blocks f))

def sourceMap (plan : List PlannedProbe) : Checked SourceMap := do
  return ⟨← plan.mapM m.linesOf⟩

end Module

/-- A function that returns a number. -/
def Function.returning (name : String) (value : Nat) : Function :=
  { name
    params := []
    ret := .i32
    blocks := #[⟨"entry", [], .ret (some (.ofWord 32 (UInt64.ofNat value)))⟩]
    layout := [⟨0⟩] }

namespace Pass

/-- Splits the shared landing pads of a function. -/
def splitPads (id : FuncId) : Pass Unit := do
  let f ← query (·.function id)
  if f.isDeclaration then return ()
  let count ← inFunction id Edit.splitSharedLandingPads
  if 0 < count then
    debug ("Split " ++ toString count ++ " shared landing pad(s) in " ++ f.name)

def selectSites (config : Config) (pointedTo : Option (List String)) : Pass (List ProbeSite) := do
  match ← query fun m => (m.probeSites config pointedTo).run with
  | .ok sites => return sites
  | .error cause => throw cause

/-- Makes a function return a number, whatever it did before. -/
def defineAccessor (name : String) (value : Nat) : Pass Unit :=
  update fun m =>
    let f := Function.returning name value
    match m.findFunction? name with
    | some id => (m.setFunction id f, ())
    | none => ((m.addFunction f).1, ())

/-- The closing remark. -/
def reportProbes (config : Config) (probes areaSize : Nat) : Pass Unit := do
  if probes = 0 then warn "No instrumentation targets found."
  else
    info ("Instrumented " ++ toString probes ++ " locations (" ++ config.hardening.text ++
        " mode).")
      [("counter", config.counter.text), ("area_size", toString areaSize)]

/-- Instruments a module. `drawn` is the seed of runs whose settings do not give one. -/
def instrumentEdges (config : Config) (drawn : UInt64) : Pass InstrumentReport := do
  let mapSize ←
    match config.mapSize with
    | .ok size => pure size
    | .error cause => throw cause
  (← functionIds).forM splitPads
  let pointedTo ← query Module.pointedTo?
  if pointedTo.isSome then info "Using pointer analysis for function pointers"
  let sites ← selectSites config pointedTo
  let seed := config.seed.getD drawn
  info ("The seed used for instrumentation is " ++ toString seed.toNat)
  let plan := planProbes config mapSize seed sites
  let dictionary ← query fun m => m.recordTokens plan
  let sourceMap ←
    if config.isCoverage then do pure (some (← query fun m => m.sourceMap plan)) else pure none
  let hooks ← Hooks.declare config
  plan.forM fun planned => inFunction planned.site.function (Edit.placePlanned hooks planned)
  let probes := plan.length
  let areaSize := if config.denseIds then probes + 1 else mapSize
  defineAccessor Symbol.areaSize areaSize
  defineAccessor Symbol.blockCount (probes + 1)
  reportProbes config probes areaSize
  return {
    probes, areaSize, blockCount := probes + 1, seed, dictionary, sourceMap
    buildId := drawBuildId config seed probes }

end Pass

end EdgeProbe
