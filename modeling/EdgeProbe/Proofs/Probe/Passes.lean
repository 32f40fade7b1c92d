import EdgeProbe.Probe.Instrument
import EdgeProbe.Proofs.Code.Changes
import EdgeProbe.Proofs.Safety.Course
import EdgeProbe.Proofs.Probe.Pads

/-!
# What instrumenting a module does

Instrumenting goes through the functions one after another, twice: to split their landing pads and
to place their probes. In between it selects the sites and declares what probes refer to, and in the
end it defines the accessors (`Pass.instrumentEdges_does`). Tokens and lines are read from the blocks
that probes stand for. Nothing faults there when what those blocks list and call is there, whatever
else is wrong with the module (`Module.recordTokens_yields`, `Module.sourceMap_yields`).
-/

namespace EdgeProbe

open Checked

variable {m : Module} {f : Function} {b : BlockId} {plan : List PlannedProbe}

theorem Dictionary.recordBlock_yields {blk : Block} (hblk : f.block b = .ok blk) (d : Dictionary)
    (id : Nat) : Yields (d.recordBlock f b id) fun _ => True :=
  .after hblk (yields_pure trivial)

theorem Function.blockHasTokens_yields {blk : Block} (hblk : f.block b = .ok blk) :
    Yields (f.blockHasTokens b) fun _ => True :=
  .after hblk (yields_pure trivial)

namespace Module

/-- What the block lists is there, and so is what it calls. -/
def Legible (m : Module) (f : Function) (b : BlockId) : Prop :=
  ∃ blk, f.block b = .ok blk ∧ ∀ id ∈ blk.insts, ∃ inst, f.inst id = .ok inst ∧
    ∀ target args ret, inst.kind = .call (.direct target) args ret → ∃ g, m.function target = .ok g

theorem sourceLines_yields {blocks : List BlockId} (h : ∀ b ∈ blocks, m.Legible f b) :
    Yields (m.sourceLines f blocks) fun _ => True := by
  refine (Yields.each fun b hb => ?_).bind fun _ _ => yields_pure trivial
  obtain ⟨blk, hblk, hinsts⟩ := h b hb
  refine .after hblk ((Yields.each fun i hi => ?_).bind fun _ _ => yields_pure trivial)
  obtain ⟨inst, hinst, hcallee⟩ := hinsts i hi
  refine .after hinst ?_
  have hprogram : Yields (m.isProgram inst.kind) fun _ => True := by
    unfold Module.isProgram
    split
    · next callee args ret hkind =>
      obtain ⟨g, hg⟩ := hcallee callee args ret hkind
      exact .after hg (yields_pure trivial)
    · exact yields_pure trivial
  refine hprogram.bind fun isProgram _ => ?_
  split
  · exact yields_pure trivial
  · exact yields_pure trivial

/-- The blocks that a probe at this site stands for can be told and read. -/
structure SiteLegible (m : Module) (site : ProbeSite) (f : Function) : Prop where
  function : m.function site.function = .ok f
  blocks : Yields (site.blocks f) fun blocks => ∀ b ∈ blocks, m.Legible f b

theorem pointedTo?_yields (m : Module) : Yields m.pointedTo? fun _ => True := by
  unfold Module.pointedTo?
  split
  · exact yields_pure trivial
  · next id hid =>
    obtain ⟨index, hindex, rfl⟩ := Option.map_eq_some_iff.mp hid
    obtain ⟨hlt, -⟩ := Array.findIdx?_eq_some_iff_getElem.mp hindex
    obtain ⟨f, hf⟩ := Module.exists_function (hlt : (FuncId.mk index).index < m.functions.size)
    refine .after hf ?_
    split
    · exact yields_pure trivial
    · exact yields_pure trivial

variable (hplan : ∀ planned ∈ plan, ∃ f, m.SiteLegible planned.site f)

include hplan in
theorem recordTokens_yields (hlayout : ∀ id f, m.function id = .ok f → ∀ b ∈ f.layout,
    ∃ blk, f.block b = .ok blk) : Yields (m.recordTokens plan) fun _ => True := by
  refine (Yields.foldlM fun planned hplanned r => ?_).bind fun r _ => ?_
  · obtain ⟨f, hlegible⟩ := hplan planned hplanned
    refine .after hlegible.function (hlegible.blocks.bind fun blocks hblocks => ?_)
    refine Yields.foldlM fun b hb r => ?_
    obtain ⟨blk, hblk, -⟩ := hblocks b hb
    exact (Dictionary.recordBlock_yields hblk _ _).bind fun _ _ => yields_pure trivial
  refine (Yields.foldlM fun id hid r => ?_).bind fun _ _ => yields_pure trivial
  obtain ⟨f, hf⟩ := Module.exists_function (Module.mem_functionIds.mp hid)
  refine .after hf (Yields.foldlM fun b hb r => ?_)
  split
  · exact yields_pure trivial
  · obtain ⟨blk, hblk⟩ := hlayout id f hf b hb
    exact (Dictionary.recordBlock_yields hblk _ 0).bind fun _ _ => yields_pure trivial

include hplan in
theorem sourceMap_yields : Yields (m.sourceMap plan) fun _ => True := by
  refine (Yields.each fun planned hplanned => ?_).bind fun _ _ => yields_pure trivial
  obtain ⟨f, hlegible⟩ := hplan planned hplanned
  obtain ⟨blocks, hblocks, hall⟩ := hlegible.blocks
  refine .after hlegible.function (.after hblocks ?_)
  exact (sourceLines_yields hall).bind fun _ _ => yields_pure trivial

end Module

end EdgeProbe

namespace EdgeProbe

namespace Module

/-- The module with the global that probes leave half their slot in, in classic mode. -/
def withPrevious (m : Module) (config : Config) : Module × Option GlobalId :=
  if config.denseIds then (m, none)
  else
    let (m, id) := m.getOrInsertGlobal Symbol.previousLocation true
    (m, some id)

/-- The module with the trace hook, in builds whose identifiers are traced. -/
def withTrace (m : Module) (config : Config) : Module × Option FuncId :=
  if config.tracesIds then
    let (m, id) := m.getOrInsertFunction Symbol.traceHook [.i32] .void
    (m, some id)
  else (m, none)

/-- The module with what probes refer to declared. -/
def withHooks (m : Module) (config : Config) : Module × Hooks :=
  let (m, area) := m.getOrInsertGlobal Symbol.areaPointer false
  let (m, previous) := m.withPrevious config
  let (m, trace) := m.withTrace config
  (m, { area, previous, trace })

/-- The module with a function of that name that returns a number. -/
def withAccessor (m : Module) (name : String) (value : Nat) : Module :=
  match m.findFunction? name with
  | some id => m.setFunction id (.returning name value)
  | none => (m.addFunction (.returning name value)).1

/-- Each function has become another one in the way that is told. -/
structure EachBecomes (by' : FuncId → Function → Function → Prop) (m m' : Module) : Prop where
  globals : m'.globals = m.globals
  size : m'.functions.size = m.functions.size
  functions : ∀ id f, m.function id = .ok f → ∃ f', m'.function id = .ok f' ∧ by' id f f'

/-- Each function has been another one. -/
theorem EachBecomes.exists_function {by' : FuncId → Function → Function → Prop} {m m' : Module}
    (h : m.EachBecomes by' m') {id : FuncId} {f' : Function} (hid : m'.function id = .ok f') :
    ∃ f, m.function id = .ok f ∧ by' id f f' := by
  have hlt : id.index < m.functions.size := h.size ▸ index_lt_of_function hid
  have hget : m.function id = .ok m.functions[id.index] :=
    function_eq_ok.mpr (Array.getElem?_eq_getElem hlt)
  obtain ⟨f₁, hid₁, hby⟩ := h.functions id _ hget
  exact ⟨_, hget, Except.ok.inj (hid.symm.trans hid₁) ▸ hby⟩

variable {m : Module} {id : FuncId} {f : Function}

theorem function_addFunction (hf : m.function id = .ok f) (g : Function) :
    (m.addFunction g).1.function id = .ok f := by
  have hlt := index_lt_of_function hf
  rw [function_eq_ok] at hf ⊢
  rw [addFunction, Array.getElem?_push, if_neg hlt.ne, hf]

theorem function_getOrInsertFunction (hf : m.function id = .ok f) (name : String)
    (params : List Ty) (ret : Ty) : (m.getOrInsertFunction name params ret).1.function id = .ok f := by
  unfold getOrInsertFunction
  split
  · exact hf
  · exact function_addFunction hf _

theorem function_getOrInsertGlobal (name : String) (threadLocal : Bool) :
    (m.getOrInsertGlobal name threadLocal).1.function id = m.function id := by
  unfold getOrInsertGlobal
  split <;> rfl

/-- Functions stay what they are when something is declared. -/
theorem function_withHooks (hf : m.function id = .ok f) (config : Config) :
    (m.withHooks config).1.function id = .ok f := by
  have hprevious : ∀ m' : Module, (m'.withPrevious config).1.function id = m'.function id := by
    intro m'
    unfold withPrevious
    split
    · rfl
    · exact function_getOrInsertGlobal _ _
  have htrace : ∀ m' : Module, m'.function id = .ok f → (m'.withTrace config).1.function id = .ok f := by
    intro m' hf
    unfold withTrace
    split
    · exact function_getOrInsertFunction hf _ _ _
    · exact hf
  exact htrace _ ((hprevious _).trans ((function_getOrInsertGlobal _ _).trans hf))

/-- What has another name is not the accessor. -/
theorem function_withAccessor (hf : m.function id = .ok f) {name : String} (hname : f.name ≠ name)
    (value : Nat) : (m.withAccessor name value).function id = .ok f := by
  unfold withAccessor
  split
  · next found hfound =>
    obtain ⟨index, hindex, rfl⟩ := Option.map_eq_some_iff.mp hfound
    obtain ⟨hlt, hnamed, -⟩ := Array.findIdx?_eq_some_iff_getElem.mp hindex
    rw [function_setFunction hlt, if_neg, hf]
    rintro rfl
    rw [function_eq_ok, Array.getElem?_eq_getElem hlt] at hf
    exact hname (Option.some.inj hf ▸ beq_iff_eq.mp hnamed)
  · exact function_addFunction hf _

end Module

namespace Pass

variable {s s' : PassState}

theorem does_update {α : Type} {change : Module → Module × α} {a : α} :
    (update change).Does s a s' ↔
      a = (change s.module).2 ∧ s' = { s with module := (change s.module).1 } := by
  change Except.ok (Except.ok (change s.module).2, { s with module := (change s.module).1 }) = _ ↔ _
  simp [eq_comm]

theorem declarePrevious_does {config : Config} {previous : Option GlobalId}
    (h : (Hooks.declarePrevious config).Does s previous s') :
    s.module.withPrevious config = (s'.module, previous) := by
  unfold Hooks.declarePrevious at h
  unfold Module.withPrevious
  split at h
  · next hdense =>
    obtain ⟨rfl, rfl⟩ := does_pure.mp h
    rw [if_pos hdense]
  · next hdense =>
    obtain ⟨id, s₁, hupdate, h⟩ := does_bind.mp h
    obtain ⟨rfl, rfl⟩ := does_update.mp hupdate
    obtain ⟨rfl, rfl⟩ := does_pure.mp h
    rw [if_neg hdense]

theorem declareTrace_does {config : Config} {trace : Option FuncId}
    (h : (Hooks.declareTrace config).Does s trace s') :
    s.module.withTrace config = (s'.module, trace) := by
  unfold Hooks.declareTrace at h
  unfold Module.withTrace
  cases htraces : config.tracesIds with
  | false =>
    rw [htraces] at h
    obtain ⟨rfl, rfl⟩ := does_pure.mp h
    rfl
  | true =>
    rw [htraces] at h
    obtain ⟨id, s₁, hupdate, h⟩ := does_bind.mp h
    obtain ⟨rfl, rfl⟩ := does_update.mp hupdate
    obtain ⟨rfl, rfl⟩ := does_pure.mp h
    rfl

theorem declare_does {config : Config} {hooks : Hooks} (h : (Hooks.declare config).Does s hooks s') :
    s.module.withHooks config = (s'.module, hooks) := by
  obtain ⟨area, s₁, harea, h⟩ := does_bind.mp h
  obtain ⟨rfl, rfl⟩ := does_update.mp harea
  obtain ⟨previous, s₂, hprevious, h⟩ := does_bind.mp h
  obtain ⟨trace, s₃, htrace, h⟩ := does_bind.mp h
  obtain ⟨rfl, rfl⟩ := does_pure.mp h
  rw [Module.withHooks]
  dsimp only at hprevious ⊢
  rw [declarePrevious_does hprevious]
  dsimp only
  rw [declareTrace_does htrace]

theorem defineAccessor_does {name : String} {value : Nat} {u : Unit}
    (h : (defineAccessor name value).Does s u s') : s'.module = s.module.withAccessor name value := by
  obtain ⟨-, rfl⟩ := does_update.mp h
  unfold Module.withAccessor
  dsimp only
  cases s.module.findFunction? name <;> rfl

/-- The pass changes one function, in the way that is told. -/
def Touches (x : Pass Unit) (id : FuncId) (by' : Function → Function → Prop) : Prop :=
  ∀ s s', x.Does s () s' → ∃ f f', s.module.function id = .ok f ∧ by' f f' ∧
    s'.module = s.module.setFunction id f'

theorem touches_inFunction {id : FuncId} {edit : Edit Unit} :
    (inFunction id edit).Touches id fun f f' => edit.Does f () f' := by
  intro s s' h
  obtain ⟨f, f', hid, hedit, rfl⟩ := does_inFunction.mp h
  exact ⟨f, f', hid, hedit, rfl⟩

/-- Passes that change one function each take every function through those that are its own. -/
theorem Does.eachBecomes {α : Type} {g : α → Pass Unit} (key : α → FuncId)
    {by' : α → Function → Function → Prop} (hg : ∀ a, (g a).Touches (key a) (by' a)) {l : List α}
    {u : Unit} (h : (l.forM g).Does s u s') :
    s.module.EachBecomes (fun id => Edit.InTurn by' (l.filter fun a => key a == id)) s'.module := by
  induction l generalizing s with
  | nil =>
    obtain ⟨-, rfl⟩ := does_pure.mp h
    exact ⟨rfl, rfl, fun id f hid => ⟨f, hid, .nil⟩⟩
  | cons a rest ih =>
    obtain ⟨s₁, ha, hrest⟩ := does_forM.mp h
    obtain ⟨f₀, f₁, hkey, hby, hs₁⟩ := hg a s s₁ ha
    have hlater := ih hrest
    refine ⟨?_, ?_, fun id f hid => ?_⟩
    · rw [hlater.globals, hs₁]
      rfl
    · rw [hlater.size, hs₁]
      simp [Module.setFunction]
    have hfind : (s.module.setFunction (key a) f₁).function id = _ :=
      Module.function_setFunction (Module.index_lt_of_function hkey)
    rw [← hs₁] at hfind
    by_cases heq : id = key a
    · subst heq
      rw [if_pos rfl] at hfind
      obtain ⟨f', hf', hturns⟩ := hlater.functions _ f₁ hfind
      obtain rfl := Except.ok.inj (hid.symm.trans hkey)
      refine ⟨f', hf', ?_⟩
      rw [List.filter_cons_of_pos (by simp)]
      exact .cons hby hturns
    · rw [if_neg heq, hid] at hfind
      obtain ⟨f', hf', hturns⟩ := hlater.functions id f hfind
      refine ⟨f', hf', ?_⟩
      rw [List.filter_cons_of_neg (by simpa using Ne.symm heq)]
      exact hturns

/-- A function whose pads have been split, if it has a body. -/
def PadsSplit (f f' : Function) : Prop :=
  f.isDeclaration = true ∧ f' = f ∨
    f.isDeclaration = false ∧ ∃ count, Edit.splitSharedLandingPads.Does f count f'

theorem touches_splitPads (id : FuncId) : (splitPads id).Touches id PadsSplit := by
  intro s s' h
  obtain ⟨f, s₁, hquery, h⟩ := does_bind.mp h
  obtain ⟨hid, rfl⟩ := does_query.mp hquery
  split at h
  · next hbody =>
    obtain ⟨-, rfl⟩ := does_pure.mp h
    exact ⟨f, f, hid, .inl ⟨hbody, rfl⟩, (Module.setFunction_self hid).symm⟩
  · next hbody =>
    obtain ⟨count, s₁, hsplit, h⟩ := does_bind.mp h
    obtain ⟨f₀, f', hid', hedit, rfl⟩ := does_inFunction.mp hsplit
    obtain rfl := Except.ok.inj (hid.symm.trans hid')
    refine ⟨f, f', hid, .inr ⟨Bool.eq_false_iff.mpr hbody, count, hedit⟩, ?_⟩
    split at h
    · exact module_of_report h
    · obtain ⟨-, rfl⟩ := does_pure.mp h
      rfl

namespace PadsSplit

variable {m : Module} {f f' : Function} (hwf : f.WellFormed m) (h : PadsSplit f f')
include hwf h

/-- What each split of a landing pad keeps is kept. -/
theorem keeps (inv : Function → Prop) (hstep : ∀ pad f₁ f₂, inv f₁ → f₁.PadSplit pad f₂ → inv f₂)
    (hf : inv f) : inv f' := by
  obtain ⟨-, rfl⟩ | ⟨-, count, h⟩ := h
  · exact hf
  obtain ⟨shared, -, -, hturns⟩ := Edit.splitSharedLandingPads_does hwf h
  exact hturns.keeps inv (fun pad _ f₁ f₂ => hstep pad f₁ f₂) hf

theorem framed : f'.Framed :=
  h.keeps hwf Function.Framed (fun _ _ _ hf₁ hsplit => hsplit.framed hf₁)
    ⟨hwf.named.whole, hwf.closed.inArena, hwf.nodup⟩

theorem closed : f'.Closed :=
  h.keeps hwf Function.Closed (fun _ _ _ hf₁ hsplit => hsplit.closed hf₁) hwf.closed

theorem name : f'.name = f.name :=
  h.keeps hwf (fun f₁ => f₁.name = f.name)
    (fun _ _ _ hf₁ hsplit => hsplit.sameHeader.name.trans hf₁) rfl

/-- Splitting landing pads adds phis and landing pads only. -/
theorem kind_cases {i : InstId} {kind : InstKind} (hkind : f'.kind i = .ok kind)
    (hnot : kind.isPhi = false) : f.kind i = .ok kind ∨ kind = .landingPad := by
  refine h.keeps hwf (fun f₁ => ∀ i kind, f₁.kind i = .ok kind → kind.isPhi = false →
    f.kind i = .ok kind ∨ kind = .landingPad) (fun pad f₁ f₂ hf₁ hsplit i kind hkind hnot => ?_)
    (fun _ _ hkind _ => .inl hkind) i kind hkind hnot
  obtain hold | hpad := hsplit.kind_cases hkind hnot
  · exact hf₁ i kind hold hnot
  · exact .inr hpad

end PadsSplit

/-- What instrumenting a module has come to, from one step to the next. -/
structure Instrumentation (config : Config) (drawn : UInt64) (m : Module)
    (report : InstrumentReport) (m' : Module) where
  mapSize : Nat
  /-- The module with its landing pads split. -/
  split : Module
  pointedTo : Option (List String)
  sites : List ProbeSite
  /-- That with what probes refer to declared. -/
  declared : Module
  hooks : Hooks
  /-- That with its probes placed. -/
  placed : Module

/-- The probes that are planned are numbered as their sites are. -/
theorem mem_planProbes {config : Config} {mapSize : Nat} {seed : UInt64} {sites : List ProbeSite}
    {planned : PlannedProbe} : planned ∈ planProbes config mapSize seed sites ↔
      ∃ n, sites[n]? = some planned.site ∧ planned.id = n + 1 ∧
        planned.slot = if config.denseIds then n + 1
          else Random.below (Nat.log2 mapSize) (Random.word seed n) := by
  unfold planProbes
  rw [List.mem_map]
  constructor
  · rintro ⟨⟨site, n⟩, hmem, rfl⟩
    exact ⟨n, List.mk_mem_zipIdx_iff_getElem?.mp hmem, rfl, rfl⟩
  · obtain ⟨site, id, slot⟩ := planned
    rintro ⟨n, hsite, rfl, rfl⟩
    exact ⟨(site, n), List.mk_mem_zipIdx_iff_getElem?.mpr hsite, rfl⟩

namespace Instrumentation

variable {config : Config} {drawn : UInt64} {m m' : Module} {report : InstrumentReport}

/-- The probes, with the numbers and slots that they have. -/
def plan (i : Instrumentation config drawn m report m') : List PlannedProbe :=
  planProbes config i.mapSize (config.seed.getD drawn) i.sites

def areaSize (i : Instrumentation config drawn m report m') : Nat :=
  if config.denseIds then i.plan.length + 1 else i.mapSize

/-- The steps follow from one another. -/
structure Valid (i : Instrumentation config drawn m report m') : Prop where
  mapSize : config.mapSize = .ok i.mapSize
  split : m.EachBecomes (fun _ => PadsSplit) i.split
  pointedTo : i.split.pointedTo? = .ok i.pointedTo
  sites : (i.split.probeSites config i.pointedTo).run = .ok (.ok i.sites)
  dictionary : i.split.recordTokens i.plan = .ok report.dictionary
  sourceMap : config.isCoverage = true → ∃ map, i.split.sourceMap i.plan = .ok map ∧
    report.sourceMap = some map
  declared : i.split.withHooks config = (i.declared, i.hooks)
  placed : i.declared.EachBecomes (fun id => Edit.InTurn
    (fun planned f f' => (Edit.placePlanned i.hooks planned).Does f () f')
    (i.plan.filter fun planned => planned.site.function == id)) i.placed
  accessors : m' = (i.placed.withAccessor Symbol.areaSize i.areaSize).withAccessor Symbol.blockCount
    (i.plan.length + 1)
  probes : report.probes = i.plan.length
  reportedSize : report.areaSize = i.areaSize
  blockCount : report.blockCount = i.plan.length + 1

end Instrumentation

theorem splitAllPads_does {u : Unit} (h : (s.module.functionIds.forM splitPads).Does s u s') :
    s.module.EachBecomes (fun _ => PadsSplit) s'.module := by
  have heach := h.eachBecomes id touches_splitPads
  refine ⟨heach.globals, heach.size, fun i f hi => ?_⟩
  obtain ⟨f', hf', hturns⟩ := heach.functions i f hi
  have hnodup : s.module.functionIds.Nodup := List.nodup_range.map fun _ _ heq => FuncId.mk.inj heq
  have hmem := Module.mem_functionIds.mpr (Module.index_lt_of_function hi)
  have hone : s.module.functionIds.filter (fun a => id a == i) = [i] := by
    simp [List.filter_beq, List.count_eq_one_of_mem hnodup hmem]
  rw [hone] at hturns
  cases hturns with
  | cons hsplit hrest =>
    cases hrest
    exact ⟨f', hf', hsplit⟩

theorem module_of_info {message : String} {pairs : List (String × String)} {u : Unit}
    (h : (info message pairs).Does s u s') : s'.module = s.module :=
  module_of_report h

theorem selectSites_does {config : Config} {pointedTo : Option (List String)}
    {sites : List ProbeSite} (h : (selectSites config pointedTo).Does s sites s') :
    (s.module.probeSites config pointedTo).run = .ok (.ok sites) ∧ s = s' := by
  obtain ⟨result, s₁, hquery, h⟩ := does_bind.mp h
  obtain ⟨hresult, rfl⟩ := does_query.mp hquery
  split at h
  · obtain ⟨rfl, rfl⟩ := does_pure.mp h
    exact ⟨hresult, rfl⟩
  · exact absurd h not_does_throw

/-- Of the module only the number of probes is reported in the end. -/
theorem silent_reportProbes (config : Config) (probes areaSize : Nat) :
    (reportProbes config probes areaSize).Silent := by
  unfold reportProbes
  split <;> exact silent_report _

section

variable {config : Config} {drawn : UInt64} {mapSize : Nat} {report : InstrumentReport}

/-- What follows once the tokens and the lines have been recorded. -/
theorem placePlan_does {m : Module} {pointedTo : Option (List String)} {sites : List ProbeSite}
    {dictionary : Dictionary} {sourceMap : Option SourceMap}
    (hmapSize : config.mapSize = .ok mapSize) (hsplit : m.EachBecomes (fun _ => PadsSplit) s.module)
    (hpointedTo : s.module.pointedTo? = .ok pointedTo)
    (hsites : (s.module.probeSites config pointedTo).run = .ok (.ok sites))
    (htokens : s.module.recordTokens (planProbes config mapSize (config.seed.getD drawn) sites) =
      .ok dictionary)
    (hlines : config.isCoverage = true → ∃ map, s.module.sourceMap
      (planProbes config mapSize (config.seed.getD drawn) sites) = .ok map ∧ sourceMap = some map)
    (h : (do
      let hooks ← Hooks.declare config
      let plan := planProbes config mapSize (config.seed.getD drawn) sites
      plan.forM fun planned => inFunction planned.site.function (Edit.placePlanned hooks planned)
      let probes := plan.length
      let areaSize := if config.denseIds then probes + 1 else mapSize
      defineAccessor Symbol.areaSize areaSize
      defineAccessor Symbol.blockCount (probes + 1)
      reportProbes config probes areaSize
      return {
        probes, areaSize, blockCount := probes + 1, seed := config.seed.getD drawn, dictionary,
        sourceMap, buildId := drawBuildId config (config.seed.getD drawn) probes } :
          Pass InstrumentReport).Does s report s') :
    ∃ i : Instrumentation config drawn m report s'.module, i.Valid := by
  obtain ⟨hooks, s₁, hdeclare, h⟩ := does_bind.mp h
  obtain ⟨u, s₂, hplace, h⟩ := does_bind.mp h
  obtain ⟨u, s₃, harea, h⟩ := does_bind.mp h
  obtain ⟨u, s₄, hcount, h⟩ := does_bind.mp h
  obtain ⟨u, s₅, hreport, h⟩ := does_bind.mp h
  obtain ⟨rfl, rfl⟩ := does_pure.mp h
  exact ⟨⟨mapSize, s.module, pointedTo, sites, s₁.module, hooks, s₂.module⟩, {
    mapSize := hmapSize
    split := hsplit
    pointedTo := hpointedTo
    sites := hsites
    dictionary := htokens
    sourceMap := hlines
    declared := declare_does hdeclare
    placed := hplace.eachBecomes (fun planned : PlannedProbe => planned.site.function)
      fun planned => touches_inFunction
    accessors := by
      rw [silent_reportProbes config _ _ s₄ () s₅ hreport, defineAccessor_does hcount,
        defineAccessor_does harea]
      rfl
    probes := rfl
    reportedSize := rfl
    blockCount := rfl }⟩

/-- What follows once the landing pads have been split. -/
theorem placeAll_does {m : Module} {pointedTo : Option (List String)}
    (hmapSize : config.mapSize = .ok mapSize) (hsplit : m.EachBecomes (fun _ => PadsSplit) s.module)
    (hpointedTo : s.module.pointedTo? = .ok pointedTo)
    (h : (do
      let sites ← selectSites config pointedTo
      let seed := config.seed.getD drawn
      info ("The seed used for instrumentation is " ++ toString seed.toNat)
      let plan := planProbes config mapSize seed sites
      let dictionary ← query fun m => m.recordTokens plan
      let sourceMap ←
        if config.isCoverage then do pure (some (← query fun m => m.sourceMap plan)) else pure none
      let hooks ← Hooks.declare config
      plan.forM fun planned => inFunction planned.site.function (Edit.placePlanned hooks planned)
      let probes := plan.length
      let areaSize := if config.denseIds then probes + 1 else mapSize
      defineAccessor Symbol.areaSize areaSize
      defineAccessor Symbol.blockCount (probes + 1)
      reportProbes config probes areaSize
      return {
        probes, areaSize, blockCount := probes + 1, seed, dictionary, sourceMap
        buildId := drawBuildId config seed probes } : Pass InstrumentReport).Does s report s') :
    ∃ i : Instrumentation config drawn m report s'.module, i.Valid := by
  obtain ⟨sites, s₁, hselected, h⟩ := does_bind.mp h
  obtain ⟨hsites, rfl⟩ := selectSites_does hselected
  obtain ⟨u, s₁, hinfo, h⟩ := does_bind.mp h
  rw [← module_of_info hinfo] at hsplit hpointedTo hsites
  dsimp only at h
  obtain ⟨dictionary, s₂, hquery, h⟩ := does_bind.mp h
  obtain ⟨htokens, rfl⟩ := does_query.mp hquery
  split at h
  · obtain ⟨map, s₂, hquery, h⟩ := does_bind.mp h
    obtain ⟨hmap, rfl⟩ := does_query.mp hquery
    obtain ⟨sourceMap, s₂, hpure, h⟩ := does_bind.mp h
    obtain ⟨rfl, rfl⟩ := does_pure.mp hpure
    exact placePlan_does (s := s₁) hmapSize hsplit hpointedTo hsites htokens
      (fun _ => ⟨map, hmap, rfl⟩) h
  · next hcoverage =>
    obtain ⟨sourceMap, s₂, hpure, h⟩ := does_bind.mp h
    obtain ⟨rfl, rfl⟩ := does_pure.mp hpure
    exact placePlan_does (s := s₁) hmapSize hsplit hpointedTo hsites htokens
      (fun hc => absurd hc hcoverage) h

end

/-- What instrumenting a module does. -/
theorem instrumentEdges_does {config : Config} {drawn : UInt64} {report : InstrumentReport}
    (h : (instrumentEdges config drawn).Does s report s') :
    ∃ i : Instrumentation config drawn s.module report s'.module, i.Valid := by
  unfold instrumentEdges at h
  cases hmapSize : config.mapSize with
  | error cause =>
    rw [hmapSize] at h
    exact absurd h not_does_throw
  | ok mapSize =>
    rw [hmapSize] at h
    obtain ⟨size, s₁, hsize, h⟩ := does_bind.mp h
    obtain ⟨rfl, rfl⟩ := does_pure.mp hsize
    obtain ⟨ids, s₁, hids, h⟩ := does_bind.mp h
    obtain ⟨rfl, rfl⟩ := does_functionIds.mp hids
    obtain ⟨u₁, s₁, hsplit, h⟩ := does_bind.mp h
    have hsplit := splitAllPads_does hsplit
    obtain ⟨pointedTo, s₂, hquery, h⟩ := does_bind.mp h
    obtain ⟨hpointedTo, rfl⟩ := does_query.mp hquery
    cases hknown : pointedTo.isSome with
    | false =>
      rw [hknown] at h
      exact placeAll_does hmapSize hsplit hpointedTo h
    | true =>
      rw [hknown] at h
      obtain ⟨u₂, s₂, hinfo, h⟩ := does_bind.mp h
      have hs₂ := module_of_report hinfo
      exact placeAll_does hmapSize (hs₂ ▸ hsplit) (hs₂ ▸ hpointedTo) h

end Pass

end EdgeProbe
