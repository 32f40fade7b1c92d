import EdgeProbe.Proofs.Coverage.Fires
import EdgeProbe.Proofs.Coverage.Harmless
import EdgeProbe.Proofs.Probe.Ways

/-!
# Probes do not change the program

A module with probes does what it did without them. Every call that returns, and neither reads nor
writes what probes work with, returns the same once the module is instrumented, and leaves the same
in the rest of memory. Main statement: `Module.Accepted.unchanged`.
-/

namespace EdgeProbe

/-! ## The functions of an instrumented module -/

namespace Module

variable {m m' : Module}

/-- Where functions have the same names at the same places, they are found alike. -/
theorem findFunction?_of_names (h : ∀ id f, m.function id = .ok f → ∃ f', m'.function id = .ok f' ∧
      f'.name = f.name) {name : String} {id : FuncId} (hid : m.findFunction? name = some id) :
    m'.findFunction? name = some id := by
  obtain ⟨index, hindex, rfl⟩ := Option.map_eq_some_iff.mp hid
  obtain ⟨hlt, hname, hfirst⟩ := Array.findIdx?_eq_some_iff_getElem.mp hindex
  have hsame : ∀ j, (hj : j < m.functions.size) → ∃ hj' : j < m'.functions.size,
      m'.functions[j].name = m.functions[j].name := by
    intro j hj
    obtain ⟨f', hf', hname⟩ := h ⟨j⟩ _ (function_eq_ok.mpr (Array.getElem?_eq_getElem hj))
    obtain ⟨hj', rfl⟩ := Array.getElem?_eq_some_iff.mp (function_eq_ok.mp hf')
    exact ⟨hj', hname⟩
  obtain ⟨hlt', hname'⟩ := hsame index hlt
  refine Option.map_eq_some_iff.mpr ⟨index, ?_, rfl⟩
  refine Array.findIdx?_eq_some_iff_getElem.mpr ⟨hlt', by rwa [hname'], fun j hj => ?_⟩
  obtain ⟨hj', hname''⟩ := hsame j (hj.trans hlt)
  rw [hname'']
  exact hfirst j hj

end Module

namespace Pass.Instrumentation

variable {config : Config} {drawn : UInt64} {m m' : Module} {report : InstrumentReport}
  {i : Instrumentation config drawn m report m'} {id : FuncId} {f f₀ f' : Function}

/-- The map has room for each slot. -/
theorem Valid.admits (hi : i.Valid) (hsymbols : m.WithoutSymbols) {l : ProbeLayout}
    (hsize : l.size = report.areaSize) {planned : PlannedProbe} (hplanned : planned ∈ i.plan) :
    l.Admits i.hooks planned.slot := by
  obtain ⟨n, hn, hid, hslot⟩ := mem_planProbes.mp hplanned
  cases hdense : config.denseIds with
  | true =>
    refine ⟨?_, fun g hg => ?_⟩
    · rw [hslot, if_pos hdense, ← hid, hsize, hi.areaSize_dense hdense]
      exact (hi.id_bounds hplanned).2
    · rw [(hi.declared_eq hsymbols).2, hdense] at hg
      cases hg
  | false =>
    have hlt : planned.slot < 2 ^ Nat.log2 l.size := by
      rw [hsize, hi.reportedSize, areaSize, hdense, if_neg Bool.false_ne_true]
      exact hi.slot_lt hdense hplanned
    have hpos : l.size ≠ 0 := by
      rw [hsize, hi.reportedSize, areaSize, hdense, if_neg Bool.false_ne_true]
      exact (Config.mapSize_bounds hi.mapSize).1.ne'
    exact ⟨hlt.trans_le (Nat.log2_self_le hpos), fun _ _ => hlt⟩

/-- What has no body is what it was. -/
theorem Valid.function_of_bodiless (hi : i.Valid) (hm : m.Accepted) (hsymbols : m.WithoutSymbols)
    (hid : (m.withHooks config).1.function id = .ok f₀) (hbody : f₀.isDeclaration = true) :
    m'.function id = .ok f₀ := by
  have hdeclared : i.declared.function id = .ok f₀ := by
    rw [(hi.declared_eq hsymbols).1, Module.function_eq_ok, Array.getElem?_append, hi.split.size]
    rw [Module.withHooks_eq hsymbols, Module.function_eq_ok, Array.getElem?_append] at hid
    split at hid
    · next hlt =>
      obtain ⟨f, hf, hsplit⟩ := hi.split.functions id f₀ (Module.function_eq_ok.mpr hid)
      obtain ⟨-, rfl⟩ | ⟨hno, -⟩ := hsplit
      · rw [if_pos hlt]
        exact Module.function_eq_ok.mp hf
      · cases hbody.symm.trans hno
    · next hge => rwa [if_neg hge]
  obtain ⟨f', hid', -⟩ := hi.placed.functions id f₀ hdeclared
  obtain rfl | ⟨hno, -⟩ := hi.placed_cases hm hdeclared hid'
  · exact hi.function_eq hsymbols hid'
  · cases hbody.symm.trans hno

/-- What has a body is one of the program. -/
theorem function_of_withHooks (hsymbols : m.WithoutSymbols)
    (hid : (m.withHooks config).1.function id = .ok f₀) (hbody : f₀.isDeclaration = false) :
    m.function id = .ok f₀ := by
  rw [Module.withHooks_eq hsymbols, Module.function_eq_ok, Array.getElem?_append] at hid
  split at hid
  · exact Module.function_eq_ok.mpr hid
  · have hmem := Array.mem_of_getElem? hid
    unfold Module.hookFunctions at hmem
    split at hmem
    · obtain rfl := Array.mem_singleton.mp hmem
      cases hbody
    · simp at hmem

/-- Probes are woven into each function that has a body. -/
theorem Valid.exists_woven (hi : i.Valid) (hm : m.Accepted) (honce : m.ListsOnce) (hroot : m.Rooted)
    (hsymbols : m.WithoutSymbols) {w : World} {l : ProbeLayout} (hw : w.Supplies i.hooks l)
    (hsize : l.size = report.areaSize) (hid : m.function id = .ok f₀)
    (hbody : f₀.isDeclaration = false) : ∃ f' through, m'.function id = .ok f' ∧
      f'.name = f₀.name ∧ w.WovenBody l.Hides l.Ready f₀ f' through := by
  have hsound := hm.sound honce id f₀ hid hbody
  obtain ⟨f, hsplit, ⟨hno, -⟩ | ⟨-, count, hdoes⟩⟩ := hi.split.functions id f₀ hid
  · cases hno.symm.trans hbody
  have hways := hsound.sameWays (hroot id f₀ hid) hdoes
  have hdeclared := Module.function_withHooks hsplit config
  rw [hi.declared] at hdeclared
  have hbody₁ : f.isDeclaration = false := by
    obtain ⟨e, he⟩ : ∃ e, f₀.entryBlock? = some e := by
      rw [Function.isDeclaration, List.isEmpty_eq_false_iff] at hbody
      exact Option.ne_none_iff_exists'.mp fun hnone => hbody (List.head?_eq_none_iff.mp hnone)
    have hentry := hways.entry e he
    rw [Function.isDeclaration, List.isEmpty_eq_false_iff]
    intro hnil
    rw [Function.entryBlock?, hnil] at hentry
    cases hentry
  obtain ⟨-, hf⟩ := hi.splitting_declared hm honce hroot hsymbols hdeclared hbody₁
  have hframed := hi.framed hm hsplit hbody₁
  obtain ⟨f', hid', hturns⟩ := hi.placed.functions id f hdeclared
  -- The probes are placed one after the other.
  obtain ⟨stands, hstands, hplacing, hphis, htypes⟩ := (Module.placing_start (fun _ => hi.isSite)
    (hi.pairwise_plan hm) hsplit hframed i.hooks).all_kept (hi.declared_hooks hsymbols) hf (.refl f)
      (.refl f) (Edit.placeAll_inTurn hframed.whole hturns)
  have hslots : ∀ s ∈ stands, l.Admits i.hooks s.planned.slot := fun s hs => by
    have hmem : s.planned ∈ stands.map Stand.planned := List.mem_map_of_mem hs
    rw [hstands, List.map_nil, List.append_nil, List.mem_reverse] at hmem
    exact hi.admits hsymbols hsize (List.mem_of_mem_filter hmem)
  have hcarried := hplacing.instrumented
  refine ⟨f', Stand.through stands, hi.function_eq hsymbols hid',
    hcarried.header.name.trans hways.header.name, hways.woven hsound (hroot id f₀ hid) ?_⟩
  refine hcarried.woven hf.sound hf.rooted hphis htypes
    (hf.rooted.entryBlock?_placedAll hframed hturns (hi.live_plan hsplit) hbody₁)
    (hw.harmless_idsIn hcarried hslots hways.size) fun s hs => ?_
  exact hw.harmless (hslots s hs) (hcarried.code s hs) (hways.size.trans (hcarried.bounds s hs).1)

/-- So they are into the whole module. -/
theorem Valid.weaves (hi : i.Valid) (hm : m.Accepted) (honce : m.ListsOnce) (hroot : m.Rooted)
    (hsymbols : m.WithoutSymbols) {w : World} {l : ProbeLayout}
    (hmodule : w.module = (m.withHooks config).1) (hw : (w.withModule m').Supplies i.hooks l)
    (hsize : l.size = report.areaSize) : w.Weaves m' l.Hides l.Ready where
  size := by
    have hplaced : i.placed.functions.size =
        m.functions.size + (Module.hookFunctions config).size := by
      rw [hi.placed.size, (hi.declared_eq hsymbols).1, Array.size_append, hi.split.size]
    rw [hi.result_eq hsymbols, hmodule, Module.withHooks_eq hsymbols]
    simp only [Module.addFunction, Array.size_push, Array.size_append, hplaced]
    omega
  bodiless := fun id f hid hentry => by
    refine hi.function_of_bodiless hm hsymbols (hmodule ▸ hid) ?_
    rw [Function.isDeclaration, List.isEmpty_iff]
    exact List.head?_eq_none_iff.mp hentry
  bodies := fun id f entry hid hentry => by
    have hbody : f.isDeclaration = false := by
      rw [Function.isDeclaration, List.isEmpty_eq_false_iff]
      exact List.ne_nil_of_mem (Function.mem_layout_of_entryBlock? hentry)
    obtain ⟨f', through, hid', -, hwoven⟩ := hi.exists_woven hm honce hroot hsymbols hw hsize
      (function_of_withHooks hsymbols (hmodule ▸ hid) hbody) hbody
    exact ⟨f', through, hid', hwoven⟩
  kept := fun _ _ => ProbeLayout.Ready.of_inside

end Pass.Instrumentation

/-! ## Machines with the same map -/

namespace Module

variable {m md : Module} {config : Config}

section

variable (hm : m.WithoutSymbols) (h : md.globals = m.globals ++ hookGlobals config)
include hm h

theorem findGlobal?_area : md.findGlobal? Symbol.areaPointer = some ⟨m.globals.size⟩ := by
  refine findGlobal?_of_first (g := { name := Symbol.areaPointer }) ?_ rfl fun j g hj hg => ?_
  · rw [h, Array.getElem?_append_right le_rfl, Nat.sub_self]
    unfold hookGlobals
    split <;> rfl
  · rw [h, Array.getElem?_append_left hj] at hg
    exact hm.global_ne (by decide) g (Array.mem_of_getElem? hg)

theorem findGlobal?_previous (hclassic : config.denseIds = false) :
    md.findGlobal? Symbol.previousLocation = some ⟨m.globals.size + 1⟩ := by
  rw [hookGlobals, hclassic, if_neg Bool.false_ne_true] at h
  exact (Machine.findGlobal?_words h
    (fun g hg => ⟨hm.global_ne (by decide) g hg, hm.global_ne (by decide) g hg⟩) rfl rfl).2

theorem findGlobal?_previous_dense (hdense : config.denseIds = true) :
    md.findGlobal? Symbol.previousLocation = none := by
  rw [hookGlobals, hdense, if_pos rfl] at h
  refine findGlobal?_eq_none fun g hg => ?_
  rw [h] at hg
  obtain hold | hg := Array.mem_append.mp hg
  · exact hm.global_ne (by decide) g hold
  · obtain rfl := Array.mem_singleton.mp hg
    decide

end

end Module

namespace Machine

variable {m m' fresh before mapped : Machine} {md : Module} {size : Nat}

/-- Where a machine has what probes work with. -/
def probeLayout? (m : Machine) : Option ProbeLayout :=
  (m.globalAddr? Symbol.areaPointer).bind fun area => m.coverage.map fun coverage =>
    { area, map := coverage.1, size := coverage.2
      previous := m.globalAddr? Symbol.previousLocation }

/-- The second machine is the first one with another module. Their memories are the same but for
what probes work with, which is ready for them in the second one. -/
structure Mirrors (m m' : Machine) (l : ProbeLayout) : Prop where
  layout : m.probeLayout? = some l
  apart : l.Apart
  globals : m.world.globals.size = m.world.module.globals.size
  world : m'.world = m.world.withModule m'.world.module
  coverage : m'.coverage = m.coverage
  memory : m.store.memory.AgreeOutside l.Hides m'.store.memory
  ready : l.Ready m'.store.memory

theorem probeLayout?_eq_some {l : ProbeLayout} (h : m.probeLayout? = some l) :
    m.globalAddr? Symbol.areaPointer = some l.area ∧
      m.globalAddr? Symbol.previousLocation = l.previous ∧ m.coverage = some (l.map, l.size) := by
  obtain ⟨area, harea, h⟩ := Option.bind_eq_some_iff.mp h
  obtain ⟨coverage, hcoverage, rfl⟩ := Option.map_eq_some_iff.mp h
  exact ⟨harea, rfl, hcoverage⟩

/-- Runs change the stores only. -/
theorem Mirrors.of_shadows {l : ProbeLayout} {after after' : Machine} (h : m.Mirrors m' l)
    (hworld : after.world = m.world) (hcoverage : after.coverage = m.coverage)
    (hworld' : after'.world = m'.world) (hcoverage' : after'.coverage = m'.coverage)
    (hstores : after.store.Shadows l.Hides l.Ready after'.store) : after.Mirrors after' l where
  layout := by
    rw [probeLayout?, globalAddr?, globalAddr?, hworld, hcoverage]
    exact h.layout
  apart := h.apart
  globals := hworld ▸ h.globals
  world := by rw [hworld', hworld, h.world]; rfl
  coverage := by rw [hcoverage', hcoverage, h.coverage]
  memory := hstores.outside
  ready := hstores.ready

theorem globalAddr?_withModule (h : md.globals = m.world.module.globals) (name : String) :
    (m.withModule md).globalAddr? name = m.globalAddr? name := by
  have hfind : md.findGlobal? name = m.world.module.findGlobal? name := by
    rw [Module.findGlobal?, Module.findGlobal?, h]
  exact congrArg (Option.bind · _) hfind

/-- Each global has an address. -/
theorem size_globals {m : Module} (h : ofModule m = .ok fresh) :
    fresh.world.globals.size = m.globals.size := by
  unfold ofModule at h
  split at h
  · next hplaced =>
    obtain rfl := Except.ok.inj h
    simpa using size_placeGlobals hplaced
  · cases h

theorem withCoverageMap_withModule (hglobals : md.globals = before.world.module.globals)
    (h : before.withCoverageMap size = .ok mapped) :
    (before.withModule md).withCoverageMap size = .ok (mapped.withModule md) := by
  have htell : (before.withModule md).tellArea = before.tellArea := by
    funext base
    rw [tellArea, tellArea, globalAddr?_withModule hglobals]
  unfold withCoverageMap at h ⊢
  rw [htell]
  dsimp only [withModule] at h ⊢
  split at h
  · obtain rfl := Except.ok.inj h
    rfl
  · cases h

section

variable {m : Module} {config : Config} (hm : m.WithoutSymbols)
  (hglobals : md.globals = m.globals ++ Module.hookGlobals config)
  (hfresh : ofModule md = .ok fresh) (hbefore : fresh.SetUp before) (hpos : 0 < size)
  (hmapped : before.withCoverageMap size = .ok mapped)
include hglobals hfresh

/-- The word that leads to the map comes after the globals of the program. -/
theorem exists_area : fresh.world.module = md ∧ ∃ area : UInt64,
    fresh.world.globals[m.globals.size]? = some area ∧
      fresh.store.memory.Holds area (List.replicate 8 0) := by
  rw [Module.hookGlobals] at hglobals
  split at hglobals
  · exact ofModule_word hglobals rfl hfresh
  · obtain ⟨hmodule, area, previous, harea, -, -, hzeros, -⟩ := ofModule_words hglobals rfl rfl hfresh
    exact ⟨hmodule, area, harea, hzeros⟩

include hm hbefore hpos hmapped

theorem exists_hasMap : ∃ l : MapLayout, l.size = size ∧ mapped.HasMap l ∧
    mapped.world.module = md ∧ mapped.world.globals.size = md.globals.size := by
  obtain ⟨hmodule, area, harea, hzeros⟩ := exists_area hglobals hfresh
  have hname : ∀ machine : Machine, machine.world.module = md →
      machine.world.globals = fresh.world.globals →
        machine.globalAddr? Symbol.areaPointer = some area := by
    intro machine hmachine hsame
    rw [Machine.globalAddr?, hmachine, Module.findGlobal?_area hm hglobals, hsame]
    exact harea
  have hholds : before.store.memory.Holds area (List.replicate 8 0) :=
    hzeros.of_same (by decide) (hbefore.words.1 area (hname fresh hmodule rfl))
  obtain ⟨l, hsize, hmap, hworld, -, -⟩ := withCoverageMap_hasMap hpos
    (hname before (hbefore.module.trans hmodule) hbefore.globals) hholds (by decide) hmapped
  exact ⟨l, hsize, hmap, by rw [hworld, hbefore.module, hmodule],
    by rw [hworld, hbefore.globals, size_globals hfresh]⟩

/-- A machine that gets a map has all that probes work with ready for them, and mirrors itself with
another module. -/
theorem exists_mirrors (md' : Module) : ∃ l : ProbeLayout, l.size = size ∧
    mapped.Mirrors (mapped.withModule md') l := by
  suffices h : ∃ l : ProbeLayout, l.size = size ∧ mapped.probeLayout? = some l ∧ l.Apart ∧
      l.Ready mapped.store.memory by
    obtain ⟨-, -, -, hmodule, hcount⟩ := exists_hasMap hm hglobals hfresh hbefore hpos hmapped
    obtain ⟨l, hsize, hlayout, hapart, hready⟩ := h
    exact ⟨l, hsize, hlayout, hapart, hmodule ▸ hcount, rfl, rfl, .refl _ _, hready⟩
  obtain ⟨l, rfl, hmap, hmodule, -⟩ := exists_hasMap hm hglobals hfresh hbefore hpos hmapped
  have hlayout : mapped.probeLayout? =
      some { l with previous := mapped.globalAddr? Symbol.previousLocation } := by
    rw [probeLayout?, hmap.area, hmap.coverage]
    rfl
  cases hdense : config.denseIds with
  | true =>
    have hnone : mapped.globalAddr? Symbol.previousLocation = none := by
      rw [globalAddr?, hmodule, Module.findGlobal?_previous_dense hm hglobals hdense]
      rfl
    rw [hnone] at hlayout
    exact ⟨_, rfl, hlayout, ⟨hmap.apart, fun p hp => by cases hp⟩,
      ⟨hmap.inPlace, fun p hp => by cases hp⟩⟩
  | false =>
    rw [Module.hookGlobals, hdense, if_neg Bool.false_ne_true] at hglobals
    obtain ⟨l', hapart, -, -, -, -, harea, hprevious, hcoverage, hready⟩ :=
      exists_layout hglobals rfl rfl (fun g hg => ⟨hm.global_ne (by decide) g hg,
        hm.global_ne (by decide) g hg⟩) rfl rfl hfresh hbefore.module hbefore.globals
        hbefore.words.1 hbefore.words.2 hmapped
    -- Both layouts are where the machine has its words and its map.
    have hareas : l'.area = l.area := Option.some.inj (harea.symm.trans hmap.area)
    have hmaps : l'.map = l.map :=
      congrArg Prod.fst (Option.some.inj (hcoverage.symm.trans hmap.coverage))
    rw [hprevious] at hlayout
    refine ⟨_, rfl, hlayout, ⟨hmap.apart, fun p hp => ?_⟩, ⟨hmap.inPlace, fun p hp => ?_⟩⟩
    · obtain rfl := Option.some.inj hp
      exact ⟨hareas ▸ hapart.area, hmaps ▸ hapart.previous⟩
    · obtain rfl := Option.some.inj hp
      exact (hready _ (Nat.two_pow_pos _)).previous

end

end Machine

/-! ## The program and its instrumented form -/

namespace Pass.Instrumentation

variable {config : Config} {drawn : UInt64} {m m' : Module} {report : InstrumentReport}
  {i : Instrumentation config drawn m report m'} {machine machine' : Machine} {l : ProbeLayout}

theorem Valid.areaSize_pos (hi : i.Valid) : 0 < report.areaSize := by
  rw [hi.reportedSize, areaSize]
  split
  · exact Nat.succ_pos _
  · exact (Config.mapSize_bounds hi.mapSize).1

theorem Valid.globals_eq (hi : i.Valid) (hsymbols : m.WithoutSymbols) :
    m'.globals = m.globals ++ Module.hookGlobals config := by
  rw [hi.result_eq hsymbols]
  simp only [Module.addFunction, hi.placed.globals, (hi.declared_eq hsymbols).1, hi.split.globals]

/-- The instrumented module finds in a machine what its probes refer to. -/
theorem Valid.supplies (hi : i.Valid) (hsymbols : m.WithoutSymbols) (hsize : l.size = report.areaSize)
    (hmodule : machine.world.module = (m.withHooks config).1) (hmirrors : machine.Mirrors machine' l) :
    (machine.world.withModule m').Supplies i.hooks l := by
  have hglobals : machine.world.module.globals = m.globals ++ Module.hookGlobals config := by
    rw [hmodule, Module.withHooks_eq hsymbols]
  obtain ⟨harea, hprevious, -⟩ := Machine.probeLayout?_eq_some hmirrors.layout
  rw [Machine.globalAddr?, Module.findGlobal?_area hsymbols hglobals, Option.bind_some] at harea
  have haddr : ∀ (g : GlobalId) addr, machine.world.globals[g.index]? = some addr →
      (machine.world.withModule m').globalAddr g = .ok addr := by
    intro g addr hg
    rw [World.globalAddr, World.withModule]
    dsimp only
    rw [hg]
  refine ⟨hmirrors.apart, hsize ▸ hi.areaSize_pos.ne', ?_, fun g hg => ?_,
    fun id hid => hi.traceHook hsymbols hid⟩
  · rw [(hi.declared_eq hsymbols).2, hi.split.globals]
    exact haddr _ _ harea
  · rw [(hi.declared_eq hsymbols).2, hi.split.globals] at hg
    cases hdense : config.denseIds with
    | true =>
      rw [hdense] at hg
      cases hg
    | false =>
      rw [hdense] at hg
      obtain rfl := Option.some.inj hg
      -- It is the second of two globals that come after those of the program.
      have hlt : m.globals.size + 1 < machine.world.globals.size := by
        rw [hmirrors.globals, hglobals, Module.hookGlobals, hdense, Array.size_append]
        exact Nat.lt_succ_self _
      rw [Machine.globalAddr?, Module.findGlobal?_previous hsymbols hglobals hdense,
        Option.bind_some,
        Array.getElem?_eq_getElem hlt] at hprevious
      exact ⟨_, hprevious.symm, haddr _ _ (Array.getElem?_eq_getElem hlt)⟩

/-- Functions keep their names. -/
theorem Valid.names (hi : i.Valid) (hm : m.Accepted) (honce : m.ListsOnce) (hroot : m.Rooted)
    (hsymbols : m.WithoutSymbols) {w : World} (hw : w.Supplies i.hooks l)
    (hsize : l.size = report.areaSize) {name : String} {id : FuncId}
    (hid : (m.withHooks config).1.findFunction? name = some id) : m'.findFunction? name = some id := by
  refine Module.findFunction?_of_names (fun id f hf => ?_) hid
  cases hbody : f.isDeclaration with
  | true => exact ⟨f, hi.function_of_bodiless hm hsymbols hf hbody, rfl⟩
  | false =>
    obtain ⟨f', -, hf', hname, -⟩ := hi.exists_woven hm honce hroot hsymbols hw hsize
      (function_of_withHooks hsymbols hf hbody) hbody
    exact ⟨f', hf', hname⟩

end Pass.Instrumentation

namespace Module

variable {m : Module} {config : Config} {drawn : UInt64} {report : InstrumentReport} {s : PassState}

/-- A call that returns, in a run that neither reads nor writes what probes work with, returns the
same when the module is instrumented, if only it may take enough steps. Memory is then the same but
for what probes work with. Machines that are set up in the same way and get a coverage map of the size
that probes need are the same but for that, too. -/
theorem Accepted.unchanged (hm : m.Accepted) (honce : m.ListsOnce) (hsymbols : m.WithoutSymbols)
    (hroot : m.Rooted) (h : (Pass.instrumentEdges config drawn).runOn m = .ok (.ok report, s)) :
    (∀ (l : ProbeLayout) (machine machine' after : Machine) name args v, l.size = report.areaSize →
      machine.world.module = (m.withHooks config).1 → machine'.world.module = s.module →
      machine.Mirrors machine' l →
      machine.world.IgnoresCall l.Hides name args machine.store →
      machine.call name args = (.ok v, after) →
      ∃ enough, ∀ budget, enough ≤ budget → ∃ after',
        (machine'.setStepBudget budget).call name args = (.ok v, after') ∧ after.Mirrors after' l) ∧
    ∀ fresh before mapped : Machine, Machine.ofModule (m.withHooks config).1 = .ok fresh →
      fresh.SetUp before → before.withCoverageMap report.areaSize = .ok mapped →
      Machine.ofModule s.module = .ok (fresh.withModule s.module) ∧
      (before.withModule s.module).withCoverageMap report.areaSize =
        .ok (mapped.withModule s.module) ∧ mapped.world.module = (m.withHooks config).1 ∧
      ∃ l : ProbeLayout, l.size = report.areaSize ∧ mapped.Mirrors (mapped.withModule s.module) l := by
  obtain ⟨i, hi⟩ := Pass.instrumentEdges_does (s := { module := m }) h
  have hglobals : (m.withHooks config).1.globals = m.globals ++ hookGlobals config := by
    rw [withHooks_eq hsymbols]
  have hsame : s.module.globals = (m.withHooks config).1.globals :=
    (hi.globals_eq hsymbols).trans hglobals.symm
  constructor
  · intro l machine machine' after name args v hsize hmodule hmodule' hmirrors hignores hcall
    obtain ⟨hrun, hworld, hcoverage⟩ := Machine.exec_eq_ok hcall
    obtain ⟨sites, hpasses⟩ := World.exists_callPasses hrun
    have hsupplies := hi.supplies hsymbols hsize hmodule hmirrors
    obtain ⟨enough, t', hruns, ht'⟩ := hpasses.woven
      (hi.weaves hm honce hroot hsymbols hmodule hsupplies hsize)
      (fun name id hid => hi.names hm honce hroot hsymbols hsupplies hsize (hmodule ▸ hid)) hignores
      ⟨hmirrors.memory, hmirrors.ready⟩
    rw [← hmodule', ← hmirrors.world] at hruns
    refine ⟨enough, fun budget hbudget => ⟨{ machine' with store := t'.withSteps (budget - enough) },
      ?_, hmirrors.of_shadows hworld hcoverage rfl rfl ⟨ht'.outside, ht'.ready⟩⟩⟩
    exact Machine.exec_eq_conclude (m := machine'.setStepBudget budget) (hruns.call hbudget)
  · intro fresh before mapped hfresh hbefore hmapped
    have hmodule := hbefore.module.trans (Machine.exists_area hglobals hfresh).1
    obtain ⟨-, -, -, hmodule', -⟩ :=
      Machine.exists_hasMap hsymbols hglobals hfresh hbefore hi.areaSize_pos hmapped
    refine ⟨by rw [Machine.ofModule_withModule hsame, hfresh]; rfl, ?_, hmodule', ?_⟩
    · exact Machine.withCoverageMap_withModule (hsame.trans (congrArg globals hmodule.symm)) hmapped
    · exact Machine.exists_mirrors hsymbols hglobals hfresh hbefore hi.areaSize_pos hmapped s.module


end Module

/-! ## Programs that work on their globals only -/

/-- The instruction accesses memory nowhere but at the first globals, and calls nothing. -/
def InstKind.isDirect (globals : Nat) : InstKind → Bool
  | .load _ (.global g) | .store _ (.global g) => g.index < globals
  | kind => !kind.loads && !kind.touches

namespace World

variable {w : World} {hidden : Nat → Prop} {globals : Nat}

/-- Such an instruction accesses nothing that is hidden, if that is not in the globals. -/
theorem ignores_of_isDirect {a : Activation} {frame : Frame} {i : InstId} {kind : InstKind} {s : Store}
    (hkind : a.function.kind i = .ok kind) (hdirect : kind.isDirect globals = true)
    (hclear : ∀ (g : GlobalId) addr, g.index < globals → w.globalAddr g = .ok addr →
      ∀ k < 8, ¬hidden (addr.toNat + k)) :
    (w.step w.alone a frame i).Ignores hidden s := by
  have haddr : ∀ (g : GlobalId) addr, w.eval a frame (.global g) s = .ok addr s →
      w.globalAddr g = .ok addr := fun g addr h => (Exec.ofChecked_eq_ok.mp h).1
  unfold InstKind.isDirect at hdirect
  split at hdirect
  · next ty g =>
    exact ignores_load hkind fun addr heval hle k hk =>
      hclear g addr (of_decide_eq_true hdirect) (haddr g addr heval) k (by omega)
  · next value g =>
    exact ignores_store hkind fun ty addr _ heval hle k hk =>
      hclear g addr (of_decide_eq_true hdirect) (haddr g addr heval) k (by omega)
  · simp only [Bool.and_eq_true, Bool.not_eq_true'] at hdirect
    exact (fixed_step hkind hdirect.2 hdirect.1).ignores

/-- Nor does a run of a program that has no other instructions and does not call. -/
theorem ignoresCall_of_isDirect (hquiet : w.module.invokesNothing = true)
    (hdirect : (w.module.functions.all fun f => f.insts.all (·.kind.isDirect globals)) = true)
    (hclear : ∀ (g : GlobalId) addr, g.index < globals → w.globalAddr g = .ok addr →
      ∀ k < 8, ¬hidden (addr.toNat + k)) {name : String} {args : List UInt64} {s : Store}
    (hbody : ∀ id f, w.module.findFunction? name = some id → w.module.function id = .ok f →
      f.entryBlock? ≠ none) : w.IgnoresCall hidden name args s where
  moments moment hmoment := by
    have hknown := hmoment.sound.known
    obtain ⟨id, a, n, es, place, s⟩ := moment
    cases place with
    | arriving c => trivial
    | within block insts frame =>
      cases insts with
      | cons i rest =>
        intro s₁ _
        cases hkind : a.function.kind i with
        | ok kind =>
          refine ignores_of_isDirect hkind ?_ hclear
          simp only [Array.all_eq_true_iff_forall_mem] at hdirect
          obtain ⟨inst, hinst, rfl⟩ := Function.kind_eq_ok.mp hkind
          exact hdirect _ (Array.mem_of_getElem? (Module.function_eq_ok.mp hknown)) inst
            (Array.mem_of_getElem? (Function.inst_eq_ok.mp hinst))
        | error fault =>
          rw [step, hkind]
          exact Exec.Fixed.ignores ⟨.error (.fault fault), rfl⟩
      | nil =>
        intro b s₁ hb _
        exact (fixed_runTerminator (Module.not_calls_of_invokesNothing hquiet hknown hb)).ignores
  declared id f hfind hid hentry := absurd hentry (hbody id f hfind hid)

end World

/-- Probes work with nothing before the word that leads to the map. -/
theorem ProbeLayout.Apart.area_le {l : ProbeLayout} (hl : l.Apart) {k : Nat} (hk : l.Hides k) :
    l.area.toNat ≤ k := by
  have harea := hl.area
  cases hk with
  | area hk => omega
  | previous hp hk =>
    have := (hl.between _ hp).1
    omega
  | map hk => omega

namespace Module

/-- A module is instrumented for coverage, and a machine for the program itself gets a map. -/
def plainRun (m : Module) : Option (InstrumentReport × PassState × Machine × Machine) := do
  let (report, s) ← Pass.completed? ((Pass.instrumentEdges (.coverage .all) 0).runOn m)
  let fresh ← (Machine.ofModule (m.withHooks (.coverage .all)).1).toOption
  let mapped ← (fresh.withCoverageMap report.areaSize).toOption
  return (report, s, fresh, mapped)

theorem plainRun_eq_some {m : Module} {report : InstrumentReport} {s : PassState}
    {fresh mapped : Machine} (h : m.plainRun = some (report, s, fresh, mapped)) :
    (Pass.instrumentEdges (.coverage .all) 0).runOn m = .ok (.ok report, s) ∧
      Machine.ofModule (m.withHooks (.coverage .all)).1 = .ok fresh ∧
      fresh.withCoverageMap report.areaSize = .ok mapped := by
  simp only [plainRun, bind, Option.bind_eq_some_iff, pure, Option.some.injEq] at h
  obtain ⟨⟨report, s⟩, hrun, fresh, hfresh, mapped, hmapped, hall⟩ := h
  cases hall
  exact ⟨Pass.completed?_eq_some hrun, eq_ok_of_toOption hfresh, eq_ok_of_toOption hmapped⟩

/-- A program that notes in a global what it is called with. -/
def noting : Module where
  name := "noting"
  globals := #[{ name := "last" }]
  functions := #[{
    name := "note"
    params := [.i1, .i64]
    ret := .i64
    insts := #[
      { kind := .store (.arg 1) (.global ⟨0⟩), block := some ⟨0⟩ },
      { kind := .load .i64 (.global ⟨0⟩), block := some ⟨2⟩ }]
    blocks := #[⟨"entry", [⟨0⟩], .condBr (.arg 0) ⟨1⟩ ⟨2⟩⟩,
      ⟨"again", [], .condBr (.arg 0) ⟨2⟩ ⟨2⟩⟩, ⟨"done", [⟨1⟩], .ret (some (.arg 1))⟩]
    layout := [⟨0⟩, ⟨1⟩, ⟨2⟩] }]

/-- With probes on its four edges it does the same. -/
theorem noting_unchanged : ∃ report s fresh mapped after,
    noting.plainRun = some (report, s, fresh, mapped) ∧ report.probes = 4 ∧
    mapped.call "note" [1, 5] = (.ok 5, after) ∧
    after.store.memory.readWord 16 8 = .ok 5 ∧ ∃ l : ProbeLayout, l.size = report.areaSize ∧
      ∃ enough, ∀ budget, enough ≤ budget → ∃ after',
        ((mapped.withModule s.module).setStepBudget budget).call "note" [1, 5] = (.ok 5, after') ∧
        after.Mirrors after' l := by
  have hlocal : noting.isLocal = true := by decide +kernel
  have hrun : (noting.plainRun.filter fun r => r.1.probes == 4 &&
      r.2.2.2.world.module.invokesNothing && (r.2.2.2.world.module.functions.all fun f =>
        f.insts.all (·.kind.isDirect 1)) && (r.2.2.2.world.globals == #[16, 24]) &&
      (r.2.2.2.globalAddr? Symbol.areaPointer == some 24) &&
      (r.2.2.2.world.module.findFunction? "note" == some ⟨0⟩) &&
      (r.2.2.2.world.module.function ⟨0⟩).toOption.any (·.entryBlock?.isSome) &&
      ((r.2.2.2.call "note" [1, 5]).1.toOption == some 5) &&
      (((r.2.2.2.call "note" [1, 5]).2.store.memory.readWord 16 8).toOption == some 5)).isSome =
        true := by
    decide +kernel
  obtain ⟨⟨report, s, fresh, mapped⟩, hfound⟩ := Option.isSome_iff_exists.mp hrun
  obtain ⟨hnoting, hfacts⟩ := Option.filter_eq_some_iff.mp hfound
  simp only [Bool.and_eq_true, beq_iff_eq] at hfacts
  obtain ⟨⟨⟨⟨⟨⟨⟨⟨hprobes, hquiet⟩, hdirect⟩, hglobals⟩, harea⟩, hname⟩, hbody⟩, hreturns⟩, hnoted⟩ :=
    hfacts
  obtain ⟨hedges, hfresh, hmapped⟩ := plainRun_eq_some hnoting
  obtain ⟨hruns, hmaps⟩ := Accepted.unchanged (accepted_of_isLocal hlocal)
    (listsOnce_of_isLocal hlocal) ⟨by decide, by decide⟩ (rooted_of_isRooted (by decide +kernel)) hedges
  obtain ⟨-, -, hmodule, l, hsize, hmirrors⟩ := hmaps fresh fresh mapped hfresh
    ⟨rfl, rfl, fun _ _ => .refl _ _ _, fun _ _ => .refl _ _ _⟩ hmapped
  have hcall : mapped.call "note" [1, 5] = (.ok 5, (mapped.call "note" [1, 5]).2) :=
    Prod.ext (eq_ok_of_toOption hreturns) rfl
  -- The global of the program comes before what probes work with.
  have hignores : mapped.world.IgnoresCall l.Hides "note" [1, 5] mapped.store := by
    refine World.ignoresCall_of_isDirect hquiet hdirect (fun g addr hg haddr k hk hhidden => ?_)
      fun id f hfind hid hnone => ?_
    · obtain ⟨index⟩ := g
      obtain rfl := Nat.lt_one_iff.mp hg
      rw [World.globalAddr, hglobals] at haddr
      obtain rfl : (16 : UInt64) = addr := Except.ok.inj haddr
      have hle := hmirrors.apart.area_le hhidden
      rw [← Option.some.inj (harea.symm.trans (Machine.probeLayout?_eq_some hmirrors.layout).1)] at hle
      have h16 : (16 : UInt64).toNat = 16 := rfl
      have h24 : (24 : UInt64).toNat = 24 := rfl
      omega
    · obtain rfl := Option.some.inj (hname.symm.trans hfind)
      rw [hid] at hbody
      simp [Except.toOption, hnone] at hbody
  obtain ⟨enough, hsame⟩ := hruns l mapped (mapped.withModule s.module) _ "note" [1, 5] 5 hsize hmodule
    rfl hmirrors hignores hcall
  exact ⟨report, s, fresh, mapped, _, hnoting, hprobes, hcall, eq_ok_of_toOption hnoted, l, hsize,
    enough, hsame⟩

end Module

end EdgeProbe
