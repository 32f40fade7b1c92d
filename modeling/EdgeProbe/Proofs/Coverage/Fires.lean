import EdgeProbe.Proofs.Coverage.Counted
import EdgeProbe.Proofs.Coverage.Session
import EdgeProbe.Proofs.Validity.Probing

/-!
# Probes fire when their sites are passed

The runs of an instrumented module report the identifiers of the sites that they pass, and the
coverage map tells how often each has been reported. Main statement:
`Module.Accepted.probes_fire`.
-/

namespace EdgeProbe

namespace Function

variable {f f' : Function}

/-- Placing probes does not move the entry of a function that no edge leads to. -/
theorem Rooted.entryBlock?_placedAll {hooks : Hooks} {plan : List PlannedProbe} (hroot : f.Rooted)
    (hf : f.Framed)
    (h : Edit.InTurn (fun planned f f' => (Edit.placePlanned hooks planned).Does f () f') plan f f')
    (hlive : ∀ planned ∈ plan, ∀ function block index,
      planned.site = .edge function block index → block ∈ f.layout)
    (hbody : f.isDeclaration = false) : f'.entryBlock? = f.entryBlock? := by
  rw [isDeclaration, List.isEmpty_eq_false_iff] at hbody
  obtain ⟨entry, rest, hlayout⟩ := List.exists_cons_of_ne_nil hbody
  have hentry : f.entryBlock? = some entry := List.head?_eq_some_iff.mpr ⟨rest, hlayout⟩
  obtain ⟨preds, hpreds⟩ := exists_edgesInto entry hf.inArena
  have hnone : preds = [] := List.eq_nil_iff_forall_not_mem.mpr fun a ha => by
    obtain ⟨halive, hedge⟩ := (mem_edgesInto hpreds).mp ha
    exact hroot entry hentry a halive hedge
  have hanchored : f.Anchored entry := ⟨hf.whole, hf.inArena, hentry, preds, hpreds, by simp [hnone]⟩
  rw [(hanchored.placedAll h hlive).starts, hentry]

end Function

namespace Pass.Instrumentation

variable {config : Config} {drawn : UInt64} {m m' : Module} {report : InstrumentReport}
  {i : Instrumentation config drawn m report m'} {id : FuncId} {f f' : Function}

/-- The blocks that probes are planned for are live. -/
theorem Valid.live_plan (hi : i.Valid) (hid : i.split.function id = .ok f) :
    ∀ planned ∈ i.plan.filter (fun planned => planned.site.function == id),
      ∀ function block index, planned.site = .edge function block index → block ∈ f.layout := by
  intro planned hplanned function block index hsite
  obtain ⟨hmem, hfunction⟩ := List.mem_filter.mp hplanned
  have hplace := hi.isSite hmem
  rw [hsite] at hplace hfunction
  obtain rfl : function = id := beq_iff_eq.mp hfunction
  exact hplace.live hid

/-- A function of the instrumented module that has a body carries its probes. -/
theorem Valid.carries (hi : i.Valid) (hm : m.Accepted) (honce : m.ListsOnce) (hroot : m.Rooted)
    (hsymbols : m.WithoutSymbols) (stands : FuncId → List Stand)
    (hplaced : ∀ id, (stands id).map Stand.planned =
      (i.plan.filter fun planned => planned.site.function == id).reverse)
    (hfunctions : ∀ id f, i.split.function id = .ok f → f.isDeclaration = false →
      ∃ f', i.placed.function id = .ok f' ∧ f.Instrumented i.hooks (stands id) f')
    (hid : m'.function id = .ok f') (hbody : f'.isDeclaration = false) :
    ∃ f : Function, f.Equipped i.hooks (m.instCount id) id (stands id) f' := by
  have hsound := hi.sound hm honce hroot hsymbols id f' hid hbody
  have hmem : ∀ s ∈ stands id, s.planned ∈ i.plan ∧ s.planned.site.function = id := by
    intro s hs
    have hplanned : s.planned ∈ (stands id).map Stand.planned := List.mem_map_of_mem hs
    rw [hplaced, List.mem_reverse, List.mem_filter, beq_iff_eq] at hplanned
    exact hplanned
  cases hsplit : i.split.function id with
  | ok f =>
    have hdeclared := Module.function_withHooks hsplit config
    rw [hi.declared] at hdeclared
    obtain ⟨f₁, hid₁, hturns⟩ := hi.placed.functions id f hdeclared
    obtain rfl := Except.ok.inj (hid.symm.trans (hi.function_eq hsymbols hid₁))
    have hbody₀ : f.isDeclaration = false := by
      obtain rfl | ⟨hbody₀, -⟩ := hi.placed_cases hm hdeclared hid₁
      · exact hbody
      · exact hbody₀
    obtain ⟨f₁, hid₁', hinstrumented⟩ := hfunctions id f hsplit hbody₀
    obtain rfl := Except.ok.inj (hid₁.symm.trans hid₁')
    have hframed := hi.framed hm hsplit hbody₀
    have hrooted := (hi.splitting_declared hm honce hroot hsymbols hdeclared hbody₀).2.rooted
    obtain ⟨f₀, hid₀, hwf, hpads⟩ := hi.exists_wellFormed hm hsplit hbody₀
    have hcount : m.instCount id = f₀.insts.size := by
      rw [Module.instCount, Module.function_eq_ok.mp hid₀]
      rfl
    refine ⟨f, {
      toInstrumented := hinstrumented
      distinct := ?_
      own := fun s hs => (hmem s hs).2
      fits := fun s hs => ?_
      source := hframed
      rooted := hrooted
      starts := hrooted.entryBlock?_placedAll hframed hturns (hi.live_plan hsplit) hbody₀
      tidy := hsound.tidy
      added := fun j kind hkind hbase => ?_ }⟩
    · have hsites : (stands id).map (fun s => s.planned.site) =
          ((stands id).map Stand.planned).map (·.site) := by
        rw [List.map_map]
        rfl
      rw [hsites, hplaced, List.map_reverse, List.nodup_reverse]
      exact (List.pairwise_map.mpr ((hi.pairwise_plan hm).imp And.left)).sublist
        (List.filter_sublist.map _)
    · obtain ⟨g, hg, -, hfits⟩ := (hi.isSite (hmem s hs).1).fits
      rw [(hmem s hs).2] at hg
      exact Except.ok.inj (hg.symm.trans hsplit) ▸ hfits
    · cases hphi : kind.isPhi with
      | true => exact .inl rfl
      | false =>
        obtain hold | rfl := hpads.padded.kind_cases j kind hkind hphi
        · exact absurd (Function.index_lt_of_kind hold) (Nat.not_lt.mpr (hcount ▸ hbase))
        · exact .inr rfl
  | error fault =>
    -- Functions that have come in since have no sites.
    have hnone : stands id = [] := List.eq_nil_iff_forall_not_mem.mpr fun s hs => by
      obtain ⟨g, hg, -⟩ := (hi.isSite (hmem s hs).1).fits
      rw [(hmem s hs).2, hsplit] at hg
      cases hg
    obtain ⟨f, hf, -⟩ | rfl | ⟨name, value, rfl⟩ := hi.function_cases hsymbols hid
    · cases hf.symm.trans hsplit
    · cases hbody
    · have hframed : (Function.returning name value).Framed :=
        ⟨hsound.named.whole, hsound.tidy.closed.inArena, hsound.layout⟩
      refine ⟨.returning name value, {
        toInstrumented := hnone ▸ .refl i.hooks hframed
        distinct := by simp [hnone]
        own := by simp [hnone]
        fits := by simp [hnone]
        source := hframed
        rooted := ?_
        starts := rfl
        tidy := hsound.tidy
        added := fun j kind hkind _ => ?_ }⟩
      · rintro e - a ha ⟨succs, hsuccs, he⟩
        obtain rfl := List.mem_singleton.mp ha
        obtain rfl := Except.ok.inj hsuccs
        cases he
      · have hlt := Function.index_lt_of_kind hkind
        cases hlt

/-- All of the instrumented module carries the probes of the plan. -/
theorem Valid.exists_carries (hi : i.Valid) (hm : m.Accepted) (honce : m.ListsOnce)
    (hroot : m.Rooted) (hsymbols : m.WithoutSymbols) (htraces : config.tracesIds = true) :
    ∃ hook stands, ∀ w : World, w.module = m' →
      w.Carries i.hooks hook m.instCount i.plan stands := by
  choose stands hplaced hfunctions using hi.exists_stands hm
  have htrace : i.hooks.trace = some ⟨i.split.functions.size⟩ := by
    rw [(hi.declared_eq hsymbols).2, htraces]
    rfl
  refine ⟨_, stands, fun w hw => {
    traces := htrace
    declared := hw ▸ hi.traceHook hsymbols htrace
    distinct := List.pairwise_map.mpr ((hi.pairwise_plan hm).imp And.left)
    placed := hplaced
    functions := fun id f' hid hbody => ?_ }⟩
  exact hi.carries hm honce hroot hsymbols stands hplaced hfunctions (hw ▸ hid) hbody

end Pass.Instrumentation

/-! ## Machines with a map -/

namespace Machine

variable {m m' before mapped fresh : Machine} {l : MapLayout} {size : Nat}

/-- The machine has its coverage map where the layout says, and the module knows where that is. -/
structure HasMap (m : Machine) (l : MapLayout) : Prop where
  area : m.globalAddr? Symbol.areaPointer = some l.area
  coverage : m.coverage = some (l.map, l.size)
  apart : l.Apart
  inPlace : l.InPlace m.store.memory

/-- The map tells how often each identifier is in the trace, as a byte can tell it. -/
def Tallied (m : Machine) : Prop :=
  ∀ k < m.coverageMap.size, m.coverageMap[k]? = some (UInt8.ofNat (m.trace.count (UInt32.ofNat k)))

/-- Neither the word that leads to the map nor the map is changed. -/
def SparesMap (m : Machine) (before after : Memory) : Prop :=
  (∀ addr, m.globalAddr? Symbol.areaPointer = some addr → before.SameAt addr 8 after) ∧
    ∀ map size, m.coverage = some (map, size) → before.SameAt map size after

/-- In the run that a call starts the program keeps something of memory. -/
structure CallKeeps (m : Machine) (kept : Memory → Memory → Prop)
    (program : FuncId → InstId → Prop) (name : String) (args : List UInt64) : Prop where
  moments : ∀ moment, m.world.Occurs name args m.store moment →
    m.world.ProgramKeeps kept program moment
  /-- The call may be one of a function without a body. -/
  declared : ∀ id f, m.world.module.findFunction? name = some id →
    m.world.module.function id = .ok f → f.entryBlock? = none →
      (m.world.callDeclared f args).Leaves (kept m.store.memory) m.store

/-- In the run that a call starts the program does not call functions of a name. -/
def CallAvoids (m : Machine) (avoided : String) (program : FuncId → InstId → Prop) (name : String)
    (args : List UInt64) : Prop :=
  name ≠ avoided ∧ ∀ moment, m.world.Occurs name args m.store moment →
    m.world.ProgramAvoids avoided program moment

theorem HasMap.spares (h : m.HasMap l) {before after : Memory} (hspares : m.SparesMap before after) :
    l.Spares before after :=
  ⟨hspares.1 l.area h.area, hspares.2 l.map l.size h.coverage⟩

theorem HasMap.of_world (h : m.HasMap l) (hworld : m'.world = m.world)
    (hcoverage : m'.coverage = m.coverage) (hplace : l.InPlace m'.store.memory) : m'.HasMap l where
  area := by
    rw [globalAddr?, hworld]
    exact h.area
  coverage := hcoverage.trans h.coverage
  apart := h.apart
  inPlace := hplace

/-- What the map holds is what memory holds there. -/
theorem HasMap.coverageMap (h : m.HasMap l) (hpos : 0 < l.size) : m.coverageMap.size = l.size ∧
    ∀ k < l.size, m.coverageMap[k]? = m.store.memory.bytes[l.map.toNat + k]? := by
  obtain ⟨byte, hbyte⟩ := h.inPlace.map (l.size - 1) (by omega)
  have hlt := (Array.getElem?_eq_some_iff.mp hbyte).1
  have hin : m.store.memory.inBounds l.map l.size = true :=
    Memory.inBounds_iff.mpr ⟨h.inPlace.reserved, show _ ≤ m.store.memory.bytes.size by omega⟩
  have hread : m.coverageMap = m.store.memory.bytes.extract l.map.toNat (l.map.toNat + l.size) := by
    rw [Machine.coverageMap, h.coverage]
    dsimp only
    rw [Memory.read, if_pos hin]
    rfl
  rw [hread]
  refine ⟨?_, fun k hk => ?_⟩
  · rw [Array.size_extract]
    omega
  · rw [Array.getElem?_extract, if_pos (by omega)]

/-- A machine that gets a coverage map has it, and the map is empty. -/
theorem withCoverageMap_hasMap {area : UInt64} {bytes : List UInt8} (hpos : 0 < size)
    (harea : before.globalAddr? Symbol.areaPointer = some area)
    (hholds : before.store.memory.Holds area bytes) (hlength : bytes.length = 8)
    (h : before.withCoverageMap size = .ok mapped) : ∃ l : MapLayout, l.size = size ∧
      mapped.HasMap l ∧ mapped.world = before.world ∧ mapped.store.trace = before.store.trace ∧
        mapped.store.memory.Holds l.map (List.replicate size 0) := by
  unfold withCoverageMap at h
  split at h
  swap
  · cases h
  next map m hmap =>
  obtain rfl := Except.ok.inj h
  obtain ⟨hgrows, hstart, hend, hbound⟩ := Memory.alloc_appends hmap
  have hwrite := write_tellArea harea (hholds.of_grows hgrows) hlength map
  obtain ⟨hreserved, hsize, -⟩ := hholds
  have hzeros := Memory.alloc_holds hmap (by omega)
  have hsame : m.SameAt map size _ :=
    Memory.write_sameAt hwrite (.inl (by rw [length_leBytes]; omega))
  have hmapped : (m.after (before.tellArea map)).Holds map (List.replicate size 0) :=
    hzeros.of_same (by simpa using hpos) (by simpa using hsame)
  refine ⟨⟨area, map, size⟩, rfl, ⟨harea, rfl, ⟨by dsimp only; omega, ?_⟩, ?_⟩, rfl, rfl, ?_⟩
  · exact hend.trans_lt hbound
  · refine ⟨Memory.write_holds hwrite, hmapped.1, fun k hk => ⟨0, ?_⟩⟩
    obtain ⟨-, -, hbytes⟩ := hmapped
    rw [hbytes k (by simpa using hk), List.getElem?_replicate, if_pos hk]
  · exact hmapped

/-- The last global of a fresh machine, if its contents are not known. -/
theorem ofModule_word {md : Module} {old : Array Global} {g : Global}
    (hglobals : md.globals = old ++ #[g]) (hcontents : g.contents = none)
    (h : ofModule md = .ok fresh) : fresh.world.module = md ∧ ∃ area : UInt64,
      fresh.world.globals[old.size]? = some area ∧
        fresh.store.memory.Holds area (List.replicate 8 0) := by
  unfold ofModule at h
  split at h
  swap
  · cases h
  next addrs m hplaced =>
  obtain rfl := Except.ok.inj h
  have hlist : md.globals.toList = old.toList ++ [g] := by rw [hglobals]; simp
  rw [hlist, placeGlobals_append] at hplaced
  obtain ⟨addrs₀, m₀, hplaced₀, hplaced⟩ := Access.bind_eq_ok.mp hplaced
  have hsize : addrs₀.size = old.size := by simpa using size_placeGlobals hplaced₀
  have hm₀ : Memory.reserved ≤ m₀.size :=
    (placeGlobals_holds hplaced₀ (by decide) (by decide)).1.1
  rw [placeGlobals_cons, Global.allot, hcontents] at hplaced
  obtain ⟨area, m₁, harea, hplaced⟩ := Access.bind_eq_ok.mp hplaced
  obtain ⟨rfl, rfl⟩ := EStateM.Result.ok.inj hplaced
  refine ⟨rfl, area, ?_, Memory.alloc_holds harea hm₀⟩
  rw [← hsize, Array.getElem?_push_size]

/-- What an execution that is not stopped comes to. -/
theorem exec_eq_ok {α : Type} {steps : Exec α} {a : α} (h : m.exec steps = (.ok a, m')) :
    steps m.store = .ok a m'.store ∧ m'.world = m.world ∧ m'.coverage = m.coverage := by
  unfold exec at h
  split at h
  · next hsteps =>
    obtain ⟨ha, rfl⟩ := Prod.mk.inj h
    obtain rfl := Except.ok.inj ha
    exact ⟨hsteps, rfl, rfl⟩
  · cases (Prod.mk.inj h).1

end Machine

theorem Module.name_of_findFunction? {m : Module} {name : String} {id : FuncId} {f : Function}
    (hid : m.findFunction? name = some id) (hf : m.function id = .ok f) : f.name = name := by
  obtain ⟨index, hindex, rfl⟩ := Option.map_eq_some_iff.mp hid
  obtain ⟨hlt, hname, -⟩ := Array.findIdx?_eq_some_iff_getElem.mp hindex
  have hget := Module.function_eq_ok.mp hf
  rw [Array.getElem?_eq_getElem hlt] at hget
  rw [← Option.some.inj hget]
  exact beq_iff_eq.mp hname

namespace World

variable {w : World} {hooks : Hooks} {hook : FuncId} {base : FuncId → Nat}
  {plan : List PlannedProbe} {stands : FuncId → List Stand} {l : MapLayout} {name : String}
  {args : List UInt64} {s s' : Store} {sites : List ProbeSite} {v : UInt64}

/-- A call adds the identifiers at the sites that it passes to the trace. -/
theorem Carries.trace_of_call (h : w.Carries hooks hook base plan stands)
    (hpasses : w.CallPasses name args s sites v s') (hname : name ≠ Symbol.traceHook)
    (havoids : ∀ moment, w.Occurs name args s moment →
      w.ProgramAvoids Symbol.traceHook (fun id i => i.index < base id) moment) :
    s'.trace = ((sites.flatMap (markOf plan)).map UInt32.ofNat).reverse ++ s.trace := by
  refine h.reports.adds_call hpasses (fun moment hmoment => ⟨hmoment.sound, havoids moment hmoment⟩)
    (fun _ _ _ _ => trivial) fun id f hid hf _ hcall => ?_
  refine trace_of_callDeclared ?_ hcall
  rwa [Module.name_of_findFunction? hid hf]

/-- A call counts the identifiers at the sites that it passes. -/
theorem CountsDense.adds_of_call (h : w.CountsDense hooks hook base plan stands l)
    (hpasses : w.CallPasses name args s sites v s') (hplace : l.InPlace s.memory)
    (hkeeps : ∀ moment, w.Occurs name args s moment →
      w.ProgramKeeps l.Spares (fun id i => i.index < base id) moment)
    (hdeclared : ∀ id f, w.module.findFunction? name = some id → w.module.function id = .ok f →
      f.entryBlock? = none → (w.callDeclared f args).Leaves (l.Spares s.memory) s) :
    l.Adds (sites.flatMap (markOf plan)) s.memory s'.memory :=
  h.tallies.adds_call hpasses (fun moment hmoment => ⟨hmoment.sound, hkeeps moment hmoment⟩)
    (fun _ _ _ _ => ⟨hplace, trivial⟩) fun id f hid hf hentry hcall =>
      ((hdeclared id f hid hf hentry).of_ok hcall).adds

end World

/-! ## Whole modules -/

namespace Pass.Instrumentation

variable {config : Config} {drawn : UInt64} {m m' : Module} {report : InstrumentReport}
  {i : Instrumentation config drawn m report m'}

/-- In dense mode the word that leads to the map is the last global. -/
theorem Valid.globals_dense (hi : i.Valid) (hsymbols : m.WithoutSymbols)
    (hdense : config.denseIds = true) :
    m'.globals = i.split.globals ++ #[{ name := Symbol.areaPointer }] := by
  have hresult := congrArg Module.globals (hi.result_eq hsymbols)
  simp only [Module.addFunction, hi.placed.globals, (hi.declared_eq hsymbols).1,
    Module.hookGlobals, hdense] at hresult
  exact hresult

theorem Valid.findGlobal?_area (hi : i.Valid) (hsymbols : m.WithoutSymbols)
    (hdense : config.denseIds = true) :
    m'.findGlobal? Symbol.areaPointer = some ⟨i.split.globals.size⟩ := by
  have hglobals := hi.globals_dense hsymbols hdense
  refine Module.findGlobal?_of_first (g := { name := Symbol.areaPointer }) (by simp [hglobals]) rfl
    fun j g hj hg => ?_
  rw [hglobals, Array.getElem?_append_left hj] at hg
  exact (hi.withoutSymbols hsymbols).global_ne (by decide) g (Array.mem_of_getElem? hg)

/-- In dense mode the probes of a machine count in its map. -/
theorem Valid.countsDense (hi : i.Valid) (hsymbols : m.WithoutSymbols)
    (hdense : config.denseIds = true) {machine : Machine} (hmodule : machine.world.module = m')
    {l : MapLayout} (hmap : machine.HasMap l) (hsize : l.size = report.areaSize) {hook : FuncId}
    {stands : FuncId → List Stand}
    (hcarries : machine.world.Carries i.hooks hook m.instCount i.plan stands) :
    machine.world.CountsDense i.hooks hook m.instCount i.plan stands l where
  toCarries := hcarries
  hasNoPrevious := by
    rw [(hi.declared_eq hsymbols).2, hdense]
    rfl
  area := by
    have harea := hmap.area
    rw [Machine.globalAddr?, hmodule, hi.findGlobal?_area hsymbols hdense] at harea
    have hfound : machine.world.globals[i.split.globals.size]? = some l.area := harea
    rw [(hi.declared_eq hsymbols).2, World.globalAddr]
    dsimp only
    rw [hfound]
  apart := hmap.apart
  slots := fun planned hplanned => by
    obtain ⟨n, hn, hid, hslot⟩ := mem_planProbes.mp hplanned
    rw [hdense, if_pos rfl] at hslot
    refine ⟨hslot.trans hid.symm, ?_⟩
    have hlt := (List.getElem?_eq_some_iff.mp hn).1
    rw [hid, hsize, hi.reportedSize, areaSize, hdense, if_pos rfl, plan, length_planProbes]
    omega

end Pass.Instrumentation

/-- Identifiers of 32 bits are told apart in the trace. -/
theorem count_map_ofNat {ids : List Nat} {k : Nat} (hids : ∀ id ∈ ids, id < 2 ^ 32)
    (hk : k < 2 ^ 32) : (ids.map UInt32.ofNat).count (UInt32.ofNat k) = ids.count k := by
  rw [List.count_eq_countP, List.countP_map, List.count_eq_countP]
  refine List.countP_congr fun id hid => ?_
  rw [Function.comp_apply, beq_iff_eq, beq_iff_eq]
  refine ⟨fun heq => ?_, congrArg UInt32.ofNat⟩
  have hmod := congrArg UInt32.toNat heq
  rwa [UInt32.toNat_ofNat', UInt32.toNat_ofNat', Nat.mod_eq_of_lt (hids id hid),
    Nat.mod_eq_of_lt hk] at hmod

theorem mem_markOf {plan : List PlannedProbe} {sites : List ProbeSite} {id : Nat}
    (h : id ∈ sites.flatMap (markOf plan)) : ∃ planned ∈ plan, planned.id = id := by
  obtain ⟨site, -, hid⟩ := List.mem_flatMap.mp h
  unfold markOf at hid
  rw [Option.mem_toList, Option.map_eq_some_iff] at hid
  obtain ⟨planned, hfind, rfl⟩ := hid
  exact ⟨planned, List.mem_of_find?_eq_some hfind, rfl⟩

namespace Machine

variable {m after before fresh mapped : Machine} {l : MapLayout} {ids : List Nat}

/-- Where the map has been counted up, it tells that. -/
theorem HasMap.coverageMap_of_adds (h : m.HasMap l) (hpos : 0 < l.size)
    (hworld : after.world = m.world) (hcoverage : after.coverage = m.coverage)
    (hadds : l.Adds ids m.store.memory after.store.memory) : after.HasMap l ∧
      ∀ k < l.size, after.coverageMap[k]? = m.coverageMap[k]?.map (· + UInt8.ofNat (ids.count k)) := by
  obtain ⟨hplace, hcounts⟩ := hadds h.inPlace
  have hafter := h.of_world hworld hcoverage hplace
  refine ⟨hafter, fun k hk => ?_⟩
  rw [(hafter.coverageMap hpos).2 k hk, (h.coverageMap hpos).2 k hk, hcounts k hk]

/-- It still tells what is in the trace if that has grown in step. -/
theorem Tallied.grown (h : m.Tallied) (hm : m.HasMap l) (hafter : after.HasMap l)
    (hpos : 0 < l.size) (hsize : l.size ≤ 2 ^ 32) (hids : ∀ id ∈ ids, id < 2 ^ 32)
    (htrace : after.trace = m.trace ++ ids.map UInt32.ofNat)
    (hcounts : ∀ k < l.size,
      after.coverageMap[k]? = m.coverageMap[k]?.map (· + UInt8.ofNat (ids.count k))) :
    after.Tallied := by
  intro k hk
  rw [(hafter.coverageMap hpos).1] at hk
  have hold := h k (by rwa [(hm.coverageMap hpos).1])
  rw [hcounts k hk, hold, Option.map_some, htrace, List.count_append,
    count_map_ofNat hids (hk.trans_le hsize), UInt8.ofNat_add]

/-- An empty map goes with an empty trace. -/
theorem HasMap.tallied_of_empty (h : m.HasMap l) (hpos : 0 < l.size)
    (hzeros : m.store.memory.Holds l.map (List.replicate l.size 0)) (htrace : m.store.trace = []) :
    m.Tallied := by
  intro k hk
  obtain ⟨hsize, hplaces⟩ := h.coverageMap hpos
  rw [hsize] at hk
  obtain ⟨-, -, hbytes⟩ := hzeros
  rw [hplaces k hk, hbytes k (by simpa using hk), List.getElem?_replicate, if_pos hk, Machine.trace,
    htrace]
  rfl

end Machine

namespace Module

variable {m m' : Module} {config : Config} {drawn : UInt64} {report : InstrumentReport} {s : PassState}

/-- The sites of the module with its landing pads split are numbered from one. Blocks and edges of
the instrumented functions are those of the functions from before, and probes stand on them. -/
structure Numbers (m : Module) (config : Config) (report : InstrumentReport) (m' : Module)
    (split : Module) (pointedTo : Option (List String)) (plan : List PlannedProbe) : Prop where
  pads : m.EachBecomes (fun _ => Pass.PadsSplit) split
  pointers : split.pointedTo? = .ok pointedTo
  distinct : (plan.map (·.site)).Nodup
  sites : ∀ site, site ∈ plan.map (·.site) ↔ split.IsSite config pointedTo site
  ids : plan.map (·.id) = (List.range (report.blockCount - 1)).map (· + 1)
  functions : ∀ id f, split.function id = .ok f → f.isDeclaration = false →
    ∃ hooks stands f', m'.function id = .ok f' ∧ f.Instrumented hooks stands f'

end Module

namespace Pass.Instrumentation

variable {config : Config} {drawn : UInt64} {m m' : Module} {report : InstrumentReport}
  {i : Instrumentation config drawn m report m'}

theorem Valid.numbers (hi : i.Valid) (hm : m.Accepted) (hsymbols : m.WithoutSymbols) :
    m.Numbers config report m' i.split i.pointedTo i.plan where
  pads := hi.split
  pointers := hi.pointedTo
  distinct := List.pairwise_map.mpr ((hi.pairwise_plan hm).imp And.left)
  sites _ := hi.mem_plan_iff
  ids := by
    rw [hi.blockCount, Nat.add_sub_cancel, plan, id_planProbes, length_planProbes]
  functions := fun id f hid hbody => by
    obtain ⟨stands, f', -, hid', h, -⟩ := hi.instrumented hm hid hbody
    exact ⟨i.hooks, stands, f', hi.function_eq hsymbols hid', h⟩

theorem Valid.id_bounds (hi : i.Valid) {planned : PlannedProbe} (h : planned ∈ i.plan) :
    0 < planned.id ∧ planned.id < report.blockCount := by
  obtain ⟨n, hn, hid, -⟩ := mem_planProbes.mp h
  have hlt := (List.getElem?_eq_some_iff.mp hn).1
  rw [hid, hi.blockCount, plan, length_planProbes]
  omega

/-- In dense mode the map has a place for each identifier, and one more. -/
theorem Valid.areaSize_dense (hi : i.Valid) (hdense : config.denseIds = true) :
    report.areaSize = report.blockCount := by
  rw [hi.reportedSize, areaSize, hdense, if_pos rfl, hi.blockCount]

/-- A machine of a module with dense identifiers that gets a coverage map has nothing in it. -/
theorem Valid.exists_hasMap (hi : i.Valid) (hsymbols : m.WithoutSymbols)
    (hdense : config.denseIds = true) {fresh before mapped : Machine}
    (hfresh : Machine.ofModule m' = .ok fresh) (hbefore : fresh.SetUp before)
    (hmapped : before.withCoverageMap report.areaSize = .ok mapped)
    (htrace : before.store.trace = []) : ∃ l : MapLayout, l.size = report.areaSize ∧
      mapped.HasMap l ∧ mapped.Tallied ∧ mapped.world.module = m' := by
  have hpos : 0 < report.areaSize := by
    rw [hi.areaSize_dense hdense, hi.blockCount]
    exact Nat.succ_pos _
  obtain ⟨hmodule, area, harea, hzeros⟩ :=
    Machine.ofModule_word (hi.globals_dense hsymbols hdense) rfl hfresh
  have hname : ∀ machine : Machine, machine.world.module = m' →
      machine.world.globals = fresh.world.globals →
        machine.globalAddr? Symbol.areaPointer = some area := by
    intro machine hm hglobals
    rw [Machine.globalAddr?, hm, hi.findGlobal?_area hsymbols hdense, hglobals]
    exact harea
  have hholds : before.store.memory.Holds area (List.replicate 8 0) :=
    hzeros.of_same (by decide) (hbefore.words.1 area (hname fresh hmodule rfl))
  obtain ⟨l, hsize, hmap, hworld, htrace', hempty⟩ := Machine.withCoverageMap_hasMap hpos
    (hname before (hbefore.module.trans hmodule) hbefore.globals) hholds (by decide) hmapped
  refine ⟨l, hsize, hmap, hmap.tallied_of_empty (hsize ▸ hpos) (hsize ▸ hempty)
    (htrace'.trans htrace), ?_⟩
  rw [hworld, hbefore.module, hmodule]

end Pass.Instrumentation

namespace Module

variable {m : Module} {config : Config} {drawn : UInt64} {report : InstrumentReport} {s : PassState}

/-- A run of an instrumented module, in which the program itself does not call the trace hook, reports
the identifiers of the sites that it passes, in this order. If identifiers are dense and the program
writes neither the map nor the word that leads there, the map tells how often each has been reported,
and the place of no identifier is left alone. -/
theorem Accepted.probes_fire (hm : m.Accepted) (honce : m.ListsOnce) (hsymbols : m.WithoutSymbols)
    (hroot : m.Rooted) (htraces : config.tracesIds = true)
    (h : (Pass.instrumentEdges config drawn).runOn m = .ok (.ok report, s)) :
    ∃ split pointedTo plan, m.Numbers config report s.module split pointedTo plan ∧
      (∀ (machine after : Machine) name args v, machine.world.module = s.module →
        machine.call name args = (.ok v, after) →
        machine.CallAvoids Symbol.traceHook (fun id i => i.index < m.instCount id) name args →
        ∃ sites, machine.world.CallPasses name args machine.store sites v after.store ∧
          after.trace = machine.trace ++ (sites.flatMap (markOf plan)).map UInt32.ofNat ∧
          ∀ l : MapLayout, config.denseIds = true → l.size = report.areaSize → machine.HasMap l →
            machine.CallKeeps machine.SparesMap (fun id i => i.index < m.instCount id) name args →
            after.HasMap l ∧
            (∀ k < l.size, after.coverageMap[k]? = machine.coverageMap[k]?.map
              (· + UInt8.ofNat ((sites.flatMap (markOf plan)).count k))) ∧
            after.coverageMap[0]? = machine.coverageMap[0]? ∧
            (report.blockCount ≤ 2 ^ 32 → machine.Tallied → after.Tallied)) ∧
      (config.denseIds = true → ∀ fresh before mapped : Machine,
        Machine.ofModule s.module = .ok fresh → fresh.SetUp before →
        before.withCoverageMap report.areaSize = .ok mapped → before.store.trace = [] →
        ∃ l : MapLayout, l.size = report.areaSize ∧ mapped.HasMap l ∧ mapped.Tallied ∧
          mapped.world.module = s.module) := by
  obtain ⟨i, hi⟩ := Pass.instrumentEdges_does (s := { module := m }) h
  obtain ⟨hook, stands, hcarries⟩ := hi.exists_carries hm honce hroot hsymbols htraces
  refine ⟨i.split, i.pointedTo, i.plan, hi.numbers hm hsymbols, ?_, fun hdense fresh before mapped
    hfresh hbefore hmapped htrace => hi.exists_hasMap hsymbols hdense hfresh hbefore hmapped htrace⟩
  intro machine after name args v hmodule hcall ⟨hname, havoids⟩
  obtain ⟨hrun, hworld, hcoverage⟩ := Machine.exec_eq_ok hcall
  obtain ⟨sites, hpasses, -⟩ := World.existsUnique_callPasses hrun
  have hcarries := hcarries machine.world hmodule
  have htrace : after.trace = machine.trace ++ (sites.flatMap (markOf i.plan)).map UInt32.ofNat := by
    rw [Machine.trace, hcarries.trace_of_call hpasses hname havoids, List.reverse_append,
      List.reverse_reverse]
    rfl
  refine ⟨sites, hpasses, htrace, fun l hdense hsize hmap hkeeps => ?_⟩
  have hcount := hi.areaSize_dense hdense
  have hids : ∀ id ∈ sites.flatMap (markOf i.plan), 0 < id ∧ id < report.blockCount := by
    intro id hid
    obtain ⟨planned, hplanned, rfl⟩ := mem_markOf hid
    exact hi.id_bounds hplanned
  have hpos : 0 < l.size := by
    rw [hsize, hcount, hi.blockCount]
    exact Nat.succ_pos _
  have hadds := (hi.countsDense hsymbols hdense hmodule hmap hsize hcarries).adds_of_call hpasses
    hmap.inPlace (fun moment hmoment => (hkeeps.moments moment hmoment).mono fun _ _ => hmap.spares)
    fun id f hid hf hentry => (hkeeps.declared id f hid hf hentry).mono fun _ => hmap.spares
  obtain ⟨hafter, hcounts⟩ := hmap.coverageMap_of_adds hpos hworld hcoverage hadds
  refine ⟨hafter, hcounts, ?_, fun hbound htallied => ?_⟩
  · have hnone : (sites.flatMap (markOf i.plan)).count 0 = 0 :=
      List.count_eq_zero.mpr fun hmem => absurd (hids 0 hmem).1 (lt_irrefl 0)
    rw [hcounts 0 hpos, hnone]
    simp
  · exact htallied.grown hmap hafter hpos (by omega) (fun id hid => by have := hids id hid; omega)
      htrace hcounts

/-- No block ends in a call. -/
def invokesNothing (m : Module) : Bool :=
  m.functions.all fun f => f.blocks.all fun b => !b.term.calls

section Quiet

variable {machine : Machine} {program : FuncId → InstId → Prop}

theorem not_calls_of_invokesNothing (hquiet : m.invokesNothing = true) {id : FuncId} {f : Function}
    (hid : m.function id = .ok f) {block : BlockId} {b : Block} (hb : f.block block = .ok b) :
    b.term.calls = false := by
  simp only [invokesNothing, Array.all_eq_true_iff_forall_mem, Bool.not_eq_true'] at hquiet
  exact hquiet f (Array.mem_of_getElem? (function_eq_ok.mp hid)) b
    (Array.mem_of_getElem? (Function.block_eq_ok.mp hb))

/-- A program without instructions that does not call leaves the map alone. -/
theorem callKeeps_of_invokesNothing (hprogram : ∀ id i, ¬program id i)
    (hquiet : machine.world.module.invokesNothing = true) {name : String} {args : List UInt64}
    (hbody : ∀ id f, machine.world.module.findFunction? name = some id →
      machine.world.module.function id = .ok f → f.entryBlock? ≠ none) :
    machine.CallKeeps machine.SparesMap program name args where
  moments moment hmoment := by
    have hknown := hmoment.sound.known
    obtain ⟨id, a, n, es, place, s⟩ := moment
    cases place with
    | arriving c => trivial
    | within block insts frame =>
      cases insts with
      | cons i rest => exact fun hi => absurd hi (hprogram id i)
      | nil =>
        intro b s₁ hb _
        have hcalls := not_calls_of_invokesNothing hquiet hknown hb
        exact (World.still_runTerminator hcalls).leaves
          ⟨fun _ _ => .refl _ _ _, fun _ _ _ => .refl _ _ _⟩
  declared id f hfind hid hentry := absurd hentry (hbody id f hfind hid)

/-- Nor does it call the trace hook. -/
theorem callAvoids_of_invokesNothing (hprogram : ∀ id i, ¬program id i)
    (hquiet : machine.world.module.invokesNothing = true) {avoided name : String}
    {args : List UInt64} (hname : name ≠ avoided) :
    machine.CallAvoids avoided program name args := by
  refine ⟨hname, fun moment hmoment => ?_⟩
  have hknown := hmoment.sound.known
  obtain ⟨id, a, n, es, place, s⟩ := moment
  cases place with
  | arriving c => trivial
  | within block insts frame =>
    cases insts with
    | cons i rest => exact fun hi => absurd hi (hprogram id i)
    | nil =>
      intro b callee args normal unwind hb hterm
      have hcalls := not_calls_of_invokesNothing hquiet hknown hb
      rw [hterm] at hcalls
      cases hcalls

end Quiet

/-- A module is instrumented for coverage, and a machine for it gets a map. -/
def mappedRun (m : Module) : Option (InstrumentReport × PassState × Machine × Machine) := do
  let (report, s) ← Pass.completed? ((Pass.instrumentEdges (.coverage .all) 0).runOn m)
  let fresh ← (Machine.ofModule s.module).toOption
  let mapped ← (fresh.withCoverageMap report.areaSize).toOption
  return (report, s, fresh, mapped)

theorem mappedRun_eq_some {fresh mapped : Machine}
    (h : m.mappedRun = some (report, s, fresh, mapped)) :
    (Pass.instrumentEdges (.coverage .all) 0).runOn m = .ok (.ok report, s) ∧
      Machine.ofModule s.module = .ok fresh ∧
      fresh.withCoverageMap report.areaSize = .ok mapped := by
  simp only [mappedRun, bind, Option.bind_eq_some_iff, pure, Option.some.injEq] at h
  obtain ⟨⟨report, s⟩, hrun, fresh, hfresh, mapped, hmapped, hall⟩ := h
  cases hall
  exact ⟨Pass.completed?_eq_some hrun, eq_ok_of_toOption hfresh, eq_ok_of_toOption hmapped⟩

/-- No edge leads to the entry of a function, which is decided by going through the edges. -/
def isRooted (m : Module) : Bool :=
  m.functions.all fun f => f.entryBlock?.all fun e => f.layout.all fun a =>
    (f.successors a).toOption.all fun succs => !succs.contains e

theorem rooted_of_isRooted (h : m.isRooted = true) : m.Rooted := by
  rintro id f hid e he a ha ⟨succs, hsuccs, hmem⟩
  simp only [isRooted, Array.all_eq_true_iff_forall_mem] at h
  have hf := h f (Array.mem_of_getElem? (function_eq_ok.mp hid))
  rw [he, Option.all_some, List.all_eq_true] at hf
  have hnone := hf a ha
  rw [hsuccs] at hnone
  simp [Except.toOption, hmem] at hnone

/-- A function that goes one of two ways, and on one of them along one of two edges to one block. -/
def forking : Module where
  name := "forking"
  functions := #[{
    name := "fork"
    params := [.i1, .i1]
    ret := .void
    blocks := #[⟨"entry", [], .condBr (.arg 0) ⟨1⟩ ⟨2⟩⟩, ⟨"again", [], .condBr (.arg 1) ⟨2⟩ ⟨2⟩⟩,
      ⟨"done", [], .ret none⟩]
    layout := [⟨0⟩, ⟨1⟩, ⟨2⟩] }]

/-- It has four edges. Whichever way a run of it goes, the trace and the map tell that. -/
theorem forking_probes_fire : ∃ report s fresh mapped,
    forking.mappedRun = some (report, s, fresh, mapped) ∧ report.blockCount = 5 ∧
    mapped.trace = [] ∧ mapped.Tallied ∧ ∃ split pointedTo plan,
      forking.Numbers (.coverage .all) report s.module split pointedTo plan ∧
      ∀ args v after, mapped.call "fork" args = (.ok v, after) → ∃ sites,
        mapped.world.CallPasses "fork" args mapped.store sites v after.store ∧
        after.trace = (sites.flatMap (markOf plan)).map UInt32.ofNat ∧ after.Tallied ∧
        after.coverageMap[0]? = mapped.coverageMap[0]? := by
  have hlocal : forking.isLocal = true := by decide +kernel
  have hrun : (forking.mappedRun.filter fun r => r.1.blockCount == 5 && r.2.2.2.trace.isEmpty &&
      r.2.2.1.store.trace.isEmpty && r.2.2.2.world.module.invokesNothing &&
      (r.2.2.2.world.module.findFunction? "fork" == some ⟨0⟩) &&
      (r.2.2.2.world.module.function ⟨0⟩).toOption.any (·.entryBlock?.isSome)).isSome = true := by
    decide +kernel
  obtain ⟨⟨report, s, fresh, mapped⟩, hfound⟩ := Option.isSome_iff_exists.mp hrun
  obtain ⟨hforking, hfacts⟩ := Option.filter_eq_some_iff.mp hfound
  simp only [Bool.and_eq_true, beq_iff_eq, List.isEmpty_iff] at hfacts
  obtain ⟨⟨⟨⟨⟨hcount, hempty⟩, hfreshEmpty⟩, hquiet⟩, hname⟩, hbody⟩ := hfacts
  obtain ⟨hedges, hfresh, hmapped⟩ := mappedRun_eq_some hforking
  obtain ⟨split, pointedTo, plan, hnumbers, hruns, hmaps⟩ :=
    Accepted.probes_fire (accepted_of_isLocal hlocal) (listsOnce_of_isLocal hlocal)
      ⟨by decide, by decide⟩ (rooted_of_isRooted (by decide +kernel)) rfl hedges
  obtain ⟨l, hsize, hmap, htallied, hmodule⟩ := hmaps rfl fresh fresh mapped hfresh
    ⟨rfl, rfl, fun _ _ => .refl _ _ _, fun _ _ => .refl _ _ _⟩ hmapped hfreshEmpty
  have hprogram : ∀ (id : FuncId) (i : InstId), ¬i.index < forking.instCount id := by
    intro id i
    have hnone : forking.instCount id = 0 := by
      obtain ⟨n⟩ := id
      cases n <;> rfl
    omega
  refine ⟨report, s, fresh, mapped, hforking, hcount, hempty, htallied, split, pointedTo, plan,
    hnumbers, fun args v after hcall => ?_⟩
  obtain ⟨sites, hpasses, htrace, hcounted⟩ := hruns mapped after "fork" args v hmodule hcall
    (callAvoids_of_invokesNothing hprogram hquiet (by decide))
  rw [hempty, List.nil_append] at htrace
  obtain ⟨-, -, hzero, hafter⟩ := hcounted l rfl hsize hmap
    (callKeeps_of_invokesNothing hprogram hquiet fun id f hfind hid hnone => by
      obtain rfl := Option.some.inj (hname.symm.trans hfind)
      rw [hid] at hbody
      simp [Except.toOption, hnone] at hbody)
  exact ⟨sites, hpasses, htrace, hafter (by rw [hcount]; decide) htallied, hzero⟩

/-- A program that makes up the address of the trace hook. -/
def forging : Module where
  name := "forging"
  functions := #[{
    name := "main"
    params := []
    ret := .i32
    insts := #[{
      kind := .call (.indirect (.ofWord 64 (functionBase + 1))) [.ofWord 32 5] .void
      block := some ⟨0⟩ }]
    blocks := #[⟨"entry", [⟨0⟩], .ret (some (.ofWord 32 0))⟩]
    layout := [⟨0⟩] }]

/-- What it calls the hook with is in the trace, and there is no site that stands for that. -/
theorem trace_of_forging : forging.Accepted ∧ forging.ListsOnce ∧ forging.WithoutSymbols ∧
    forging.Rooted ∧ ∃ report s fresh mapped after v,
      forging.mappedRun = some (report, s, fresh, mapped) ∧
      mapped.call "main" [] = (.ok v, after) ∧ mapped.trace = [] ∧ after.trace = [5] ∧
      ∀ split pointedTo plan, forging.Numbers (.coverage .all) report s.module split pointedTo plan →
        ∀ sites : List ProbeSite, after.trace ≠ (sites.flatMap (markOf plan)).map UInt32.ofNat := by
  have hlocal : forging.isLocal = true := by decide +kernel
  have hrun : (forging.mappedRun.filter fun r => r.1.blockCount == 1 && r.2.2.2.trace.isEmpty &&
      (r.2.2.2.call "main" []).1.toOption.isSome &&
      ((r.2.2.2.call "main" []).2.trace == [5])).isSome = true := by
    decide +kernel
  obtain ⟨⟨report, s, fresh, mapped⟩, hfound⟩ := Option.isSome_iff_exists.mp hrun
  obtain ⟨hforging, hfacts⟩ := Option.filter_eq_some_iff.mp hfound
  simp only [Bool.and_eq_true, beq_iff_eq, List.isEmpty_iff] at hfacts
  obtain ⟨⟨⟨hcount, hempty⟩, hreturns⟩, htrace⟩ := hfacts
  obtain ⟨v, hv⟩ := Option.isSome_iff_exists.mp hreturns
  refine ⟨accepted_of_isLocal hlocal, listsOnce_of_isLocal hlocal, ⟨by decide, by decide⟩,
    rooted_of_isRooted (by decide +kernel), report, s, fresh, mapped, _, v, hforging,
    Prod.ext (eq_ok_of_toOption hv) rfl, hempty, htrace, fun split pointedTo plan hnumbers sites => ?_⟩
  have hplan : plan = [] := by
    have hids := hnumbers.ids
    rw [hcount, Nat.sub_self] at hids
    exact List.map_eq_nil_iff.mp hids
  subst hplan
  have hnone : sites.flatMap (markOf []) = [] := List.flatMap_eq_nil_iff.mpr fun _ _ => rfl
  rw [htrace, hnone]
  exact List.cons_ne_nil _ _

end Module

end EdgeProbe
