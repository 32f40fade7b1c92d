import EdgeProbe.Proofs.Probe.Entry
import EdgeProbe.Proofs.Probe.Instrumented
import EdgeProbe.Proofs.Probe.Sites
import EdgeProbe.Proofs.Probe.Symbols

/-!
# Probes and sites correspond

The steps of instrumenting a module put together: each site has one probe, which stands where it is
to, the identifiers are the numbers of the sites, and nothing but probes refers to what they share.
Main statement: `Module.Accepted.probes_correspond`.
-/

namespace EdgeProbe

/-- The instruction refers to what probes share. -/
def Hooks.ReferredBy (hooks : Hooks) (kind : InstKind) : Prop :=
  .global hooks.area ∈ kind.operands ∨
    (∃ previous, hooks.previous = some previous ∧ .global previous ∈ kind.operands) ∨
      ∃ trace args ret, hooks.trace = some trace ∧ kind = .call (.direct trace) args ret

namespace Function

variable {hooks : Hooks} {f f' : Function} {stands : List Stand}

/-- What a live block lists it listed before or is a part of a probe. -/
theorem Instrumented.listed_cases (h : f.Instrumented hooks stands f') (hwhole : f.Whole)
    (hlayout : ∀ b ∈ f.layout, b.index < f.blocks.size) {id : InstId} {b : BlockId} {pos : Nat}
    (hid : f'.Listed id b pos) :
    id.index < f.insts.size ∨ ∃ s ∈ stands, s.block = b ∧ id ∈ s.ids hooks := by
  obtain ⟨hb, blk', hblk', hpos⟩ := hid
  obtain hold | ⟨s, hs, hedge, rfl⟩ := (h.live b).mp hb
  · obtain ⟨blk, hblk⟩ := exists_block (hlayout b hold)
    obtain ⟨at', hat⟩ := hwhole.exists_firstInsertionPoint hblk
    obtain ⟨name, hblk₁⟩ := h.old b blk at' hblk hat
    obtain rfl := Except.ok.inj (hblk'.symm.trans hblk₁)
    have hmem := List.mem_of_getElem? hpos
    simp only [List.append_assoc, List.mem_append] at hmem
    obtain hmem | hmem | hmem := hmem
    · exact .inl (hwhole.insts b blk hblk id (List.mem_of_mem_take hmem))
    · exact .inr (Stand.mem_idsIn.mp hmem)
    · exact .inl (hwhole.insts b blk hblk id (List.mem_of_mem_drop hmem))
  · obtain ⟨⟨block, index⟩, hedge⟩ := Option.ne_none_iff_exists'.mp hedge
    obtain ⟨-, name, succs, target, -, -, hblk⟩ := h.new s hs block index hedge
    obtain rfl := Except.ok.inj (hblk'.symm.trans hblk)
    exact .inr ⟨s, hs, rfl, List.mem_of_getElem? hpos⟩

end Function

/-! ## The plan -/

section

variable {config : Config} {mapSize : Nat} {seed : UInt64} {sites : List ProbeSite}

theorem site_planProbes : (planProbes config mapSize seed sites).map (·.site) = sites := by
  rw [planProbes, List.map_map]
  exact List.zipIdx_map_fst 0 sites

theorem length_planProbes : (planProbes config mapSize seed sites).length = sites.length := by
  rw [← List.length_map (·.site), site_planProbes]

theorem id_planProbes : (planProbes config mapSize seed sites).map (·.id) =
    (List.range sites.length).map (· + 1) := by
  rw [planProbes, List.map_map, List.range_eq_range', ← List.zipIdx_map_snd 0 sites, List.map_map]
  rfl

theorem slot_planProbes (hdense : config.denseIds = true) :
    ∀ planned ∈ planProbes config mapSize seed sites, planned.slot = planned.id := by
  intro planned hplanned
  obtain ⟨n, -, hid, hslot⟩ := Pass.mem_planProbes.mp hplanned
  rw [hslot, if_pos hdense, hid]

/-- Lines are recorded under the identifiers of the probes. -/
theorem Module.ids_sourceMap {m : Module} {plan : List PlannedProbe} {map : SourceMap}
    (h : m.sourceMap plan = .ok map) : map.lines.map (·.1) = plan.map (·.id) := by
  obtain ⟨lines, hlines, hmap⟩ := Checked.bind_eq_ok.mp h
  have hall := Checked.mapM_eq_ok.mp hlines
  rw [← Checked.pure_eq_ok.mp hmap]
  clear h hmap hlines
  change lines.map (·.1) = _
  induction hall with
  | nil => rfl
  | cons hline _ ih =>
    obtain ⟨f, -, hline⟩ := Checked.bind_eq_ok.mp hline
    obtain ⟨blocks, -, hline⟩ := Checked.bind_eq_ok.mp hline
    obtain ⟨text, -, hline⟩ := Checked.bind_eq_ok.mp hline
    obtain rfl := Checked.pure_eq_ok.mp hline
    exact congrArg _ ih

end

/-- A site is one of a function that has a body. -/
theorem Module.IsSite.fits {m : Module} {config : Config} {pointedTo : Option (List String)}
    {site : ProbeSite} (h : m.IsSite config pointedTo site) :
    ∃ f, m.function site.function = .ok f ∧ f.isDeclaration = false ∧ f.Fits site := by
  cases site with
  | entry id =>
    obtain ⟨f, hf, hbody, -⟩ := h
    refine ⟨f, hf, hbody, ?_⟩
    cases hlayout : f.layout with
    | nil => simp [Function.isDeclaration, hlayout] at hbody
    | cons first rest => simp [Function.Fits, Function.entryBlock?, hlayout]
  | edge id block index =>
    obtain ⟨f, succs, hf, hblock, -, hsuccs, hlt⟩ := h
    refine ⟨f, hf, ?_, hblock, succs, _, hsuccs, List.getElem?_eq_getElem hlt⟩
    rw [Function.isDeclaration, List.isEmpty_eq_false_iff]
    exact List.ne_nil_of_mem hblock

/-- Before any probe of a function has been placed, all that are planned for it are to come. -/
theorem Module.placing_start {m : Module} {config : Config} {pointedTo : Option (List String)}
    {plan : List PlannedProbe} (hsites : ∀ planned ∈ plan, m.IsSite config pointedTo planned.site)
    (hbefore : plan.Pairwise fun a b => a.site.Before b.site) {id : FuncId} {f : Function}
    (hid : m.function id = .ok f) (hf : f.Framed) (hooks : Hooks) :
    f.Placing hooks id (plan.filter fun planned => planned.site.function == id) [] f := by
  have hown : ∀ planned ∈ plan.filter fun planned => planned.site.function == id,
      planned ∈ plan ∧ planned.site.function = id := fun planned hplanned =>
    ⟨List.mem_of_mem_filter hplanned, beq_iff_eq.mp (List.mem_filter.mp hplanned).2⟩
  have hbefore := hbefore.filter fun planned => planned.site.function == id
  refine .start hf (fun planned hplanned => ?_) (fun planned hplanned => (hown planned hplanned).2)
    (hbefore.imp_of_mem fun ha hb hbefore =>
      hbefore.2 ((hown _ ha).2.trans (hown _ hb).2.symm)) (List.pairwise_map.mpr (hbefore.imp And.left))
  obtain ⟨hmem, hfunction⟩ := hown planned hplanned
  obtain ⟨g, hg, -, hfits⟩ := (hsites planned hmem).fits
  rw [hfunction] at hg
  exact Except.ok.inj (hg.symm.trans hid) ▸ hfits

namespace Pass.Instrumentation

variable {config : Config} {drawn : UInt64} {m m' : Module} {report : InstrumentReport}
  {i : Instrumentation config drawn m report m'} {id : FuncId} {f f' : Function}

theorem Valid.mem_plan_iff (hi : i.Valid) {site : ProbeSite} :
    site ∈ i.plan.map (·.site) ↔ i.split.IsSite config i.pointedTo site := by
  rw [plan, site_planProbes]
  exact Module.mem_probeSites hi.sites

theorem Valid.isSite (hi : i.Valid) {planned : PlannedProbe} (h : planned ∈ i.plan) :
    i.split.IsSite config i.pointedTo planned.site :=
  hi.mem_plan_iff.mp (List.mem_map_of_mem h)

/-- A function of the module whose pads have been split comes from one that is well formed. -/
theorem Valid.exists_wellFormed (hi : i.Valid) (hm : m.Accepted)
    (hid : i.split.function id = .ok f) (hbody : f.isDeclaration = false) :
    ∃ f₀, m.function id = .ok f₀ ∧ f₀.WellFormed m ∧ PadsSplit f₀ f := by
  obtain ⟨f₀, hid₀, hsplit⟩ := hi.split.exists_function hid
  refine ⟨f₀, hid₀, hm.wellFormed hid₀ ?_, hsplit⟩
  obtain ⟨-, rfl⟩ | ⟨hbody₀, -⟩ := hsplit
  · exact hbody
  · exact hbody₀

theorem Valid.framed (hi : i.Valid) (hm : m.Accepted) (hid : i.split.function id = .ok f)
    (hbody : f.isDeclaration = false) : f.Framed := by
  obtain ⟨f₀, -, hwf, hsplit⟩ := hi.exists_wellFormed hm hid hbody
  exact hsplit.framed hwf

/-- The sites of the plan are different ones, and entries come before edges. -/
theorem Valid.pairwise_plan (hi : i.Valid) (hm : m.Accepted) :
    i.plan.Pairwise fun a b => a.site.Before b.site := by
  rw [← List.pairwise_map, plan, site_planProbes]
  refine Module.pairwise_probeSites hi.sites fun id f hid => ?_
  cases hbody : f.isDeclaration with
  | true =>
    rw [List.isEmpty_iff.mp hbody]
    exact .nil
  | false => exact (hi.framed hm hid hbody).nodup

/-- The probes of a function have all been placed in the end. -/
theorem Valid.placing (hi : i.Valid) (hm : m.Accepted) (hid : i.split.function id = .ok f)
    (hbody : f.isDeclaration = false) : ∃ stands f',
      stands.map Stand.planned = (i.plan.filter fun planned => planned.site.function == id).reverse ∧
        i.placed.function id = .ok f' ∧ f.Placing i.hooks id [] stands f' := by
  have hframed := hi.framed hm hid hbody
  have hdeclared := Module.function_withHooks hid config
  rw [hi.declared] at hdeclared
  obtain ⟨f', hid', hturns⟩ := hi.placed.functions id f hdeclared
  obtain ⟨stands, hstands, h⟩ := (Module.placing_start (fun _ => hi.isSite) (hi.pairwise_plan hm) hid
    hframed i.hooks).all (Edit.placeAll_inTurn hframed.whole hturns)
  exact ⟨stands, f', by simpa using hstands, hid', h⟩

/-- What placing its probes makes of a function. -/
theorem Valid.instrumented (hi : i.Valid) (hm : m.Accepted) (hid : i.split.function id = .ok f)
    (hbody : f.isDeclaration = false) : ∃ stands f',
      stands.map Stand.planned = (i.plan.filter fun planned => planned.site.function == id).reverse ∧
        i.placed.function id = .ok f' ∧ f.Instrumented i.hooks stands f' ∧ f.Labelled stands f' := by
  obtain ⟨stands, f', hstands, hid', h⟩ := hi.placing hm hid hbody
  exact ⟨stands, f', hstands, hid', h.instrumented, h.labelled⟩

/-- A function either has no sites and is as it was, or its probes have been placed. -/
theorem Valid.placed_cases (hi : i.Valid) (hm : m.Accepted) (hid : i.declared.function id = .ok f)
    (hid' : i.placed.function id = .ok f') : f' = f ∨
      f.isDeclaration = false ∧ i.split.function id = .ok f ∧
        ∃ stands, f.Instrumented i.hooks stands f' := by
  obtain ⟨f₁, hid₁, hturns⟩ := hi.placed.functions id f hid
  obtain rfl := Except.ok.inj (hid'.symm.trans hid₁)
  cases hplan : i.plan.filter fun planned => planned.site.function == id with
  | nil =>
    rw [hplan] at hturns
    cases hturns
    exact .inl rfl
  | cons planned rest =>
    have hmem : planned ∈ i.plan.filter fun planned => planned.site.function == id :=
      hplan ▸ List.mem_cons_self
    obtain ⟨g, hg, hbody, -⟩ := (hi.isSite (List.mem_of_mem_filter hmem)).fits
    rw [beq_iff_eq.mp (List.mem_filter.mp hmem).2] at hg
    have hdeclared := Module.function_withHooks hg config
    rw [hi.declared] at hdeclared
    obtain rfl := Except.ok.inj (hid.symm.trans hdeclared)
    obtain ⟨stands, f₁, -, hid₁, h, -⟩ := hi.instrumented hm hg hbody
    exact .inr ⟨hbody, hg, stands, Except.ok.inj (hid'.symm.trans hid₁) ▸ h⟩

/-- The probes of a function, placed. -/
theorem Valid.exists_stands (hi : i.Valid) (hm : m.Accepted) (id : FuncId) : ∃ stands,
    stands.map Stand.planned = (i.plan.filter fun planned => planned.site.function == id).reverse ∧
      ∀ f, i.split.function id = .ok f → f.isDeclaration = false →
        ∃ f', i.placed.function id = .ok f' ∧ f.Instrumented i.hooks stands f' := by
  cases hplan : i.plan.filter fun planned => planned.site.function == id with
  | nil =>
    refine ⟨[], rfl, fun f hid hbody => ?_⟩
    obtain ⟨stands, f', hstands, hid', h, -⟩ := hi.instrumented hm hid hbody
    rw [hplan] at hstands
    obtain rfl := List.map_eq_nil_iff.mp hstands
    exact ⟨f', hid', h⟩
  | cons planned rest =>
    have hmem : planned ∈ i.plan.filter fun planned => planned.site.function == id :=
      hplan ▸ List.mem_cons_self
    obtain ⟨f, hid, hbody, -⟩ := (hi.isSite (List.mem_of_mem_filter hmem)).fits
    rw [beq_iff_eq.mp (List.mem_filter.mp hmem).2] at hid
    obtain ⟨stands, f', hstands, hid', h, -⟩ := hi.instrumented hm hid hbody
    refine ⟨stands, hplan ▸ hstands, fun g hg _ => ⟨f', hid', ?_⟩⟩
    exact Except.ok.inj (hid.symm.trans hg) ▸ h

/-- What probes share is of no use to the program. -/
theorem Valid.not_referredBy (hi : i.Valid) (hm : m.Accepted) (hsymbols : m.WithoutSymbols)
    (hid : i.split.function id = .ok f) (hbody : f.isDeclaration = false) {inst : InstId}
    {kind : InstKind} (hkind : f.kind inst = .ok kind) (hnot : kind.isPhi = false) :
    ¬i.hooks.ReferredBy kind := by
  obtain ⟨f₀, -, hwf, hsplit⟩ := hi.exists_wellFormed hm hid hbody
  rw [(hi.declared_eq hsymbols).2, hi.split.globals, hi.split.size]
  obtain hold | rfl := hsplit.kind_cases hwf hkind hnot
  · have hknown := hwf.knowsKind inst kind hold
    unfold Module.knowsKind at hknown
    rw [Bool.and_eq_true, List.all_eq_true] at hknown
    have hglobal : ∀ index, .global ⟨index⟩ ∈ kind.operands → index < m.globals.size :=
      fun index hmem => of_decide_eq_true (hknown.1 _ hmem)
    rintro (harea | ⟨previous, hprevious, hmem⟩ | ⟨trace, args, ret, htrace, rfl⟩)
    · exact absurd (hglobal _ harea) (lt_irrefl _)
    · dsimp only at hprevious
      split at hprevious
      · cases hprevious
      · obtain rfl := Option.some.inj hprevious
        have := hglobal _ hmem
        omega
    · dsimp only at htrace
      split at htrace
      · obtain rfl := Option.some.inj htrace
        exact absurd (of_decide_eq_true hknown.2) (lt_irrefl _)
      · cases htrace
  · rintro (harea | ⟨previous, -, hmem⟩ | ⟨trace, args, ret, -, heq⟩)
    · cases harea
    · cases hmem
    · cases heq

end Pass.Instrumentation

/-- The probes of an instrumented module and the sites of the module with its landing pads split. -/
structure Module.Corresponds (config : Config) (m : Module) (report : InstrumentReport) (m' : Module)
    (split : Module) (pointedTo : Option (List String)) (hooks : Hooks) (plan : List PlannedProbe)
    (stands : FuncId → List Stand) : Prop where
  pads : m.EachBecomes (fun _ => Pass.PadsSplit) split
  pointers : split.pointedTo? = .ok pointedTo
  declares : ∃ declared, split.withHooks config = (declared, hooks)
  /-- Each site has one probe. -/
  distinct : (plan.map (·.site)).Nodup
  sites : ∀ site, site ∈ plan.map (·.site) ↔ split.IsSite config pointedTo site
  /-- Identifiers are given in turn. -/
  count : report.blockCount = plan.length + 1
  ids : plan.map (·.id) = (List.range (report.blockCount - 1)).map (· + 1)
  slots : config.denseIds = true → ∀ planned ∈ plan, planned.slot = planned.id
  /-- All probes have been placed, and each stands where it is to. -/
  placed : ∀ id, (stands id).map Stand.planned =
    (plan.filter fun planned => planned.site.function == id).reverse
  functions : ∀ id f, split.function id = .ok f → f.isDeclaration = false →
    ∃ f', m'.function id = .ok f' ∧ f.Instrumented hooks (stands id) f'
  /-- There are no other ones. -/
  others : ∀ id f', m'.function id = .ok f' → ∀ inst b pos kind, f'.Listed inst b pos →
    f'.kind inst = .ok kind → kind.isPhi = false → hooks.ReferredBy kind →
      ∃ s ∈ stands id, inst ∈ s.ids hooks
  sourceMap : config.isCoverage = true → ∃ map, report.sourceMap = some map ∧
    map.lines.map (·.1) = plan.map (·.id)
  accessors : ∀ w : World, w.module = m' → ∀ args s left, s.stepsLeft = left + 1 →
    w.call Symbol.blockCount args s =
      .ok (mask 32 (UInt64.ofNat report.blockCount)) { s with stepsLeft := left } ∧
    w.call Symbol.areaSize args s =
      .ok (mask 32 (UInt64.ofNat report.areaSize)) { s with stepsLeft := left }

namespace Pass.Instrumentation

variable {config : Config} {drawn : UInt64} {m m' : Module} {report : InstrumentReport}
  {i : Instrumentation config drawn m report m'}

/-- The accessors return what is reported. -/
theorem Valid.call_accessors (hi : i.Valid) (hsymbols : m.WithoutSymbols)
    {w : World} (hw : w.module = m') (args : List UInt64) {s : Store} {left : Nat}
    (hleft : s.stepsLeft = left + 1) :
    w.call Symbol.blockCount args s =
      .ok (mask 32 (UInt64.ofNat report.blockCount)) { s with stepsLeft := left } ∧
    w.call Symbol.areaSize args s =
      .ok (mask 32 (UInt64.ofNat report.areaSize)) { s with stepsLeft := left } := by
  have hresult := hw.trans (hi.result_eq hsymbols)
  have harea := Module.findFunction?_addFunction (f := .returning Symbol.areaSize i.areaSize)
    (hi.placed_name_area hsymbols) rfl
  have hcount := Module.findFunction?_addFunction
    (f := .returning Symbol.blockCount (i.plan.length + 1)) (hi.withArea_name hsymbols i.areaSize) rfl
  rw [hi.blockCount, hi.reportedSize]
  constructor
  · refine World.call_returning (hresult ▸ hcount) ?_ args hleft
    rw [hresult]
    exact Module.function_addFunction_self _ _
  · refine World.call_returning (hresult ▸ Module.findFunction?_addFunction_of_some harea) ?_ args hleft
    rw [hresult]
    exact Module.function_addFunction (Module.function_addFunction_self _ _) _

end Pass.Instrumentation

/-- Probes and sites correspond in an accepted module that has no use for the names kept for probes. -/
theorem Module.Accepted.probes_correspond {m : Module} (hm : m.Accepted)
    (hsymbols : m.WithoutSymbols) {config : Config} {drawn : UInt64} {report : InstrumentReport}
    {s : PassState} (h : (Pass.instrumentEdges config drawn).runOn m = .ok (.ok report, s)) :
    ∃ split pointedTo hooks plan stands,
      m.Corresponds config report s.module split pointedTo hooks plan stands := by
  obtain ⟨i, hi⟩ := Pass.instrumentEdges_does (s := { module := m }) h
  choose stands hplaced hfunctions using hi.exists_stands hm
  refine ⟨i.split, i.pointedTo, i.hooks, i.plan, stands, {
    pads := hi.split
    pointers := hi.pointedTo
    declares := ⟨_, hi.declared⟩
    distinct := List.pairwise_map.mpr ((hi.pairwise_plan hm).imp And.left)
    sites := fun _ => hi.mem_plan_iff
    count := hi.blockCount
    ids := by
      rw [hi.blockCount, Nat.add_sub_cancel, Pass.Instrumentation.plan, id_planProbes,
        length_planProbes]
    slots := slot_planProbes
    placed := hplaced
    functions := fun id f hid hbody => by
      obtain ⟨f', hid', hinstrumented⟩ := hfunctions id f hid hbody
      exact ⟨f', hi.function_eq hsymbols hid', hinstrumented⟩
    others := fun id f' hid' inst b pos kind hlisted hkind hnot hreferred => ?_
    sourceMap := fun hcoverage => by
      obtain ⟨map, hmap, hreport⟩ := hi.sourceMap hcoverage
      exact ⟨map, hreport, ids_sourceMap hmap⟩
    accessors := fun w hw args s left hleft => hi.call_accessors hsymbols hw args hleft }⟩
  obtain ⟨f, hid, hplaced'⟩ | rfl | ⟨name, value, rfl⟩ := hi.function_cases hsymbols hid'
  · cases hbody : f.isDeclaration with
    | true =>
      have hdeclared := Module.function_withHooks hid config
      rw [hi.declared] at hdeclared
      obtain rfl | ⟨hno, -⟩ := hi.placed_cases hm hdeclared hplaced'
      · have hlive := hlisted.1
        rw [List.isEmpty_iff.mp hbody] at hlive
        cases hlive
      · cases hbody.symm.trans hno
    | false =>
      obtain ⟨f₁, hid₁, hinstrumented⟩ := hfunctions id f hid hbody
      obtain rfl := Except.ok.inj (hplaced'.symm.trans hid₁)
      have hframed := hi.framed hm hid hbody
      obtain hlt | ⟨s, hs, -, hmem⟩ :=
        hinstrumented.listed_cases hframed.whole hframed.inArena hlisted
      · obtain ⟨kind₀, hkind₀⟩ := Function.exists_kind hlt
        obtain ⟨kind₁, hkind₁, hphi, -⟩ := hinstrumented.leads_congr hkind₀
        obtain rfl := Except.ok.inj (hkind.symm.trans hkind₁)
        have hnot₀ := hphi.symm.trans hnot
        obtain rfl := Except.ok.inj (hkind.symm.trans (hinstrumented.kind_eq hkind₀ hnot₀))
        exact absurd hreferred (hi.not_referredBy hm hsymbols hid hbody hkind₀ hnot)
      · exact ⟨s, hs, hmem⟩
  · cases hlisted.1
  · obtain ⟨hlive, blk, hblk, hpos⟩ := hlisted
    obtain rfl := List.mem_singleton.mp hlive
    obtain rfl := Except.ok.inj hblk
    cases hpos

/-- A loop with four edges to be probed. -/
theorem Module.circling_probes_correspond : ∃ report s,
    (Pass.instrumentEdges (.coverage .all) 0).runOn (circling ⟨1⟩) = .ok (.ok report, s) ∧
      report.blockCount = 5 ∧ ∃ split pointedTo hooks plan stands, (circling ⟨1⟩).Corresponds
        (.coverage .all) report s.module split pointedTo hooks plan stands := by
  have hm := accepted_of_isLocal (show (circling ⟨1⟩).isLocal = true by decide +kernel)
  have hsymbols : (circling ⟨1⟩).WithoutSymbols := ⟨by decide, by decide⟩
  have hcount : (Pass.completed? ((Pass.instrumentEdges (.coverage .all) 0).runOn
      (circling ⟨1⟩))).map (fun (report, _) => report.blockCount) = some 5 := by decide +kernel
  obtain ⟨⟨report, s⟩, h, hcount⟩ := Option.map_eq_some_iff.mp hcount
  have h := Pass.completed?_eq_some h
  exact ⟨report, s, h, hcount, hm.probes_correspond hsymbols h⟩

end EdgeProbe
