import EdgeProbe.Proofs.Probe.Passes
import EdgeProbe.Proofs.Safety.Modules
import EdgeProbe.Proofs.Safety.Passes
import EdgeProbe.Proofs.Safety.Probes

/-!
# Instrumenting sturdy modules

Sites are selected among edges of the arena, tokens and lines are collected from blocks of the
arena, and what probes refer to is declared before the first of them is placed. So instrumenting a
sturdy module comes to no fault. Main statement: `Pass.safe_instrumentEdges`.
-/

namespace EdgeProbe

open Checked

variable {m : Module} {f f' : Function} {s : PassState} {id : FuncId} {config : Config}

/-! ## Selecting sites -/

/-- The site is in a function that can be worked on, in a block of its arena. -/
structure ProbeSite.Known (m : Module) (site : ProbeSite) (f : Function) : Prop where
  function : m.function site.function = .ok f
  sturdy : f.Sturdy m
  inArena : site.InArena f

namespace Function.Sturdy

variable (hf : f.Sturdy m) {b : BlockId}
include hf

omit hf in
theorem wantsProbes_settles (config : Config) (preds : PredecessorMap)
    (hb : b.index < f.blocks.size) : Settles (f.wantsProbes config preds b) fun _ => True := by
  obtain ⟨blk, hblk⟩ := Function.exists_block hb
  unfold Function.wantsProbes
  split
  rotate_left
  · refine .bind (settles_lift (Function.blockHasTokens_yields hblk)) fun annotated _ _ => ?_
    refine .after hblk ?_
    cases blk.term with
    | switch => exact settles_throw _
    | invoke callee args normal unwind =>
      dsimp only
      split
      · exact settles_throw _
      · exact settles_pure trivial
    | _ => exact settles_pure trivial
  · refine .after hblk ?_
    cases blk.term with
    | switch => exact settles_throw _
    | invoke callee args normal unwind =>
      dsimp only
      split
      · exact settles_throw _
      · exact settles_pure trivial
    | _ => exact settles_pure trivial

theorem edgeSites_settles (config : Config) (id : FuncId) (preds : PredecessorMap)
    {blocks : List BlockId} (hblocks : ∀ b ∈ blocks, b ∈ f.layout) :
    Settles (f.edgeSites config id preds blocks) fun sites =>
      ∀ site ∈ sites, site.function = id ∧ site.InArena f := by
  induction blocks with
  | nil => exact settles_pure (by simp)
  | cons b rest ih =>
    obtain ⟨hb, hrest⟩ := List.forall_mem_cons.mp hblocks
    have hlt := hf.layout b hb
    have hmore : ∀ here : List ProbeSite,
        (∀ site ∈ here, site.function = id ∧ site.InArena f) → Settles (do
          return here ++ (← f.edgeSites config id preds rest) : Selection (List ProbeSite))
        fun sites => ∀ site ∈ sites, site.function = id ∧ site.InArena f := fun here hhere =>
      .bind (ih hrest) fun more _ hmore =>
        settles_pure (List.forall_mem_append.mpr ⟨hhere, hmore⟩)
    refine .bind (wantsProbes_settles config preds hlt) fun wanted _ _ => ?_
    dsimp only
    split
    · refine .bind (settles_lift (hf.successors_yields hlt)) fun succs _ _ => hmore _ ?_
      intro site hsite
      obtain ⟨index, -, rfl⟩ := List.mem_map.mp hsite
      refine ⟨rfl, fun id' block index' heq => ?_⟩
      obtain ⟨-, rfl, -⟩ := ProbeSite.edge.inj heq
      exact hlt
    · exact hmore [] (by simp)

theorem probeSites_settles (config : Config) (pointedTo : Option (List String)) (id : FuncId) :
    Settles (f.probeSites config pointedTo id) fun sites =>
      ∀ site ∈ sites, site.function = id ∧ site.InArena f := by
  refine .bind (settles_lift hf.predecessorMap_yields) fun preds _ _ => ?_
  refine .bind (hf.edgeSites_settles config id preds fun b hb => hb) fun edges _ hedges => ?_
  refine settles_pure ?_
  split
  · exact List.forall_mem_cons.mpr ⟨⟨rfl, nofun⟩, hedges⟩
  · exact hedges

end Function.Sturdy

namespace Module.Sturdy

variable (hm : m.Sturdy)
include hm

theorem sitesAmong_settles (config : Config) (pointedTo : Option (List String)) {ids : List FuncId}
    (hids : ∀ id ∈ ids, id ∈ m.functionIds) : Settles (m.sitesAmong config pointedTo ids) fun sites =>
      ∀ site ∈ sites, ∃ f, site.Known m f := by
  induction ids with
  | nil => exact settles_pure (by simp)
  | cons id rest ih =>
    obtain ⟨hid, hrest⟩ := List.forall_mem_cons.mp hids
    obtain ⟨f, hf⟩ := Module.exists_function (Module.mem_functionIds.mp hid)
    have hmore : ∀ here : List ProbeSite, (∀ site ∈ here, ∃ f, site.Known m f) → Settles (do
          return here ++ (← m.sitesAmong config pointedTo rest) : Selection (List ProbeSite))
        fun sites => ∀ site ∈ sites, ∃ f, site.Known m f := fun here hhere =>
      .bind (ih hrest) fun more _ hmore =>
        settles_pure (List.forall_mem_append.mpr ⟨hhere, hmore⟩)
    refine .after hf ?_
    dsimp only
    split
    · exact hmore [] (by simp)
    · next hbody =>
      have hsturdy : f.Sturdy m := (hm id f hf).resolve_left hbody
      refine .bind (hsturdy.probeSites_settles config pointedTo id) fun here _ hhere => ?_
      refine hmore here fun site hsite => ?_
      obtain ⟨rfl, hinArena⟩ := hhere site hsite
      exact ⟨f, hf, hsturdy, hinArena⟩

theorem probeSites_settles (config : Config) (pointedTo : Option (List String)) :
    Settles (m.probeSites config pointedTo) fun sites => ∀ site ∈ sites, ∃ f, site.Known m f :=
  hm.sitesAmong_settles config pointedTo fun _ h => h

end Module.Sturdy

/-! ## Tokens and lines -/

namespace ProbeSite.Known

variable {site : ProbeSite} (h : site.Known m f)
include h

theorem onward {m' : Module} (hm : m.Onward m') : ∃ f', site.Known m' f' := by
  obtain ⟨f', hf', honward, hsturdy⟩ := hm.each _ f h.function
  exact ⟨f', hf', hsturdy h.sturdy, honward.site_inArena h.inArena⟩

theorem blocks_yields :
    Yields (site.blocks f) fun blocks => ∀ b ∈ blocks, b.index < f.blocks.size := by
  cases site with
  | entry id =>
    refine yields_pure fun b hb => h.sturdy.layout b ?_
    exact List.mem_of_mem_head? (Option.mem_toList.mp hb)
  | edge id block index =>
    have hblock := h.inArena id block index rfl
    refine (h.sturdy.successors_yields hblock).bind fun succs hsuccs => ?_
    split
    · next target htarget =>
      have hlt := hsuccs target (List.mem_of_getElem? htarget)
      refine yields_pure ?_
      split
      · simpa using hblock
      · simpa using ⟨hblock, hlt⟩
    · exact yields_pure (by simpa using hblock)

/-- Everything that the blocks list and call is there. -/
theorem legible : m.SiteLegible site f where
  function := h.function
  blocks := h.blocks_yields.imp fun blocks hblocks b hb => by
    obtain ⟨blk, hblk⟩ := Function.exists_block (hblocks b hb)
    refine ⟨blk, hblk, fun i hi => ?_⟩
    obtain ⟨inst, hinst⟩ := Function.exists_inst (h.sturdy.whole.insts b blk hblk i hi)
    exact ⟨inst, hinst, fun target args ret hkind =>
      h.sturdy.exists_callee (Function.kind_eq_ok.mpr ⟨inst, hinst, hkind⟩)⟩

end ProbeSite.Known

/-! ## The pass -/

theorem Module.Sturdy.exists_block (hm : m.Sturdy) :
    ∀ id f, m.function id = .ok f → ∀ b ∈ f.layout, ∃ blk, f.block b = .ok blk := by
  intro id f hf b hb
  obtain hdeclared | hsturdy := hm id f hf
  · rw [List.isEmpty_iff.mp hdeclared] at hb
    cases hb
  · exact hsturdy.exists_block hb

theorem Hooks.Known.onward {hooks : Hooks} {m' : Module} (h : hooks.Known m) (hm : m.Onward m') :
    hooks.Known m' where
  area := h.area.trans_le hm.globals
  previous := fun g hg => (h.previous g hg).trans_le hm.globals
  trace := fun id hid => (h.trace id hid).trans_le hm.functions

namespace Pass

/-- Sturdy modules, whatever has been there before. -/
def settled : Course PassState where
  holds := fun s => s.module.Sturdy
  leads := fun _ _ => True
  refl := fun _ => trivial
  trans := fun _ _ => trivial

variable (hs : s.module.Sturdy)
include hs

theorem safe_splitPads (hid : id ∈ s.module.functionIds) : Safe (splitPads id) s fun _ _ => True := by
  obtain ⟨f, hf⟩ := Module.exists_function (Module.mem_functionIds.mp hid)
  refine safe_query_bind hs hf ?_
  split
  · exact safe_pure hs trivial
  · next hbody =>
    have hsturdy : f.Sturdy s.module := (hs id f hf).resolve_left hbody
    refine .bind (safe_inFunction hs ⟨hf, hsturdy⟩ (Edit.safe_splitSharedLandingPads hsturdy))
      fun count s₁ hs₁ _ _ => ?_
    split
    · exact (safe_report hs₁ _).some
    · exact safe_pure hs₁ trivial

theorem safe_selectSites (config : Config) (pointedTo : Option (List String)) :
    Safe (selectSites config pointedTo) s fun sites t =>
      t.module = s.module ∧ ∀ site ∈ sites, ∃ f, site.Known s.module f := by
  obtain ⟨result, hrun, hknown⟩ := hs.probeSites_settles config pointedTo
  refine safe_query_bind hs hrun ?_
  cases result with
  | ok sites => exact safe_pure hs ⟨rfl, hknown sites rfl⟩
  | error cause => exact Course.safe_throw cause

/-- What probes refer to is declared, whether it has been there before or not. -/
theorem safe_declare (config : Config) :
    Safe (Hooks.declare config) s fun hooks t => hooks.Known t.module := by
  obtain ⟨harea, honward, hlt⟩ := hs.getOrInsertGlobal Symbol.areaPointer false
  refine .bind (q := fun area t => area.index < t.module.globals.size)
    (safe_update harea honward fun t ht => ht ▸ hlt) fun area s₁ hs₁ _ harea => ?_
  refine .bind (q := fun previous t => ∀ g, previous = some g → g.index < t.module.globals.size)
    ?_ fun previous s₂ hs₂ hst₂ hprevious => ?_
  · unfold Hooks.declarePrevious
    split
    · exact safe_pure hs₁ (by simp)
    · obtain ⟨hsturdy, honward, hlt⟩ := hs₁.getOrInsertGlobal Symbol.previousLocation true
      refine .bind (q := fun g t => g.index < t.module.globals.size)
        (safe_update hsturdy honward fun t ht => ht ▸ hlt) fun g t ht _ hg => safe_pure ht ?_
      rintro _ ⟨⟩
      exact hg
  refine .bind (q := fun trace t => ∀ id, trace = some id → id.index < t.module.functions.size)
    ?_ fun trace s₃ hs₃ hst₃ htrace => ?_
  · unfold Hooks.declareTrace
    split
    · exact safe_pure hs₂ (by simp)
    · obtain ⟨hsturdy, honward, hlt⟩ := hs₂.getOrInsertFunction Symbol.traceHook [.i32] .void
      refine .bind (q := fun id t => id.index < t.module.functions.size)
        (safe_update hsturdy honward fun t ht => ht ▸ hlt) fun id t ht _ hid => safe_pure ht ?_
      rintro _ ⟨⟩
      exact hid
  · refine safe_pure hs₃ ⟨?_, fun g hg => ?_, htrace⟩
    · exact harea.trans_le (hst₂.globals.trans hst₃.globals)
    · exact (hprevious g hg).trans_le hst₃.globals

theorem safe_placePlan {hooks : Hooks} (hhooks : hooks.Known s.module) {plan : List PlannedProbe}
    (hplan : ∀ planned ∈ plan, ∃ f, planned.site.Known s.module f) :
    Safe (plan.forM fun planned =>
      inFunction planned.site.function (Edit.placePlanned hooks planned)) s fun _ _ => True := by
  refine safe_forM hs fun planned hplanned t ht hst => ?_
  obtain ⟨f, hknown⟩ := hplan planned hplanned
  obtain ⟨f', hf'⟩ := hknown.onward hst
  exact safe_inFunction ht ⟨hf'.function, hf'.sturdy⟩
    (Edit.safe_placePlanned hf'.sturdy (hhooks.onward hst) hf'.inArena)

omit hs in
theorem Safe.settled {α : Type} {x : Pass α} {post : α → PassState → Prop} (h : Safe x s post) :
    Pass.settled.Safe x s post := by
  obtain ⟨r, t, hrun, hpost⟩ := h
  refine ⟨r, t, hrun, fun a ha => ?_⟩
  obtain ⟨ht, -, ha⟩ := hpost a ha
  exact ⟨ht, trivial, ha⟩

/-- Putting a function in the place of another one leaves a sturdy module, though not what the
module has become. -/
theorem settled_defineAccessor (name : String) (value : Nat) :
    settled.Safe (defineAccessor name value) s fun _ _ => True := by
  refine ⟨.ok (), { s with module := s.module.withAccessor name value }, ?_, fun _ _ => ?_⟩
  · refine does_update.mpr ⟨rfl, ?_⟩
    unfold Module.withAccessor
    cases s.module.findFunction? name <;> rfl
  · exact ⟨hs.withAccessor name value, trivial, trivial⟩

theorem settled_placeProbes (config : Config) {plan : List PlannedProbe}
    (hplan : ∀ planned ∈ plan, ∃ f, planned.site.Known s.module f) (areaSize blockCount : Nat)
    (report : InstrumentReport) : settled.Safe (do
      let hooks ← Hooks.declare config
      plan.forM fun planned => inFunction planned.site.function (Edit.placePlanned hooks planned)
      defineAccessor Symbol.areaSize areaSize
      defineAccessor Symbol.blockCount blockCount
      reportProbes config plan.length areaSize
      return report : Pass InstrumentReport) s fun _ _ => True := by
  have hdeclare : Safe (Hooks.declare config) s fun hooks t =>
      hooks.Known t.module ∧ s.module.Onward t.module :=
    Course.Safe.imp (safe_declare hs config) fun _ _ _ hst hknown => ⟨hknown, hst⟩
  refine .bind hdeclare.settled ?_
  rintro hooks s₁ hs₁ - ⟨hhooks, hst₁⟩
  refine .bind (safe_placePlan hs₁ hhooks fun planned hplanned => ?_).settled
    fun _ s₂ hs₂ _ _ => ?_
  · obtain ⟨f, hknown⟩ := hplan planned hplanned
    exact hknown.onward hst₁
  refine .bind (settled_defineAccessor hs₂ _ _) fun _ s₃ hs₃ _ _ => ?_
  refine .bind (settled_defineAccessor hs₃ _ _) fun _ s₄ hs₄ _ _ => ?_
  refine .bind (q := fun _ _ => True) ?_ fun _ s₅ hs₅ _ _ => Course.safe_pure hs₅ trivial
  unfold reportProbes
  split
  · exact (safe_report hs₄ _).some.settled
  · exact (safe_report hs₄ _).some.settled

/-- What is asked and placed once the sites are known. -/
theorem settled_placeAll (config : Config) {sites : List ProbeSite}
    (hsites : ∀ site ∈ sites, ∃ f, site.Known s.module f) (mapSize : Nat) (seed : UInt64)
    (report : List PlannedProbe → Nat → Dictionary → Option SourceMap → InstrumentReport) :
    settled.Safe (do
      let plan := planProbes config mapSize seed sites
      let dictionary ← query fun m => m.recordTokens plan
      let sourceMap ←
        if config.isCoverage then do pure (some (← query fun m => m.sourceMap plan)) else pure none
      let hooks ← Hooks.declare config
      plan.forM fun planned => inFunction planned.site.function (Edit.placePlanned hooks planned)
      let areaSize := if config.denseIds then plan.length + 1 else mapSize
      defineAccessor Symbol.areaSize areaSize
      defineAccessor Symbol.blockCount (plan.length + 1)
      reportProbes config plan.length areaSize
      return report plan areaSize dictionary sourceMap : Pass InstrumentReport) s fun _ _ => True := by
  have hplan : ∀ planned ∈ planProbes config mapSize seed sites,
      ∃ f, planned.site.Known s.module f := by
    intro planned hplanned
    obtain ⟨n, hn, -⟩ := mem_planProbes.mp hplanned
    exact hsites _ (List.mem_of_getElem? hn)
  have hlegible : ∀ planned ∈ planProbes config mapSize seed sites,
      ∃ f, s.module.SiteLegible planned.site f := fun planned hplanned => by
    obtain ⟨f, hknown⟩ := hplan planned hplanned
    exact ⟨f, hknown.legible⟩
  obtain ⟨dictionary, hdictionary, -⟩ := Module.recordTokens_yields hlegible hs.exists_block
  obtain ⟨map, hmap, -⟩ := Module.sourceMap_yields hlegible
  refine asked_bind hs hdictionary ?_
  dsimp only
  split
  · exact asked_bind hs hmap (settled_placeProbes hs config hplan _ _ _)
  · exact settled_placeProbes hs config hplan _ _ _

theorem settled_instrumentEdges (config : Config) (drawn : UInt64) :
    settled.Safe (instrumentEdges config drawn) s fun _ _ => True := by
  have hselected : ∀ (pointedTo : Option (List String)) (mapSize : Nat) (s₁ : PassState),
      s₁.module.Sturdy → settled.Safe (do
        let sites ← selectSites config pointedTo
        let seed := config.seed.getD drawn
        info ("The seed used for instrumentation is " ++ toString seed.toNat)
        let plan := planProbes config mapSize seed sites
        let dictionary ← query fun m => m.recordTokens plan
        let sourceMap ←
          if config.isCoverage then do pure (some (← query fun m => m.sourceMap plan)) else pure none
        let hooks ← Hooks.declare config
        plan.forM fun planned =>
          inFunction planned.site.function (Edit.placePlanned hooks planned)
        let probes := plan.length
        let areaSize := if config.denseIds then probes + 1 else mapSize
        defineAccessor Symbol.areaSize areaSize
        defineAccessor Symbol.blockCount (probes + 1)
        reportProbes config probes areaSize
        return {
          probes, areaSize, blockCount := probes + 1, seed, dictionary, sourceMap
          buildId := drawBuildId config seed probes } : Pass InstrumentReport) s₁ fun _ _ => True := by
    intro pointedTo mapSize s₁ hs₁
    refine .bind (safe_selectSites hs₁ config pointedTo).settled ?_
    rintro sites s₂ hs₂ - ⟨hsame₂, hsites⟩
    refine .bind (safe_report hs₂ _).settled fun _ s₃ hs₃ _ hsame₃ => ?_
    have hknown : ∀ site ∈ sites, ∃ f, site.Known s₃.module f := by
      rw [hsame₃, hsame₂]
      exact hsites
    exact settled_placeAll hs₃ config hknown mapSize (config.seed.getD drawn)
      fun plan areaSize dictionary sourceMap => {
        probes := plan.length, areaSize, blockCount := plan.length + 1
        seed := config.seed.getD drawn, dictionary, sourceMap
        buildId := drawBuildId config (config.seed.getD drawn) plan.length }
  unfold instrumentEdges
  cases config.mapSize with
  | error cause =>
    exact .bind (q := fun _ _ => False) (Course.safe_throw cause) fun _ _ _ _ h => h.elim
  | ok mapSize =>
    refine .bind (q := fun _ t => t = s) (Course.safe_pure hs rfl) ?_
    rintro mapSize _ - - rfl
    refine listed_bind hs (.bind (safe_forM hs fun id hid t ht hst =>
      safe_splitPads ht (mem_functionIds_onward hst hid)).settled fun _ s₁ hs₁ _ _ => ?_)
    obtain ⟨pointedTo, hasked, -⟩ := Module.pointedTo?_yields s₁.module
    refine asked_bind hs₁ hasked ?_
    dsimp only
    split
    · refine .bind (safe_report hs₁ _).settled fun _ s₂ hs₂ _ _ => ?_
      exact hselected pointedTo mapSize s₂ hs₂
    · exact hselected pointedTo mapSize s₁ hs₁

end Pass

end EdgeProbe
