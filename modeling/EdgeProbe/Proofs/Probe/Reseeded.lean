import EdgeProbe.Proofs.Probe.Abreast

/-!
# What the seed decides

Two runs of instrumenting that differ in their seeds go side by side: they come to the same fault, or
are refused for the same cause, or place the same probes in the same places, which differ in the slots
that were drawn for them. Main statement: `Module.instrumentEdges_reseeded`.
-/

namespace EdgeProbe

/-! ## Modules side by side -/

namespace Module

/-- Two modules have everything in common but their functions, which stand so to each other. -/
structure SameBut (alike : FuncId → Function → Function → Prop) (m m' : Module) : Prop where
  rest : m' = { m with functions := m'.functions }
  size : m'.functions.size = m.functions.size
  functions : ∀ id f f', m.function id = .ok f → m'.function id = .ok f' → alike id f f'

variable {alike : FuncId → Function → Function → Prop} {m m' : Module}

theorem SameBut.refl (h : ∀ id f, m.function id = .ok f → alike id f f) : m.SameBut alike m := by
  refine ⟨rfl, rfl, fun id f f' hf hf' => ?_⟩
  obtain rfl := Except.ok.inj (hf.symm.trans hf')
  exact h id f hf

theorem SameBut.eq (h : m.SameBut (fun _ f f' => f' = f) m') : m' = m := by
  have hfunctions : m'.functions = m.functions := by
    refine Array.ext h.size fun i hi hi' => ?_
    exact h.functions ⟨i⟩ _ _ (function_eq_ok.mpr (Array.getElem?_eq_getElem hi'))
      (function_eq_ok.mpr (Array.getElem?_eq_getElem hi))
  rw [h.rest, hfunctions]

theorem SameBut.imp {alike' : FuncId → Function → Function → Prop} (h : m.SameBut alike m')
    (himp : ∀ id f f', alike id f f' → alike' id f f') : m.SameBut alike' m' :=
  ⟨h.rest, h.size, fun id f f' hf hf' => himp id f f' (h.functions id f f' hf hf')⟩

section

variable (h : m.SameBut alike m')
include h

theorem SameBut.function_cases (id : FuncId) :
    (m.function id = .error (.danglingFunction id) ∧ m'.function id = .error (.danglingFunction id)) ∨
      ∃ f f', m.function id = .ok f ∧ m'.function id = .ok f' := by
  by_cases hid : id.index < m.functions.size
  · exact .inr ⟨_, _, function_eq_ok.mpr (Array.getElem?_eq_getElem hid),
      function_eq_ok.mpr (Array.getElem?_eq_getElem (h.size.symm ▸ hid))⟩
  · refine .inl ⟨?_, ?_⟩
    · rw [function, Array.getElem?_eq_none (Nat.le_of_not_lt hid)]
    · rw [function, Array.getElem?_eq_none (by rw [h.size]; exact Nat.le_of_not_lt hid)]

theorem SameBut.setFunction (id : FuncId) {f f' : Function} (hf : alike id f f') :
    (m.setFunction id f).SameBut alike (m'.setFunction id f') := by
  refine ⟨?_, by simpa [Module.setFunction] using h.size, fun i g g' hg hg' => ?_⟩
  · conv_lhs => rw [h.rest]
    rfl
  · by_cases hid : id.index < m.functions.size
    · rw [function_setFunction hid] at hg
      rw [function_setFunction (h.size.symm ▸ hid)] at hg'
      split at hg
      · next heq =>
        subst heq
        rw [if_pos rfl] at hg'
        exact Except.ok.inj hg ▸ Except.ok.inj hg' ▸ hf
      · next hne =>
        rw [if_neg hne] at hg'
        exact h.functions i g g' hg hg'
    · have hself : ∀ {m : Module} {f : Function}, ¬id.index < m.functions.size →
          (m.setFunction id f).function i = m.function i := by
        intro m f hid
        rw [Module.setFunction, Array.setIfInBounds_eq_of_size_le (Nat.le_of_not_lt hid)]
      rw [hself hid] at hg
      rw [hself (h.size.symm ▸ hid)] at hg'
      exact h.functions i g g' hg hg'

theorem SameBut.findFunction? (hnames : ∀ id f f', alike id f f' → f'.name = f.name) (name : String) :
    m'.findFunction? name = m.findFunction? name := by
  have hmap : m'.functions.map Function.name = m.functions.map Function.name := by
    refine Array.ext (by simpa using h.size) fun i hi hi' => ?_
    rw [Array.getElem_map, Array.getElem_map]
    rw [Array.size_map] at hi hi'
    exact hnames _ _ _ (h.functions ⟨i⟩ _ _ (function_eq_ok.mpr (Array.getElem?_eq_getElem hi'))
      (function_eq_ok.mpr (Array.getElem?_eq_getElem hi)))
  have hfind : ∀ m : Module, m.findFunction? name =
      ((m.functions.map Function.name).findIdx? (· == name)).map FuncId.mk := by
    intro m
    rw [Module.findFunction?, Array.findIdx?_map]
    rfl
  rw [hfind, hfind, hmap]

/-- Both get the same accessor. -/
theorem SameBut.withAccessor (hnames : ∀ id f f', alike id f f' → f'.name = f.name)
    (hrefl : ∀ id f, alike id f f) (name : String) (value : Nat) :
    (m.withAccessor name value).SameBut alike (m'.withAccessor name value) := by
  unfold Module.withAccessor
  rw [h.findFunction? hnames]
  split
  · exact h.setFunction _ (hrefl _ _)
  · refine ⟨?_, by simpa [addFunction] using h.size, fun i g g' hg hg' => ?_⟩
    · conv_lhs => rw [h.rest]
      rfl
    · rw [function_eq_ok, addFunction, Array.getElem?_push] at hg hg'
      rw [h.size] at hg'
      split at hg
      · next heq =>
        rw [if_pos heq] at hg'
        obtain rfl := Option.some.inj hg
        obtain rfl := Option.some.inj hg'
        exact hrefl _ _
      · next hne =>
        rw [if_neg hne] at hg'
        exact h.functions i g g' (function_eq_ok.mpr hg) (function_eq_ok.mpr hg')

end

end Module

namespace Pass

/-- The modules of two states differ in that way, and no global comes or goes. -/
structure Abreast (alike : FuncId → Function → Function → Prop) (globals : Array Global)
    (s t : PassState) : Prop where
  modules : s.module.SameBut alike t.module
  globals : s.module.globals = globals

variable {alike : FuncId → Function → Function → Prop} {globals : Array Global} {s t : PassState}

theorem goAlike_inFunction (h : Abreast alike globals s t) {id : FuncId} {edit edit' : Edit Unit}
    (hedit : ∀ f f', alike id f f' → GoAlike (alike id) Eq (edit f) (edit' f')) :
    GoAlike (Abreast alike globals) Eq (inFunction id edit s) (inFunction id edit' t) := by
  obtain ⟨hf, hf'⟩ | ⟨f, f', hf, hf'⟩ := h.modules.function_cases id
  · have hrun : ∀ {s : PassState} {edit : Edit Unit},
        s.module.function id = .error (.danglingFunction id) →
          inFunction id edit s = .error (.danglingFunction id) := by
      intro s edit hs
      rw [inFunction, hs]
      rfl
    rw [hrun hf, hrun hf']
    exact .fault _
  · have hrun : ∀ {s : PassState} {edit : Edit Unit} {f : Function}, s.module.function id = .ok f →
        inFunction id edit s = (edit f >>= fun r =>
          pure (r.1, { s with module := s.module.setFunction id r.2 })) := by
      intro s edit f hs
      rw [inFunction, hs]
      rfl
    rw [hrun hf, hrun hf']
    have hset : ∀ g g', alike id g g' → Abreast alike globals
        { s with module := s.module.setFunction id g } { t with module := t.module.setFunction id g' } :=
      fun g g' hg => ⟨h.modules.setFunction id hg, h.globals⟩
    have halike := hedit f f' (h.modules.functions id f f' hf hf')
    generalize edit f = outcome, edit' f' = outcome' at halike
    cases halike with
    | fault fault => exact .fault fault
    | refused cause hg => exact .refused cause (hset _ _ hg)
    | done hpost hg => exact .done hpost (hset _ _ hg)

/-- The same accessor is defined in both modules. -/
theorem goAlike_defineAccessor (h : Abreast alike globals s t)
    (hnames : ∀ id f f', alike id f f' → f'.name = f.name) (hrefl : ∀ id f, alike id f f)
    (name : String) (value : Nat) :
    GoAlike (Abreast alike globals) Eq (defineAccessor name value s) (defineAccessor name value t) := by
  have hrun : ∀ s : PassState, defineAccessor name value s =
      .ok (.ok (), { s with module := s.module.withAccessor name value }) := by
    intro s
    unfold defineAccessor update Module.withAccessor
    dsimp only
    cases s.module.findFunction? name <;> rfl
  rw [hrun, hrun]
  refine .done rfl ⟨h.modules.withAccessor hnames hrefl name value, ?_⟩
  rw [← h.globals]
  unfold Module.withAccessor
  split <;> rfl

end Pass

/-! ## Two seeds -/

/-- The slots that two seeds give to one of the sites of a function. -/
def Drawn (mapSize : Nat) (seed seed' : UInt64) (sites : List ProbeSite) (id : FuncId)
    (slot slot' : Nat) : Prop :=
  ∃ n site, sites[n]? = some site ∧ site.function = id ∧
    slot = Random.below (Nat.log2 mapSize) (Random.word seed n) ∧
    slot' = Random.below (Nat.log2 mapSize) (Random.word seed' n)

/-- Instructions are not lost. -/
theorem Module.instCount_le {m m' : Module} (h : m.Each Function.SameTokens m') {id : FuncId}
    {f : Function} (hid : m'.function id = .ok f) : m.instCount id ≤ f.insts.size := by
  unfold instCount
  cases hget : m.functions[id.index]? with
  | none => exact Nat.zero_le _
  | some f₀ =>
    obtain ⟨f', hid', hsame⟩ := h id f₀ (function_eq_ok.mpr hget)
    obtain rfl := Except.ok.inj (hid.symm.trans hid')
    exact hsame.insts

/-- What two runs with these seeds, which have these sites, make of a module: in dense mode the same,
and in classic mode modules that differ in what is new and tells the slots that were drawn. -/
inductive Module.Reseeded (m : Module) (config : Config) (sites : List ProbeSite)
    (seed seed' : UInt64) (m₁ m₂ : Module) : Prop
  | same (h : m₂ = m₁)
  | classic {mapSize : Nat} {hooks : Hooks} {previous : GlobalId} (hdense : config.denseIds = false)
    (hsize : config.mapSize = .ok mapSize)
    (harea : m₁.findGlobal? Symbol.areaPointer = some hooks.area)
    (hprevious : m₁.findGlobal? Symbol.previousLocation = some previous)
    (hclassic : hooks.previous = some previous)
    (h : m₁.SameBut (fun id f f' => f.SameBut (fun i kind kind' => m.instCount id ≤ i.index ∧
      f.OtherSlot hooks (Drawn mapSize seed seed' sites id) f' i kind kind') f') m₂)

/-- The same site has the same number, and slots that were drawn for it or are that number. -/
structure PlannedProbe.Redrawn (config : Config) (mapSize : Nat) (sites : List ProbeSite)
    (seed seed' : UInt64) (planned planned' : PlannedProbe) : Prop where
  site : planned'.site = planned.site
  id : planned'.id = planned.id
  dense : config.denseIds = true → planned'.slot = planned.slot
  classic : config.denseIds = false →
    Drawn mapSize seed seed' sites planned.site.function planned.slot planned'.slot

section

variable {config : Config} {mapSize : Nat} {sites : List ProbeSite} {seed seed' : UInt64}

theorem planProbes_redrawn : List.Forall₂ (PlannedProbe.Redrawn config mapSize sites seed seed')
    (planProbes config mapSize seed sites) (planProbes config mapSize seed' sites) := by
  unfold planProbes
  rw [List.forall₂_map_left_iff, List.forall₂_map_right_iff, List.forall₂_same]
  rintro ⟨site, n⟩ hmem
  refine ⟨rfl, rfl, fun hdense => ?_, fun hdense => ?_⟩
  · dsimp only
    rw [if_pos hdense, if_pos hdense]
  · dsimp only
    rw [if_neg (by simp [hdense]), if_neg (by simp [hdense])]
    exact ⟨n, site, List.mk_mem_zipIdx_iff_getElem?.mp hmem, rfl, rfl, rfl⟩

variable {plan plan' : List PlannedProbe}
  (hplan : List.Forall₂ (PlannedProbe.Redrawn config mapSize sites seed seed') plan plan')
include hplan

theorem Module.recordTokens_redrawn (m : Module) : m.recordTokens plan' = m.recordTokens plan := by
  have hloop : ∀ r : Recording, plan'.foldlM m.recordProbe r = plan.foldlM m.recordProbe r := by
    induction hplan with
    | nil => exact fun _ => rfl
    | @cons planned planned' rest rest' hfirst _ ih =>
      intro r
      have hrecord : m.recordProbe r planned' = m.recordProbe r planned := by
        rw [Module.recordProbe, Module.recordProbe, hfirst.site, hfirst.id]
      rw [List.foldlM_cons, List.foldlM_cons, hrecord]
      exact congrArg (Except.bind _) (funext ih)
  rw [Module.recordTokens, Module.recordTokens, hloop]

theorem Module.sourceMap_redrawn (m : Module) : m.sourceMap plan' = m.sourceMap plan := by
  have hloop : plan'.mapM m.linesOf = plan.mapM m.linesOf := by
    induction hplan with
    | nil => rfl
    | @cons planned planned' rest rest' hfirst _ ih =>
      have hlines : m.linesOf planned' = m.linesOf planned := by
        rw [Module.linesOf, Module.linesOf, hfirst.site, hfirst.id]
      rw [List.mapM_cons, List.mapM_cons, hlines, ih]
  rw [Module.sourceMap, Module.sourceMap, hloop]

end

/-! ### What probes refer to -/

namespace Module

variable (m : Module) (config : Config)

theorem findGlobal?_getOrInsertGlobal (name : String) (threadLocal : Bool) :
    (m.getOrInsertGlobal name threadLocal).1.findGlobal? name =
      some (m.getOrInsertGlobal name threadLocal).2 := by
  unfold getOrInsertGlobal
  split
  · next id hid => exact hid
  · next hnone =>
    have hfind : m.globals.findIdx? (fun g => g.name == name) = none :=
      Option.map_eq_none_iff.mp hnone
    simp [addGlobal, findGlobal?, Array.findIdx?_push, hfind]

/-- A global that is found is still found when there may be one more. -/
theorem findGlobal?_getOrInsertGlobal_of_some {m : Module} {name : String} {id : GlobalId}
    (h : m.findGlobal? name = some id) (other : String) (threadLocal : Bool) :
    (m.getOrInsertGlobal other threadLocal).1.findGlobal? name = some id := by
  unfold getOrInsertGlobal
  split
  · exact h
  · obtain ⟨index, hindex, rfl⟩ := Option.map_eq_some_iff.mp h
    simp [addGlobal, findGlobal?, Array.findIdx?_push, hindex]

theorem globals_withTrace : (m.withTrace config).1.globals = m.globals := by
  unfold withTrace getOrInsertFunction
  split
  · cases m.findFunction? Symbol.traceHook <;> rfl
  · rfl

/-- In classic mode probes refer to the globals that are meant for that, in dense mode to no other
than the pointer to the map. -/
theorem previous_withHooks :
    (config.denseIds = true → (m.withHooks config).2.previous = none) ∧
    (config.denseIds = false →
      (m.withHooks config).1.findGlobal? Symbol.areaPointer = some (m.withHooks config).2.area ∧
      ∃ previous, (m.withHooks config).2.previous = some previous ∧
        (m.withHooks config).1.findGlobal? Symbol.previousLocation = some previous) := by
  unfold withHooks
  constructor
  · intro hdense
    simp only [withPrevious, hdense, if_true]
  · intro hdense
    simp only [withPrevious, hdense, Bool.false_eq_true, if_false]
    refine ⟨?_, _, rfl, ?_⟩
    · rw [findGlobal?, globals_withTrace]
      exact findGlobal?_getOrInsertGlobal_of_some (findGlobal?_getOrInsertGlobal ..) _ _
    · rw [findGlobal?, globals_withTrace]
      exact findGlobal?_getOrInsertGlobal _ _ _

end Module

namespace Pass

theorem declare_eq (config : Config) (s : PassState) : Hooks.declare config s =
    .ok (.ok (s.module.withHooks config).2, { s with module := (s.module.withHooks config).1 }) := by
  have hprevious : ∀ s : PassState, Hooks.declarePrevious config s =
      .ok (.ok (s.module.withPrevious config).2,
        { s with module := (s.module.withPrevious config).1 }) := by
    intro s
    unfold Hooks.declarePrevious Module.withPrevious
    cases config.denseIds <;> rfl
  have htrace : ∀ s : PassState, Hooks.declareTrace config s =
      .ok (.ok (s.module.withTrace config).2, { s with module := (s.module.withTrace config).1 }) := by
    intro s
    unfold Hooks.declareTrace Module.withTrace
    cases config.tracesIds <;> rfl
  refine (Course.bind_of_ok rfl).trans ((Course.bind_of_ok (hprevious _)).trans
    ((Course.bind_of_ok (htrace _)).trans rfl))

/-- What follows once the tokens have been recorded. -/
def afterTokens (config : Config) (mapSize : Nat) (seed : UInt64) (plan : List PlannedProbe)
    (dictionary : Dictionary) (sourceMap : Option SourceMap) : Pass InstrumentReport := do
  let hooks ← Hooks.declare config
  plan.forM fun planned => inFunction planned.site.function (Edit.placePlanned hooks planned)
  let probes := plan.length
  let areaSize := if config.denseIds then probes + 1 else mapSize
  defineAccessor Symbol.areaSize areaSize
  defineAccessor Symbol.blockCount (probes + 1)
  reportProbes config probes areaSize
  return {
    probes, areaSize, blockCount := probes + 1, seed, dictionary, sourceMap
    buildId := drawBuildId config seed probes }

/-- What follows once the sites are known. -/
def afterSites (config : Config) (mapSize : Nat) (seed : UInt64) (sites : List ProbeSite) :
    Pass InstrumentReport := do
  info ("The seed used for instrumentation is " ++ toString seed.toNat)
  let plan := planProbes config mapSize seed sites
  let dictionary ← query fun m => m.recordTokens plan
  if config.isCoverage then
    let sourceMap ← query fun m => m.sourceMap plan
    afterTokens config mapSize seed plan dictionary (some sourceMap)
  else afterTokens config mapSize seed plan dictionary none

/-- The two reports differ in the seed and the build id only. -/
def SameReport (sites : List ProbeSite) (seed seed' : UInt64) (report report' : InstrumentReport) :
    Prop :=
  report.probes = sites.length ∧ report.seed = seed ∧
    report' = { report with seed := seed', buildId := report'.buildId }

section

variable {config : Config} {mapSize : Nat} {sites : List ProbeSite} {seed seed' : UInt64}
  {m split : Module} {s t : PassState}

/-- From the declarations on the modules differ in what slots are used for. -/
theorem goAlike_afterTokens (hsize : config.mapSize = .ok mapSize)
    (hgrown : m.Each Function.SameTokens split) (hs : s.module = split) (ht : t.module = split)
    {plan plan' : List PlannedProbe}
    (hplan : List.Forall₂ (PlannedProbe.Redrawn config mapSize sites seed seed') plan plan')
    (hlength : plan.length = sites.length) (dictionary : Dictionary) (sourceMap : Option SourceMap) :
    GoAlike (fun s t : PassState => m.Reseeded config sites seed seed' s.module t.module)
      (SameReport sites seed seed')
      (afterTokens config mapSize seed plan dictionary sourceMap s)
      (afterTokens config mapSize seed' plan' dictionary sourceMap t) := by
  unfold afterTokens
  rw [Course.bind_of_ok (declare_eq config s), Course.bind_of_ok (declare_eq config t), hs, ht,
    ← hplan.length_eq]
  obtain ⟨hdense, hclassic⟩ := split.previous_withHooks config
  have hreaches : ∀ id f, (split.withHooks config).1.function id = .ok f →
      m.instCount id ≤ f.insts.size := by
    refine fun id f hid => Module.instCount_le (fun i g hi => ?_) hid
    obtain ⟨g', hi', hsame⟩ := hgrown i g hi
    exact ⟨g', Module.function_withHooks hi' config, hsame⟩
  generalize (split.withHooks config).1 = declared, (split.withHooks config).2 = hooks at *
  let alike : FuncId → Function → Function → Prop := fun id f f' =>
    f.SameBut (fun i kind kind' => m.instCount id ≤ i.index ∧
      f.OtherSlot hooks (Drawn mapSize seed seed' sites id) f' i kind kind') f'
  have hslots : ∀ planned planned', PlannedProbe.Redrawn config mapSize sites seed seed' planned planned' →
      hooks.Slots (Drawn mapSize seed seed' sites planned.site.function) planned.slot planned'.slot := by
    intro planned planned' hredrawn
    cases hmode : config.denseIds with
    | true =>
      refine ⟨fun _ => hredrawn.dense hmode, fun previous hprevious => ?_⟩
      cases (hdense hmode).symm.trans hprevious
    | false =>
      refine ⟨fun hnone => ?_, fun _ _ => hredrawn.classic hmode⟩
      obtain ⟨-, previous, hprevious, -⟩ := hclassic hmode
      cases hnone.symm.trans hprevious
  have hend : ∀ s t : PassState, Abreast alike declared.globals s t →
      m.Reseeded config sites seed seed' s.module t.module := by
    intro s t h
    cases hmode : config.denseIds with
    | true =>
      refine .same (h.modules.imp fun id f f' hsame => (hsame.imp fun i kind kind' hdiffer => ?_).eq).eq
      obtain ⟨-, hother⟩ := hdiffer
      cases hother with
      | mixed hprevious | left hprevious => cases (hdense hmode).symm.trans hprevious
    | false =>
      obtain ⟨harea, previous, hprevious, hfind⟩ := hclassic hmode
      refine .classic hmode hsize ?_ ?_ hprevious h.modules
      · rwa [Module.findGlobal?, h.globals]
      · rwa [Module.findGlobal?, h.globals]
  have hplaced : GoAlike
      (Abreast (fun id f f' => f.SameSince (m.instCount id) hooks (Drawn mapSize seed seed' sites id) f')
        declared.globals) Eq
      ((plan.forM fun planned =>
        inFunction planned.site.function (Edit.placePlanned hooks planned)) { s with module := declared })
      ((plan'.forM fun planned =>
        inFunction planned.site.function (Edit.placePlanned hooks planned))
          { t with module := declared }) := by
    refine .forM (fun planned planned' s t hredrawn h => ?_) hplan
      ⟨.refl fun id f hid => ⟨.refl f, hreaches id f hid⟩, rfl⟩
    have hslots := hslots planned planned' hredrawn
    obtain ⟨site, id, slot⟩ := planned
    obtain ⟨site', id', slot'⟩ := planned'
    obtain rfl : site' = site := hredrawn.site
    obtain rfl : id' = id := hredrawn.id
    exact goAlike_inFunction h fun f f' hf => Edit.goAlike_placePlanned hslots hf site' id'
  have hforget : ∀ s t : PassState, Abreast (fun id f f' =>
      f.SameSince (m.instCount id) hooks (Drawn mapSize seed seed' sites id) f') declared.globals s t →
        Abreast alike declared.globals s t :=
    fun s t h => ⟨h.modules.imp fun _ _ _ hf => hf.toSameBut, h.globals⟩
  have hnames : ∀ id f f', alike id f f' → f'.name = f.name := fun _ _ _ hf => hf.name
  have hrefl : ∀ id f, alike id f f := fun _ f => .refl f
  refine hplaced.bind_imp (fun s t h => hend s t (hforget s t h)) fun _ _ s₁ t₁ _ _ h₁ => ?_
  refine (goAlike_defineAccessor (hforget s₁ t₁ h₁) hnames hrefl _ _).bind_imp hend
    fun _ _ s₂ t₂ _ _ h₂ => ?_
  refine (goAlike_defineAccessor h₂ hnames hrefl _ _).bind_imp hend fun _ _ s₃ t₃ _ _ h₃ => ?_
  have hreport : ∀ s : PassState, ∃ log, reportProbes config plan.length
      (if config.denseIds then plan.length + 1 else mapSize) s =
        .ok (.ok (), { s with log }) := by
    intro s
    unfold reportProbes
    split <;> exact ⟨_, rfl⟩
  obtain ⟨log, hreport₃⟩ := hreport s₃
  obtain ⟨log', hreport₃'⟩ := hreport t₃
  rw [Course.bind_of_ok hreport₃, Course.bind_of_ok hreport₃']
  exact .done ⟨hlength, rfl, rfl⟩ (hend s₃ t₃ h₃)

/-- Recording tokens and lines does not depend on the slots. -/
theorem goAlike_afterSites (hsize : config.mapSize = .ok mapSize)
    (hgrown : m.Each Function.SameTokens split) (hs : s.module = split) :
    GoAlike (fun s t : PassState => m.Reseeded config sites seed seed' s.module t.module)
      (SameReport sites seed seed')
      (afterSites config mapSize seed sites s) (afterSites config mapSize seed' sites s) := by
  have hplan : List.Forall₂ (PlannedProbe.Redrawn config mapSize sites seed seed')
      (planProbes config mapSize seed sites) (planProbes config mapSize seed' sites) :=
    planProbes_redrawn
  have hlength : (planProbes config mapSize seed sites).length = sites.length := by
    simp [planProbes]
  let same : PassState → PassState → Prop := fun s t => s.module = split ∧ t.module = split
  have hsame : ∀ s t, same s t → m.Reseeded config sites seed seed' s.module t.module :=
    fun s t h => .same (h.2.trans h.1.symm)
  have hquery : ∀ {α : Type} {question question' : Module → Checked α} {s t : PassState},
      (∀ m, question' m = question m) → same s t →
        GoAlike same Eq (query question s) (query question' t) := by
    intro α question question' s t hasked h
    refine .of_checked (.of_eq ?_) h
    rw [h.1, h.2, hasked]
  unfold afterSites
  have hlog : GoAlike same Eq (info ("The seed used for instrumentation is " ++ toString seed.toNat) [] s)
      (info ("The seed used for instrumentation is " ++ toString seed'.toNat) [] s) :=
    .done rfl ⟨hs, hs⟩
  refine hlog.bind_imp hsame fun _ _ s₁ t₁ _ _ h₁ => ?_
  refine (hquery (fun m => m.recordTokens_redrawn hplan) h₁).bind_imp hsame
    fun dictionary _ s₂ t₂ _ hdictionary h₂ => hdictionary ▸ ?_
  split
  · refine (hquery (fun m => m.sourceMap_redrawn hplan) h₂).bind_imp hsame
      fun lines _ s₃ t₃ _ hlines h₃ => hlines ▸ ?_
    exact goAlike_afterTokens hsize hgrown h₃.1 h₃.2 hplan hlength _ _
  · exact goAlike_afterTokens hsize hgrown h₂.1 h₂.2 hplan hlength _ _

end

end Pass

/-! ## The whole pass -/

section

variable (config : Config) (seed : Option UInt64)

theorem Function.edgeSites_seed (f : Function) (id : FuncId) (preds : PredecessorMap)
    (blocks : List BlockId) :
    f.edgeSites { config with seed } id preds blocks = f.edgeSites config id preds blocks := by
  induction blocks with
  | nil => rfl
  | cons block rest ih =>
    rw [edgeSites, edgeSites, ih]
    rfl

theorem Module.sitesAmong_seed (m : Module) (pointedTo : Option (List String)) (ids : List FuncId) :
    m.sitesAmong { config with seed } pointedTo ids = m.sitesAmong config pointedTo ids := by
  have hprobes : ∀ (f : Function) (id : FuncId),
      f.probeSites { config with seed } pointedTo id = f.probeSites config pointedTo id := by
    intro f id
    simp only [Function.probeSites, Function.edgeSites_seed]
  induction ids with
  | nil => rfl
  | cons id rest ih => simp only [sitesAmong, hprobes, ih]

namespace Pass

/-- Splits landing pads and selects the sites. -/
def findSites (config : Config) : Pass (List ProbeSite) := do
  (← functionIds).forM splitPads
  let pointedTo ← query Module.pointedTo?
  if pointedTo.isSome then info "Using pointer analysis for function pointers"
  selectSites config pointedTo

/-- Sites are selected without the seed. -/
theorem findSites_seed : findSites { config with seed } = findSites config := by
  have hselect : ∀ pointedTo, selectSites { config with seed } pointedTo =
      selectSites config pointedTo := by
    intro pointedTo
    simp only [selectSites, Module.probeSites, Module.sitesAmong_seed]
  simp only [findSites, hselect]

theorem respects_findSites : (findSites config).Respects (Module.Each Function.SameTokens) := by
  refine .bind respects_functionIds fun ids => .bind (.forM respects_splitPads ids) fun _ => ?_
  refine .bind (respects_query _) fun pointedTo => ?_
  exact .optional (respects_report _) fun _ => respects_selectSites config _

variable {config}

theorem instrumentEdges_eq {mapSize : Nat} (hsize : config.mapSize = .ok mapSize) (drawn : UInt64) :
    instrumentEdges config drawn =
      (findSites config >>= afterSites config mapSize (config.seed.getD drawn)) := by
  unfold instrumentEdges findSites
  rw [hsize]
  simp only [pure_bind, bind_assoc]
  refine bind_congr fun ids => bind_congr fun _ => bind_congr fun pointedTo => ?_
  split
  · rw [bind_assoc]
    refine bind_congr fun _ => bind_congr fun sites => ?_
    rfl
  · refine bind_congr fun sites => ?_
    rfl

end Pass

end

/-- The seed decides slots and the build id only. -/
theorem Module.instrumentEdges_reseeded (m : Module) (config : Config) (log : List Log.Record)
    (seed seed' : Option UInt64) (drawn drawn' : UInt64) :
    ∃ sites, GoAlike
      (fun s t : PassState =>
        m.Reseeded config sites (seed.getD drawn) (seed'.getD drawn') s.module t.module)
      (Pass.SameReport sites (seed.getD drawn) (seed'.getD drawn'))
      (Pass.instrumentEdges { config with seed } drawn ⟨m, log⟩)
      (Pass.instrumentEdges { config with seed := seed' } drawn' ⟨m, log⟩) := by
  cases hsize : config.mapSize with
  | error cause =>
    have hrefused : ∀ seed drawn, Pass.instrumentEdges { config with seed } drawn ⟨m, log⟩ =
        .ok (.error cause, ⟨m, log⟩) := by
      intro seed drawn
      have hsize : ({ config with seed } : Config).mapSize = .error cause := hsize
      unfold Pass.instrumentEdges
      rw [hsize]
      rfl
    rw [hrefused, hrefused]
    exact ⟨[], .refused cause (.same rfl)⟩
  | ok mapSize =>
    have hrun : ∀ seed drawn, Pass.instrumentEdges { config with seed } drawn =
        (Pass.findSites config >>= Pass.afterSites config mapSize (seed.getD drawn)) := by
      intro seed drawn
      have hsize : ({ config with seed } : Config).mapSize = .ok mapSize := hsize
      rw [Pass.instrumentEdges_eq hsize, Pass.findSites_seed]
      rfl
    rw [hrun, hrun]
    cases hfound : Pass.findSites config ⟨m, log⟩ with
    | error fault =>
      rw [Course.bind_of_fault hfound, Course.bind_of_fault hfound]
      exact ⟨[], .fault fault⟩
    | ok outcome =>
      obtain ⟨found, s⟩ := outcome
      have hgrown : m.Each Function.SameTokens s.module := Pass.respects_findSites config _ _ _ hfound
      cases found with
      | error cause =>
        rw [Course.bind_of_refused hfound, Course.bind_of_refused hfound]
        exact ⟨[], .refused cause (.same rfl)⟩
      | ok sites =>
        rw [Course.bind_of_ok hfound, Course.bind_of_ok hfound]
        exact ⟨sites, Pass.goAlike_afterSites hsize hgrown rfl⟩

end EdgeProbe
