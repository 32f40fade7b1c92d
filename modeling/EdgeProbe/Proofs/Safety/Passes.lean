import EdgeProbe.Lowering.Compare
import EdgeProbe.Proofs.Lowering.Differences
import EdgeProbe.Proofs.Safety.Literals
import EdgeProbe.Proofs.Safety.Lowering
import EdgeProbe.Proofs.Safety.Modules

/-!
# Harvesting and lowering in sturdy modules

The passes that come before instrumentation come to no fault in a sturdy module. What they look for
is looked for in one state of a function and dealt with in later ones, so that each visit asks again
what its instruction is.
-/

namespace EdgeProbe

open Checked

variable {m : Module} {f f' : Function} {s : PassState} {id : FuncId}

/-- What is no phi later on has always been what it is. -/
theorem Function.Onward.kind_of_later (h : f.Onward f') {inst : InstId}
    (hinst : inst.index < f.insts.size) {kind : InstKind} (hkind : f'.kind inst = .ok kind)
    (hnot : kind.isPhi = false) : f.kind inst = .ok kind := by
  obtain ⟨kind₀, hkind₀⟩ := Function.exists_kind hinst
  rwa [h.kind_eq hkind₀ hkind hnot]

/-- What a function of an earlier module knows, that of a later one does. -/
theorem Module.Onward.grows {m' : Module} (h : m.Onward m') (hf : f.Onward f') :
    m.Grows f m' f' :=
  ⟨h.globals, h.functions, hf.params, hf.insts, hf.blocks⟩

theorem StringSite.Known.grows {m' : Module} {site : StringSite} (hsite : site.Known m f)
    (honward : f.Onward f') (hgrows : m.Grows f m' f') : site.Known m' f' :=
  ⟨honward.held hsite.held, fun ptr heq => hgrows.knowsValue (hsite.left ptr heq),
    fun ptr heq => hgrows.knowsValue (hsite.right ptr heq)⟩

/-- There is room for the chain of a comparison that can be taken apart. -/
theorem Module.LengthsFit.room {limits : Limits} {call : InstId} {site : StringSite}
    (hfit : m.LengthsFit limits) (hid : m.function id = .ok f)
    (h : m.inspect f limits call = .ok (.site site)) :
    site.len * Edit.entrySize < addressBound := by
  obtain ⟨-, target, g, args, ret, first, second, limit, hsite⟩ := inspect_eq_site h
  have hliteral : ∀ {value : Value} {data : List UInt8},
      m.constantBytes? f value = .ok (some data) → site.len ≤ data.length →
      limits.Reserves site.len := by
    intro value data hdata hle
    obtain ⟨global, hglobal, whole, hcontents, hwhole⟩ := length_le_of_constantBytesWithin hdata
    exact hfit.literals global hglobal whole hcontents site.len (hle.trans hwhole)
  have hlength : ∀ {data : List UInt8},
      (site.family.isString = true → site.len = stringLength data limit) →
      (site.family.isString = false → site.len = limit.getD 0 ∧ site.len ≤ data.length) →
      site.len ≤ data.length := by
    intro data hstring hregion
    cases hfamily : site.family.isString with
    | true => exact (hstring hfamily).trans_le (stringLength_le data limit).1
    | false => exact (hregion hfamily).2
  refine (?_ : limits.Reserves site.len) hsite.bounded
  cases hsite.decided with
  | neither _ _ hlimit =>
    -- Without a literal the bound is a number in the call.
    have hkind := hsite.kind
    cases hsite.operands with
    | unbounded => cases hlimit
    | bounded => exact hfit.bounds id f hid _ _ hkind _ hlimit
  | left hdata _ _ _ _ hstring hregion => exact hliteral hdata (hlength hstring hregion)
  | right _ hdata _ _ _ hstring hregion => exact hliteral hdata (hlength hstring hregion)

/-! ## Functions without a body -/

theorem Function.liveInsts_of_declaration (hf : f.isDeclaration = true) : f.liveInsts = .ok [] := by
  rw [liveInsts, List.isEmpty_iff.mp hf]
  rfl

theorem Function.candidates_of_declaration (hf : f.isDeclaration = true) (preds : List Predicate) :
    f.candidates preds = .ok [] := by
  rw [candidates, liveInsts_of_declaration hf]
  rfl

namespace Edit

theorem lowerSelects_of_declaration (hf : f.isDeclaration = true) (count : Nat) :
    ∃ a, (lowerSelects count).Does f a f := by
  refine ⟨count, does_bind.mpr ⟨[], f, does_query.mpr ⟨?_, rfl⟩, does_pure.mpr ⟨rfl, rfl⟩⟩⟩
  rw [Function.selects, Function.liveInsts_of_declaration hf]
  rfl

theorem simplifyAll_of_declaration (hf : f.isDeclaration = true) : ∃ a, simplifyAll.Does f a f :=
  ⟨0, does_bind.mpr ⟨[], f, does_query.mpr ⟨Function.candidates_of_declaration hf _, rfl⟩, rfl⟩⟩

theorem normalizeSigns_of_declaration (hf : f.isDeclaration = true) :
    ∃ a, normalizeSigns.Does f a f :=
  ⟨0, does_bind.mpr ⟨[], f, does_query.mpr ⟨Function.candidates_of_declaration hf _, rfl⟩, rfl⟩⟩

/-! ## Whole functions -/

variable (hf : f.Sturdy m)
include hf

theorem safe_lowerSelects (count : Nat) : Safe m (lowerSelects count) f fun _ _ => True := by
  obtain ⟨ids, hids, hheld⟩ := hf.selects_yields
  refine safe_query_bind hf hids (safe_foldlM hf fun id hid count f' hf' h' => ?_)
  exact .bind (safe_lowerSelect hf' count (h'.held (hheld id hid))) fun _ f₁ hf₁ _ _ =>
    safe_pure hf₁ trivial

theorem safe_simplifyAll : Safe m simplifyAll f fun _ _ => True := by
  obtain ⟨sites, hsites, hfound⟩ := hf.candidates_yields [.uge, .sge, .ule, .sle]
  refine safe_query_bind hf hsites ?_
  refine .bind (safe_forM hf fun site hsite f' hf' h' => ?_) fun _ f₁ hf₁ _ _ =>
    safe_pure hf₁ trivial
  obtain ⟨hheld, hat⟩ := hfound site hsite
  refine safe_simplify hf' (h'.held hheld) fun pred lhs rhs hkind => ?_
  exact (hat.compares pred lhs rhs (h'.kind_of_later hheld.lt hkind rfl)).1

theorem safe_normalizeSigns : Safe m normalizeSigns f fun _ _ => True := by
  obtain ⟨sites, hsites, hfound⟩ := hf.candidates_yields [.sgt, .slt]
  refine safe_query_bind hf hsites ?_
  refine .bind (safe_forM hf fun site hsite f' hf' h' => ?_) fun _ f₁ hf₁ _ _ =>
    safe_pure hf₁ trivial
  obtain ⟨hheld, hat⟩ := hfound site hsite
  refine safe_normalizeSign hf' (h'.held hheld) fun pred lhs rhs hkind => ?_
  have hkind := h'.kind_of_later hheld.lt hkind rfl
  obtain ⟨hpred, hcompares⟩ := hat.compares pred lhs rhs hkind
  have hsigned : pred.isSigned = true := by
    simp only [List.mem_cons, List.not_mem_nil, or_false] at hpred
    obtain rfl | rfl := hpred <;> rfl
  intro hzero
  obtain ⟨ty, hty, hwidth⟩ := Checked.map_eq_ok.mp (hzero ▸ hcompares.left)
  refine hf.signs _ _ hkind pred lhs rhs rfl hsigned ⟨f.insts.size, ?_⟩
  cases ty with
  | int width =>
    obtain rfl := Option.some.inj hwidth
    exact hty
  | _ => cases hwidth

end Edit

/-! ## Harvesting -/

theorem Module.Sturdy.findings_yields (hm : m.Sturdy)
    {findAt : FuncId → Function → InstId → Checked (List Finding)}
    (hfind : ∀ id f inst, f.Sturdy m → f.Held inst → Yields (findAt id f inst) (Finding.AllIn id)) :
    Yields (m.findings findAt) fun found => ∀ l, .literal l ∈ found →
      ∃ f, m.function l.function = .ok f ∧ f.Sturdy m := by
  unfold Module.findings
  refine (Yields.mapM (q := fun found : List Finding => ∀ l, .literal l ∈ found →
    ∃ f, m.function l.function = .ok f ∧ f.Sturdy m) fun id hid => ?_).bind
    fun lists hlists => yields_pure fun l hl => ?_
  · obtain ⟨f, hf⟩ := Module.exists_function (Module.mem_functionIds.mp hid)
    refine .after hf ?_
    obtain hdeclared | hsturdy := hm id f hf
    · refine .after (Function.liveInsts_of_declaration hdeclared) (yields_pure (by simp))
    · refine hsturdy.liveInsts.bind fun ids hids => ?_
      refine (Yields.mapM fun inst hinst => hfind id f inst hsturdy (hids inst hinst)).bind
        fun lists hlists => yields_pure fun l hl => ?_
      obtain ⟨found, hfound, hl⟩ := List.mem_flatten.mp hl
      rw [hlists found hfound _ hl l rfl]
      exact ⟨f, hf, hsturdy⟩
  · obtain ⟨found, hfound, hl⟩ := List.mem_flatten.mp hl
    exact hlists found hfound l hl

theorem Finding.mem_planned {limits : Limits} {finding : Finding} {l : Literal} {token : Token}
    (h : (l, token) ∈ finding.planned limits) : finding = .literal l := by
  cases finding with
  | remark r => cases h
  | literal l' =>
    obtain ⟨token', -, heq⟩ := Option.map_eq_some_iff.mp (Option.mem_toList.mp h)
    rw [(Prod.mk.inj heq).1]

namespace Pass

variable (hs : s.module.Sturdy)
include hs

theorem safe_sumOver {α : Type} {items : List α} {count : α → Pass Nat}
    (h : ∀ item ∈ items, ∀ t, t.module.Sturdy → s.module.Onward t.module →
      Safe (count item) t fun _ _ => True) : Safe (sumOver items count) s fun _ _ => True :=
  safe_foldlM hs fun item hitem _ t ht hst =>
    .bind (h item hitem t ht hst) fun _ _ hu _ _ => safe_pure hu trivial

theorem safe_harvestWith (limits : Limits)
    {findAt : Module → FuncId → Function → InstId → Checked (List Finding)}
    (hfind : ∀ m id f inst, f.Sturdy m → f.Held inst →
      Yields (findAt m id f inst) (Finding.AllIn id)) :
    Safe (harvestWith limits findAt) s fun _ _ => True := by
  obtain ⟨found, hfound, hin⟩ := hs.findings_yields (hfind s.module)
  refine safe_query_bind hs hfound ?_
  refine .bind (safe_reportAll hs _) fun _ s₁ hs₁ hst₁ _ => ?_
  refine safe_sumOver hs₁ ?_
  rintro ⟨l, token⟩ hplanned t ht hst
  obtain ⟨finding, hfinding, hmem⟩ := List.mem_flatMap.mp hplanned
  obtain rfl := Finding.mem_planned hmem
  obtain ⟨f, hf, hsturdy⟩ := hin l hfinding
  obtain ⟨f', hf', -⟩ := WorksOn.onward ⟨hf, hsturdy⟩ (hst₁.trans hst)
  exact safe_inFunction ht hf' (Edit.safe_attachLiteral hf'.sturdy l token limits)

theorem safe_reportRecorded (count : Nat) (pairs : List (String × String)) :
    Safe (reportRecorded count pairs) s fun _ _ => True := by
  unfold reportRecorded
  split
  · exact (safe_report hs _).some
  · exact (safe_report hs _).some

theorem safe_harvest (config : Config) : Safe (harvest config) s fun _ _ => True := by
  refine .bind (safe_harvestWith hs _ fun m id f inst hf => hf.arraysAt_yields id)
    fun _ s₁ hs₁ _ _ => ?_
  refine .bind (safe_harvestWith hs₁ _ fun m id f inst hf => hf.storesAt_yields id)
    fun _ s₂ hs₂ _ _ => ?_
  refine .bind (safe_harvestWith hs₂ _ fun m id f inst hf => hf.structFieldsAt_yields id)
    fun _ s₃ hs₃ _ _ => ?_
  refine .bind (safe_harvestWith hs₃ _ fun m id f inst hf =>
    hf.callStringsAt_yields id config.ignoreStringsTo) fun _ s₄ hs₄ _ _ => ?_
  exact .bind (safe_reportRecorded hs₄ _ _) fun _ s₅ hs₅ _ _ => safe_pure hs₅ trivial

/-! ## Selections -/

theorem safe_lowerSelects : Safe lowerSelects s fun _ _ => True := by
  refine safe_functionIds_bind hs ?_
  refine .bind (safe_foldlM hs fun id hid count t ht hst => ?_) fun count s₁ hs₁ _ _ => ?_
  · exact safe_inEach ht (mem_functionIds_onward hst hid)
      (fun f hf => Edit.lowerSelects_of_declaration hf count)
      fun f hf => Edit.safe_lowerSelects hf count
  · dsimp only
    split
    · exact .bind (safe_report hs₁ _) fun _ s₂ hs₂ _ _ => safe_pure hs₂ trivial
    · exact .bind (safe_report hs₁ _) fun _ s₂ hs₂ _ _ => safe_pure hs₂ trivial

/-! ## Comparisons -/

theorem safe_checkWidths (hid : id ∈ s.module.functionIds) :
    Safe (checkWidths id) s fun _ _ => True := by
  obtain ⟨f, hf⟩ := Module.exists_function (Module.mem_functionIds.mp hid)
  refine safe_query_bind hs hf ?_
  have hwide : Yields (do f.wideComparison? (← f.liveInsts)) fun _ => True := by
    obtain hdeclared | hsturdy := hs id f hf
    · exact .after (Function.liveInsts_of_declaration hdeclared) (yields_pure trivial)
    · exact hsturdy.liveInsts.bind fun ids hids => hsturdy.wideComparison?_yields hids
  obtain ⟨width?, hwidth, -⟩ := hwide
  refine safe_query_bind hs hwidth ?_
  split
  · exact Course.safe_throw _
  · exact safe_pure hs trivial

theorem safe_normalizeCompares (stats : CompareStats) (hid : id ∈ s.module.functionIds) :
    Safe (normalizeCompares stats id) s fun _ _ => True := by
  refine .bind (safe_inEach hs hid (fun f hf => Edit.simplifyAll_of_declaration hf)
    fun f hf => Edit.safe_simplifyAll hf) fun _ s₁ hs₁ hst₁ _ => ?_
  refine .bind (safe_inEach hs₁ (mem_functionIds_onward hst₁ hid)
    (fun f hf => Edit.normalizeSigns_of_declaration hf)
    fun f hf => Edit.safe_normalizeSigns hf) fun _ s₂ hs₂ _ _ => safe_pure hs₂ trivial

theorem safe_recordCompared (config : Config) (hf : WorksOn s id f) {inst : InstId}
    (hinst : f.Held inst) (lhs rhs : Value) :
    Safe (recordCompared config id inst lhs rhs) s fun _ _ => True := by
  unfold recordCompared
  split
  · exact safe_pure hs trivial
  obtain ⟨provenance, hprovenance, -⟩ := hf.sturdy.provenance_yields hinst
  refine safe_query_bind hs (Checked.bind_eq_ok.mpr ⟨f, hf.function, hprovenance⟩) ?_
  dsimp only
  split
  · exact .bind (safe_inFunction hs hf (Edit.safe_attach hf.sturdy inst _ _))
      fun _ s₁ hs₁ _ _ => safe_pure hs₁ trivial
  · exact .bind (safe_report hs _) fun _ s₁ hs₁ _ _ => safe_pure hs₁ trivial

theorem safe_halveCompare (config : Config) (hf : WorksOn s id f) (width : Nat) {inst : InstId}
    (hinst : f.Held inst) (hunsigned : ∀ pred lhs rhs, f.kind inst = .ok (.icmp pred lhs rhs) →
      pred.isSigned = false) : Safe (halveCompare config id width inst) s fun _ _ => True := by
  obtain ⟨i, hi⟩ := Function.exists_inst hinst.lt
  refine safe_query_bind hs (Checked.bind_eq_ok.mpr ⟨f, hf.function, hi⟩) ?_
  have hkind : f.kind inst = .ok i.kind := Function.kind_eq_ok.mpr ⟨i, hi, rfl⟩
  obtain hnone | ⟨pred, lhs, rhs, heq, hl, hr⟩ := hf.sturdy.comparison_cases hkind
  · rw [hnone]
    exact safe_pure hs trivial
  rw [heq]
  have hpred := hunsigned pred lhs rhs (heq ▸ hkind)
  have hrest : ∀ (recorded : Bool) (s₁ : PassState), s₁.module.Sturdy →
      s.module.Onward s₁.module → Safe (do
        if recorded && config.convert != .all then return { recorded }
        if config.convert == .none || width ≤ 8 then return { recorded }
        let name := (← query (·.function id)).name
        debug ("splitting " ++ toString width ++ "-bit " ++ pred.mnemonic ++ " in " ++ name)
        inFunction id (Edit.halve width inst pred lhs rhs)
        return { recorded, halved := !i.split } : Pass Halving) s₁ fun _ _ => True := by
    intro recorded s₁ hs₁ hst₁
    obtain ⟨f₁, hf₁, honward₁⟩ := hf.onward hst₁
    split
    · exact safe_pure hs₁ trivial
    dsimp only
    split
    · exact safe_pure hs₁ trivial
    refine safe_query_bind hs₁ hf₁.function ?_
    refine .bind (safe_report hs₁ _) fun _ s₂ hs₂ hst₂ _ => ?_
    obtain ⟨f₂, hf₂, honward₂⟩ := hf₁.onward hst₂
    have honward := honward₁.trans honward₂
    have hgrows := (hst₁.trans hst₂).grows honward
    exact .bind (safe_inFunction hs₂ hf₂ (Edit.safe_halve hf₂.sturdy width (honward.held hinst)
      hpred (hgrows.knowsValue hl) (hgrows.knowsValue hr))) fun _ s₃ hs₃ _ _ =>
        safe_pure hs₃ trivial
  dsimp only [InstKind.comparison?]
  split
  · exact .bind (safe_recordCompared hs config hf hinst lhs rhs) fun recorded s₁ hs₁ hst₁ _ =>
      hrest recorded s₁ hs₁ hst₁
  · exact hrest false s hs (.refl _)

/-- The comparisons that are gone over have been unsigned ones since they were looked for. -/
theorem safe_halveCompares (config : Config) (width : Nat) (stats : CompareStats)
    (hid : id ∈ s.module.functionIds) :
    Safe (halveCompares config width stats id) s fun _ _ => True := by
  obtain ⟨f, hf⟩ := Module.exists_function (Module.mem_functionIds.mp hid)
  obtain hdeclared | hsturdy := hs id f hf
  · refine safe_query_bind hs (Checked.bind_eq_ok.mpr
      ⟨f, hf, Function.candidates_of_declaration hdeclared _⟩) (safe_pure hs trivial)
  obtain ⟨sites, hsites, hfound⟩ := hsturdy.candidates_yields [.eq, .ne, .ugt, .ult]
  refine safe_query_bind hs (Checked.bind_eq_ok.mpr ⟨f, hf, hsites⟩) ?_
  refine safe_foldlM hs fun site hsite stats t ht hst => ?_
  obtain ⟨hheld, hat⟩ := hfound site (List.mem_of_mem_filter hsite)
  obtain ⟨f', hf', honward⟩ := WorksOn.onward ⟨hf, hsturdy⟩ hst
  refine .bind (safe_halveCompare ht config hf' width (honward.held hheld) ?_)
    fun _ u hu _ _ => safe_pure hu trivial
  intro pred lhs rhs hkind
  obtain ⟨hpred, -⟩ := hat.compares pred lhs rhs (honward.kind_of_later hheld.lt hkind rfl)
  simp only [List.mem_cons, List.not_mem_nil, or_false] at hpred
  obtain rfl | rfl | rfl | rfl := hpred <;> rfl

theorem safe_splitCompares (config : Config) : Safe (splitCompares config) s fun _ _ => True := by
  have hhalving : ∀ (stats : CompareStats) (s₁ : PassState), s₁.module.Sturdy →
      s.module.Onward s₁.module → Safe (do
        let stats ← [64, 32, 16, 8].foldlM
          (fun stats width => s.module.functionIds.foldlM (halveCompares config width) stats) stats
        reportCompares stats
        return stats : Pass CompareStats) s₁ fun _ _ => True := by
    intro stats s₁ hs₁ hst₁
    refine .bind (safe_foldlM hs₁ fun width _ stats t ht hst => ?_) fun stats s₂ hs₂ _ _ => ?_
    · refine safe_foldlM ht fun id hid stats u hu htu => ?_
      exact safe_halveCompares hu config width stats
        (mem_functionIds_onward (hst₁.trans (hst.trans htu)) hid)
    · refine .bind (q := fun _ _ => True) ?_ fun _ s₃ hs₃ _ _ => safe_pure hs₃ trivial
      unfold reportCompares
      dsimp only
      split
      · exact .bind (safe_report hs₂ _) fun _ s₃ hs₃ _ _ => safe_reportRecorded hs₃ _ _
      · exact .bind (safe_report hs₂ _) fun _ s₃ hs₃ _ _ => safe_reportRecorded hs₃ _ _
  refine safe_functionIds_bind hs ?_
  refine .bind (safe_forM hs fun id hid t ht hst =>
    safe_checkWidths ht (mem_functionIds_onward hst hid)) fun _ s₁ hs₁ hst₁ _ => ?_
  dsimp only
  split
  · exact hhalving {} s₁ hs₁ hst₁
  · refine .bind (safe_foldlM hs₁ fun id hid stats t ht hst => safe_normalizeCompares ht stats
      (mem_functionIds_onward (hst₁.trans hst) hid)) fun stats s₂ hs₂ hst₂ _ => ?_
    exact hhalving stats s₂ hs₂ (hst₁.trans hst₂)

/-! ## String comparisons -/

theorem safe_recordKeyword (config : Config) (hf : WorksOn s id f) {call : InstId}
    (hcall : f.Held call) (keyword : List UInt8) :
    Safe (recordKeyword config id call keyword) s fun _ _ => True := by
  obtain ⟨provenance, hprovenance, -⟩ := hf.sturdy.provenance_yields hcall
  refine safe_query_bind hs (Checked.bind_eq_ok.mpr ⟨f, hf.function, hprovenance⟩) ?_
  split
  · exact safe_inFunction hs hf (Edit.safe_attachToResultUsers hf.sturdy call _ _)
  · exact .bind (safe_report hs _) fun _ s₁ hs₁ _ _ => safe_pure hs₁ trivial

theorem safe_wantsUnrolling (config : Config) (hf : WorksOn s id f) (site : StringSite) :
    Safe (wantsUnrolling config id site) s fun _ _ => True := by
  unfold wantsUnrolling
  split
  · exact safe_pure hs trivial
  · exact safe_pure hs trivial
  split
  · exact safe_pure hs trivial
  obtain ⟨carried, hcarried, -⟩ := hf.sturdy.hasResultToken_yields site.call
  exact safe_query_bind hs (Checked.bind_eq_ok.mpr ⟨f, hf.function, hcarried⟩)
    (safe_pure hs trivial)

theorem safe_splitString (config : Config) (hf : WorksOn s id f) (stats : StringStats)
    {site : StringSite} (hsite : site.Known s.module f)
    (hroom : site.len * Edit.entrySize < addressBound) :
    Safe (splitString config id stats site) s fun _ _ => True := by
  have hunrolling : ∀ (recorded : Nat) (s₁ : PassState), s₁.module.Sturdy →
      s.module.Onward s₁.module → Safe (do
        let stats := { stats with recorded := stats.recorded + recorded }
        if ← wantsUnrolling config id site then
          inFunction id (Edit.unroll site config.limits)
          return stats.count site
        else return stats : Pass StringStats) s₁ fun _ _ => True := by
    intro recorded s₁ hs₁ hst₁
    obtain ⟨f₁, hf₁, honward₁⟩ := hf.onward hst₁
    refine .bind (safe_wantsUnrolling hs₁ config hf₁ site) fun wanted s₂ hs₂ hst₂ _ => ?_
    obtain ⟨f₂, hf₂, honward₂⟩ := hf₁.onward hst₂
    split
    · have hsite₂ := hsite.grows (honward₁.trans honward₂)
        ((hst₁.trans hst₂).grows (honward₁.trans honward₂))
      exact .bind (safe_inFunction hs₂ hf₂ (Edit.safe_unroll hf₂.sturdy hsite₂ hroom _))
        fun _ s₃ hs₃ _ _ => safe_pure hs₃ trivial
    · exact safe_pure hs₂ trivial
  unfold splitString
  split
  · next keyword _ =>
    exact .bind (safe_recordKeyword hs config hf hsite.held keyword) fun recorded s₁ hs₁ hst₁ _ =>
      hunrolling recorded s₁ hs₁ hst₁
  · exact hunrolling 0 s hs (.refl _)

theorem safe_sitesOf (found : List Inspection) : Safe (sitesOf found) s fun sites t =>
    t.module = s.module ∧ ∀ site ∈ sites, .site site ∈ found := by
  induction found generalizing s with
  | nil => exact safe_pure hs ⟨rfl, by simp⟩
  | cons first rest ih =>
    cases first with
    | nothing =>
      exact Course.Safe.imp (ih hs) fun sites t _ _ h =>
        ⟨h.1, fun site hsite => List.mem_cons_of_mem _ (h.2 site hsite)⟩
    | remark r =>
      refine .bind (safe_report hs r) fun _ s₁ hs₁ _ hsame => ?_
      exact Course.Safe.imp (ih hs₁) fun sites t _ _ h =>
        ⟨h.1.trans hsame, fun site hsite => List.mem_cons_of_mem _ (h.2 site hsite)⟩
    | site found =>
      refine .bind (ih hs) fun sites t ht _ h => safe_pure ht ⟨h.1, ?_⟩
      refine List.forall_mem_cons.mpr ⟨List.mem_cons_self, fun site hsite => ?_⟩
      exact List.mem_cons_of_mem _ (h.2 site hsite)

theorem safe_splitStringsIn (config : Config) (hfit : s.module.LengthsFit config.limits)
    (stats : StringStats) (hid : id ∈ s.module.functionIds) :
    Safe (splitStringsIn config stats id) s fun _ _ => True := by
  obtain ⟨f, hf⟩ := Module.exists_function (Module.mem_functionIds.mp hid)
  have hfound : Yields (s.module.inspections f config.limits) fun found =>
      ∀ site, .site site ∈ found → f.Sturdy s.module ∧ site.Known s.module f ∧
        ∃ call, s.module.inspect f config.limits call = .ok (.site site) := by
    obtain hdeclared | hsturdy := hs id f hf
    · exact .after (Function.liveInsts_of_declaration hdeclared) (yields_pure (by simp))
    · exact (hsturdy.inspections_yields config.limits).imp fun found hknown site hsite =>
        ⟨hsturdy, hknown site hsite⟩
  obtain ⟨found, hfound, hknown⟩ := hfound
  refine safe_query_bind hs (Checked.bind_eq_ok.mpr ⟨f, hf, hfound⟩) ?_
  refine .bind (safe_sitesOf hs found) ?_
  rintro sites s₁ hs₁ hst₁ ⟨-, hsites⟩
  refine safe_foldlM hs₁ fun site hsite stats t ht hst => ?_
  obtain ⟨hsturdy, hsite, call, hinspect⟩ := hknown site (hsites site hsite)
  obtain ⟨f', hf', honward⟩ := WorksOn.onward ⟨hf, hsturdy⟩ (hst₁.trans hst)
  exact safe_splitString ht config hf' stats (hsite.grows honward ((hst₁.trans hst).grows honward))
    (hfit.room hf hinspect)

theorem safe_splitStrings (config : Config) (hfit : s.module.LengthsFit config.limits) :
    Safe (splitStrings config) s fun _ _ => True := by
  have hcount : ∀ (s : PassState) (count : Nat) (what : String), s.module.Sturdy →
      Safe (reportCount count what) s fun _ _ => True := by
    intro s count what hs
    unfold reportCount
    split
    · exact (safe_report hs _).some
    · exact (safe_report hs _).some
  refine safe_functionIds_bind hs ?_
  refine .bind (safe_foldlM hs fun id hid stats t ht hst => safe_splitStringsIn ht config
    (hst.fits _ hfit) stats (mem_functionIds_onward hst hid)) fun stats s₁ hs₁ _ _ => ?_
  refine .bind (hcount s₁ _ _ hs₁) fun _ s₂ hs₂ _ _ => ?_
  refine .bind (hcount s₂ _ _ hs₂) fun _ s₃ hs₃ _ _ => ?_
  refine .bind (hcount s₃ _ _ hs₃) fun _ s₄ hs₄ _ _ => ?_
  have hlast : ∀ s : PassState, s.module.Sturdy → Safe (do
      reportRecorded stats.recorded
      return stats : Pass StringStats) s fun _ _ => True := fun s hs =>
    .bind (safe_reportRecorded hs _ _) fun _ t ht _ _ => safe_pure ht trivial
  dsimp only
  split
  · exact .bind (safe_report hs₄ _) fun _ s₅ hs₅ _ _ => hlast s₅ hs₅
  · exact hlast s₄ hs₄

end Pass

end EdgeProbe
