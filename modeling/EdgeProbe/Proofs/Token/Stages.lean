import EdgeProbe.Proofs.Lowering.Compares
import EdgeProbe.Proofs.Lowering.NormalForm
import EdgeProbe.Proofs.Probe.Stepwise
import EdgeProbe.Proofs.Token.Ordered

/-!
# The slots of tokens along the whole way

The tokens of a module are in order after each stage of its way if it starts without any: every
stage either keeps them where they are or changes them by edits that keep their order. Harvesting
puts tokens on instructions and does nothing else to a module. The same holds of the passes that take
comparisons apart where the settings say that none shall be, and of what they leave behind when they
are refused. Main statements: `Pipeline.tokens_disciplined` and `Module.code_kept`.
-/

namespace EdgeProbe

variable {α β : Type} {fanOut : Nat}

/-! ## Where literals are found -/

/-- What a literal is attached to directly is in the arena of its function. -/
def Finding.Within (m : Module) : Finding → Prop
  | .literal l => l.atUsers = false → ∃ f, m.function l.function = .ok f ∧ l.inst.index < f.insts.size
  | .remark _ => True

namespace Module

variable {m : Module} {id : FuncId} {f : Function} {inst : InstId} {found : List Finding}

theorem within_arraysAt (h : m.arraysAt id f inst = .ok found) : ∀ x ∈ found, x.Within m := by
  obtain ⟨callee, -, h⟩ := Checked.bind_eq_ok.mp h
  split at h
  · obtain rfl := Checked.pure_eq_ok.mp h
    exact List.forall_mem_nil _
  obtain ⟨kind, -, h⟩ := Checked.bind_eq_ok.mp h
  split at h
  · obtain ⟨data, -, h⟩ := Checked.bind_eq_ok.mp h
    split at h
    · obtain rfl := Checked.pure_eq_ok.mp h
      exact List.forall_mem_nil _
    · obtain ⟨consumers, -, h⟩ := Checked.bind_eq_ok.mp h
      intro x hx
      obtain ⟨consumer, -, h⟩ := Checked.exists_member h hx
      obtain ⟨callee, -, h⟩ := Checked.bind_eq_ok.mp h
      obtain ⟨provenance, -, h⟩ := Checked.bind_eq_ok.mp h
      obtain rfl := Checked.pure_eq_ok.mp h
      exact nofun
  · obtain rfl := Checked.pure_eq_ok.mp h
    exact List.forall_mem_nil _

theorem within_storesAt (h : m.storesAt id f inst = .ok found) : ∀ x ∈ found, x.Within m := by
  obtain ⟨kind, -, h⟩ := Checked.bind_eq_ok.mp h
  split at h
  · split at h
    · obtain rfl := Checked.pure_eq_ok.mp h
      exact List.forall_mem_nil _
    · obtain ⟨consumers, -, h⟩ := Checked.bind_eq_ok.mp h
      intro x hx
      obtain ⟨consumer, -, h⟩ := Checked.exists_member h hx
      obtain ⟨provenance, -, h⟩ := Checked.bind_eq_ok.mp h
      obtain rfl := Checked.pure_eq_ok.mp h
      exact nofun
  · obtain rfl := Checked.pure_eq_ok.mp h
    exact List.forall_mem_nil _

theorem within_structFieldsAt (hid : m.function id = .ok f)
    (h : m.structFieldsAt id f inst = .ok found) : ∀ x ∈ found, x.Within m := by
  obtain ⟨callee, -, h⟩ := Checked.bind_eq_ok.mp h
  split at h
  · obtain rfl := Checked.pure_eq_ok.mp h
    exact List.forall_mem_nil _
  obtain ⟨kind, hkind, h⟩ := Checked.bind_eq_ok.mp h
  obtain ⟨lists, hlists, h⟩ := Checked.bind_eq_ok.mp h
  obtain rfl := Checked.pure_eq_ok.mp h
  intro x hx
  obtain ⟨list, hlist, hx⟩ := List.mem_flatten.mp hx
  obtain ⟨arg, -, h⟩ := Checked.exists_member hlists hlist
  have hnil : ∀ {list : List Finding}, (pure [] : Checked (List Finding)) = .ok list → x ∈ list →
      x.Within m := by
    rintro list h hx
    obtain rfl := Checked.pure_eq_ok.mp h
    cases hx
  split at h
  · obtain ⟨g, -, h⟩ := Checked.bind_eq_ok.mp h
    split at h
    · split at h
      · obtain ⟨bytes, -, h⟩ := Checked.exists_member h hx
        obtain ⟨provenance, -, h⟩ := Checked.bind_eq_ok.mp h
        obtain rfl := Checked.pure_eq_ok.mp h
        exact fun _ => ⟨f, hid, Function.index_lt_of_kind hkind⟩
      · exact hnil h hx
    · exact hnil h hx
  · exact hnil h hx

theorem within_callStringsAt {ignored : List String} (hid : m.function id = .ok f)
    (h : m.callStringsAt id f ignored inst = .ok found) : ∀ x ∈ found, x.Within m := by
  obtain ⟨kind, hkind, h⟩ := Checked.bind_eq_ok.mp h
  split at h
  case h_2 =>
    obtain rfl := Checked.pure_eq_ok.mp h
    exact List.forall_mem_nil _
  obtain ⟨target, -, h⟩ := Checked.bind_eq_ok.mp h
  dsimp only at h
  split at h
  · obtain rfl := Checked.pure_eq_ok.mp h
    exact List.forall_mem_nil _
  have hremark : ∀ {name? : Option (List UInt8)},
      (pure [.remark (environmentRemark name?)] : Checked (List Finding)) = .ok found →
        ∀ x ∈ found, x.Within m := by
    rintro name? h x hx
    obtain rfl := Checked.pure_eq_ok.mp h
    obtain rfl := List.mem_singleton.mp hx
    trivial
  split at h
  · split at h
    · obtain ⟨name?, -, h⟩ := Checked.bind_eq_ok.mp h
      exact hremark h
    · exact hremark h
  split at h
  · obtain rfl := Checked.pure_eq_ok.mp h
    exact List.forall_mem_nil _
  obtain ⟨lists, hlists, h⟩ := Checked.bind_eq_ok.mp h
  obtain rfl := Checked.pure_eq_ok.mp h
  intro x hx
  obtain ⟨list, hlist, hx⟩ := List.mem_flatten.mp hx
  obtain ⟨arg, -, h⟩ := Checked.exists_member hlists hlist
  obtain ⟨bytes, -, h⟩ := Checked.bind_eq_ok.mp h
  split at h
  · obtain rfl := Checked.pure_eq_ok.mp h
    cases hx
  · obtain rfl := Checked.pure_eq_ok.mp h
    cases hx
  · obtain ⟨provenance, -, h⟩ := Checked.bind_eq_ok.mp h
    obtain rfl := Checked.pure_eq_ok.mp h
    obtain rfl := List.mem_singleton.mp hx
    exact fun _ => ⟨f, hid, Function.index_lt_of_kind hkind⟩

theorem within_findings {findAt : FuncId → Function → InstId → Checked (List Finding)}
    (hat : ∀ id f inst found, m.function id = .ok f → findAt id f inst = .ok found →
      ∀ x ∈ found, x.Within m) (h : m.findings findAt = .ok found) : ∀ x ∈ found, x.Within m := by
  obtain ⟨lists, hlists, h⟩ := Checked.bind_eq_ok.mp h
  obtain rfl := Checked.pure_eq_ok.mp h
  intro x hx
  obtain ⟨list, hlist, hx⟩ := List.mem_flatten.mp hx
  obtain ⟨id, -, h⟩ := Checked.exists_member hlists hlist
  obtain ⟨f, hid, h⟩ := Checked.bind_eq_ok.mp h
  obtain ⟨insts, -, h⟩ := Checked.bind_eq_ok.mp h
  obtain ⟨lists, hlists, h⟩ := Checked.bind_eq_ok.mp h
  obtain rfl := Checked.pure_eq_ok.mp h
  obtain ⟨list, hlist, hx⟩ := List.mem_flatten.mp hx
  obtain ⟨inst, -, h⟩ := Checked.exists_member hlists hlist
  exact hat id f inst list hid h x hx

/-! ## Modules whose tokens are in order -/

/-- All functions of the module have a property. -/
def Throughout (I : Function → Prop) (m : Module) : Prop :=
  ∀ f ∈ m.functions, I f

section

variable {I : Function → Prop}

theorem Throughout.function (h : m.Throughout I) (hid : m.function id = .ok f) : I f :=
  h f (Array.mem_of_getElem? (function_eq_ok.mp hid))

theorem Throughout.setFunction (h : m.Throughout I) (hf : I f) :
    (m.setFunction id f).Throughout I := by
  intro g hg
  obtain hg | rfl := Array.mem_or_eq_of_mem_setIfInBounds hg
  · exact h g hg
  · exact hf

theorem Throughout.addFunction (h : m.Throughout I) (hf : I f) :
    (m.addFunction f).1.Throughout I := by
  intro g hg
  obtain hg | rfl := Array.mem_push.mp hg
  · exact h g hg
  · exact hf

end

def Ordered (fanOut : Nat) (m : Module) : Prop :=
  ∀ f ∈ m.functions, f.Ordered fanOut

def StaysOrdered (fanOut : Nat) (m m' : Module) : Prop :=
  m.Ordered fanOut → m'.Ordered fanOut

theorem Ordered.function (h : m.Ordered fanOut) (hid : m.function id = .ok f) : f.Ordered fanOut :=
  Throughout.function h hid

theorem Ordered.setFunction (h : m.Ordered fanOut) (hf : f.Ordered fanOut) :
    (m.setFunction id f).Ordered fanOut :=
  Throughout.setFunction h hf

theorem Ordered.addFunction (h : m.Ordered fanOut) (hf : f.Ordered fanOut) :
    (m.addFunction f).1.Ordered fanOut :=
  Throughout.addFunction h hf

/-- The instructions of each function are what they were. -/
def SameInsts (m m' : Module) : Prop :=
  ∀ id f, m.function id = .ok f → ∃ f', m'.function id = .ok f' ∧ f'.insts = f.insts

theorem SameInsts.refl (m : Module) : m.SameInsts m :=
  fun _ f hid => ⟨f, hid, rfl⟩

theorem SameInsts.setFunction {m₀ : Module} (h : m₀.SameInsts m) {f' : Function}
    (hid : m.function id = .ok f) (hinsts : f'.insts = f.insts) :
    m₀.SameInsts (m.setFunction id f') := by
  intro i f₀ hf₀
  obtain ⟨f₁, hf₁, hsame⟩ := h i f₀ hf₀
  rw [function_setFunction (index_lt_of_function hid)]
  split
  · next heq =>
    subst heq
    obtain rfl := Except.ok.inj (hid.symm.trans hf₁)
    exact ⟨f', rfl, hinsts.trans hsame⟩
  · exact ⟨f₁, hf₁, hsame⟩

end Module

namespace Function

/-- A function without tokens has them in order. -/
theorem ordered_of_nil {f : Function} (h : ∀ i, f.annotations.get i = []) : f.Ordered fanOut where
  tokens i := h i ▸ Token.disciplined_nil
  inArena i hi := absurd (h i) hi

theorem get_of_isEmpty {f : Function} (h : f.annotations.isEmpty = true) (i : InstId) :
    f.annotations.get i = [] := by
  unfold Annotations.get
  cases hget : f.annotations.lists.get? i with
  | none => rfl
  | some tokens =>
    obtain ⟨front, back, hentries, -⟩ := List.lookup_eq_some_iff.mp hget
    refine List.isEmpty_iff.mp (List.all_eq_true.mp h (i, tokens) ?_)
    rw [hentries]
    exact List.mem_append_right _ List.mem_cons_self

theorem ordered_of_isEmpty {f : Function} (h : f.annotations.isEmpty = true) :
    f.Ordered fanOut :=
  ordered_of_nil (get_of_isEmpty h)

end Function

instance (fanOut : Nat) : Module.OfSteps Function.SameTokens (Module.StaysOrdered fanOut) where
  refl _ := id
  trans h h' := h' ∘ h
  setFunction hid hf hm := hm.setFunction (hf.ordered (hm.function hid))
  globals _ _ := id
  declared _ _ _ _ hm := hm.addFunction (Function.ordered_of_nil fun _ => rfl)

/-! ## Passes -/

namespace Pass

open EdgeProbe.Module

variable {s s' : PassState} {config : Config} {limits : Limits} {id : FuncId} {i : InstId}

theorem Respects.does {Q : Module → Module → Prop} {x : Pass α} (hx : x.Respects Q) {a : α}
    (h : x.Does s a s') : Q s.module s'.module :=
  hx s (.ok a) s' h

/-- When the pass is done, the tokens are in order if they were so before. -/
def KeepsOrder (fanOut : Nat) (x : Pass α) : Prop :=
  ∀ s a s', x.Does s a s' → s.module.StaysOrdered fanOut s'.module

theorem Respects.keepsOrder {x : Pass α} (hx : x.Respects (StaysOrdered fanOut)) :
    x.KeepsOrder fanOut :=
  fun s a s' => hx s (.ok a) s'

theorem KeepsOrder.bind {x : Pass α} {k : α → Pass β} (hx : x.KeepsOrder fanOut)
    (hk : ∀ a, (k a).KeepsOrder fanOut) : (x >>= k).KeepsOrder fanOut := by
  intro s b s' h hs
  obtain ⟨a, s₁, ha, hb⟩ := does_bind.mp h
  exact hk a s₁ b s' hb (hx s a s₁ ha hs)

theorem keepsOrder_pure (a : α) : (pure a : Pass α).KeepsOrder fanOut :=
  (respects_pure a).keepsOrder

theorem KeepsOrder.foldlM {g : β → α → Pass β} (hg : ∀ b a, (g b a).KeepsOrder fanOut) (l : List α)
    (b : β) : (l.foldlM g b).KeepsOrder fanOut := by
  intro s b' s' h hs
  exact h.foldlM (fun s => s.module.Ordered fanOut)
    (fun a _ b b' s s' hs hdoes => hg b a s b' s' hdoes hs) hs

theorem keepsOrder_inFunction {edit : Edit α}
    (hedit : ∀ f a f', edit.Does f a f' → f.Ordered fanOut → f'.Ordered fanOut) :
    (inFunction id edit).KeepsOrder fanOut := by
  intro s a s' h hs
  obtain ⟨f, f', hid, hdoes, rfl⟩ := does_inFunction.mp h
  exact hs.setFunction (hedit f a f' hdoes (hs.function hid))

/-! ### Harvesting -/

theorem planned_within {m : Module} {found : List Finding} (hfound : ∀ x ∈ found, x.Within m)
    {l : Literal} {token : Token} (h : (l, token) ∈ found.flatMap (Finding.planned limits)) :
    (Finding.literal l).Within m := by
  obtain ⟨x, hx, h⟩ := List.mem_flatMap.mp h
  have hin := hfound x hx
  cases x with
  | remark record => cases h
  | literal l' =>
    obtain ⟨token', -, heq⟩ := Option.map_eq_some_iff.mp (Option.mem_toList.mp h)
    obtain ⟨rfl, -⟩ := Prod.mk.inj heq
    exact hin

theorem keepsOrder_harvestWith
    {findAt : Module → FuncId → Function → InstId → Checked (List Finding)}
    (hat : ∀ m id f inst found, m.function id = .ok f → findAt m id f inst = .ok found →
      ∀ x ∈ found, x.Within m) : (harvestWith limits findAt).KeepsOrder limits.maxFanOut := by
  intro s₀ count s' h hs
  obtain ⟨found, s₁, hquery, h⟩ := does_bind.mp h
  obtain ⟨hfound, rfl⟩ := does_query.mp hquery
  obtain ⟨u, s₂, hreport, h⟩ := does_bind.mp h
  have hs₂ : s₂.module = s₀.module := by
    obtain ⟨-, rfl⟩ := Prod.mk.inj (Except.ok.inj hreport)
    rfl
  have hwithin := within_findings (hat s₀.module) hfound
  -- The instructions stay what they are, so that what has been found in the arena is there still.
  refine (h.foldlM (fun s => s.module.Ordered limits.maxFanOut ∧ s₀.module.SameInsts s.module) ?_
    ⟨hs₂ ▸ hs, hs₂ ▸ .refl s₀.module⟩).1
  rintro ⟨l, token⟩ hmem sum sum' s₃ s₄ ⟨hs₃, hsame⟩ hstep
  obtain ⟨count, s₅, hattach, hstep⟩ := does_bind.mp hstep
  obtain ⟨-, rfl⟩ := does_pure.mp hstep
  obtain ⟨f, f', hid, hdoes, rfl⟩ := does_inFunction.mp hattach
  have hinst : l.atUsers = false → l.inst.index < f.insts.size := by
    intro husers
    obtain ⟨f₀, hf₀, hlt⟩ := planned_within hwithin hmem husers
    obtain ⟨f₁, hf₁, hinsts⟩ := hsame _ f₀ hf₀
    obtain rfl := Except.ok.inj (hid.symm.trans hf₁)
    rwa [hinsts]
  obtain ⟨hf', hinsts⟩ := Edit.ordered_attachLiteral hdoes (hs₃.function hid) hinst
  exact ⟨hs₃.setFunction hf', hsame.setFunction hid hinsts⟩

theorem keepsOrder_harvest (config : Config) :
    (harvest config).KeepsOrder config.limits.maxFanOut := by
  refine .bind (keepsOrder_harvestWith fun _ _ _ _ _ _ h => within_arraysAt h) fun arrays => ?_
  refine .bind (keepsOrder_harvestWith fun _ _ _ _ _ _ h => within_storesAt h) fun stores => ?_
  refine .bind (keepsOrder_harvestWith fun _ _ _ _ _ hid h => within_structFieldsAt hid h)
    fun structFields => ?_
  refine .bind (keepsOrder_harvestWith fun _ _ _ _ _ hid h => within_callStringsAt hid h)
    fun callStrings => ?_
  exact .bind (respects_reportRecorded _ _).keepsOrder fun _ => keepsOrder_pure _

/-! ### Comparisons -/

theorem ordered_recordCompared {lhs rhs : Value} {recorded : Bool} {f : Function}
    (h : (recordCompared config id i lhs rhs).Does s recorded s')
    (hs : s.module.Ordered config.limits.maxFanOut) (hid : s.module.function id = .ok f)
    (hi : i.index < f.insts.size) :
    s'.module.Ordered config.limits.maxFanOut ∧ s.module.SameInsts s'.module := by
  unfold recordCompared at h
  split at h
  · obtain ⟨-, rfl⟩ := does_pure.mp h
    exact ⟨hs, .refl _⟩
  obtain ⟨provenance, s₁, hquery, h⟩ := does_bind.mp h
  obtain ⟨-, rfl⟩ := does_query.mp hquery
  split at h
  · obtain ⟨u, s₂, hattach, h⟩ := does_bind.mp h
    obtain ⟨-, rfl⟩ := does_pure.mp h
    obtain ⟨f₁, f', hid₁, hdoes, rfl⟩ := does_inFunction.mp hattach
    obtain rfl := Except.ok.inj (hid.symm.trans hid₁)
    obtain ⟨hf', hinsts⟩ := Edit.ordered_attach hdoes (hs.function hid) hi
    exact ⟨hs.setFunction hf', (SameInsts.refl _).setFunction hid hinsts⟩
  · obtain ⟨u, s₂, hreport, h⟩ := does_bind.mp h
    obtain ⟨-, rfl⟩ := does_pure.mp h
    rw [module_of_report hreport]
    exact ⟨hs, .refl _⟩

theorem keepsOrder_halveCompare (config : Config) (id : FuncId) (width : Nat) (i : InstId) :
    (halveCompare config id width i).KeepsOrder config.limits.maxFanOut := by
  intro s done s' h hs
  obtain ⟨inst, s₁, hquery, h⟩ := does_bind.mp h
  obtain ⟨hinst, rfl⟩ := does_query.mp hquery
  obtain ⟨f, hid, hinst⟩ := Checked.bind_eq_ok.mp hinst
  have hi := Function.index_lt_of_inst hinst
  split at h
  · obtain ⟨-, rfl⟩ := does_pure.mp h
    exact hs
  next pred lhs rhs _ =>
  -- What follows once the comparison has been recorded or not.
  have hrest : ∀ {recorded : Bool} {s₂ : PassState},
      s₂.module.Ordered config.limits.maxFanOut → s.module.SameInsts s₂.module →
      (if (recorded && config.convert != .all) = true then pure { recorded }
        else if (config.convert == .none || decide (width ≤ 8)) = true then pure { recorded }
        else do
          let name := (← query (·.function id)).name
          debug ("splitting " ++ toString width ++ "-bit " ++ pred.mnemonic ++ " in " ++ name)
          Pass.inFunction id (Edit.halve width i pred lhs rhs)
          pure { recorded, halved := !inst.split } : Pass Halving).Does s₂ done s' →
      s'.module.Ordered config.limits.maxFanOut := by
    intro recorded s₂ hs₂ hsame h
    split at h
    · obtain ⟨-, rfl⟩ := does_pure.mp h
      exact hs₂
    split at h
    · obtain ⟨-, rfl⟩ := does_pure.mp h
      exact hs₂
    obtain ⟨g, s₃, hquery, h⟩ := does_bind.mp h
    obtain ⟨-, rfl⟩ := does_query.mp hquery
    obtain ⟨u, s₄, hreport, h⟩ := does_bind.mp h
    obtain ⟨v, s₅, hhalve, h⟩ := does_bind.mp h
    obtain ⟨-, rfl⟩ := does_pure.mp h
    obtain ⟨f₂, f', hid₂, hdoes, rfl⟩ := does_inFunction.mp hhalve
    rw [module_of_report hreport] at hid₂
    obtain ⟨f₁, hf₁, hinsts⟩ := hsame id f hid
    obtain rfl := Except.ok.inj (hid₂.symm.trans hf₁)
    have hf' := Edit.ordered_halve hdoes (hs₂.function hid₂) (hinsts ▸ hi)
    exact (module_of_report hreport ▸ hs₂ : s₄.module.Ordered _).setFunction hf'
  dsimp only at h
  split at h
  · obtain ⟨recorded, s₂, hrecord, h⟩ := does_bind.mp h
    obtain ⟨hs₂, hsame⟩ := ordered_recordCompared hrecord hs hid hi
    exact hrest hs₂ hsame h
  · obtain ⟨recorded, s₂, hpure, h⟩ := does_bind.mp h
    obtain ⟨-, rfl⟩ := does_pure.mp hpure
    exact hrest hs (.refl _) h

theorem keepsOrder_halveCompares (config : Config) (width : Nat) (stats : CompareStats)
    (id : FuncId) : (halveCompares config width stats id).KeepsOrder config.limits.maxFanOut := by
  refine .bind (respects_query _).keepsOrder fun sites => .foldlM (fun stats site => ?_) _ stats
  exact .bind (keepsOrder_halveCompare config id width site.1) fun _ => keepsOrder_pure _

theorem keepsOrder_splitCompares (config : Config) :
    (splitCompares config).KeepsOrder config.limits.maxFanOut := by
  refine .bind respects_functionIds.keepsOrder fun ids => ?_
  refine .bind (Respects.forM respects_checkWidths ids).keepsOrder fun _ => ?_
  have hrest : ∀ stats : CompareStats, (do
      let stats ← [64, 32, 16, 8].foldlM
        (fun stats width => ids.foldlM (halveCompares config width) stats) stats
      reportCompares stats
      return stats : Pass CompareStats).KeepsOrder config.limits.maxFanOut := by
    intro stats
    refine .bind (.foldlM (fun stats width => ?_) _ stats) fun stats => ?_
    · exact .foldlM (keepsOrder_halveCompares config width) ids stats
    · exact .bind (respects_reportCompares stats).keepsOrder fun _ => keepsOrder_pure stats
  dsimp only
  split
  · exact .bind (keepsOrder_pure _) hrest
  · exact .bind (Respects.foldlM respects_normalizeCompares ids _).keepsOrder hrest

/-! ### Strings -/

theorem keepsOrder_recordKeyword (config : Config) (id : FuncId) (call : InstId)
    (keyword : List UInt8) :
    (recordKeyword config id call keyword).KeepsOrder config.limits.maxFanOut := by
  refine .bind (respects_query _).keepsOrder fun provenance => ?_
  split
  · exact keepsOrder_inFunction fun f count f' h hf => (Edit.ordered_attachToResultUsers h hf).1
  · exact .bind (respects_report _).keepsOrder fun _ => keepsOrder_pure 0

theorem keepsOrder_splitString (config : Config) (id : FuncId) (stats : StringStats)
    (site : StringSite) :
    (splitString config id stats site).KeepsOrder config.limits.maxFanOut := by
  have hrest : ∀ stats : StringStats, (do
      if ← wantsUnrolling config id site then
        inFunction id (Edit.unroll site config.limits)
        return stats.count site
      else return stats : Pass StringStats).KeepsOrder config.limits.maxFanOut := by
    intro stats
    refine .bind (respects_wantsUnrolling config id site).keepsOrder fun wants => ?_
    split
    · refine .bind (keepsOrder_inFunction fun f u f' => Edit.ordered_unroll) fun _ => ?_
      exact keepsOrder_pure _
    · exact keepsOrder_pure _
  unfold splitString
  split
  · exact .bind (keepsOrder_recordKeyword config id site.call _) fun recorded => hrest _
  · exact .bind (keepsOrder_pure 0) fun recorded => hrest _

theorem keepsOrder_splitStrings (config : Config) :
    (splitStrings config).KeepsOrder config.limits.maxFanOut := by
  refine .bind respects_functionIds.keepsOrder fun ids => ?_
  refine .bind (.foldlM (fun stats id => ?_) ids _) fun stats => ?_
  · refine .bind (respects_query _).keepsOrder fun found => ?_
    refine .bind (respects_sitesOf found).keepsOrder fun sites => ?_
    exact .foldlM (keepsOrder_splitString config id) sites stats
  · refine .bind (respects_reportCount _ _).keepsOrder fun _ => ?_
    refine .bind (respects_reportCount _ _).keepsOrder fun _ => ?_
    refine .bind (respects_reportCount _ _).keepsOrder fun _ => ?_
    have hreported : (do reportRecorded stats.recorded; return stats : Pass StringStats).KeepsOrder
        config.limits.maxFanOut :=
      .bind (respects_reportRecorded _ _).keepsOrder fun _ => keepsOrder_pure stats
    dsimp only
    split
    · exact .bind (respects_report _).keepsOrder fun _ => hreported
    · exact hreported

/-! ### Probes -/

theorem respects_defineAccessor (name : String) (value : Nat) :
    (defineAccessor name value).Respects (StaysOrdered fanOut) := by
  refine respects_update fun m hm => ?_
  have hreturning : (Function.returning name value).Ordered fanOut :=
    Function.ordered_of_nil fun _ => rfl
  dsimp only
  split
  · exact hm.setFunction hreturning
  · exact hm.addFunction hreturning

end Pass

/-! ## The whole way -/

namespace Pipeline

/-- A state in which a module is when a stage is done. Selections are lowered only where comparisons
are taken apart. -/
inductive After (config : Config) (drawn : UInt64) (m : Module) : Stage → PassState → Prop
  | input : After config drawn m .input { module := m }
  | harvesting {s s' : PassState} {stats : HarvestStats} : After config drawn m .input s →
      (Pass.harvest config).Does s stats s' → After config drawn m .harvesting s'
  | selects {s s' : PassState} {count : Nat} : config.convert ≠ .none →
      After config drawn m .harvesting s → Pass.lowerSelects.Does s count s' →
      After config drawn m .selects s'
  | compares {s s' : PassState} {stats : CompareStats} :
      After config drawn m (if config.convert = .none then .harvesting else .selects) s →
      (Pass.splitCompares config).Does s stats s' → After config drawn m .compares s'
  | strings {s s' : PassState} {stats : StringStats} : After config drawn m .compares s →
      (Pass.splitStrings config).Does s stats s' → After config drawn m .strings s'
  | edges {s s' : PassState} {report : InstrumentReport} : After config drawn m .strings s →
      (Pass.instrumentEdges config drawn).Does s report s' → After config drawn m .edges s'

variable {config : Config} {drawn : UInt64} {m : Module}

theorem After.ordered (hm : m.Ordered config.limits.maxFanOut) {stage : Stage} {s : PassState}
    (h : After config drawn m stage s) : s.module.Ordered config.limits.maxFanOut := by
  induction h with
  | input => exact hm
  | harvesting _ hdoes ih => exact Pass.keepsOrder_harvest config _ _ _ hdoes ih
  | selects _ _ hdoes ih => exact Pass.respects_lowerSelects.keepsOrder _ _ _ hdoes ih
  | compares _ hdoes ih => exact Pass.keepsOrder_splitCompares config _ _ _ hdoes ih
  | strings _ hdoes ih => exact Pass.keepsOrder_splitStrings config _ _ _ hdoes ih
  | edges _ hdoes ih =>
    have hpass := Pass.respects_instrumentEdges config drawn
      fun name _ value => (Pass.respects_defineAccessor name value :
        (Pass.defineAccessor name value).Respects (Module.StaysOrdered config.limits.maxFanOut))
    exact hpass.keepsOrder _ _ _ hdoes ih

/-! ### What a run comes to -/

section

variable {place : Place} {stage : Stage} {r : Except Refusal α} {s s' : PassState}

/-- A pass is done, and the run goes on, or it is refused, and the run ends there. -/
theorem runPass_bind {pass : Pass β} {k : β → Pipeline α}
    (h : (runPass place pass >>= k) s = .ok (r, s')) :
    (∃ b s₁, pass.Does s b s₁ ∧ k b s₁ = .ok (r, s')) ∨
      ∃ cause, pass s = .ok (.error cause, s') ∧ r = .error ⟨place, cause⟩ := by
  obtain ⟨⟨first, s₁⟩, hfirst, h⟩ := Checked.bind_eq_ok.mp h
  obtain ⟨⟨result, s₂⟩, hpass, hmap⟩ := Checked.map_eq_ok.mp hfirst
  cases result with
  | ok b =>
    obtain ⟨rfl, rfl⟩ := Prod.mk.inj hmap
    exact .inl ⟨b, s₂, hpass, h⟩
  | error cause =>
    obtain ⟨rfl, rfl⟩ := Prod.mk.inj hmap
    obtain ⟨rfl, rfl⟩ := Prod.mk.inj (Checked.pure_eq_ok.mp h)
    exact .inr ⟨cause, hpass, rfl⟩

theorem state_of_query {question : Module → Checked β} {result : Except Fatal β}
    (h : Pass.query question s = .ok (result, s')) : s' = s := by
  obtain ⟨⟨answer, s₁⟩, hanswer, h⟩ := Checked.bind_eq_ok.mp h
  obtain ⟨b, -, hpair⟩ := Checked.bind_eq_ok.mp hanswer
  obtain ⟨-, rfl⟩ := Prod.mk.inj (Checked.pure_eq_ok.mp hpair)
  exact (Prod.mk.inj (Checked.pure_eq_ok.mp h)).2.symm

theorem state_of_verifyModule {result : Except Fatal Unit} (h : verifyModule s = .ok (result, s')) :
    s' = s := by
  obtain ⟨⟨verdict, s₁⟩, hquery, h⟩ := Checked.bind_eq_ok.mp h
  obtain rfl := state_of_query hquery
  cases verdict with
  | error cause => exact (Prod.mk.inj (Checked.pure_eq_ok.mp h)).2.symm
  | ok verdict => cases verdict <;> exact (Prod.mk.inj (Except.ok.inj h)).2.symm

/-- A check leaves everything as it is. -/
theorem check_bind {k : Unit → Pipeline α} (h : (check stage >>= k) s = .ok (r, s')) :
    k () s = .ok (r, s') ∨ s' = s ∧ ∃ cause, r = .error ⟨.after stage, cause⟩ := by
  obtain ⟨u, s₁, hdoes, h⟩ | ⟨cause, herror, rfl⟩ := runPass_bind h
  · rw [state_of_verifyModule hdoes] at h
    exact .inl h
  · exact .inr ⟨state_of_verifyModule herror, cause, rfl⟩

/-- A stage is done and the run goes on, or the module is not valid after it, or the stage itself is
refused. -/
theorem stage_bind {pass : Pass β} {k : β → Pipeline α}
    (h : (do
      let b ← runPass (.within stage) pass
      check stage
      k b : Pipeline α) s = .ok (r, s')) :
    (∃ b s₁, pass.Does s b s₁ ∧ k b s₁ = .ok (r, s')) ∨
      (∃ b cause, pass.Does s b s' ∧ r = .error ⟨.after stage, cause⟩) ∨
      ∃ cause, r = .error ⟨.within stage, cause⟩ := by
  obtain ⟨b, s₁, hdoes, h⟩ | ⟨cause, -, rfl⟩ := runPass_bind h
  · obtain h | ⟨rfl, cause, rfl⟩ := check_bind h
    · exact .inl ⟨b, s₁, hdoes, h⟩
    · exact .inr (.inl ⟨b, cause, hdoes, rfl⟩)
  · exact .inr (.inr ⟨cause, rfl⟩)

/-- The module that a run leaves behind, if it comes to an end or finds it invalid, is the one that
the last stage left. -/
structure LeftBy (config : Config) (drawn : UInt64) (m : Module)
    (result : Except Refusal BuildArtifacts) (s : PassState) : Prop where
  done : ∀ artifacts, result = .ok artifacts →
    ∃ s₁, After config drawn m .edges s₁ ∧ s.module = s₁.module
  refused : ∀ stage cause, result = .error ⟨.after stage, cause⟩ → After config drawn m stage s

variable {result : Except Refusal BuildArtifacts} {cause : Fatal}

/-- How a run ends: with what the last stage reports, with a module that is found invalid, or with a
refusal. -/
inductive EndsWith (config : Config) (drawn : UInt64) (m : Module) :
    Except Refusal BuildArtifacts → PassState → Prop
  | done {s₁ s₂ s : PassState} {report : InstrumentReport} {artifacts : BuildArtifacts} :
      After config drawn m .strings s₁ → (Pass.instrumentEdges config drawn).Does s₁ report s₂ →
      s.module = s₂.module → artifacts.dictionary = report.dictionary →
      EndsWith config drawn m (.ok artifacts) s
  | invalid {stage : Stage} {s : PassState} {cause : Fatal} : After config drawn m stage s →
      EndsWith config drawn m (.error ⟨.after stage, cause⟩) s
  | refused {place : Place} {s : PassState} {cause : Fatal} : (∀ stage, place ≠ .after stage) →
      EndsWith config drawn m (.error ⟨place, cause⟩) s

theorem endsWith_of_run (h : run config drawn { module := m } = .ok (result, s)) :
    EndsWith config drawn m result s := by
  obtain ⟨u, s₁, hsettings, h⟩ | ⟨cause, -, rfl⟩ := runPass_bind h
  case inr => exact .refused nofun
  have hs₁ : s₁ = { module := m } := by
    unfold checkSettings at hsettings
    split at hsettings
    · exact (Pass.does_pure.mp hsettings).2.symm
    · exact absurd hsettings Pass.not_does_throw
  subst hs₁
  obtain h | ⟨rfl, cause, rfl⟩ := check_bind h
  case inr => exact .invalid .input
  obtain ⟨harvest, s₁, hharvest, h⟩ | ⟨_, cause, hharvest, rfl⟩ | ⟨cause, rfl⟩ := stage_bind h
  case inr.inl => exact .invalid (.harvesting .input hharvest)
  case inr.inr => exact .refused nofun
  have hs₁ : After config drawn m .harvesting s₁ := .harvesting .input hharvest
  -- What follows the selections.
  have hrest : ∀ {selects : Nat} {s₂ : PassState},
      After config drawn m (if config.convert = .none then .harvesting else .selects) s₂ → (do
        let compares ← runPass (.within .compares) (Pass.splitCompares config)
        check .compares
        let strings ← runPass (.within .strings) (Pass.splitStrings config)
        check .strings
        let report ← runPass (.within .edges) (Pass.instrumentEdges config drawn)
        check .edges
        let name := (← get).module.name
        runPass .settings (Pass.report (doneRecord name report.dictionary report.buildId))
        return {
          mapSize := report.areaSize
          blockCount := report.blockCount
          buildId := report.buildId
          buildType := config.buildType
          dictType := config.dictType
          counter := config.counter
          dictionary := report.dictionary
          sourceMap := report.sourceMap
          stats := { harvest, selects, compares, strings, probes := report.probes } }
        : Pipeline BuildArtifacts) s₂ = .ok (result, s) → EndsWith config drawn m result s := by
    intro selects s₂ hs₂ h
    obtain ⟨compares, s₃, hcompares, h⟩ | ⟨_, cause, hcompares, rfl⟩ | ⟨cause, rfl⟩ := stage_bind h
    case inr.inl => exact .invalid (.compares hs₂ hcompares)
    case inr.inr => exact .refused nofun
    have hs₃ : After config drawn m .compares s₃ := .compares hs₂ hcompares
    obtain ⟨strings, s₄, hstrings, h⟩ | ⟨_, cause, hstrings, rfl⟩ | ⟨cause, rfl⟩ := stage_bind h
    case inr.inl => exact .invalid (.strings hs₃ hstrings)
    case inr.inr => exact .refused nofun
    have hs₄ : After config drawn m .strings s₄ := .strings hs₃ hstrings
    obtain ⟨report, s₅, hedges, h⟩ | ⟨_, cause, hedges, rfl⟩ | ⟨cause, rfl⟩ := stage_bind h
    case inr.inl => exact .invalid (.edges hs₄ hedges)
    case inr.inr => exact .refused nofun
    obtain ⟨rfl, rfl⟩ := Prod.mk.inj (Except.ok.inj h)
    exact .done hs₄ hedges rfl rfl
  unfold lowerSelects at h
  by_cases hnone : config.convert = .none
  · rw [if_pos (beq_iff_eq.mpr hnone), pure_bind] at h
    refine hrest ?_ h
    rwa [if_pos hnone]
  · rw [if_neg (by simpa using hnone)] at h
    simp only [bind_assoc, pure_bind] at h
    obtain ⟨count, s₂, hselects, h⟩ | ⟨_, cause, hselects, rfl⟩ | ⟨cause, rfl⟩ := stage_bind h
    case inr.inl => exact .invalid (.selects hnone hs₁ hselects)
    case inr.inr => exact .refused nofun
    refine hrest ?_ h
    rw [if_neg hnone]
    exact .selects hnone hs₁ hselects

theorem leftBy_of_run (h : run config drawn { module := m } = .ok (result, s)) :
    LeftBy config drawn m result s := by
  cases endsWith_of_run h with
  | done hs hedges hmodule _ =>
    exact ⟨fun _ _ => ⟨_, .edges hs hedges, hmodule⟩, fun _ _ heq => nomatch heq⟩
  | invalid hs =>
    refine ⟨nofun, fun stage' _ heq => ?_⟩
    obtain rfl := Place.after.inj (congrArg Refusal.place (Except.error.inj heq))
    exact hs
  | refused hplace =>
    exact ⟨nofun, fun stage _ heq =>
      absurd (congrArg Refusal.place (Except.error.inj heq)) (hplace stage)⟩

end

/-- Along the whole way of a module that starts without tokens, no instruction has two tokens of one
class without a slot, and those with a slot are numbered from zero in the order of the list. What a
run leaves behind is the module as it is after the last stage. -/
theorem tokens_disciplined (config : Config) (drawn : UInt64) (m : Module)
    (hempty : ∀ f ∈ m.functions, f.annotations.isEmpty = true) :
    (∀ stage s, After config drawn m stage s → ∀ f ∈ s.module.functions, ∀ i,
      Token.Disciplined config.limits.maxFanOut (f.annotations.get i) ∧
      ((f.annotations.get i).map fun t => (t.origin.tagClass, t.slot)).Nodup) ∧
    ∀ result s, run config drawn { module := m } = .ok (result, s) →
      LeftBy config drawn m result s := by
  refine ⟨fun stage s h f hf i => ?_, fun result s => leftBy_of_run⟩
  have hm : m.Ordered config.limits.maxFanOut :=
    fun f hf => Function.ordered_of_isEmpty (hempty f hf)
  have htokens := (h.ordered hm f hf).tokens i
  exact ⟨htokens, htokens.distinct⟩

end Pipeline

/-! ### Two words and a number -/

/-- Passes two words on, and asks whether a number is a certain one. -/
def Function.passing : Function where
  name := "pass"
  params := [.i32]
  ret := .i1
  blocks := #[⟨"entry", [⟨0⟩, ⟨1⟩], .ret (some (.inst ⟨1⟩))⟩]
  layout := [⟨0⟩]
  insts := #[
    { kind := .call (.direct ⟨0⟩) [.global ⟨0⟩, .global ⟨1⟩] .i32, block := some ⟨0⟩ },
    { kind := .icmp .eq (.arg 0) (.ofWord 32 0x12345678), block := some ⟨0⟩ }]

def Module.passing : Module where
  name := "passing"
  globals := #[
    { name := "key", constant := true, contents := some (.bytes [104, 111, 109, 101, 0]) },
    { name := "value", constant := true, contents := some (.bytes [112, 97, 116, 104, 0]) }]
  functions := #[.declare "take" [.ptr, .ptr] .i32, .passing]

/-- All passes, one after the other. -/
def Pass.inARow (config : Config) (drawn : UInt64) : Pass InstrumentReport := do
  let _ ← harvest config
  let _ ← lowerSelects
  let _ ← splitCompares config
  let _ ← splitStrings config
  instrumentEdges config drawn

/-- The words share the call, each in a slot of its own, and the number ends up at the comparison of
the uppermost bytes. -/
theorem Pipeline.passing_tokens_disciplined : ∃ s f,
    After (.coverage .all) 0 .passing .edges s ∧ s.module.functions[1]? = some f ∧
    (f.annotations.toList.map fun entry => (entry.1.index, entry.2.slot)) =
      [(0, some 0), (0, some 1), (14, none)] ∧
    ∀ i, Token.Disciplined 20 (f.annotations.get i) ∧
      ((f.annotations.get i).map fun t => (t.origin.tagClass, t.slot)).Nodup := by
  have hrun : ((Pass.completed? ((Pass.inARow (.coverage .all) 0).runOn .passing)).bind
      fun r => r.2.module.functions[1]?).map
        (fun f => f.annotations.toList.map fun entry => (entry.1.index, entry.2.slot)) =
      some [(0, some 0), (0, some 1), (14, none)] := by decide +kernel
  obtain ⟨f, hf, hslots⟩ := Option.map_eq_some_iff.mp hrun
  obtain ⟨⟨report, s⟩, hcompleted, hf⟩ := Option.bind_eq_some_iff.mp hf
  obtain ⟨_, s₁, hharvest, hdoes⟩ := Pass.does_bind.mp (Pass.does_of_completed hcompleted)
  obtain ⟨_, s₂, hselects, hdoes⟩ := Pass.does_bind.mp hdoes
  obtain ⟨_, s₃, hcompares, hdoes⟩ := Pass.does_bind.mp hdoes
  obtain ⟨_, s₄, hstrings, hedges⟩ := Pass.does_bind.mp hdoes
  have hafter : After (.coverage .all) 0 .passing .edges s :=
    .edges (.strings (.compares (.selects nofun (.harvesting .input hharvest) hselects) hcompares)
      hstrings) hedges
  refine ⟨s, f, hafter, hf, hslots, fun i => ?_⟩
  exact (tokens_disciplined (.coverage .all) 0 .passing (by decide)).1 _ _ hafter f
    (Array.mem_of_getElem? hf) i

end EdgeProbe

/-! ## Recording changes no code -/

namespace EdgeProbe

/-- The functions differ in their tokens at most. -/
def Function.SameCode (f f' : Function) : Prop :=
  f'.withoutTokens = f.withoutTokens

instance : Function.OfRuns Function.SameCode where
  refl _ := rfl
  trans h h' := h'.trans h

instance : Function.OfTokens Function.SameCode where
  annotations _ _ := rfl

/-- The modules differ in the tokens of their functions at most. -/
def Module.SameCode (m m' : Module) : Prop :=
  m'.withoutTokens = m.withoutTokens

instance : Module.OfEdits Function.SameCode Module.SameCode where
  refl _ := rfl
  trans h h' := h'.trans h
  setFunction := Module.withoutTokens_setFunction

theorem Finding.ofLiteral_of_planned {limits : Limits} {found : List Finding} {l : Literal} {token : Token}
    (h : (l, token) ∈ found.flatMap (Finding.planned limits)) : token.OfLiteral limits := by
  obtain ⟨x, -, h⟩ := List.mem_flatMap.mp h
  cases x with
  | remark record => cases h
  | literal l' =>
    obtain ⟨token', htoken, heq⟩ := Option.map_eq_some_iff.mp (Option.mem_toList.mp h)
    obtain ⟨-, rfl⟩ := Prod.mk.inj heq
    exact Token.ofLiteral_of_ofBytes? htoken

namespace Pass

variable {R : Function → Function → Prop} {Q : Module → Module → Prop} {config : Config}
  [hQ : Module.OfEdits R Q]
include hQ

/-! ## Harvesting -/

theorem respects_reportAll (records : List Log.Record) : (reportAll records).Respects Q := by
  intro s r s' h
  obtain ⟨-, rfl⟩ := Prod.mk.inj (Except.ok.inj h)
  exact Module.OfEdits.refl s.module

section

variable [Function.OfRuns R]

theorem respects_harvestWith (limits : Limits) [Function.OfLiterals limits R]
    (findAt : Module → FuncId → Function → InstId → Checked (List Finding)) :
    (harvestWith limits findAt).Respects Q := by
  refine .bind (respects_query _) fun found => .bind (respects_reportAll _) fun _ => ?_
  refine .foldlM_mem (fun sum literal hliteral => .bind ?_ fun count => respects_pure _) 0
  have hattach := Edit.respects_attach_of_literal (R := R) (Finding.ofLiteral_of_planned hliteral)
  exact respects_inFunction _ (Edit.respects_attachLiteral hattach literal.1)

theorem respects_harvest (config : Config) [Function.OfLiterals config.limits R] :
    (harvest config).Respects Q := by
  refine .bind (respects_harvestWith _ _) fun arrays => ?_
  refine .bind (respects_harvestWith _ _) fun stores => ?_
  refine .bind (respects_harvestWith _ _) fun structFields => ?_
  refine .bind (respects_harvestWith _ _) fun callStrings => ?_
  exact .bind (respects_reportRecorded _ _) fun _ => respects_pure _

end

variable [Function.OfTokens R]

/-! ## Comparisons that shall stay whole -/

theorem respects_halveCompare_of_none (hnone : config.convert = .none) (function : FuncId)
    (width : Nat) (id : InstId) : (halveCompare config function width id).Respects Q := by
  refine .bind (respects_query _) fun inst => ?_
  split
  · exact respects_pure _
  · refine .join (respects_recordCompared config function id _ _) (respects_pure false)
      fun recorded => ?_
    rw [hnone]
    dsimp only
    split <;> exact respects_pure _

theorem respects_splitCompares_of_none (hnone : config.convert = .none) :
    (splitCompares config).Respects Q := by
  refine .bind respects_functionIds fun ids => .bind (.forM respects_checkWidths ids) fun _ => ?_
  rw [hnone]
  refine .bind (respects_pure _) fun stats => ?_
  refine .bind (.foldlM (fun stats width => .foldlM (fun stats function => ?_) ids stats) _ stats)
    fun stats => .bind (respects_reportCompares stats) fun _ => respects_pure stats
  refine .bind (respects_query _) fun sites => .foldlM (fun stats site => ?_) _ stats
  exact .bind (respects_halveCompare_of_none hnone function width site.1) fun _ => respects_pure _

variable [Function.OfRuns R]

theorem respects_splitString_of_none (hnone : config.convert = .none) (function : FuncId)
    (stats : StringStats) (site : StringSite) :
    (splitString config function stats site).Respects Q := by
  have hwants : wantsUnrolling config function site = pure false := by
    rw [wantsUnrolling, hnone]
  simp only [splitString, hwants, pure_bind, Bool.false_eq_true, if_false]
  split
  · exact .bind (respects_recordKeyword config function site.call _) fun _ => respects_pure _
  · exact respects_pure _

theorem respects_splitStrings_of_none (hnone : config.convert = .none) :
    (splitStrings config).Respects Q := by
  refine .bind respects_functionIds fun ids => ?_
  refine .bind (.foldlM (fun stats function => ?_) ids _) fun stats => ?_
  · refine .bind (respects_query _) fun found => .bind (respects_sitesOf found) fun sites => ?_
    exact .foldlM (respects_splitString_of_none hnone function) sites stats
  refine .bind (respects_reportCount _ _) fun _ => .bind (respects_reportCount _ _) fun _ => ?_
  refine .bind (respects_reportCount _ _) fun _ => .optional (respects_report _) fun _ => ?_
  exact .bind (respects_reportRecorded _ _) fun _ => respects_pure stats

end Pass

/-- Harvesting leaves the code of a module as it is, whatever it comes to. If the settings say that
no comparison shall be taken apart, so do the passes for integers and for strings, and a run comes
to the instrumentation of edges with the code that it began with. -/
theorem Module.code_kept (config : Config) (m : Module) :
    (∀ log r s, Pass.harvest config ⟨m, log⟩ = .ok (r, s) → m.SameCode s.module) ∧
    (config.convert = .none →
      (∀ log r s, Pass.splitCompares config ⟨m, log⟩ = .ok (r, s) → m.SameCode s.module) ∧
      (∀ log r s, Pass.splitStrings config ⟨m, log⟩ = .ok (r, s) → m.SameCode s.module) ∧
      ∀ drawn s, Pipeline.After config drawn m .strings s → m.SameCode s.module) := by
  refine ⟨fun log r s => Pass.respects_harvest config _ r s, fun hnone => ?_⟩
  refine ⟨fun log r s => Pass.respects_splitCompares_of_none hnone _ r s,
    fun log r s => Pass.respects_splitStrings_of_none hnone _ r s, ?_⟩
  rintro drawn s (_ | _ | _ | _ | ⟨hcompares, hstrings⟩)
  obtain ⟨⟩ | ⟨⟩ | ⟨⟩ | ⟨hharvest, hcompares⟩ := hcompares
  rw [if_pos hnone] at hharvest
  obtain ⟨⟩ | ⟨hinput, hharvest⟩ := hharvest
  cases hinput
  have hfirst : Module.SameCode m _ := Pass.respects_harvest config _ _ _ hharvest
  have hsecond : Module.SameCode _ _ := Pass.respects_splitCompares_of_none hnone _ _ _ hcompares
  have hthird : Module.SameCode _ _ := Pass.respects_splitStrings_of_none hnone _ _ _ hstrings
  exact (Eq.trans hthird hsecond).trans hfirst

end EdgeProbe
