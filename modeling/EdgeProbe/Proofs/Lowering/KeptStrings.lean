import EdgeProbe.Proofs.Lowering.Settled

/-!
# What becomes of compared strings

The constant side of a call becomes a token of whatever asks for the result. Where all comparisons
are taken apart, it goes on from there to the first difference, where nothing takes it away again.
Elsewhere it stays, unless the same instruction asks for the result of a later call: of two strings
an instruction keeps the later one. Main statement: `Module.Accepted.strings_kept`.
-/

namespace EdgeProbe

/-- The constant side of a call as a token has it, if it has the length of one. -/
def StringSite.value? (site : StringSite) (limits : Limits) : Option String :=
  site.keyword.bind (Token.encode? limits true)

namespace Function

/-- An instruction carries a compared string. -/
def Carries (f : Function) (i : InstId) (value : String) : Prop :=
  ∃ token ∈ f.annotations.get i, token.origin = .comparedString ∧ token.value = value

/-- A live instruction that is new carries a compared string. -/
def Shelters (f₀ f : Function) (value : String) : Prop :=
  ∃ i, f₀.insts.size ≤ i.index ∧ i.index < f.insts.size ∧ f.Live i ∧ f.Carries i value

/-- What has become of the constant side of a call, one of those that have had their turn. -/
structure Kept (config : Config) (done : List StringSite) (f₀ f : Function) (site : StringSite)
    (value : String) : Prop where
  sheltered : config.convert = .all → (∃ i, f₀.Asks site.call i) → f₀.Shelters f value
  attached : config.convert ≠ .all → ∀ i, f₀.Asks site.call i → f.Carries i value ∨
    ∃ later value', [site, later].Sublist done ∧ later.value? config.limits = some value' ∧
      f₀.Asks later.call i ∧ f.Carries i value'

variable {config : Config} {done rest sites : List StringSite} {f₀ f f₁ f' : Function}
  {site site' : StringSite} {value : String} {m : Module} {id : FuncId}

/-- A string is kept if what another call makes of it is another string of that call. -/
theorem Kept.step (h : f₀.Kept config done f site' value) (hmem : site' ∈ done)
    (hall : config.convert = .all → ∀ v, f₀.Shelters f v → f₀.Shelters f' v)
    (hsome : config.convert ≠ .all → ∀ i v, f.Carries i v → f'.Carries i v ∨
      ∃ value, site.value? config.limits = some value ∧ f₀.Asks site.call i ∧ f'.Carries i value) :
    f₀.Kept config (done ++ [site]) f' site' value where
  sheltered hconvert hasks := hall hconvert _ (h.sheltered hconvert hasks)
  attached hconvert i hi := by
    have hlast : [site', site].Sublist (done ++ [site]) :=
      (List.singleton_sublist.mpr hmem).append (.refl [site])
    obtain hcarries | ⟨later, value', hsub, hvalue, hasks, hcarries⟩ := h.attached hconvert i hi
    · obtain hcarries | ⟨value', hvalue, hasks, hcarries⟩ := hsome hconvert i _ hcarries
      · exact .inl hcarries
      · exact .inr ⟨site, value', hlast, hvalue, hasks, hcarries⟩
    · obtain hcarries | ⟨value', hvalue, hasks, hcarries⟩ := hsome hconvert i _ hcarries
      · exact .inr ⟨later, value', hsub.trans (List.sublist_append_left _ _), hvalue, hasks, hcarries⟩
      · exact .inr ⟨site, value', hlast, hvalue, hasks, hcarries⟩

/-- What a function has become in the course of the loop over the calls that were found in it, with
those that are still to come. -/
structure Keeping (m : Module) (config : Config) (id : FuncId) (sites : List StringSite)
    (f₀ : Function) (rest : List StringSite) (f : Function) : Prop where
  unrolling : f₀.Unrolling m config.limits id (rest.map StringSite.call) f
  readers : f₀.SameReaders f
  nodup : (rest.map StringSite.call).Nodup
  kept : ∃ done, sites = done ++ rest ∧ ∀ site ∈ done, ∀ value,
    site.value? config.limits = some value → f₀.Kept config done f site value

namespace Keeping

theorem next (h : f₀.Keeping m config id sites (site :: rest) f)
    (hunrolling : f₀.Unrolling m config.limits id (rest.map StringSite.call) f')
    (hreaders : f₀.SameReaders f')
    (hall : config.convert = .all → ∀ v, f₀.Shelters f v → f₀.Shelters f' v)
    (hsome : config.convert ≠ .all → ∀ i v, f.Carries i v → f'.Carries i v ∨
      ∃ value, site.value? config.limits = some value ∧ f₀.Asks site.call i ∧ f'.Carries i value)
    (hown : ∀ done value, site.value? config.limits = some value →
      f₀.Kept config done f' site value) : f₀.Keeping m config id sites rest f' where
  unrolling := hunrolling
  readers := hreaders
  nodup := (List.nodup_cons.mp h.nodup).2
  kept := by
    obtain ⟨done, rfl, hkept⟩ := h.kept
    refine ⟨done ++ [site], by simp, fun site' hmem value hvalue => ?_⟩
    obtain hmem | hmem := List.mem_append.mp hmem
    · exact (hkept site' hmem value hvalue).step hmem hall hsome
    · obtain rfl := List.mem_singleton.mp hmem
      exact hown _ value hvalue

variable (h : f₀.Keeping m config id sites (site :: rest) f)
  (hsites : m.Collects f₀ config.limits sites)
include h hsites

theorem inspect : m.inspect f₀ config.limits site.call = .ok (.site site) ∧
    ∃ b pos, f₀.Listed site.call b pos := by
  obtain ⟨done, rfl, -⟩ := h.kept
  exact hsites.inspect (List.mem_append_right _ List.mem_cons_self)

theorem asks (i : InstId) : f.Asks site.call i ↔ f₀.Asks site.call i := by
  obtain ⟨-, target, g, args, ret, first, second, limit, hfound⟩ :=
    Module.inspect_eq_site (h.inspect hsites).1
  exact h.readers.asks site.call i (index_lt_of_kind hfound.kind)

theorem not_asks {i : InstId} (hi : f₀.insts.size ≤ i.index) : ¬f.Asks site.call i := by
  intro hasks
  obtain ⟨kind, hkind, -⟩ := ((h.asks hsites i).mp hasks).operand
  exact absurd (index_lt_of_kind hkind) (Nat.not_lt.mpr hi)

omit hsites in
theorem site_listed : ∃ b pos kind, kind.isPhi = false ∧ f.kind site.call = .ok kind ∧
    f.Listed site.call b pos := by
  obtain ⟨b, pos, hlisted⟩ := h.unrolling.listed site.call List.mem_cons_self
  obtain ⟨kind, hphi, -, hkind⟩ := h.unrolling.kinds site.call List.mem_cons_self
  exact ⟨b, pos, kind, hphi, hkind, hlisted⟩

omit hsites in
/-- Nothing has to be done about a call without a constant side that has the length of a token. -/
theorem skip (hvalue : site.value? config.limits = none) :
    f₀.Keeping m config id sites rest f :=
  h.next h.unrolling.weaken h.readers (fun _ _ h => h) (fun _ _ _ => .inl)
    fun _ value hsome => by cases hvalue.symm.trans hsome

variable {token : Token} {count : Nat} (horigin : token.origin = .comparedString)
  (hattach : (Edit.attachToResultUsers site.call token config.limits).Does f count f₁)
include horigin hattach

/-- What is new does not ask for the result of a call, so that nothing is attached to it. -/
theorem shelters_attach (hshelters : f₀.Shelters f value) : f₀.Shelters f₁ value := by
  obtain ⟨hrecorded, hothers⟩ := Edit.attachToResultUsers_records horigin hattach
  obtain ⟨annotations, rfl, -⟩ := Edit.attachToResultUsers_does hattach
  obtain ⟨i, hnew, hlt, hlive, token, htoken, hcarried⟩ := hshelters
  have hsame := hothers i (h.not_asks hsites hnew)
  exact ⟨i, hnew, hlt, (retains_withAnnotations f annotations).live i hlive, token, hsame ▸ htoken,
    hcarried⟩

/-- Where comparisons are not all taken apart, the constant side stays where it is attached. -/
theorem record (hconvert : config.convert ≠ .all)
    (hvalue : site.value? config.limits = some token.value) :
    f₀.Keeping m config id sites rest f₁ := by
  obtain ⟨hrecorded, hothers⟩ := Edit.attachToResultUsers_records horigin hattach
  obtain ⟨annotations, rfl, hkeeps⟩ := Edit.attachToResultUsers_does hattach
  have hcarries : ∀ i, f₀.Asks site.call i → Carries { f with annotations } i token.value :=
    fun i hi => ⟨_, hrecorded i ((h.asks hsites i).mpr hi), horigin, rfl⟩
  refine h.next (h.unrolling.withAnnotations hkeeps).weaken
    (h.readers.trans (.withAnnotations f annotations)) (fun hall => absurd hall hconvert) ?_ ?_
  · rintro - i v ⟨t, ht, hcarried⟩
    by_cases hi : f₀.Asks site.call i
    · exact .inr ⟨token.value, hvalue, hi, hcarries i hi⟩
    · exact .inl ⟨t, (hothers i (mt (h.asks hsites i).mp hi)).symm ▸ ht, hcarried⟩
  · intro done value hsome
    obtain rfl := Option.some.inj (hvalue.symm.trans hsome)
    exact ⟨fun hall => absurd hall hconvert, fun _ i hi => .inl (hcarries i hi)⟩

/-- Where all are, it is about to go on. -/
theorem attach (hconvert : config.convert = .all) :
    f₀.Keeping m config id sites (site :: rest) f₁ := by
  have hshelters : ∀ v, f₀.Shelters f v → f₀.Shelters f₁ v :=
    fun v => h.shelters_attach hsites horigin hattach
  obtain ⟨annotations, rfl, hkeeps⟩ := Edit.attachToResultUsers_does hattach
  refine ⟨h.unrolling.withAnnotations hkeeps, h.readers.trans (.withAnnotations f annotations),
    h.nodup, ?_⟩
  obtain ⟨done, rfl, hkept⟩ := h.kept
  refine ⟨done, rfl, fun site' hmem value hvalue => ?_⟩
  exact ⟨fun _ hasks => hshelters _ ((hkept site' hmem value hvalue).sheltered hconvert hasks),
    fun hne => absurd hconvert hne⟩

omit horigin hattach

variable {u : Unit} (hunroll : (Edit.unroll site config.limits).Does f u f')
include hunroll

/-- A call is taken apart, with its constant side or with no string at all. -/
theorem unroll (hid : m.function id = .ok f₀)
    (hall : config.convert = .all → ∀ value, site.value? config.limits = some value →
      (∃ i, f₀.Asks site.call i) → f₀.Shelters f' value)
    (hsome : config.convert ≠ .all → site.value? config.limits = none ∧
      ∀ i, f'.annotations.get i = f.annotations.get i) :
    f₀.Keeping m config id sites rest f' := by
  obtain ⟨hinspect, hlisted₀⟩ := h.inspect hsites
  obtain ⟨annotations, c, join, first, rest', -, hc, hcall, hopened, hunrolls⟩ :=
    h.unrolling.opened hid hinspect hlisted₀ hunroll
  have hreaders := h.readers.trans ((SameReaders.withAnnotations f annotations).trans
    (hunrolls.sameReaders (h.unrolling.tidy.withAnnotations annotations)))
  obtain ⟨b, pos, kind, hphi, hkind, hlisted⟩ := h.site_listed
  have hsize : f.insts.size ≤ f'.insts.size := hopened.sizeInsts
  refine h.next (h.unrolling.unroll hid (List.nodup_cons.mp h.nodup).1 hinspect hlisted₀ hunroll)
    hreaders ?_ ?_ fun done value hvalue => ⟨fun hconvert => hall hconvert value hvalue, ?_⟩
  · rintro - v ⟨i, hnew, hlt, hlive, token, htoken, hcarried⟩
    have hsame := Edit.get_unroll h.unrolling.tidy hlisted hkind hphi hunroll
      (h.not_asks hsites hnew) hlt
    have hretains : f.Retains f' := (Edit.respects_unroll site _).does hunroll
    exact ⟨i, hnew, hlt.trans_le hsize, hretains.live i hlive, token, hsame ▸ htoken, hcarried⟩
  · rintro hconvert i v ⟨token, htoken, hcarried⟩
    exact .inl ⟨token, ((hsome hconvert).2 i).symm ▸ htoken, hcarried⟩
  · intro hconvert
    cases (hsome hconvert).1.symm.trans hvalue

/-- Its constant side, attached right before, is what is taken. -/
theorem shelters_unroll {token : Token} (horigin : token.origin = .comparedString)
    (hslot : token.slot = none)
    (hone : ∀ i, f.Asks site.call i →
      ∀ t ∈ f.annotations.get i, t.isString = true → t = token)
    (hcarries : ∀ i, f.Asks site.call i → token ∈ f.annotations.get i)
    (hasks : ∃ i, f₀.Asks site.call i) : f₀.Shelters f' token.value := by
  obtain ⟨b, pos, kind, hphi, hkind, hlisted⟩ := h.site_listed
  obtain ⟨reader, hreader⟩ := hasks
  have hreader := (h.asks hsites reader).mpr hreader
  obtain ⟨i, hnew, hlt, hlive, htoken⟩ := Edit.unroll_carries h.unrolling.tidy hlisted hkind hphi
    hunroll horigin hslot hone ⟨reader, hreader, hcarries reader hreader⟩
  exact ⟨i, h.readers.size.trans hnew, hlt, hlive, token, htoken, horigin, rfl⟩

end Keeping

end Function

/-! ## The loops of the pass -/

namespace Pass

open EdgeProbe.Function

variable {m m₀ : Module} {config : Config} {id : FuncId} {f f₀ f' : Function} {s s' : PassState}
  {sites rest : List StringSite} {site : StringSite}

/-- What is wanted to be taken apart is so where everything is, or has no constant side and no reader
that carries a string. -/
theorem wantsUnrolling_cases (hid : s.module.function id = .ok f) {wanted : Bool}
    (hdoes : (wantsUnrolling config id site).Does s wanted s') :
    s' = s ∧ if wanted then config.convert ≠ .all →
        site.keyword = none ∧ ∀ i, f.Reads site.call i → ¬f.CarriesString i
      else config.convert ≠ .all := by
  cases hconvert : config.convert with
  | none =>
    unfold wantsUnrolling at hdoes
    rw [hconvert] at hdoes
    obtain ⟨rfl, rfl⟩ := does_pure.mp hdoes
    exact ⟨rfl, by simp⟩
  | all =>
    unfold wantsUnrolling at hdoes
    rw [hconvert] at hdoes
    obtain ⟨rfl, rfl⟩ := does_pure.mp hdoes
    exact ⟨rfl, by simp⟩
  | notDict =>
    obtain ⟨rfl, hdecided⟩ := wantsUnrolling_does hconvert hid hdoes
    refine ⟨rfl, ?_⟩
    cases wanted with
    | true => exact fun _ => hdecided
    | false => simp

/-- A call is taken apart if that is wanted. -/
def unrollWanted (config : Config) (id : FuncId) (site : StringSite) (stats : StringStats) :
    Pass StringStats := do
  if ← wantsUnrolling config id site then
    inFunction id (Edit.unroll site config.limits)
    return stats.count site
  else return stats

section

variable (hid : id.index < m.functions.size) (hid₀ : m₀.function id = .ok f₀)
  (hsites : m₀.Collects f₀ config.limits sites)
  (h : f₀.Keeping m₀ config id sites (site :: rest) f) {stats stats' : StringStats}
include hid hid₀ hsites h

theorem unrollWanted_of_none (hs : s.module = m.setFunction id f)
    (hvalue : site.value? config.limits = none)
    (hdoes : (unrollWanted config id site stats).Does s stats' s') :
    ∃ f', s'.module = m.setFunction id f' ∧ f₀.Keeping m₀ config id sites rest f' := by
  obtain ⟨wanted, s₁, hwanted, hdoes⟩ := does_bind.mp hdoes
  have hid₁ : s.module.function id = .ok f := by rw [hs, Module.function_setFunction hid, if_pos rfl]
  obtain ⟨rfl, hdecided⟩ := wantsUnrolling_cases hid₁ hwanted
  cases wanted with
  | false =>
    obtain ⟨-, rfl⟩ := does_pure.mp hdoes
    exact ⟨f, hs, h.skip hvalue⟩
  | true =>
    obtain ⟨u, s₂, hunroll, hdoes⟩ := does_bind.mp hdoes
    obtain ⟨-, rfl⟩ := does_pure.mp hdoes
    obtain ⟨f', hedit, hs'⟩ := inFunction_setFunction hid hs hunroll
    refine ⟨f', hs', h.unroll hsites hedit hid₀ (fun _ value hsome => ?_) fun hconvert => ?_⟩
    · cases hvalue.symm.trans hsome
    · exact ⟨hvalue, Edit.unroll_annotations (hdecided hconvert).2 hedit⟩

theorem unrollWanted_of_attached {token : Token} {count : Nat} {f₁ : Function}
    (hvalue : site.value? config.limits = some token.value) (horigin : token.origin = .comparedString)
    (hslot : token.slot = none)
    (hattach : (Edit.attachToResultUsers site.call token config.limits).Does f count f₁)
    (hs : s.module = m.setFunction id f₁)
    (hdoes : (unrollWanted config id site stats).Does s stats' s') :
    ∃ f', s'.module = m.setFunction id f' ∧ f₀.Keeping m₀ config id sites rest f' := by
  obtain ⟨wanted, s₁, hwanted, hdoes⟩ := does_bind.mp hdoes
  have hid₁ : s.module.function id = .ok f₁ := by
    rw [hs, Module.function_setFunction hid, if_pos rfl]
  obtain ⟨rfl, hdecided⟩ := wantsUnrolling_cases hid₁ hwanted
  cases wanted with
  | false =>
    obtain ⟨-, rfl⟩ := does_pure.mp hdoes
    exact ⟨f₁, hs, h.record hsites horigin hattach hdecided hvalue⟩
  | true =>
    obtain ⟨u, s₂, hunroll, hdoes⟩ := does_bind.mp hdoes
    obtain ⟨-, rfl⟩ := does_pure.mp hdoes
    obtain ⟨f', hedit, hs'⟩ := inFunction_setFunction hid hs hunroll
    -- A call with a constant side is wanted only where all are.
    have hconvert : config.convert = .all := by
      by_contra hne
      rw [StringSite.value?, (hdecided hne).1] at hvalue
      cases hvalue
    have h₁ := h.attach hsites horigin hattach hconvert
    have hsame : { token with slot := none } = token := by rw [← hslot]
    have hasks : ∀ i, f₁.Asks site.call i → f.Asks site.call i :=
      fun i hi => (h.asks hsites i).mpr ((h₁.asks hsites i).mp hi)
    refine ⟨f', hs', h₁.unroll hsites hedit hid₀ (fun _ value hsome hsomeone => ?_)
      fun hne => absurd hconvert hne⟩
    obtain rfl := Option.some.inj (hvalue.symm.trans hsome)
    refine h₁.shelters_unroll hsites hedit horigin hslot (fun i hi => ?_) (fun i hi => ?_) hsomeone
    · exact hsame ▸ Edit.attachToResultUsers_only horigin hattach (hasks i hi)
    · exact hsame ▸ (Edit.attachToResultUsers_records horigin hattach).1 i (hasks i hi)

/-- One call has its turn. -/
theorem splitString_keeping (hs : s.module = m.setFunction id f)
    (hdoes : (splitString config id stats site).Does s stats' s') :
    ∃ f', s'.module = m.setFunction id f' ∧ f₀.Keeping m₀ config id sites rest f' := by
  unfold splitString at hdoes
  split at hdoes
  · next keyword hkeyword =>
    obtain ⟨recorded, s₁, hrecord, hdoes⟩ := does_bind.mp hdoes
    have hencode : site.value? config.limits = Token.encode? config.limits true keyword := by
      rw [StringSite.value?, hkeyword]
      rfl
    obtain ⟨hnone, hs₁⟩ | ⟨token, f₁, hvalue, horigin, hslot, hattach, hs₁⟩ :=
      recordKeyword_cases hid hs hrecord
    · exact unrollWanted_of_none hid hid₀ hsites h (hs₁.trans hs) (hencode.trans hnone) hdoes
    · exact unrollWanted_of_attached hid hid₀ hsites h (hencode.trans hvalue) horigin hslot hattach
        hs₁ hdoes
  · next hkeyword =>
    obtain ⟨recorded, s₁, hpure, hdoes⟩ := does_bind.mp hdoes
    obtain ⟨-, rfl⟩ := does_pure.mp hpure
    refine unrollWanted_of_none hid hid₀ hsites h hs ?_ hdoes
    rw [StringSite.value?, hkeyword]
    rfl

end

/-- What has become of the strings of a function, when all its calls have had their turn. -/
structure KeptIn (m : Module) (config : Config) (f f' : Function) : Prop where
  listed : ∀ i b pos, f.Listed i b pos → ∃ b pos, f'.Listed i b pos
  kept : ∀ sites, m.Collects f config.limits sites → ∀ site ∈ sites, ∀ value,
    site.value? config.limits = some value → f.Kept config sites f' site value

theorem splitStringsIn_kept (hheaders : m₀.SameHeaders s.module)
    (hid : s.module.function id = .ok f₀) (hid₀ : m₀.function id = .ok f₀) (hf₀ : f₀.Tidy)
    (honce : ∀ ids, f₀.liveInsts = .ok ids → ids.Nodup) {stats stats' : StringStats}
    (hdoes : (splitStringsIn config stats id).Does s stats' s') :
    ∃ f', s'.module = s.module.setFunction id f' ∧ f₀.SameHeader f' ∧
      KeptIn m₀ config f₀ f' := by
  obtain ⟨sites, s₁, hsites, hs₁, hdoes⟩ := splitStringsIn_does hheaders hid hdoes
  have hstart : f₀.Keeping m₀ config id sites sites f₀ :=
    ⟨hsites.unrolling hf₀, .refl f₀, hsites.nodup honce, [], rfl, by simp⟩
  obtain ⟨f', hs', hend⟩ := hdoes.foldlM_rest (fun rest s₂ => ∃ f',
    s₂.module = s.module.setFunction id f' ∧ f₀.Keeping m₀ config id sites rest f')
    (fun site rest stats stats' s₂ s₃ ⟨f₂, hs₂, h₂⟩ hstep =>
      splitString_keeping (Module.index_lt_of_function hid) hid₀ hsites h₂ hs₂ hstep)
    ⟨f₀, hs₁.trans (Module.setFunction_self hid).symm, hstart⟩
  refine ⟨f', hs', hend.unrolling.sameHeader, hend.readers.listed,
    fun sites' hsites' site hsite value hvalue => ?_⟩
  obtain rfl := hsites'.unique hsites
  obtain ⟨done, hdone, hkept⟩ := hend.kept
  rw [List.append_nil] at hdone
  subst hdone
  exact hkept site hsite value hvalue

end Pass

namespace Module

variable {m : Module}

/-- Where all comparisons are taken apart, every string that is asked for is at a live instruction in
the end. Elsewhere whatever asks for the result of a call carries the string of that call or, if it
asks for the result of a later one as well, that of the later one. -/
theorem Accepted.strings_kept (hm : m.Accepted) (honce : m.ListsOnce) {config : Config}
    {stats : StringStats} {s : PassState}
    (h : (Pass.splitStrings config).runOn m = .ok (.ok stats, s)) {id : FuncId} {f : Function}
    (hid : m.function id = .ok f) {sites : List StringSite}
    (hsites : m.Collects f config.limits sites) {site : StringSite} (hsite : site ∈ sites)
    {value : String} (hvalue : site.value? config.limits = some value) :
    ∃ f', s.module.function id = .ok f' ∧
      (config.convert = .all → (∃ i, f.Asks site.call i) → ∃ i, f'.Live i ∧ f'.Carries i value) ∧
      (config.convert ≠ .all → ∀ i, f.Asks site.call i → f'.Live i ∧ (f'.Carries i value ∨
        ∃ later value', [site, later].Sublist sites ∧ later.value? config.limits = some value' ∧
          f.Asks later.call i ∧ f'.Carries i value')) := by
  have hsteps := Pass.splitStrings_steps (s := { module := m }) (hm.tidy honce) honce h
  obtain ⟨f', hid'⟩ : ∃ f', s.module.function id = .ok f' := by
    have hlt : id.index < s.module.functions.size :=
      hsteps.sameHeaders.size ▸ index_lt_of_function hid
    exact ⟨_, function_eq_ok.mpr (Array.getElem?_eq_getElem hlt)⟩
  have hkept := Pass.splitStrings_each (fun id f₀ s s' stats stats' hheaders hid hid₀ hdoes =>
    Pass.splitStringsIn_kept hheaders hid hid₀ (hm.tidy honce id f₀ hid₀) (honce id f₀ hid₀) hdoes)
    h hid hid'
  have hstring := hkept.kept sites hsites site hsite value hvalue
  refine ⟨f', hid', fun hconvert hasks => ?_, fun hconvert i hi => ⟨?_, hstring.attached hconvert i hi⟩⟩
  · obtain ⟨i, -, -, hlive, hcarries⟩ := hstring.sheltered hconvert hasks
    exact ⟨i, hlive, hcarries⟩
  · obtain ⟨b, pos, hlisted⟩ := hi.listed
    obtain ⟨b', pos', hlisted'⟩ := hkept.listed i b pos hlisted
    exact hlisted'.live

/-- Asks whether two strings compare alike with a word each. -/
def alike : Function where
  name := "alike"
  params := [.ptr, .ptr]
  ret := .i1
  blocks := #[⟨"entry", [⟨0⟩, ⟨1⟩, ⟨2⟩], .ret (some (.inst ⟨2⟩))⟩]
  layout := [⟨0⟩]
  insts := #[
    { kind := .call (.direct ⟨0⟩) [.arg 0, .global ⟨0⟩] .i32, block := some ⟨0⟩ },
    { kind := .call (.direct ⟨0⟩) [.arg 1, .global ⟨1⟩] .i32, block := some ⟨0⟩ },
    { kind := .icmp .eq (.inst ⟨0⟩) (.inst ⟨1⟩), block := some ⟨0⟩ }]

def likening : Module where
  name := "likening"
  globals := #[
    { name := "first", constant := true, contents := some (.bytes [97, 98, 99, 0]) },
    { name := "second", constant := true, contents := some (.bytes [120, 121, 122, 0]) }]
  functions := #[.declare "strcmp" [.ptr, .ptr] .i32, alike]

/-- The calls of that function, each with its word. -/
def likeningSite (n : Nat) (word : List UInt8) : StringSite where
  call := ⟨n⟩
  family := .strcmp
  foldCase := false
  len := 4
  lhs := .pointer (.arg n)
  rhs := .bytes word
  keyword := some word

def likeningSites : List StringSite :=
  [likeningSite 0 [97, 98, 99, 0], likeningSite 1 [120, 121, 122, 0]]

theorem collects_likening {config : Config} (hlimits : config.limits = {}) :
    likening.Collects alike config.limits likeningSites := by
  rw [hlimits]
  exact ⟨_, rfl, by decide +kernel⟩

theorem asks_likening : alike.Asks ⟨0⟩ ⟨2⟩ where
  listed := ⟨⟨0⟩, 2, List.mem_cons_self, _, rfl, rfl⟩
  operand := ⟨_, rfl, List.mem_cons_self⟩
  decides := ⟨_, rfl, rfl⟩

/-- Where both calls are taken apart the first word is kept, and where they stay whole the comparison
carries it or the second one. -/
theorem likening_strings_kept :
    (∃ stats s f, (Pass.splitStrings (.coverage .all)).runOn likening = .ok (.ok stats, s) ∧
      s.module.function ⟨1⟩ = .ok f ∧ ∃ i, f.Live i ∧ f.Carries i "abc") ∧
    ∃ stats s f, (Pass.splitStrings (.coverage .notDict)).runOn likening = .ok (.ok stats, s) ∧
      s.module.function ⟨1⟩ = .ok f ∧ f.Live ⟨2⟩ ∧ (f.Carries ⟨2⟩ "abc" ∨ ∃ later value,
        [likeningSite 0 [97, 98, 99, 0], later].Sublist likeningSites ∧
        later.value? {} = some value ∧ alike.Asks later.call ⟨2⟩ ∧ f.Carries ⟨2⟩ value) := by
  have hlocal : likening.isLocal = true := by decide +kernel
  have hkept := @Accepted.strings_kept _ (accepted_of_isLocal hlocal) (listsOnce_of_isLocal hlocal)
  have hvalue : (likeningSite 0 [97, 98, 99, 0]).value? {} = some "abc" := by decide +kernel
  constructor
  · obtain ⟨stats, s, h⟩ := Pass.exists_of_completes
      (show Pass.completes ((Pass.splitStrings (.coverage .all)).runOn likening) = true by
        decide +kernel)
    obtain ⟨f, hid, hall, -⟩ := hkept h (show likening.function ⟨1⟩ = .ok alike from rfl)
      (collects_likening rfl) List.mem_cons_self hvalue
    exact ⟨stats, s, f, h, hid, hall rfl ⟨⟨2⟩, asks_likening⟩⟩
  · obtain ⟨stats, s, h⟩ := Pass.exists_of_completes
      (show Pass.completes ((Pass.splitStrings (.coverage .notDict)).runOn likening) = true by
        decide +kernel)
    obtain ⟨f, hid, -, hsome⟩ := hkept h (show likening.function ⟨1⟩ = .ok alike from rfl)
      (collects_likening rfl) List.mem_cons_self hvalue
    exact ⟨stats, s, f, h, hid, hsome nofun ⟨2⟩ asks_likening⟩

/-- Where they stay whole, the first word is in fact lost. -/
theorem string_lost_likening : likening.Accepted ∧ likening.ListsOnce ∧
    likening.Collects alike (.coverage .notDict : Config).limits likeningSites ∧
    (likeningSite 0 [97, 98, 99, 0]).value? (.coverage .notDict : Config).limits = some "abc" ∧
    alike.Asks (likeningSite 0 [97, 98, 99, 0]).call ⟨2⟩ ∧
    ∃ stats s, (Pass.splitStrings (.coverage .notDict)).runOn likening = .ok (.ok stats, s) ∧
      ∀ f ∈ s.module.functions, ∀ i, ∀ token ∈ f.annotations.get i, token.value ≠ "abc" := by
  have hlocal : likening.isLocal = true := by decide +kernel
  let token : Token := ⟨"xyz", "NDEBUG", .comparedString, none⟩
  have hrun : (Pass.completed? ((Pass.splitStrings (.coverage .notDict)).runOn likening)).map
      (fun r => r.2.module.functions) = some #[.declare "strcmp" [.ptr, .ptr] .i32,
        { alike with annotations := ({} : Annotations).modify ⟨2⟩ fun _ => [token] }] := by
    decide +kernel
  obtain ⟨⟨stats, s⟩, hcompleted, hfunctions⟩ := Option.map_eq_some_iff.mp hrun
  refine ⟨accepted_of_isLocal hlocal, listsOnce_of_isLocal hlocal, collects_likening rfl,
    by decide +kernel, asks_likening, stats, s, Pass.completed?_eq_some hcompleted, ?_⟩
  dsimp only at hfunctions
  intro f hf i t ht
  rw [hfunctions] at hf
  obtain rfl | rfl : f = _ ∨ f = _ := by simpa using hf
  · cases ht
  · rw [Annotations.get_modify] at ht
    split at ht
    · obtain rfl := List.mem_singleton.mp ht
      decide
    · cases ht

end Module

end EdgeProbe
