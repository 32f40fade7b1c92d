import EdgeProbe.Proofs.Lowering.StringSite
import EdgeProbe.Proofs.Lowering.StringsSound
import EdgeProbe.Proofs.Validity.Local

/-!
# Taking string comparisons apart, step by step

The pass takes apart, in each function, the calls that it has found before the first of them was
taken apart. All that it does to a module are steps of two kinds. Main statement:
`Pass.splitStrings_steps`.
-/

namespace EdgeProbe

theorem StringSite.Found.readsAmong {m : Module} {f : Function} {limits : Limits} {site : StringSite}
    {target : FuncId} {g : Function} {args : List Value} {ret : Ty} {first second : Value}
    {limit : Option Nat} (h : site.Found m f limits target g args ret first second limit) :
    site.ReadsAmong args := by
  have hmem : first ∈ args ∧ second ∈ args := by
    cases h.operands <;> simp
  intro ptr hptr
  cases h.decided with
  | neither _ _ _ hleft hright =>
    rw [hleft, hright] at hptr
    obtain heq | heq := hptr
    · exact Side.pointer.inj heq ▸ hmem.1
    · exact Side.pointer.inj heq ▸ hmem.2
  | left _ _ hleft hright =>
    rw [hleft, hright] at hptr
    obtain heq | heq := hptr
    · cases heq
    · exact Side.pointer.inj heq ▸ hmem.2
  | right _ _ hleft hright =>
    rw [hleft, hright] at hptr
    obtain heq | heq := hptr
    · exact Side.pointer.inj heq ▸ hmem.1
    · cases heq

/-- What happens to a function of a module: tokens are moved, or a call that was found in the function
as it was at first gives way to a chain of blocks. -/
inductive Function.Unrolls (m : Module) (limits : Limits) (id : FuncId) (f f' : Function) : Prop
  | tokens {annotations : Annotations} (h : f' = { f with annotations })
    (htokens : f.KeepsTokens f')
  | chain {f₀ : Function} {site : StringSite} {c : Cut} {join first : BlockId} {rest : List BlockId}
    (hid : m.function id = .ok f₀) (hsite : m.inspect f₀ limits site.call = .ok (.site site))
    (hlisted : ∃ b pos, f₀.Listed site.call b pos) (hc : c.Of f) (hcall : c.site = site.call)
    (hkind : f.kind c.site = f₀.kind c.site)
    (hrest : rest.length = site.len - 1) (hheader : f.SameHeader f')
    (h : Opened f c join (site.parts c join first rest f.insts.size)
      (.phi .i32 (site.entries 0 f.insts.size first rest)) f')

namespace Function

variable {m : Module} {limits : Limits} {id : FuncId} {f f' f₀ : Function} {calls : List InstId}

theorem Unrolls.sameHeader (h : Unrolls m limits id f f') : f.SameHeader f' := by
  cases h with
  | tokens h =>
    subst h
    exact .withAnnotations f _
  | chain _ _ _ _ _ _ _ hheader => exact hheader

/-- What a function has become in the course of the loop over the calls that were found in it, with
those to come. -/
structure Unrolling (m : Module) (limits : Limits) (id : FuncId) (f₀ : Function)
    (calls : List InstId) (f : Function) : Prop where
  steps : Relation.ReflTransGen (Unrolls m limits id) f₀ f
  tidy : f.Tidy
  listed : ∀ call ∈ calls, ∃ b pos, f.Listed call b pos
  kinds : ∀ call ∈ calls, ∃ kind, kind.isPhi = false ∧ f₀.kind call = .ok kind ∧ f.kind call = .ok kind

theorem Unrolling.withAnnotations (h : Unrolling m limits id f₀ calls f) {annotations : Annotations}
    (htokens : f.KeepsTokens { f with annotations }) :
    Unrolling m limits id f₀ calls { f with annotations } where
  steps := h.steps.tail (.tokens rfl htokens)
  tidy := h.tidy.withAnnotations annotations
  listed := h.listed
  kinds := h.kinds

theorem Unrolling.weaken {call : InstId} (h : Unrolling m limits id f₀ (call :: calls) f) :
    Unrolling m limits id f₀ calls f :=
  ⟨h.steps, h.tidy, fun i hi => h.listed i (List.mem_cons_of_mem _ hi),
    fun i hi => h.kinds i (List.mem_cons_of_mem _ hi)⟩

theorem Unrolling.sameHeader (h : Unrolling m limits id f₀ calls f) : f₀.SameHeader f := by
  have hsteps := h.steps
  clear h
  induction hsteps with
  | refl => exact .refl f₀
  | tail _ hlast ih => exact ih.trans hlast.sameHeader

/-- What taking a call apart does that is the next one. -/
theorem Unrolling.opened {site : StringSite} {u : Unit}
    (h : Unrolling m limits id f₀ (site.call :: calls) f) (hid : m.function id = .ok f₀)
    (hsite : m.inspect f₀ limits site.call = .ok (.site site))
    (hlisted₀ : ∃ b pos, f₀.Listed site.call b pos)
    (hdoes : (Edit.unroll site limits).Does f u f') :
    ∃ annotations c join first rest, f.KeepsTokens { f with annotations } ∧
      c.Of { f with annotations } ∧ c.site = site.call ∧
      Opened { f with annotations } c join (site.parts c join first rest f.insts.size)
        (.phi .i32 (site.entries 0 f.insts.size first rest)) f' ∧
      Unrolls m limits id { f with annotations } f' := by
  obtain ⟨b, pos, hlisted⟩ := h.listed site.call List.mem_cons_self
  obtain ⟨kind, hphi, hkind₀, hkind⟩ := h.kinds site.call List.mem_cons_self
  obtain ⟨annotations, c, join, first, rest, htokens, hc, hcall, hrest, hopened⟩ :=
    Edit.unroll_does h.tidy hlisted hkind hphi hdoes
  have hheader : ({ f with annotations } : Function).SameHeader f' :=
    (SameHeader.withAnnotations f annotations).symm.trans (Edit.sameHeader_unroll hdoes)
  have hkindSite : ({ f with annotations } : Function).kind c.site = f₀.kind c.site := by
    rw [hcall, hkind₀]
    exact hkind
  exact ⟨annotations, c, join, first, rest, htokens, hc, hcall, hopened,
    .chain hid hsite hlisted₀ hc hcall hkindSite hrest hheader hopened⟩

/-- Taking a call apart leaves the other ones as they are. -/
theorem Unrolling.unroll {site : StringSite} {u : Unit}
    (h : Unrolling m limits id f₀ (site.call :: calls) f) (hid : m.function id = .ok f₀)
    (hnot : site.call ∉ calls) (hsite : m.inspect f₀ limits site.call = .ok (.site site))
    (hlisted₀ : ∃ b pos, f₀.Listed site.call b pos)
    (hdoes : (Edit.unroll site limits).Does f u f') : Unrolling m limits id f₀ calls f' := by
  obtain ⟨-, target, g, args, ret, first, second, limit, hfound⟩ := Module.inspect_eq_site hsite
  obtain ⟨_, -, hkind₀, hkind⟩ := h.kinds site.call List.mem_cons_self
  obtain rfl := Except.ok.inj (hfound.kind.symm.trans hkind₀)
  obtain ⟨annotations, c, join, first, rest, htokens, hc, hcall, hopened, hunrolls⟩ :=
    h.opened hid hsite hlisted₀ hdoes
  have hmoved := h.weaken.withAnnotations htokens
  have hkindSite : ({ f with annotations } : Function).kind c.site =
      .ok (.call (.direct target) args ret) := hcall ▸ hkind
  have hpatched := hopened.patched_unrolled hc hkindSite hfound.readsAmong hmoved.tidy
  refine ⟨hmoved.steps.tail hunrolls, hpatched.tidy hmoved.tidy hc hkindSite rfl, ?_, ?_⟩
  · intro call hmem
    obtain ⟨b, pos, hlisted⟩ := hmoved.listed call hmem
    exact ⟨_, _, hpatched.listed_mono hmoved.tidy hc hlisted⟩
  · intro call hmem
    obtain ⟨kind, hphi, hkind₀, hkind⟩ := hmoved.kinds call hmem
    have hne : call ≠ c.site := by
      rintro rfl
      exact hnot (hcall ▸ hmem)
    exact ⟨kind, hphi, hkind₀, hpatched.kind_eq hne hkind hphi⟩

end Function

/-! ## Tokens -/

/-- Recording a keyword moves nothing but tokens. -/
theorem Edit.attachToResultUsers_does {f f' : Function} {id : InstId} {token : Token}
    {limits : Limits} {count : Nat} (hdoes : (attachToResultUsers id token limits).Does f count f') :
    ∃ annotations, f' = { f with annotations } ∧ f.KeepsTokens f' := by
  obtain ⟨users, f₁, hquery, hdoes⟩ := does_bind.mp hdoes
  obtain ⟨husers, rfl⟩ := does_query.mp hquery
  obtain ⟨u, f₂, hattach, hdoes⟩ := does_bind.mp hdoes
  obtain ⟨-, rfl⟩ := does_pure.mp hdoes
  obtain ⟨readers, -, husers⟩ := Checked.bind_eq_ok.mp husers
  have hlive : ∀ user ∈ users, user.index < f.insts.size := by
    intro user hmem
    obtain ⟨-, hasked⟩ := Checked.mem_of_filterM husers hmem
    obtain ⟨kind, hkind, -⟩ := Checked.bind_eq_ok.mp hasked
    exact Function.index_lt_of_kind hkind
  refine hattach.forM (fun f₂ => ∃ annotations, f₂ = { f with annotations } ∧ f.KeepsTokens f₂) ?_
    ⟨f.annotations, rfl, fun _ h => .inl h⟩
  rintro user hmem _ f₃ ⟨annotations, rfl, hkeeps⟩ hdoes
  obtain ⟨annotations', rfl, hnew⟩ := does_attach hdoes
  refine ⟨annotations', rfl, fun i hi => ?_⟩
  obtain hold | rfl := hnew i hi
  · exact hkeeps i hold
  · exact .inr (hlive i hmem)

/-! ## The loops of the pass -/

namespace Pass

variable {m m₀ : Module} {config : Config} {id : FuncId} {f f₀ : Function} {s s' : PassState}
  {calls : List InstId}

theorem silent_wantsUnrolling (config : Config) (id : FuncId) (site : StringSite) :
    (wantsUnrolling config id site).Silent := by
  unfold wantsUnrolling
  split
  · exact silent_pure _
  · exact silent_pure _
  · split
    · exact silent_pure _
    · exact (silent_query _).bind fun _ => silent_pure _

section

variable (hid : id.index < m.functions.size) (hs : s.module = m.setFunction id f)
include hid hs

theorem recordKeyword_unrolling (h : f₀.Unrolling m₀ config.limits id calls f) {call : InstId}
    {keyword : List UInt8} {count : Nat}
    (hdoes : (recordKeyword config id call keyword).Does s count s') :
    ∃ f', s'.module = m.setFunction id f' ∧ f₀.Unrolling m₀ config.limits id calls f' := by
  obtain ⟨provenance, s₁, hquery, hdoes⟩ := does_bind.mp hdoes
  obtain ⟨-, rfl⟩ := does_query.mp hquery
  split at hdoes
  · obtain ⟨f', hedit, hs'⟩ := inFunction_setFunction hid hs hdoes
    obtain ⟨annotations, rfl, htokens⟩ := Edit.attachToResultUsers_does hedit
    exact ⟨_, hs', h.withAnnotations htokens⟩
  · obtain ⟨u, s₂, hreport, hdoes⟩ := does_bind.mp hdoes
    obtain ⟨-, rfl⟩ := does_pure.mp hdoes
    exact ⟨f, (module_of_report hreport).trans hs, h⟩

theorem splitString_unrolling {site : StringSite} (hid₀ : m₀.function id = .ok f₀)
    (h : f₀.Unrolling m₀ config.limits id (site.call :: calls) f) (hnot : site.call ∉ calls)
    (hsite : m₀.inspect f₀ config.limits site.call = .ok (.site site))
    (hlisted : ∃ b pos, f₀.Listed site.call b pos) {stats stats' : StringStats}
    (hdoes : (splitString config id stats site).Does s stats' s') :
    ∃ f', s'.module = m.setFunction id f' ∧ f₀.Unrolling m₀ config.limits id calls f' := by
  -- What follows once the keyword has been recorded, if there is one.
  have hrest : ∀ recorded s₁ f₁, s₁.module = m.setFunction id f₁ →
      f₀.Unrolling m₀ config.limits id (site.call :: calls) f₁ → (do
        let stats := { stats with recorded := stats.recorded + recorded }
        if ← wantsUnrolling config id site then
          inFunction id (Edit.unroll site config.limits)
          return stats.count site
        else return stats : Pass StringStats).Does s₁ stats' s' →
      ∃ f', s'.module = m.setFunction id f' ∧ f₀.Unrolling m₀ config.limits id calls f' := by
    intro recorded s₁ f₁ hs₁ h₁ hdoes
    obtain ⟨wanted, s₂, hwanted, hdoes⟩ := does_bind.mp hdoes
    rw [← silent_wantsUnrolling config id site s₁ wanted s₂ hwanted] at hs₁
    split at hdoes
    · obtain ⟨u, s₃, hunroll, hdoes⟩ := does_bind.mp hdoes
      obtain ⟨-, rfl⟩ := does_pure.mp hdoes
      obtain ⟨f', hedit, hs'⟩ := inFunction_setFunction hid hs₁ hunroll
      exact ⟨f', hs', h₁.unroll hid₀ hnot hsite hlisted hedit⟩
    · obtain ⟨-, rfl⟩ := does_pure.mp hdoes
      exact ⟨f₁, hs₁, h₁.weaken⟩
  unfold splitString at hdoes
  split at hdoes
  · obtain ⟨recorded, s₁, hrecord, hdoes⟩ := does_bind.mp hdoes
    obtain ⟨f₁, hs₁, h₁⟩ := recordKeyword_unrolling hid hs h hrecord
    exact hrest recorded s₁ f₁ hs₁ h₁ hdoes
  · obtain ⟨recorded, s₁, hpure, hdoes⟩ := does_bind.mp hdoes
    obtain ⟨-, rfl⟩ := does_pure.mp hpure
    exact hrest recorded s f hs h hdoes

theorem splitStrings_unrolling {sites : List StringSite} (hid₀ : m₀.function id = .ok f₀)
    (h : f₀.Unrolling m₀ config.limits id (sites.map StringSite.call) f)
    (hnodup : (sites.map StringSite.call).Nodup)
    (hsites : ∀ site ∈ sites, m₀.inspect f₀ config.limits site.call = .ok (.site site) ∧
      ∃ b pos, f₀.Listed site.call b pos)
    {stats stats' : StringStats}
    (hdoes : (sites.foldlM (splitString config id) stats).Does s stats' s') :
    ∃ f', s'.module = m.setFunction id f' ∧ f₀.Unrolling m₀ config.limits id [] f' := by
  induction sites generalizing s f stats with
  | nil =>
    obtain ⟨-, rfl⟩ := does_pure.mp hdoes
    exact ⟨f, hs, h⟩
  | cons site sites ih =>
    rw [List.foldlM_cons] at hdoes
    obtain ⟨stats₁, s₁, hfirst, hrest⟩ := does_bind.mp hdoes
    obtain ⟨hnot, hnodup⟩ := List.nodup_cons.mp hnodup
    obtain ⟨hsite, hsites⟩ := List.forall_mem_cons.mp hsites
    obtain ⟨f₁, hs₁, h₁⟩ := splitString_unrolling hid hs hid₀ h hnot hsite.1 hsite.2 hfirst
    exact ih hs₁ h₁ hnodup hsites hrest

end

end Pass

/-! ## What the pass does -/

/-- The site that an inspection has led to. -/
def Inspection.site? : Inspection → Option StringSite
  | .site s => some s
  | _ => none

namespace Module

variable {m : Module} {f : Function} {limits : Limits} {id : FuncId}

/-- The calls of a function that can be taken apart. -/
def Collects (m : Module) (f : Function) (limits : Limits) (sites : List StringSite) : Prop :=
  ∃ found, m.inspections f limits = .ok found ∧ sites = found.filterMap Inspection.site?

variable {sites : List StringSite} {site : StringSite}

theorem Collects.inspect (h : m.Collects f limits sites) (hsite : site ∈ sites) :
    m.inspect f limits site.call = .ok (.site site) ∧ ∃ b pos, f.Listed site.call b pos := by
  obtain ⟨found, hfound, rfl⟩ := h
  obtain ⟨ids, hids, hfound⟩ := Checked.bind_eq_ok.mp hfound
  obtain ⟨result, hresult, heq⟩ := List.mem_filterMap.mp hsite
  cases result with
  | site site' =>
    obtain rfl := Option.some.inj heq
    obtain ⟨i, hi, hinspect⟩ := Checked.exists_member hfound hresult
    obtain ⟨rfl, -⟩ := inspect_eq_site hinspect
    exact ⟨hinspect, Function.listed_of_liveInsts hids hi⟩
  | _ => cases heq

theorem Collects.unique {sites' : List StringSite} (h : m.Collects f limits sites)
    (h' : m.Collects f limits sites') : sites = sites' := by
  obtain ⟨found, hfound, rfl⟩ := h
  obtain ⟨found', hfound', rfl⟩ := h'
  obtain rfl := Except.ok.inj (hfound.symm.trans hfound')
  rfl

/-- Where no instruction is listed twice, they are different calls. -/
theorem Collects.nodup (h : m.Collects f limits sites)
    (honce : ∀ ids, f.liveInsts = .ok ids → ids.Nodup) : (sites.map StringSite.call).Nodup := by
  obtain ⟨found, hfound, rfl⟩ := h
  obtain ⟨ids, hids, hfound⟩ := Checked.bind_eq_ok.mp hfound
  have hsublist : ∀ {ids : List InstId} {found : List Inspection},
      List.Forall₂ (fun id result => m.inspect f limits id = .ok result) ids found →
        ((found.filterMap Inspection.site?).map StringSite.call).Sublist ids := by
    intro ids found h
    induction h with
    | nil => exact .slnil
    | @cons id result ids found hresult _ ih =>
      cases result with
      | site site =>
        obtain ⟨rfl, -⟩ := inspect_eq_site hresult
        exact ih.cons_cons _
      | _ => exact ih.cons _
  exact (honce ids hids).sublist (hsublist (Checked.mapM_eq_ok.mp hfound))

theorem Collects.unrolling (h : m.Collects f limits sites) (hf : f.Tidy) :
    f.Unrolling m limits id (sites.map StringSite.call) f := by
  refine ⟨.refl, hf, fun call hmem => ?_, fun call hmem => ?_⟩
  · obtain ⟨site, hsite, rfl⟩ := List.mem_map.mp hmem
    exact (h.inspect hsite).2
  · obtain ⟨site, hsite, rfl⟩ := List.mem_map.mp hmem
    obtain ⟨-, target, g, args, ret, first, second, limit, hfound⟩ :=
      inspect_eq_site (h.inspect hsite).1
    exact ⟨_, rfl, hfound.kind, hfound.kind⟩

theorem SameHeaders.inspections {m' : Module} (h : m.SameHeaders m') :
    m'.inspections f limits = m.inspections f limits := by
  have hinspect : m'.inspect f limits = m.inspect f limits := funext (h.inspect f limits)
  rw [Module.inspections, Module.inspections, hinspect]

/-- Steps change nothing that functions say about themselves. -/
theorem Steps.sameHeaders {m' m₀ : Module}
    (h : Steps (Function.Unrolls m₀ limits) m m') : m.SameHeaders m' :=
  h.keeps m.SameHeaders (fun _ _ _ _ hm hid hstep => hm.setFunction hid hstep.sameHeader) (.refl m)

end Module

namespace Pass

variable {m₀ : Module} {config : Config} {id : FuncId} {f₀ : Function} {s s' : PassState}

theorem sitesOf_does {found : List Inspection} {sites : List StringSite}
    (hdoes : (sitesOf found).Does s sites s') :
    sites = found.filterMap Inspection.site? ∧ s'.module = s.module := by
  induction found generalizing s sites with
  | nil =>
    obtain ⟨rfl, rfl⟩ := does_pure.mp hdoes
    exact ⟨rfl, rfl⟩
  | cons result found ih =>
    cases result with
    | nothing => exact ih hdoes
    | remark r =>
      obtain ⟨u, s₁, hreport, hdoes⟩ := does_bind.mp hdoes
      obtain ⟨rfl, hs⟩ := ih hdoes
      exact ⟨rfl, hs.trans (module_of_report hreport)⟩
    | site site =>
      obtain ⟨sites', s₁, hrest, hdoes⟩ := does_bind.mp hdoes
      obtain ⟨rfl, rfl⟩ := does_pure.mp hdoes
      obtain ⟨rfl, hs⟩ := ih hrest
      exact ⟨rfl, hs⟩

/-- The calls of a function that is as it was at first are collected before any of them is taken
apart. -/
theorem splitStringsIn_does (hheaders : m₀.SameHeaders s.module)
    (hid : s.module.function id = .ok f₀) {stats stats' : StringStats}
    (hdoes : (splitStringsIn config stats id).Does s stats' s') :
    ∃ sites s₁, m₀.Collects f₀ config.limits sites ∧ s₁.module = s.module ∧
      (sites.foldlM (splitString config id) stats).Does s₁ stats' s' := by
  obtain ⟨found, s₁, hquery, hdoes⟩ := does_bind.mp hdoes
  obtain ⟨hasked, rfl⟩ := does_query.mp hquery
  obtain ⟨f₁, hid₁, hfound⟩ := Checked.bind_eq_ok.mp hasked
  obtain rfl := Except.ok.inj (hid.symm.trans hid₁)
  rw [hheaders.inspections] at hfound
  obtain ⟨sites, s₂, hsites, hdoes⟩ := does_bind.mp hdoes
  obtain ⟨rfl, hs₂⟩ := sitesOf_does hsites
  exact ⟨_, s₂, ⟨found, hfound, rfl⟩, hs₂, hdoes⟩

/-- A function that is as it was at first goes through steps when its calls are taken apart. -/
theorem splitStringsIn_unrolls (hheaders : m₀.SameHeaders s.module)
    (hid : s.module.function id = .ok f₀) (hid₀ : m₀.function id = .ok f₀) (hf₀ : f₀.Tidy)
    (honce : ∀ ids, f₀.liveInsts = .ok ids → ids.Nodup) {stats stats' : StringStats}
    (hdoes : (splitStringsIn config stats id).Does s stats' s') :
    ∃ f', s'.module = s.module.setFunction id f' ∧
      Relation.ReflTransGen (Function.Unrolls m₀ config.limits id) f₀ f' := by
  obtain ⟨sites, s₁, hsites, hs₁, hdoes⟩ := splitStringsIn_does hheaders hid hdoes
  obtain ⟨f', hs', hend⟩ := splitStrings_unrolling (Module.index_lt_of_function hid)
    (hs₁.trans (Module.setFunction_self hid).symm) hid₀ (hsites.unrolling hf₀)
    (hsites.nodup honce) (fun _ => hsites.inspect) hdoes
  exact ⟨f', hs', hend.steps⟩

theorem silent_reportCount (count : Nat) (what : String) : (reportCount count what).Silent := by
  unfold reportCount
  split <;> exact silent_report _

theorem silent_reportStrings (stats : StringStats) : (do
    reportCount stats.strcmp "STRCMP"
    reportCount stats.strncmp "STRNCMP"
    reportCount stats.memcmp "MEMCMP"
    if 0 < stats.bothVariable then
      info ("Instrumented " ++ toString stats.bothVariable ++ " variable-only compare(s).")
    reportRecorded stats.recorded
    return stats : Pass StringStats).Silent := by
  have hrecorded : (do
      reportRecorded stats.recorded
      return stats : Pass StringStats).Silent :=
    (silent_reportRecorded _ _).bind fun _ => silent_pure _
  refine (silent_reportCount _ _).bind fun _ => (silent_reportCount _ _).bind fun _ =>
    (silent_reportCount _ _).bind fun _ => ?_
  dsimp only
  split
  · exact (silent_report _).bind fun _ => hrecorded
  · exact hrecorded

/-- The loop over the functions takes those that are still as they were through steps. -/
theorem splitStringsInAll_steps (hm : m₀.Tidy) (honce : m₀.ListsOnce) {ids : List FuncId}
    (hnodup : ids.Nodup)
    (hsteps : Module.Steps (Function.Unrolls m₀ config.limits) m₀ s.module)
    (hsame : ∀ id ∈ ids, s.module.function id = m₀.function id) {stats stats' : StringStats}
    (hdoes : (ids.foldlM (splitStringsIn config) stats).Does s stats' s') :
    Module.Steps (Function.Unrolls m₀ config.limits) m₀ s'.module := by
  induction ids generalizing s stats with
  | nil =>
    obtain ⟨-, rfl⟩ := does_pure.mp hdoes
    exact hsteps
  | cons id ids ih =>
    rw [List.foldlM_cons] at hdoes
    obtain ⟨stats₁, s₁, hfirst, hrest⟩ := does_bind.mp hdoes
    obtain ⟨hnot, hnodup⟩ := List.nodup_cons.mp hnodup
    obtain ⟨hid, hsame⟩ := List.forall_mem_cons.mp hsame
    obtain ⟨f₀, hid₁⟩ : ∃ f₀, s.module.function id = .ok f₀ := by
      obtain ⟨found, s₂, hquery, -⟩ := does_bind.mp hfirst
      obtain ⟨f₀, hid₁, -⟩ := Checked.bind_eq_ok.mp (does_query.mp hquery).1
      exact ⟨f₀, hid₁⟩
    have hid₀ := hid.symm.trans hid₁
    obtain ⟨f', hs₁, hunrolls⟩ := splitStringsIn_unrolls hsteps.sameHeaders hid₁ hid₀ (hm id f₀ hid₀)
      (honce id f₀ hid₀) hfirst
    refine ih hnodup ?_ (fun i hi => ?_) hrest
    · rw [hs₁]
      exact Relation.ReflTransGen.trans hsteps (Module.Steps.of_function hid₁ hunrolls)
    · have hne : i ≠ id := fun heq => hnot (heq ▸ hi)
      rw [hs₁, Module.function_setFunction (Module.index_lt_of_function hid₁), if_neg hne]
      exact hsame i hi

/-- Taking the string comparisons of a module apart is a number of steps. -/
theorem splitStrings_steps (hm : s.module.Tidy) (honce : s.module.ListsOnce) {stats : StringStats}
    (hdoes : (splitStrings config).Does s stats s') :
    Module.Steps (Function.Unrolls s.module config.limits) s.module s'.module := by
  unfold splitStrings at hdoes
  obtain ⟨ids, s₁, hids, hdoes⟩ := does_bind.mp hdoes
  obtain ⟨rfl, rfl⟩ := does_functionIds.mp hids
  obtain ⟨stats₁, s₂, hloop, hdoes⟩ := does_bind.mp hdoes
  rw [silent_reportStrings stats₁ s₂ stats s' hdoes]
  have hnodup : s.module.functionIds.Nodup :=
    List.nodup_range.map fun _ _ heq => FuncId.mk.inj heq
  exact splitStringsInAll_steps hm honce hnodup .refl (fun _ _ => rfl) hloop

end Pass

/-! ## Validity -/

namespace Module

variable {m m' : Module} {limits : Limits}

/-- Calls of the comparison functions, where these return numbers of 32 bits, are of that type. -/
def ComparesWords (m : Module) : Prop :=
  ∀ id f, m.function id = .ok f → ∀ call b pos target args ret g, f.Listed call b pos →
    f.kind call = .ok (.call (.direct target) args ret) → m.function target = .ok g →
      (CompareFamily.ofName? g.name).isSome → g.ret = .i32 → ret = .i32

end Module

namespace Function

variable {m m₀ : Module} {exempt : BlockId → Prop} {limits : Limits} {id : FuncId} {f f' : Function}

theorem Unrolls.sound (h : Unrolls m₀ limits id f f') (hwords : m₀.ComparesWords)
    (hs : f.Sound m exempt) : f'.Sound m exempt := by
  cases h with
  | tokens h htokens =>
    subst h
    exact hs.withAnnotations htokens
  | chain hid hsite hlisted hc hcall hkind hrest hheader h =>
    obtain ⟨-, target, g, args, ret, first, second, limit, hfound⟩ := Module.inspect_eq_site hsite
    obtain ⟨b, pos, hlisted⟩ := hlisted
    have hprototype := hfound.prototype
    simp only [hasPrototype, Bool.and_eq_true, beq_iff_eq] at hprototype
    have hret : ret = .i32 := hwords id _ hid _ b pos target args ret g hlisted hfound.kind
      hfound.target (by simp [hfound.family]) hprototype.1.1.1
    have hkindSite := hkind.trans ((congrArg _ hcall).trans hfound.kind)
    exact h.sound_unrolled hc hkindSite hfound.readsAmong hs hret

/-- A declaration stays one. -/
theorem Unrolls.isDeclaration (h : Unrolls m₀ limits id f f') (hbody : f'.isDeclaration = false) :
    f.isDeclaration = false := by
  cases h with
  | tokens h => rwa [h] at hbody
  | chain _ _ _ hc => exact hc.isDeclaration

end Function

namespace Module

variable {m m₀ m' : Module} {limits : Limits}

theorem Steps.sound_unrolls (h : Steps (Function.Unrolls m₀ limits) m m') (hwords : m₀.ComparesWords)
    (hm : m.Sound) : m'.Sound := by
  refine h.keeps Module.Sound (fun m id f f' hm hid hstep => ?_) hm
  exact hm.setFunction hid hstep.sameHeader.params fun hbody =>
    hstep.sound hwords (hm id f hid (hstep.isDeclaration hbody))

/-- A module stays accepted when its string comparisons are taken apart, if its calls have the types
of the functions that they are to. -/
theorem Accepted.unrolled (hm : m.Accepted) (honce : m.ListsOnce) (hwords : m.ComparesWords)
    {config : Config} {stats : StringStats} {s : PassState}
    (h : (Pass.splitStrings config).runOn m = .ok (.ok stats, s)) : s.module.Accepted := by
  have hsteps := Pass.splitStrings_steps (s := { module := m }) (hm.tidy honce) honce h
  exact (hsteps.sound_unrolls hwords (hm.sound honce)).accepted

/-- A function that asks whether a string is a certain one, by a call of `strcmp` the result of which
it takes for a number of some width. -/
def sameString (width : Nat) : Function where
  name := "same"
  params := [.ptr]
  ret := .i1
  blocks := #[⟨"entry", [⟨0⟩, ⟨1⟩], .ret (some (.inst ⟨1⟩))⟩]
  layout := [⟨0⟩]
  insts := #[
    { kind := .call (.direct ⟨0⟩) [.arg 0, .global ⟨0⟩] (.int width), block := some ⟨0⟩ },
    { kind := .icmp .eq (.inst ⟨0⟩) (.ofWord width 0), block := some ⟨0⟩ }]

/-- That function with the string and the declaration that it needs. -/
def strings (width : Nat) : Module where
  name := "strings"
  globals := #[{ name := "word", constant := true, contents := some (.bytes [97, 0]) }]
  functions := #[.declare "strcmp" [.ptr, .ptr] .i32, sameString width]

theorem comparesWords_strings : (strings 32).ComparesWords := by
  intro id f hid call b pos target args ret g hlisted hkind _ _ _
  obtain rfl | hf := List.mem_cons.mp (mem_of_function hid)
  · cases hlisted.1
  · obtain rfl := List.mem_singleton.mp hf
    obtain ⟨hb, blk, hblk, hpos⟩ := hlisted
    obtain rfl := List.mem_singleton.mp hb
    obtain rfl := Except.ok.inj hblk
    obtain rfl | hcall := List.mem_cons.mp (List.mem_of_getElem? hpos)
    · cases hkind
      rfl
    · obtain rfl := List.mem_singleton.mp hcall
      cases hkind

theorem strings_unrolled : ∃ stats s,
    (Pass.splitStrings (.coverage .all)).runOn (strings 32) = .ok (.ok stats, s) ∧
      s.module.Accepted := by
  have hlocal : (strings 32).isLocal = true := by decide +kernel
  obtain ⟨stats, s, h⟩ := Pass.exists_of_completes
    (show Pass.completes ((Pass.splitStrings (.coverage .all)).runOn (strings 32)) = true by
      decide +kernel)
  exact ⟨stats, s, h, (accepted_of_isLocal hlocal).unrolled (listsOnce_of_isLocal hlocal)
    comparesWords_strings h⟩

/-- When the result of the call is taken for a number of 64 bits, the module is accepted, but not any
more when the call has become a phi of differences. -/
theorem not_accepted_strings : (strings 64).Accepted ∧ (strings 64).ListsOnce ∧ ∃ stats s,
    (Pass.splitStrings (.coverage .all)).runOn (strings 64) = .ok (.ok stats, s) ∧
      ¬s.module.Accepted := by
  have hlocal : (strings 64).isLocal = true := by decide +kernel
  have hmixed : ((Pass.completed? ((Pass.splitStrings (.coverage .all)).runOn (strings 64))).any
      fun r => r.2.module.functions.toList.any Function.isMixed) = true := by decide +kernel
  obtain ⟨⟨stats, s⟩, hcompleted, hmixed⟩ := (Option.any_eq_true _ _).mp hmixed
  refine ⟨accepted_of_isLocal hlocal, listsOnce_of_isLocal hlocal, stats, s,
    Pass.completed?_eq_some hcompleted, fun hm => ?_⟩
  obtain ⟨f, hf, hmixed⟩ := List.any_eq_true.mp hmixed
  obtain ⟨index, hindex⟩ := List.mem_iff_getElem?.mp hf
  have hid : s.module.function ⟨index⟩ = .ok f := function_eq_ok.mpr (by simpa using hindex)
  exact Bool.eq_false_iff.mp (hm.not_isMixed hid) hmixed

end Module

end EdgeProbe
