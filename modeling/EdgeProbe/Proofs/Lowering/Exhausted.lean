import EdgeProbe.Proofs.Lowering.KeptStrings
import EdgeProbe.Proofs.Lowering.NormalForm

/-!
# No call is left that can be taken apart

All calls of a function that can be taken apart are found before the first of them is. Taking one
apart does not change what looking at the others leads to, wherever they have moved: the addresses
that their operands designate are computed as before, and the new code calls nothing. So none is left
in the end, and another run does nothing. Main statement: `Module.Accepted.strings_exhausted`.
-/

namespace EdgeProbe

/-! ## The same inspection of another function -/

/-- When the first inspection comes to its end, so does the second, and it leads to the same call. -/
def Checked.LeadsAlike (x y : Checked Inspection) : Prop :=
  ∀ r, x = .ok r → ∃ r', y = .ok r' ∧ r'.site? = r.site?

namespace Checked

theorem LeadsAlike.refl (x : Checked Inspection) : LeadsAlike x x :=
  fun r h => ⟨r, h, rfl⟩

theorem LeadsAlike.bind {α : Type} {x y : Checked α} {k k' : α → Checked Inspection}
    (hx : ∀ a, x = .ok a → y = .ok a) (hk : ∀ a, x = .ok a → LeadsAlike (k a) (k' a)) :
    LeadsAlike (x >>= k) (y >>= k') := by
  intro r h
  obtain ⟨a, ha, hr⟩ := bind_eq_ok.mp h
  obtain ⟨r', hr', hsite⟩ := hk a ha r hr
  exact ⟨r', bind_eq_ok.mpr ⟨a, hx a ha, hr'⟩, hsite⟩

/-- What is remarked may differ. -/
theorem LeadsAlike.remark {x y : Checked String} {about about' : String → Log.Record}
    (hy : ∃ provenance, y = .ok provenance) :
    LeadsAlike (do return .remark (about (← x))) (do return .remark (about' (← y))) := by
  intro r h
  obtain ⟨provenance, -, hr⟩ := bind_eq_ok.mp h
  obtain rfl := pure_eq_ok.mp hr
  obtain ⟨provenance', hy⟩ := hy
  exact ⟨_, bind_eq_ok.mpr ⟨provenance', hy, rfl⟩, rfl⟩

end Checked

/-- Addresses are computed as before: instructions that have changed were not part of one, and have
become phis. -/
structure Function.KeepsAddresses (f f' : Function) : Prop where
  size : f.insts.size ≤ f'.insts.size
  kinds : ∀ id kind, f.kind id = .ok kind → ∃ kind', f'.kind id = .ok kind' ∧
    (kind' = kind ∨ kind'.isPhi = true ∧ ∀ base offset, kind ≠ .gep base offset)

namespace Module

variable {m : Module} {f f' : Function} {limits : Limits} {call : InstId} {name : String}
  {family : CompareFamily} {foldCase : Bool} {lhs rhs : Side} {first second : Value}

open Checked (LeadsAlike)

theorem constantBytesWithin_kept (h : f.KeepsAddresses f') {depth depth' : Nat}
    (hle : depth ≤ depth') {value : Value} {bytes? : Option (List UInt8)}
    (hbytes : m.constantBytesWithin f depth value = .ok bytes?) :
    m.constantBytesWithin f' depth' value = .ok bytes? := by
  induction depth using Nat.strong_induction_on generalizing depth' value bytes? with | _ depth ih
  cases value with
  | inst id =>
    unfold constantBytesWithin at hbytes ⊢
    obtain ⟨kind, hkind, hbytes⟩ := Checked.bind_eq_ok.mp hbytes
    obtain ⟨kind', hkind', hcases⟩ := h.kinds id kind hkind
    refine Checked.bind_eq_ok.mpr ⟨kind', hkind', ?_⟩
    obtain rfl | ⟨hphi, hnot⟩ := hcases
    · split at hbytes
      · next base width bits =>
        split at hbytes
        · cases hbytes
        · next depth _ =>
          obtain ⟨depth', rfl⟩ := Nat.exists_eq_add_of_le' (Nat.le_trans (Nat.succ_pos _) hle)
          obtain ⟨data?, hdata, hbytes⟩ := Checked.bind_eq_ok.mp hbytes
          exact Checked.bind_eq_ok.mpr ⟨data?, ih depth depth.lt_succ_self
            (Nat.le_of_succ_le_succ hle) hdata, hbytes⟩
      · exact hbytes
    · cases kind' <;> cases hphi
      split at hbytes
      · exact absurd rfl (hnot _ _)
      · exact hbytes
  | _ => simpa only [constantBytesWithin] using hbytes

theorem constantBytes?_kept (h : f.KeepsAddresses f') {value : Value}
    {bytes? : Option (List UInt8)} (hbytes : m.constantBytes? f value = .ok bytes?) :
    m.constantBytes? f' value = .ok bytes? :=
  constantBytesWithin_kept h h.size hbytes

section

variable (h : f.KeepsAddresses f') (hplace : ∃ provenance, f'.provenance call = .ok provenance)
include hplace

theorem inspectLength_kept {len : Nat} {keyword : Option (List UInt8)} :
    LeadsAlike (inspectLength f limits call name family foldCase lhs rhs len keyword)
      (inspectLength f' limits call name family foldCase lhs rhs len keyword) := by
  unfold inspectLength
  split
  · exact .refl _
  · split
    · exact .remark hplace
    · exact .refl _

theorem inspectConstant_kept {data : List UInt8} {limit : Option Nat} :
    LeadsAlike (inspectConstant f limits call name family foldCase lhs rhs data limit)
      (inspectConstant f' limits call name family foldCase lhs rhs data limit) := by
  unfold inspectConstant
  split
  · exact inspectLength_kept hplace
  · dsimp only
    split
    · exact .remark hplace
    · exact inspectLength_kept hplace

include h

theorem inspectCall_kept {limit : Option Nat} :
    LeadsAlike (m.inspectCall f limits call name family foldCase first second limit)
      (m.inspectCall f' limits call name family foldCase first second limit) := by
  unfold inspectCall
  refine .bind (fun _ => constantBytes?_kept h) fun left? _ => ?_
  refine .bind (fun _ => constantBytes?_kept h) fun right? _ => ?_
  cases left? with
  | none =>
    cases right? with
    | none =>
      cases limit with
      | none => exact .refl _
      | some len => exact inspectLength_kept hplace
    | some data => exact inspectConstant_kept hplace
  | some data =>
    cases right? with
    | none => exact inspectConstant_kept hplace
    | some _ => exact .remark hplace

/-- An instruction that is as before leads to the same call as before. -/
theorem inspect_kept (hkind : f'.kind call = f.kind call) :
    LeadsAlike (m.inspect f limits call) (m.inspect f' limits call) := by
  unfold inspect
  refine .bind (fun kind hk => hkind.trans hk) fun kind _ => ?_
  split
  case h_2 => exact .refl _
  next target args ret =>
  refine .bind (fun _ => id) fun g _ => ?_
  split
  · exact .refl _
  split
  · exact .refl _
  split
  · exact .refl _
  -- Without a constant bound the operands are looked at all the same.
  have hnothing : ∀ a b : Value, LeadsAlike (do
      let _ ← m.constantBytes? f a
      let _ ← m.constantBytes? f b
      return Inspection.nothing) (do
      let _ ← m.constantBytes? f' a
      let _ ← m.constantBytes? f' b
      return Inspection.nothing) := fun a b =>
    .bind (fun _ => constantBytes?_kept h) fun _ _ =>
      .bind (fun _ => constantBytes?_kept h) fun _ _ => .refl _
  split
  · exact inspectCall_kept h hplace
  · split
    · exact inspectCall_kept h hplace
    · exact hnothing _ _
  · split
    · exact inspectCall_kept h hplace
    · exact hnothing _ _
  · exact .refl _

end

/-! ## What is left in a function -/

/-- Looking at an instruction comes to its end without a call that can be taken apart. -/
def LeadsNowhere (m : Module) (f : Function) (limits : Limits) (i : InstId) : Prop :=
  ∃ r, m.inspect f limits i = .ok r ∧ r.site? = none

theorem LeadsNowhere.kept (hnowhere : m.LeadsNowhere f limits call) (h : f.KeepsAddresses f')
    (hplace : ∃ provenance, f'.provenance call = .ok provenance)
    (hkind : f'.kind call = f.kind call) : m.LeadsNowhere f' limits call := by
  obtain ⟨r, hr, hnone⟩ := hnowhere
  obtain ⟨r', hr', hsite⟩ := inspect_kept h hplace hkind r hr
  exact ⟨r', hr', hsite.trans hnone⟩

/-- Only a call leads anywhere. -/
theorem leadsNowhere_of_kind {kind : InstKind} (hkind : f.kind call = .ok kind)
    (hcall : kind.isCall = false) : m.LeadsNowhere f limits call := by
  refine ⟨.nothing, ?_, rfl⟩
  unfold inspect
  refine Checked.bind_eq_ok.mpr ⟨kind, hkind, ?_⟩
  split
  · cases hcall
  · rfl

end Module

/-- The calls of a function that can be taken apart are all among these. -/
def Function.LeavesOnly (f : Function) (m : Module) (limits : Limits) (calls : List InstId) : Prop :=
  ∀ i b pos, f.Listed i b pos → i ∈ calls ∨ m.LeadsNowhere f limits i

section

variable {m : Module} {limits : Limits} {f f' : Function} {c : Cut} {join first : BlockId}
  {rest : List BlockId} {site : StringSite} {target : FuncId} {args : List Value} {ret : Ty}
  {i : InstId} {b : BlockId} {pos : Nat}

theorem Opened.keepsAddresses {parts : List Part} {now : InstKind}
    (h : Opened f c join parts now f') (hnow : now.isPhi = true)
    (hkind : f.kind c.site = .ok (.call (.direct target) args ret)) : f.KeepsAddresses f' where
  size := h.sizeInsts
  kinds := by
    intro id kind hid
    by_cases hsite : id = c.site
    · subst hsite
      obtain rfl := Except.ok.inj (hkind.symm.trans hid)
      exact ⟨now, h.site, .inr ⟨hnow, nofun⟩⟩
    · obtain hsame | ⟨-, hrenamed⟩ := h.kinds id kind hsite hid
      · exact ⟨kind, hsame, .inl rfl⟩
      · refine ⟨_, hrenamed, ?_⟩
        cases kind with
        | phi _ _ => exact .inr ⟨rfl, nofun⟩
        | _ => exact .inl rfl

variable (m limits) in
/-- When a call has been taken apart, what the others lead to is what they led to before, and nothing
new leads anywhere. -/
theorem Opened.listed_nowhere (h : Opened f c join (site.parts c join first rest f.insts.size)
      (.phi .i32 (site.entries 0 f.insts.size first rest)) f') (hf : f.Tidy) (hf' : f'.Tidy)
    (hc : c.Of f) (hkind : f.kind c.site = .ok (.call (.direct target) args ret))
    (hi : f'.Listed i b pos) :
    m.LeadsNowhere f' limits i ∨ i ≠ c.site ∧ (∃ b pos, f.Listed i b pos) ∧
      (m.LeadsNowhere f limits i → m.LeadsNowhere f' limits i) := by
  by_cases hsite : i = c.site
  · subst hsite
    exact .inl (Module.leadsNowhere_of_kind h.site rfl)
  have hold : ∀ b pos, f.Listed i b pos → m.LeadsNowhere f' limits i ∨ i ≠ c.site ∧
      (∃ b pos, f.Listed i b pos) ∧ (m.LeadsNowhere f limits i → m.LeadsNowhere f' limits i) := by
    intro b₀ pos₀ hlisted
    obtain ⟨kind, hk⟩ := hf.exists_kind hlisted
    have haddresses := h.keepsAddresses rfl hkind
    obtain ⟨kind', hk', rfl | ⟨hphi, -⟩⟩ := haddresses.kinds i kind hk
    · obtain ⟨provenance, hplace, -⟩ := hf'.provenance_yields hi
      exact .inr ⟨hsite, ⟨b₀, pos₀, hlisted⟩, fun hnowhere =>
        hnowhere.kept haddresses ⟨provenance, hplace⟩ (hk'.trans hk.symm)⟩
    · cases kind' <;> cases hphi
      exact .inl (Module.leadsNowhere_of_kind hk' rfl)
  obtain ⟨hlisted, -⟩ | ⟨-, hlisted⟩ | ⟨p, hp, -, -, k, hgiven⟩ := h.listed_cases hf.closed hc hi
  · exact hold _ _ hlisted
  · exact hold _ _ hlisted
  · -- The code of the chain computes words and reads memory.
    obtain ⟨-, inst, hinst, rfl, -⟩ := h.given p hp _ hgiven
    obtain rfl | hchain := StringSite.mem_parts hp
    · cases hgiven
    · obtain ⟨index, k, hstands, -⟩ := StringSite.mem_chain hchain
      exact .inl (Module.leadsNowhere_of_kind (Function.kind_eq_ok.mpr ⟨inst, hinst, rfl⟩)
        (InstKind.isCall_of_isPlain
          (StringSite.isPlain_of_mem_linkCode (hstands.mem_linkCode hgiven))))

end

namespace Function

variable {m : Module} {limits : Limits} {id : FuncId} {f f' f₀ : Function} {calls : List InstId}

theorem LeavesOnly.withAnnotations (hleft : f.LeavesOnly m limits calls) (hf : f.Tidy)
    (annotations : Annotations) : ({ f with annotations } : Function).LeavesOnly m limits calls := by
  intro i b pos hi
  obtain ⟨provenance, hplace, -⟩ := (hf.withAnnotations annotations).provenance_yields hi
  exact (hleft i b pos hi).imp_right fun hnowhere =>
    hnowhere.kept ⟨le_rfl, fun _ kind hkind => ⟨kind, hkind, .inl rfl⟩⟩ ⟨provenance, hplace⟩ rfl

/-- Taking apart the first of the calls leaves the others. -/
theorem LeavesOnly.unroll {site : StringSite} (hleft : f.LeavesOnly m limits (site.call :: calls))
    (h : Unrolling m limits id f₀ (site.call :: calls) f) (hid : m.function id = .ok f₀)
    (hnot : site.call ∉ calls) (hsite : m.inspect f₀ limits site.call = .ok (.site site))
    (hlisted₀ : ∃ b pos, f₀.Listed site.call b pos)
    (hdoes : (Edit.unroll site limits).Does f () f') : f'.LeavesOnly m limits calls := by
  obtain ⟨-, target, g, args, ret, first, second, limit, hfound⟩ := Module.inspect_eq_site hsite
  obtain ⟨_, -, hkind₀, hkind⟩ := h.kinds site.call List.mem_cons_self
  obtain rfl := Except.ok.inj (hfound.kind.symm.trans hkind₀)
  obtain ⟨annotations, c, join, front, rest, -, hc, hcall, hopened, -⟩ :=
    h.opened hid hsite hlisted₀ hdoes
  have hleft := hleft.withAnnotations h.tidy annotations
  have hend := h.unroll hid hnot hsite hlisted₀ hdoes
  have hkindSite : ({ f with annotations } : Function).kind c.site =
      .ok (.call (.direct target) args ret) := hcall ▸ hkind
  intro i b pos hi
  obtain hnowhere | ⟨hne, ⟨b₀, pos₀, hlisted⟩, hkept⟩ := hopened.listed_nowhere m limits
    (h.tidy.withAnnotations annotations) hend.tidy hc hkindSite hi
  · exact .inr hnowhere
  · obtain hmem | hnowhere := hleft i b₀ pos₀ hlisted
    · exact .inl ((List.mem_cons.mp hmem).resolve_left (hcall ▸ hne))
    · exact .inr (hkept hnowhere)

end Function

/-! ## What is left in a module -/

namespace Module

variable {m : Module} {limits : Limits} {f : Function} {sites : List StringSite}

theorem Collects.leavesOnly (h : m.Collects f limits sites) :
    f.LeavesOnly m limits (sites.map StringSite.call) := by
  obtain ⟨found, hfound, rfl⟩ := h
  obtain ⟨ids, hids, hfound⟩ := Checked.bind_eq_ok.mp hfound
  intro i b pos hi
  obtain ⟨r, hr, hinspect⟩ := Checked.exists_result hfound (Function.mem_liveInsts hids hi)
  cases hsite : r.site? with
  | none => exact .inr ⟨r, hinspect, hsite⟩
  | some site =>
    cases r with
    | site s =>
      obtain rfl := Option.some.inj hsite
      refine .inl (List.mem_map.mpr ⟨s, List.mem_filterMap.mpr ⟨.site s, hr, rfl⟩, ?_⟩)
      exact (inspect_eq_site hinspect).1
    | _ => cases hsite

/-- Where nothing is left, nothing is collected. -/
theorem collects_nil (hf : f.Tidy) (h : f.LeavesOnly m limits []) : m.Collects f limits [] := by
  obtain ⟨ids, hids⟩ := hf.closed.liveInsts_eq_ok
  have hall : ∀ i ∈ ids, m.LeadsNowhere f limits i := by
    intro i hi
    obtain ⟨b, pos, hlisted⟩ := Function.listed_of_liveInsts hids hi
    exact (h i b pos hlisted).resolve_left List.not_mem_nil
  have hfound : ∃ found, ids.mapM (m.inspect f limits) = .ok found ∧
      found.filterMap Inspection.site? = [] := by
    clear hids
    induction ids with
    | nil => exact ⟨[], rfl, rfl⟩
    | cons i rest ih =>
      obtain ⟨⟨r, hr, hnone⟩, hrest⟩ := List.forall_mem_cons.mp hall
      obtain ⟨found, hfound, hnil⟩ := ih hrest
      refine ⟨r :: found, Checked.mapM_eq_ok.mpr (.cons hr (Checked.mapM_eq_ok.mp hfound)), ?_⟩
      rw [List.filterMap_cons_none hnone, hnil]
  obtain ⟨found, hfound, hnil⟩ := hfound
  exact ⟨found, Checked.bind_eq_ok.mpr ⟨ids, hids, hfound⟩, hnil.symm⟩

end Module

namespace Pass

variable {m m₀ : Module} {config : Config} {id : FuncId} {f f₀ : Function} {s s' : PassState}
  {site : StringSite} {calls : List InstId} {stats stats' : StringStats}

/-- Where all comparisons are taken apart, a call loses tokens of its readers and is taken apart. -/
theorem splitString_all (hconvert : config.convert = .all) (hid : id.index < m.functions.size)
    (hs : s.module = m.setFunction id f)
    (hdoes : (splitString config id stats site).Does s stats' s') :
    ∃ annotations f', f.KeepsTokens { f with annotations } ∧
      (Edit.unroll site config.limits).Does { f with annotations } () f' ∧
      s'.module = m.setFunction id f' := by
  have hrest : ∀ {stats s₁} annotations, s₁.module = m.setFunction id { f with annotations } →
      (unrollWanted config id site stats).Does s₁ stats' s' →
        ∃ f', (Edit.unroll site config.limits).Does { f with annotations } () f' ∧
          s'.module = m.setFunction id f' := by
    intro stats s₁ annotations hs₁ hdoes
    obtain ⟨wanted, s₂, hwanted, hdoes⟩ := does_bind.mp hdoes
    obtain ⟨rfl, hdecided⟩ := wantsUnrolling_cases
      (by rw [hs₁, Module.function_setFunction hid, if_pos rfl]) hwanted
    cases wanted with
    | false => exact absurd hconvert hdecided
    | true =>
      obtain ⟨u, s₃, hunroll, hdoes⟩ := does_bind.mp hdoes
      obtain ⟨-, rfl⟩ := does_pure.mp hdoes
      exact inFunction_setFunction hid hs₁ hunroll
  unfold splitString at hdoes
  split at hdoes
  · obtain ⟨recorded, s₁, hrecord, hdoes⟩ := does_bind.mp hdoes
    obtain ⟨-, hs₁⟩ | ⟨token, f₁, -, -, -, hattach, hs₁⟩ := recordKeyword_cases hid hs hrecord
    · obtain ⟨f', hedit, hs'⟩ := hrest f.annotations (hs₁.trans hs) hdoes
      exact ⟨f.annotations, f', fun _ => .inl, hedit, hs'⟩
    · obtain ⟨annotations, rfl, htokens⟩ := Edit.attachToResultUsers_does hattach
      obtain ⟨f', hedit, hs'⟩ := hrest annotations hs₁ hdoes
      exact ⟨annotations, f', htokens, hedit, hs'⟩
  · obtain ⟨recorded, s₁, hpure, hdoes⟩ := does_bind.mp hdoes
    obtain ⟨-, rfl⟩ := does_pure.mp hpure
    obtain ⟨f', hedit, hs'⟩ := hrest f.annotations hs hdoes
    exact ⟨f.annotations, f', fun _ => .inl, hedit, hs'⟩

/-- When the calls that were found in a function have had their turn, none is left. -/
theorem splitStringsIn_leavesOnly (hconvert : config.convert = .all)
    (hheaders : m₀.SameHeaders s.module) (hid : s.module.function id = .ok f₀)
    (hid₀ : m₀.function id = .ok f₀) (hf₀ : f₀.Tidy)
    (honce : ∀ ids, f₀.liveInsts = .ok ids → ids.Nodup)
    (hdoes : (splitStringsIn config stats id).Does s stats' s') :
    ∃ f', s'.module = s.module.setFunction id f' ∧ f₀.SameHeader f' ∧
      f'.Tidy ∧ f'.LeavesOnly m₀ config.limits [] := by
  obtain ⟨sites, s₁, hsites, hs₁, hdoes⟩ := splitStringsIn_does hheaders hid hdoes
  have hlt := Module.index_lt_of_function hid
  have hloop := hdoes.foldlM_rest (fun rest s₂ => ∃ f',
    s₂.module = s.module.setFunction id f' ∧ (∀ site ∈ rest, site ∈ sites) ∧
    (rest.map StringSite.call).Nodup ∧
    f₀.Unrolling m₀ config.limits id (rest.map StringSite.call) f' ∧
    f'.LeavesOnly m₀ config.limits (rest.map StringSite.call)) ?_
    ⟨f₀, hs₁.trans (Module.setFunction_self hid).symm, fun _ hmem => hmem, hsites.nodup honce,
      hsites.unrolling hf₀, hsites.leavesOnly⟩
  · obtain ⟨f', hs', -, -, hend, hleft⟩ := hloop
    exact ⟨f', hs', hend.sameHeader, hend.tidy, hleft⟩
  · rintro site rest stats stats' s₂ s₃ ⟨f₂, hs₂, hmem, hnodup, h₂, hleft⟩ hstep
    obtain ⟨hnot, hnodup⟩ := List.nodup_cons.mp hnodup
    obtain ⟨hsite, hmem⟩ := List.forall_mem_cons.mp hmem
    obtain ⟨hinspect, hlisted⟩ := hsites.inspect hsite
    obtain ⟨annotations, f', htokens, hedit, hs₃⟩ := splitString_all hconvert hlt hs₂ hstep
    have hmoved := h₂.withAnnotations htokens
    have hleft := hleft.withAnnotations h₂.tidy annotations
    exact ⟨f', hs₃, hmem, hnodup, hmoved.unroll hid₀ hnot hinspect hlisted hedit,
      hleft.unroll hmoved hid₀ hnot hinspect hlisted hedit⟩

/-! ## Another run -/

theorem exists_sitesOf (found : List Inspection) (s : PassState) :
    ∃ s', (sitesOf found).Does s (found.filterMap Inspection.site?) s' := by
  induction found generalizing s with
  | nil => exact ⟨s, does_pure.mpr ⟨rfl, rfl⟩⟩
  | cons result found ih =>
    cases result with
    | nothing => exact ih s
    | remark r =>
      obtain ⟨s', h⟩ := ih { s with log := r :: s.log }
      exact ⟨s', does_bind.mpr ⟨(), _, rfl, h⟩⟩
    | site site =>
      obtain ⟨s', h⟩ := ih s
      exact ⟨s', does_bind.mpr ⟨_, s', h, does_pure.mpr ⟨rfl, rfl⟩⟩⟩

/-- Where nothing is collected, nothing is done. -/
theorem exists_splitStringsIn (hid : s.module.function id = .ok f)
    (hnone : s.module.Collects f config.limits []) (stats : StringStats) :
    ∃ s', (splitStringsIn config stats id).Does s stats s' ∧ s'.module = s.module := by
  obtain ⟨found, hfound, hnil⟩ := hnone
  obtain ⟨s', hsites⟩ := exists_sitesOf found s
  refine ⟨s', does_bind.mpr ⟨found, s, does_query.mpr ⟨?_, rfl⟩, ?_⟩, (sitesOf_does hsites).2⟩
  · exact Checked.bind_eq_ok.mpr ⟨f, hid, hfound⟩
  · exact does_bind.mpr ⟨[], s', hnil ▸ hsites, does_pure.mpr ⟨rfl, rfl⟩⟩

theorem exists_splitStrings (hnone : ∀ id f, s.module.function id = .ok f →
      s.module.Collects f config.limits []) :
    ∃ s', (splitStrings config).Does s {} s' ∧ s'.module = s.module := by
  have hloop := exists_foldlM_along (b := {})
    (fun stats s₁ => stats = ({} : StringStats) ∧ s₁.module = s.module)
    (l := s.module.functionIds) (g := splitStringsIn config) (s := s) ?_ ⟨rfl, rfl⟩
  · obtain ⟨stats, s₁, hloop, rfl, hs₁⟩ := hloop
    have hreport : ∃ s₂, (do
        reportCount 0 "STRCMP"
        reportCount 0 "STRNCMP"
        reportCount 0 "MEMCMP"
        reportRecorded 0
        return {} : Pass StringStats).Does s₁ {} s₂ := ⟨_, rfl⟩
    obtain ⟨s₂, hreport⟩ := hreport
    refine ⟨s₂, does_bind.mpr ⟨_, s, does_functionIds.mpr ⟨rfl, rfl⟩,
      does_bind.mpr ⟨{}, s₁, hloop, hreport⟩⟩, ?_⟩
    rw [silent_reportStrings {} s₁ {} s₂ hreport, hs₁]
  · rintro id hid stats s₁ ⟨rfl, hs₁⟩
    obtain ⟨f, hf⟩ := Module.exists_function (Module.mem_functionIds.mp hid)
    have hf₁ : s₁.module.function id = .ok f := hs₁ ▸ hf
    have hnone₁ : s₁.module.Collects f config.limits [] := hs₁ ▸ hnone id f hf
    obtain ⟨s₂, hdoes, hs₂⟩ := exists_splitStringsIn hf₁ hnone₁ {}
    exact ⟨{}, s₂, hdoes, rfl, hs₂.trans hs₁⟩

end Pass

namespace Module

variable {m : Module}

/-- Where all comparisons are taken apart, no call of an accepted module that lists nothing twice can
be taken apart any more after a run. Another run comes to its end, counts nothing and changes
nothing. -/
theorem Accepted.strings_exhausted (hm : m.Accepted) (honce : m.ListsOnce) {config : Config}
    (hconvert : config.convert = .all) {stats : StringStats} {s : PassState}
    (h : (Pass.splitStrings config).runOn m = .ok (.ok stats, s)) :
    (∀ id f, s.module.function id = .ok f → s.module.Collects f config.limits []) ∧
      ∃ s', (Pass.splitStrings config).runOn s.module = .ok (.ok {}, s') ∧
        s'.module = s.module := by
  have hheaders : m.SameHeaders s.module :=
    (Pass.splitStrings_steps (s := { module := m }) (hm.tidy honce) honce h).sameHeaders
  have hnone : ∀ id f, s.module.function id = .ok f → s.module.Collects f config.limits [] := by
    intro id f hid
    obtain ⟨f₀, hid₀⟩ : ∃ f₀, m.function id = .ok f₀ :=
      exists_function (hheaders.size ▸ index_lt_of_function hid)
    have hdone : f.Tidy ∧ f.LeavesOnly m config.limits [] :=
      Pass.splitStrings_each (fun id f₀ s s' stats stats' hheaders hid hid₀ hdoes =>
        Pass.splitStringsIn_leavesOnly hconvert hheaders hid hid₀ (hm.tidy honce id f₀ hid₀)
          (honce id f₀ hid₀) hdoes) h hid₀ hid
    obtain ⟨found, hfound, hnil⟩ := collects_nil hdone.1 hdone.2
    exact ⟨found, hheaders.inspections.trans hfound, hnil⟩
  exact ⟨hnone, Pass.exists_splitStrings (s := { module := s.module }) hnone⟩

theorem strings_exhausted_strings : ∃ stats s,
    (Pass.splitStrings (.coverage .all)).runOn (strings 32) = .ok (.ok stats, s) ∧
      (∀ id f, s.module.function id = .ok f → s.module.Collects f (Config.coverage .all).limits []) ∧
      ∃ s', (Pass.splitStrings (.coverage .all)).runOn s.module = .ok (.ok {}, s') ∧
        s'.module = s.module := by
  have hlocal : (strings 32).isLocal = true := by decide +kernel
  obtain ⟨stats, s, h⟩ := Pass.exists_of_completes
    (show Pass.completes ((Pass.splitStrings (.coverage .all)).runOn (strings 32)) = true by
      decide +kernel)
  exact ⟨stats, s, h, (accepted_of_isLocal hlocal).strings_exhausted
    (listsOnce_of_isLocal hlocal) rfl h⟩

end Module

end EdgeProbe
