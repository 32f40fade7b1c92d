import EdgeProbe.Proofs.Lowering.Readers
import EdgeProbe.Proofs.Lowering.Recorded

/-!
# String comparisons that stay whole

Where comparisons are spared that a token has been made of, a call with a constant side stays whole,
and what asks for its result carries the constant, or that of another call for the result of which
it asks as well. A call with no constant side is taken apart unless a reader carries a string
already. So each call is taken apart or has its constant recorded, if nothing stands in the way of
that: `Module.Accepted.whole_recorded`. Whether a call is spared is not asked of what became of its
token, and what can stand in the way does: `Module.overlooking_whole`.
-/

namespace EdgeProbe

namespace Annotations

variable {a : Annotations} {inst i : InstId} {chosen : Token → Bool}

/-- Where nothing is chosen nothing is taken. -/
theorem take_of_none (h : ∀ token ∈ a.get inst, chosen token = false) :
    (a.take inst chosen).1 = [] ∧ (a.take inst chosen).2.get i = a.get i := by
  unfold take
  split
  · refine ⟨List.filter_eq_nil_iff.mpr fun token htoken => by simp [h token htoken], ?_⟩
    rw [get_modify]
    split
    · next heq =>
      subst heq
      exact List.filter_eq_self.mpr fun token htoken => by simp [h token htoken]
    · rfl
  · exact ⟨rfl, rfl⟩

end Annotations

/-- A recorded constant side of a call is a string. -/
theorem Token.isString_comparedString {token : Token} (horigin : token.origin = .comparedString)
    (hslot : token.slot = none) : token.isString = true := by
  simp [isString, horigin, hslot, Origin.tagClass]

namespace Function

/-- An instruction carries a string. -/
def CarriesString (f : Function) (i : InstId) : Prop :=
  ∃ token ∈ f.annotations.get i, token.isString = true

/-- An instruction carries the constant side of one of the calls for the results of which it asked
at first. -/
def CarriesKeyword (limits : Limits) (sites : List StringSite) (f₀ f : Function) (i : InstId) : Prop :=
  ∃ site ∈ sites, ∃ keyword, site.keyword = some keyword ∧ f₀.Asks site.call i ∧
    ∃ token ∈ f.annotations.get i, token.origin = .comparedString ∧
      Token.encode? limits true keyword = some token.value

/-- An instruction carried a string at first, or asks for the result of a call with a constant
side. -/
def MayCarryString (f : Function) (sites : List StringSite) (i : InstId) : Prop :=
  f.CarriesString i ∨ ∃ site ∈ sites, site.keyword.isSome = true ∧ f.Asks site.call i

/-- What has been done about a call. -/
inductive Resolved (limits : Limits) (sites : List StringSite) (f₀ f : Function) (site : StringSite) :
    Prop
  | unrolled {entries : List (Value × BlockId)} (hkeyword : site.keyword = none)
    (h : f.kind site.call = .ok (.phi .i32 entries))
  | spared {i : InstId} (hkeyword : site.keyword = none) (hreads : f₀.Reads site.call i)
    (h : f₀.MayCarryString sites i)
  | rejected {keyword : List UInt8} (hkeyword : site.keyword = some keyword)
    (h : Token.encode? limits true keyword = none)
  | recorded {keyword : List UInt8} (hkeyword : site.keyword = some keyword)
    (h : ∀ i, f₀.Asks site.call i → f₀.CarriesKeyword limits sites f i)

variable {limits : Limits} {sites : List StringSite} {f₀ f f' : Function} {site : StringSite}

theorem Resolved.mono (h : f₀.Resolved limits sites f site)
    (hphi : ∀ entries, f.kind site.call = .ok (.phi .i32 entries) →
      ∃ entries, f'.kind site.call = .ok (.phi .i32 entries))
    (hkeyword : ∀ i, f₀.CarriesKeyword limits sites f i → f₀.CarriesKeyword limits sites f' i) :
    f₀.Resolved limits sites f' site := by
  cases h with
  | unrolled hnone h =>
    obtain ⟨entries, h⟩ := hphi _ h
    exact .unrolled hnone h
  | spared hnone hreads h => exact .spared hnone hreads h
  | rejected hsome h => exact .rejected hsome h
  | recorded hsome h => exact .recorded hsome fun i hi => hkeyword i (h i hi)

end Function

/-! ## Edits -/

namespace Edit

variable {f f' : Function} {call : InstId} {token : Token} {limits : Limits}

/-- The constant side of a call comes to what asks for the result, and to nothing else. -/
theorem attachToResultUsers_records {count : Nat} (horigin : token.origin = .comparedString)
    (hdoes : (attachToResultUsers call token limits).Does f count f') :
    (∀ i, f.Asks call i → { token with slot := none } ∈ f'.annotations.get i) ∧
      ∀ i, ¬f.Asks call i → f'.annotations.get i = f.annotations.get i := by
  obtain ⟨users, f₁, hquery, hdoes⟩ := does_bind.mp hdoes
  obtain ⟨rfl, husers⟩ := resultUsers_does hquery
  obtain ⟨u, f₂, hattach, hdoes⟩ := does_bind.mp hdoes
  obtain ⟨-, rfl⟩ := does_pure.mp hdoes
  have hend := hattach.forM_rest (fun rest f₁ => (∀ user ∈ rest, f.Asks call user) ∧
    (∀ i, f.Asks call i → i ∈ rest ∨ { token with slot := none } ∈ f₁.annotations.get i) ∧
      ∀ i, ¬f.Asks call i → f₁.annotations.get i = f.annotations.get i) ?_
    ⟨fun user => (husers user).mp, fun i hi => .inl ((husers i).mpr hi), fun _ _ => rfl⟩
  · exact ⟨fun i hi => (hend.2.1 i hi).resolve_left List.not_mem_nil, hend.2.2⟩
  · rintro user rest f₁ f₂ ⟨hasks, hrecorded, hothers⟩ hstep
    have hsingle : token.origin.isMultiple = false := by rw [horigin]; rfl
    obtain rfl := does_attach_single hsingle hstep
    refine ⟨fun user hmem => hasks user (List.mem_cons_of_mem _ hmem), fun i hi => ?_, fun i hi => ?_⟩
    · simp only [Annotations.get_modify]
      by_cases heq : i = user
      · simp [heq]
      · rw [if_neg heq]
        exact (hrecorded i hi).imp_left fun hmem => (List.mem_cons.mp hmem).resolve_left heq
    · have hne : i ≠ user := fun heq => hi (heq ▸ hasks user List.mem_cons_self)
      simp only [Annotations.get_modify, if_neg hne]
      exact hothers i hi

/-- Nothing is taken from readers that carry no string. -/
theorem takeStrings_of_none {found r : Option Token} {ids : List InstId}
    (hnone : ∀ i ∈ ids, ¬f.CarriesString i) (hdoes : (takeStrings found ids).Does f r f') :
    r = found ∧ ∀ i, f'.annotations.get i = f.annotations.get i := by
  induction ids generalizing found f with
  | nil =>
    obtain ⟨rfl, rfl⟩ := does_pure.mp hdoes
    exact ⟨rfl, fun _ => rfl⟩
  | cons user rest ih =>
    obtain ⟨kind, f₂, hkind, hdoes⟩ := does_bind.mp hdoes
    obtain ⟨-, rfl⟩ := kind_does.mp hkind
    obtain ⟨huser, hrest⟩ := List.forall_mem_cons.mp hnone
    have htake : (do
        let taken := ((← get).annotations.take user Token.isString).1
        setAnnotations fun a => (a.take user Token.isString).2
        takeStrings (found.or taken.head?) rest : Edit (Option Token)).Does f r f' →
        r = found ∧ ∀ i, f'.annotations.get i = f.annotations.get i := by
      intro hdoes
      obtain ⟨g, f₃, hget, hdoes⟩ := does_bind.mp hdoes
      obtain ⟨rfl, rfl⟩ := does_get.mp hget
      obtain ⟨u, f₄, hset, hdoes⟩ := does_bind.mp hdoes
      obtain rfl := does_setAnnotations.mp hset
      have hchosen : ∀ token ∈ f.annotations.get user, token.isString = false := fun token htoken =>
        Bool.eq_false_iff.mpr fun hstring => huser ⟨token, htoken, hstring⟩
      have hkept : ∀ i, (f.annotations.take user Token.isString).2.get i = f.annotations.get i :=
        fun i => (Annotations.take_of_none hchosen).2
      rw [(Annotations.take_of_none (i := user) hchosen).1] at hdoes
      have hrest' : ∀ i ∈ rest, ¬Function.CarriesString
          { f with annotations := (f.annotations.take user Token.isString).2 } i := by
        rintro i hi ⟨token, htoken, hstring⟩
        exact hrest i hi ⟨token, hkept i ▸ htoken, hstring⟩
      obtain ⟨rfl, hget⟩ := ih hrest' hdoes
      exact ⟨by simp, fun i => (hget i).trans (hkept i)⟩
    cases kind with
    | icmp pred lhs rhs => exact htake hdoes
    | phi ty incoming => exact htake hdoes
    | _ => exact ih hrest hdoes

/-- Taking a call apart whose readers carry no string leaves the tokens as they are. -/
theorem unroll_annotations {site : StringSite} {u : Unit}
    (hnone : ∀ i, f.Reads site.call i → ¬f.CarriesString i)
    (hdoes : (unroll site limits).Does f u f') :
    ∀ i, f'.annotations.get i = f.annotations.get i := by
  have hcode : Function.OfCode fun f f' => ∀ i, f'.annotations.get i = f.annotations.get i :=
    ⟨fun h i => by rw [h.annotations], fun h h' i => (h' i).trans (h i)⟩
  refine keeps_unroll hcode (fun users token f₁ husers htaken => ?_) hdoes
  obtain ⟨rfl, hget⟩ := takeStrings_of_none
    (fun i hi => hnone i ((Function.mem_instUsers husers).mp hi)) htaken
  exact ⟨hget, by simp⟩

end Edit

/-! ## The loops of the pass -/

namespace Function

/-- What a function has become in the course of the loop over the calls that were found in it, with
those that are still to come, where recorded comparisons are spared. -/
structure Sparing (m : Module) (limits : Limits) (id : FuncId) (sites : List StringSite)
    (f₀ : Function) (rest : List StringSite) (f : Function) : Prop where
  unrolling : f₀.Unrolling m limits id (rest.map StringSite.call) f
  readers : f₀.SameReaders f
  tokens : ∀ i, f.annotations.get i ≠ [] → i.index < f₀.insts.size
  nodup : (rest.map StringSite.call).Nodup
  found : ∀ site ∈ rest, site ∈ sites
  strings : ∀ i, f.CarriesString i → f₀.MayCarryString sites i
  resolved : ∀ site ∈ sites, site ∉ rest → f₀.Resolved limits sites f site

variable {m : Module} {limits : Limits} {id : FuncId} {sites rest : List StringSite}
  {site : StringSite} {f₀ f f' : Function}

theorem Sparing.index_lt (h : f₀.Sparing m limits id sites (site :: rest) f)
    (hsites : m.Collects f₀ limits sites) : site.call.index < f₀.insts.size := by
  have hsite := h.found site List.mem_cons_self
  obtain ⟨-, target, g, args, ret, first, second, limit, hfound⟩ :=
    Module.inspect_eq_site (hsites.inspect hsite).1
  exact Function.index_lt_of_kind hfound.kind

/-- Nothing has to be done about a call that has been dealt with. -/
theorem Sparing.skip (h : f₀.Sparing m limits id sites (site :: rest) f)
    (hresolved : f₀.Resolved limits sites f site) : f₀.Sparing m limits id sites rest f where
  unrolling := h.unrolling.weaken
  readers := h.readers
  tokens := h.tokens
  nodup := (List.nodup_cons.mp h.nodup).2
  found := fun site hsite => h.found site (List.mem_cons_of_mem _ hsite)
  strings := h.strings
  resolved := by
    intro site' hsite' hnot
    by_cases heq : site' = site
    · exact heq ▸ hresolved
    · exact h.resolved site' hsite' (by simp [heq, hnot])

/-- The constant side of a call is recorded. -/
theorem Sparing.record (h : f₀.Sparing m limits id sites (site :: rest) f)
    (hsites : m.Collects f₀ limits sites) {keyword : List UInt8}
    (hkeyword : site.keyword = some keyword) {token : Token} {count : Nat}
    (hencode : Token.encode? limits true keyword = some token.value)
    (horigin : token.origin = .comparedString)
    (hdoes : (Edit.attachToResultUsers site.call token limits).Does f count f') :
    f₀.Sparing m limits id sites rest f' := by
  obtain ⟨hrecorded, hothers⟩ := Edit.attachToResultUsers_records horigin hdoes
  obtain ⟨annotations, rfl, hkeeps⟩ := Edit.attachToResultUsers_does hdoes
  have hasks := fun i => h.readers.asks site.call i (h.index_lt hsites)
  have hmem := h.found site List.mem_cons_self
  have hown : ∀ i, f₀.Asks site.call i →
      f₀.CarriesKeyword limits sites { f with annotations } i := fun i hi =>
    ⟨site, hmem, keyword, hkeyword, hi, _, hrecorded i ((hasks i).mpr hi), horigin, hencode⟩
  have hkept : ∀ i, f₀.CarriesKeyword limits sites f i →
      f₀.CarriesKeyword limits sites { f with annotations } i := by
    rintro i ⟨site', hsite', keyword', hkeyword', hi', token, htoken, horigin, hvalue⟩
    by_cases hi : f.Asks site.call i
    · exact hown i ((hasks i).mp hi)
    · exact ⟨site', hsite', keyword', hkeyword', hi', token, (hothers i hi).symm ▸ htoken, horigin,
        hvalue⟩
  have hmoved : f₀.Sparing m limits id sites (site :: rest) { f with annotations } :=
    { unrolling := h.unrolling.withAnnotations hkeeps
      readers := h.readers.trans (.withAnnotations f annotations)
      nodup := h.nodup
      found := h.found
      strings := by
        rintro i ⟨token, htoken, hstring⟩
        by_cases hi : f.Asks site.call i
        · exact .inr ⟨site, hmem, by rw [hkeyword]; rfl, (hasks i).mp hi⟩
        · exact h.strings i ⟨token, hothers i hi ▸ htoken, hstring⟩
      resolved := fun site' hsite' hnot =>
        (h.resolved site' hsite' hnot).mono (fun entries hphi => ⟨entries, hphi⟩) hkept
      tokens := by
        intro i hi
        by_cases hasked : f.Asks site.call i
        · obtain ⟨kind, hkind, -⟩ := ((hasks i).mp hasked).operand
          exact Function.index_lt_of_kind hkind
        · exact h.tokens i (by rwa [hothers i hasked] at hi) }
  exact hmoved.skip (.recorded hkeyword hown)

/-- A call with no constant side is taken apart. -/
theorem Sparing.unroll (h : f₀.Sparing m limits id sites (site :: rest) f)
    (hid : m.function id = .ok f₀) (hsites : m.Collects f₀ limits sites)
    (hkeyword : site.keyword = none) (hnone : ∀ i, f.Reads site.call i → ¬f.CarriesString i)
    {u : Unit} (hdoes : (Edit.unroll site limits).Does f u f') :
    f₀.Sparing m limits id sites rest f' := by
  have hmem := h.found site List.mem_cons_self
  obtain ⟨hnot, hnodup⟩ := List.nodup_cons.mp h.nodup
  obtain ⟨hinspect, hlisted⟩ := hsites.inspect hmem
  have hget := Edit.unroll_annotations hnone hdoes
  obtain ⟨annotations, c, join, first, rest', -, hc, hcall, hopened, hunrolls⟩ :=
    h.unrolling.opened hid hinspect hlisted hdoes
  have htidy := h.unrolling.tidy.withAnnotations annotations
  -- Another call that has become a phi is one still.
  have hphi : ∀ site' ∈ sites, site' ≠ site → ∀ entries, f.kind site'.call = .ok (.phi .i32 entries) →
      ∃ entries, f'.kind site'.call = .ok (.phi .i32 entries) := by
    intro site' hsite' hne entries hphi
    have hcalls : site'.call ≠ c.site := by
      rw [hcall]
      intro heq
      have hinspect' := (hsites.inspect hsite').1
      rw [heq] at hinspect'
      exact hne (Inspection.site.inj (Except.ok.inj (hinspect'.symm.trans hinspect)))
    obtain hsame | ⟨-, hrenamed⟩ := hopened.kinds site'.call _ hcalls hphi
    · exact ⟨_, hsame⟩
    · exact ⟨_, hrenamed⟩
  have hmoved : ∀ site' ∈ sites, site' ∉ rest → f₀.Resolved limits sites f' site' := by
    intro site' hsite' hnot
    by_cases heq : site' = site
    · subst heq
      exact .unrolled hkeyword (hcall ▸ hopened.site)
    · refine (h.resolved site' hsite' (by simp [heq, hnot])).mono (hphi site' hsite' heq) ?_
      rintro i ⟨site', hsite', keyword, hkeyword, hi, token, htoken, horigin, hvalue⟩
      exact ⟨site', hsite', keyword, hkeyword, hi, token, (hget i).symm ▸ htoken, horigin, hvalue⟩
  exact
    { unrolling := h.unrolling.unroll hid hnot hinspect hlisted hdoes
      readers := h.readers.trans
        ((Function.SameReaders.withAnnotations f annotations).trans (hunrolls.sameReaders htidy))
      tokens := fun i hi => h.tokens i (by rwa [hget i] at hi)
      nodup := hnodup
      found := fun site hsite => h.found site (List.mem_cons_of_mem _ hsite)
      strings := fun i ⟨token, htoken, hstring⟩ => h.strings i ⟨token, hget i ▸ htoken, hstring⟩
      resolved := hmoved }

end Function

namespace Pass

variable {m m₀ : Module} {config : Config} {id : FuncId} {f f₀ f' : Function} {s s' : PassState}
  {sites rest : List StringSite} {site : StringSite}

/-- A call without a constant side is wanted where its readers carry no string, and no other is. -/
theorem wantsUnrolling_does (hconvert : config.convert = .notDict) (hid : s.module.function id = .ok f)
    {wanted : Bool} (hdoes : (wantsUnrolling config id site).Does s wanted s') :
    s' = s ∧ if wanted then site.keyword = none ∧ ∀ i, f.Reads site.call i → ¬f.CarriesString i
      else site.keyword = none → ∃ i, f.Reads site.call i ∧ f.CarriesString i := by
  unfold wantsUnrolling at hdoes
  rw [hconvert] at hdoes
  dsimp only at hdoes
  split at hdoes
  · next hsome =>
    obtain ⟨rfl, rfl⟩ := does_pure.mp hdoes
    refine ⟨rfl, fun hnone => ?_⟩
    rw [hnone] at hsome
    cases hsome
  · next hnone =>
    obtain ⟨has, s₁, hquery, hdoes⟩ := does_bind.mp hdoes
    obtain ⟨hhas, rfl⟩ := does_query.mp hquery
    obtain ⟨rfl, rfl⟩ := does_pure.mp hdoes
    obtain ⟨f₁, hid₁, hhas⟩ := Checked.bind_eq_ok.mp hhas
    obtain rfl := Except.ok.inj (hid.symm.trans hid₁)
    obtain ⟨users, husers, hhas⟩ := Checked.bind_eq_ok.mp hhas
    obtain rfl := Checked.pure_eq_ok.mp hhas
    refine ⟨rfl, ?_⟩
    split
    · next hwanted =>
      refine ⟨by simpa using hnone, ?_⟩
      rintro i hi ⟨token, htoken, hstring⟩
      have hmem := (Function.mem_instUsers husers).mpr hi
      simp only [Bool.not_eq_true', List.any_eq_false, Bool.not_eq_true] at hwanted
      simp [hwanted i hmem token htoken] at hstring
    · next hspared =>
      intro _
      simp only [Bool.not_eq_true', Bool.not_eq_false, List.any_eq_true] at hspared
      obtain ⟨i, hmem, token, htoken, hstring⟩ := hspared
      exact ⟨i, (Function.mem_instUsers husers).mp hmem, token, htoken, hstring⟩

section

variable (hid : id.index < m.functions.size) (hs : s.module = m.setFunction id f)
include hid hs

/-- The constant side of a call is attached if it has the length of a token. -/
theorem recordKeyword_cases {call : InstId} {keyword : List UInt8} {count : Nat}
    (hdoes : (recordKeyword config id call keyword).Does s count s') :
    Token.encode? config.limits true keyword = none ∧ s'.module = s.module ∨
      ∃ token f', Token.encode? config.limits true keyword = some token.value ∧
        token.origin = .comparedString ∧ token.slot = none ∧
        (Edit.attachToResultUsers call token config.limits).Does f count f' ∧
        s'.module = m.setFunction id f' := by
  obtain ⟨provenance, s₁, hquery, hdoes⟩ := does_bind.mp hdoes
  obtain ⟨-, rfl⟩ := does_query.mp hquery
  split at hdoes
  · next token htoken =>
    obtain ⟨value, hvalue, rfl⟩ := Option.map_eq_some_iff.mp htoken
    obtain ⟨f', hattach, hs'⟩ := inFunction_setFunction hid hs hdoes
    exact .inr ⟨_, f', hvalue, rfl, rfl, hattach, hs'⟩
  · next htoken =>
    obtain ⟨u, s₂, hreport, hdoes⟩ := does_bind.mp hdoes
    obtain ⟨-, rfl⟩ := does_pure.mp hdoes
    exact .inl ⟨Option.map_eq_none_iff.mp htoken, module_of_report hreport⟩

end

/-- What the loop makes of each function, it has made of it in the end. -/
theorem splitStrings_each {done : Function → Function → Prop}
    (hstep : ∀ id f₀ s s' stats stats', m.SameHeaders s.module → s.module.function id = .ok f₀ →
      m.function id = .ok f₀ → (splitStringsIn config stats id).Does s stats' s' →
        ∃ f', s'.module = s.module.setFunction id f' ∧ f₀.SameHeader f' ∧ done f₀ f')
    {stats : StringStats} (h : (splitStrings config).runOn m = .ok (.ok stats, s))
    (hid : m.function id = .ok f) (hid' : s.module.function id = .ok f') : done f f' := by
  have h : (splitStrings config).Does { module := m } stats s := h
  unfold splitStrings at h
  obtain ⟨ids, s₁, hids, h⟩ := does_bind.mp h
  obtain ⟨rfl, rfl⟩ := does_functionIds.mp hids
  obtain ⟨stats₁, s₂, hloop, h⟩ := does_bind.mp h
  rw [silent_reportStrings stats₁ s₂ stats s h] at hid'
  have hend := hloop.foldlM_rest (fun rest s₁ => m.SameHeaders s₁.module ∧ rest.Nodup ∧
    (∀ id ∈ rest, s₁.module.function id = m.function id) ∧
    ∀ id f f', m.function id = .ok f → s₁.module.function id = .ok f' → id ∈ rest ∨ done f f') ?_ ?_
  · exact (hend.2.2.2 id f f' hid hid').resolve_left List.not_mem_nil
  · rintro id rest stats stats' s₁ s₂ ⟨hheaders, hnodup, hsame, hdone⟩ hdoes
    obtain ⟨hnot, hnodup⟩ := List.nodup_cons.mp hnodup
    obtain ⟨hfirst, hsame⟩ := List.forall_mem_cons.mp hsame
    obtain ⟨f₀, hid₁⟩ : ∃ f₀, s₁.module.function id = .ok f₀ := by
      obtain ⟨found, s₃, hquery, -⟩ := does_bind.mp hdoes
      obtain ⟨f₀, hid₁, -⟩ := Checked.bind_eq_ok.mp (does_query.mp hquery).1
      exact ⟨f₀, hid₁⟩
    have hid₀ := hfirst.symm.trans hid₁
    have hlt := Module.index_lt_of_function hid₁
    obtain ⟨f', hs₂, hheader, hnow⟩ := hstep id f₀ s₁ s₂ stats stats' hheaders hid₁ hid₀ hdoes
    refine ⟨?_, hnodup, fun i hi => ?_, fun i g g' hg hg' => ?_⟩
    · rw [hs₂]
      exact hheaders.setFunction hid₁ hheader
    · have hne : i ≠ id := fun heq => hnot (heq ▸ hi)
      rw [hs₂, Module.function_setFunction hlt, if_neg hne]
      exact hsame i hi
    · rw [hs₂, Module.function_setFunction hlt] at hg'
      split at hg'
      · next heq =>
        subst heq
        obtain rfl := Except.ok.inj hg'
        obtain rfl := Except.ok.inj (hid₀.symm.trans hg)
        exact .inr hnow
      · next hne =>
        exact (hdone i g g' hg hg').imp_left fun hmem => (List.mem_cons.mp hmem).resolve_left hne
  · refine ⟨.refl m, List.nodup_range.map fun _ _ heq => FuncId.mk.inj heq, fun _ _ => rfl, ?_⟩
    exact fun id f f' hid _ => .inl (Module.mem_functionIds.mpr (Module.index_lt_of_function hid))

end Pass

/-! ## What stays whole -/

namespace Function

variable {limits : Limits} {sites : List StringSite} {f f' : Function} {site : StringSite}

/-- Nothing stands in the way of taking a call apart or recording it. The constant side has the
length of a token, and something asks for the result that asks for no other one of a call with a
constant side. Where no side is constant, the readers of the result have nothing to do with
strings. -/
inductive Unobstructed (limits : Limits) (sites : List StringSite) (f : Function)
    (site : StringSite) : Prop
  | hasKeyword {keyword : List UInt8} {i : InstId} (hkeyword : site.keyword = some keyword)
    (hmin : limits.minTokenLen ≤ keyword.length) (hmax : keyword.length ≤ limits.maxTokenLen)
    (hasks : f.Asks site.call i)
    (halone : ∀ other ∈ sites, other.keyword.isSome = true → f.Asks other.call i → other = site)
  | noKeyword (hkeyword : site.keyword = none)
    (hreaders : ∀ i, f.Reads site.call i → ¬f.MayCarryString sites i)

/-- A call has been taken apart, or its constant side is a token of what asks for its result. -/
inductive Covered (limits : Limits) (f f' : Function) (site : StringSite) : Prop
  | unrolled {entries : List (Value × BlockId)} (h : f'.kind site.call = .ok (.phi .i32 entries))
  | recorded {keyword : List UInt8} {i : InstId} {token : Token}
    (hkeyword : site.keyword = some keyword) (hasks : f.Asks site.call i)
    (hlisted : ∃ b pos, f'.Listed i b pos) (htoken : token ∈ f'.annotations.get i)
    (horigin : token.origin = .comparedString)
    (hvalue : Token.encode? limits true keyword = some token.value)

theorem Resolved.covered (h : f.Resolved limits sites f' site)
    (hlisted : ∀ i b pos, f.Listed i b pos → ∃ b pos, f'.Listed i b pos)
    (hclear : f.Unobstructed limits sites site) : f.Covered limits f' site := by
  cases hclear with
  | @hasKeyword keyword i hkeyword hmin hmax hasks halone =>
    cases h with
    | unrolled _ h => exact .unrolled h
    | spared hnone => cases hkeyword.symm.trans hnone
    | rejected hsome hnone =>
      obtain rfl := Option.some.inj (hkeyword.symm.trans hsome)
      obtain ⟨value, hvalue⟩ := Token.exists_encode? true hmin hmax
      cases hvalue.symm.trans hnone
    | recorded _ hcarries =>
      obtain ⟨other, hother, keyword', hkeyword', hasks', token, htoken, horigin, hvalue⟩ :=
        hcarries i hasks
      obtain rfl := halone other hother (by rw [hkeyword']; rfl) hasks'
      obtain rfl := Option.some.inj (hkeyword.symm.trans hkeyword')
      obtain ⟨b, pos, hi⟩ := hasks.listed
      exact .recorded hkeyword hasks (hlisted i b pos hi) htoken horigin hvalue
  | noKeyword hnone hreaders =>
    cases h with
    | unrolled _ h => exact .unrolled h
    | spared _ hreads hstring => exact absurd hstring (hreaders _ hreads)
    | rejected hsome => cases hnone.symm.trans hsome
    | recorded hsome => cases hnone.symm.trans hsome

end Function

namespace Module

variable {m : Module}

/-- A function that asks whether a number is a certain one, and a string a certain word. -/
def sameBoth (width : Nat) (bits : UInt64) : Function where
  name := "same"
  params := [.int width, .ptr]
  ret := .i1
  blocks := #[⟨"entry", [⟨0⟩, ⟨1⟩, ⟨2⟩, ⟨3⟩], .ret (some (.inst ⟨3⟩))⟩]
  layout := [⟨0⟩]
  insts := #[
    { kind := .icmp .eq (.arg 0) (.ofWord width bits), block := some ⟨0⟩ },
    { kind := .call (.direct ⟨0⟩) [.arg 1, .global ⟨0⟩] .i32, block := some ⟨0⟩ },
    { kind := .icmp .eq (.inst ⟨1⟩) (.ofWord 32 0), block := some ⟨0⟩ },
    { kind := .binary .and (.inst ⟨0⟩) (.inst ⟨2⟩), block := some ⟨0⟩ }]

/-- That function with the word and the declaration that it needs. -/
def asking (width : Nat) (bits : UInt64) (word : List UInt8) : Module where
  name := "asking"
  globals := #[{ name := "word", constant := true, contents := some (.bytes word) }]
  functions := #[.declare "strcmp" [.ptr, .ptr] .i32, sameBoth width bits]

end Module

end EdgeProbe
