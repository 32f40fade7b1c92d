import EdgeProbe.Proofs.Probe.Correspondence

/-!
# The tokens of a dictionary

A token is recorded under the identifier of each probe that stands for its block, and under zero if
there is none. Two loops see to that: one over the probes, which notes the blocks it comes to, and
one over the live blocks that it has not come to. Main statement: `Module.Accepted.tokens_recorded`.
-/

namespace EdgeProbe

/-- A loop whose steps each add members of their own adds the members of all of them. -/
theorem Checked.foldlM_adds {ε α β γ : Type} {step : β → α → Except ε β} {I : β → Prop}
    {H : β → γ → Prop} {A : α → γ → Prop}
    (hstep : ∀ b a b', I b → step b a = .ok b' → I b' ∧ ∀ x, H b' x ↔ H b x ∨ A a x)
    {l : List α} {b b' : β} (hb : I b) (h : l.foldlM step b = .ok b') :
    I b' ∧ ∀ x, H b' x ↔ H b x ∨ ∃ a ∈ l, A a x := by
  induction l generalizing b with
  | nil =>
    obtain rfl := pure_eq_ok.mp h
    exact ⟨hb, by simp⟩
  | cons a rest ih =>
    rw [List.foldlM_cons, bind_eq_ok] at h
    obtain ⟨b₁, ha, hrest⟩ := h
    obtain ⟨hb₁, hfirst⟩ := hstep b a b₁ hb ha
    obtain ⟨hb', hlater⟩ := ih hb₁ hrest
    refine ⟨hb', fun x => ?_⟩
    rw [hlater, hfirst, or_assoc, List.exists_mem_cons_iff]

/-- An instruction of the block carries a token of which this is the record under a number. -/
def Function.Offers (f : Function) (block : BlockId) (n : Nat) (r : Dictionary.Record) : Prop :=
  ∃ blk, f.block block = .ok blk ∧ ∃ inst ∈ blk.insts, ∃ token ∈ f.annotations.get inst,
    r = ⟨token.value, Dictionary.tagFor token n⟩

theorem Dictionary.mem_recordBlock {d d' : Dictionary} {f : Function} {block : BlockId} {n : Nat}
    (h : d.recordBlock f block n = .ok d') {r : Record} :
    r ∈ d'.records ↔ r ∈ d.records ∨ f.Offers block n r := by
  have hall : ∀ (tokens : List Token) (d : Dictionary),
      r ∈ (tokens.foldl (fun d token => d.record token n) d).records ↔
        r ∈ d.records ∨ ∃ token ∈ tokens, r = ⟨token.value, tagFor token n⟩ := by
    intro tokens
    induction tokens with
    | nil => simp
    | cons token rest ih =>
      intro d
      rw [List.foldl_cons, ih, mem_record, List.exists_mem_cons_iff]
      tauto
  obtain ⟨blk, hblk, h⟩ := Checked.bind_eq_ok.mp h
  rw [← Checked.pure_eq_ok.mp h, hall]
  simp only [Function.Offers, hblk, Except.ok.injEq, exists_eq_left', List.mem_flatMap]
  refine or_congr_right ⟨?_, ?_⟩
  · rintro ⟨token, ⟨inst, hinst, htoken⟩, rfl⟩
    exact ⟨inst, hinst, token, htoken, rfl⟩
  · rintro ⟨inst, hinst, token, htoken, rfl⟩
    exact ⟨token, ⟨inst, hinst, htoken⟩, rfl⟩

/-- A probe stands for both ends of its edge, or for the entry. -/
def ProbeSite.StandsFor (site : ProbeSite) (f : Function) (b : BlockId) : Prop :=
  match site with
  | .entry _ => f.entryBlock? = some b
  | .edge _ block index => b = block ∨ ∃ succs, f.successors block = .ok succs ∧ succs[index]? = some b

theorem ProbeSite.mem_blocks {site : ProbeSite} {f : Function} {blocks : List BlockId}
    (h : site.blocks f = .ok blocks) {b : BlockId} : b ∈ blocks ↔ site.StandsFor f b := by
  cases site with
  | entry id =>
    obtain rfl := Checked.pure_eq_ok.mp h
    exact Option.mem_toList
  | edge id block index =>
    obtain ⟨succs, hsuccs, h⟩ := Checked.bind_eq_ok.mp h
    simp only [StandsFor, hsuccs, Except.ok.injEq, exists_eq_left']
    cases htarget : succs[index]? with
    | none =>
      rw [htarget] at h
      obtain rfl := Checked.pure_eq_ok.mp h
      simp
    | some target =>
      rw [htarget] at h
      dsimp only at h
      split at h
      · next heq =>
        obtain rfl := beq_iff_eq.mp heq
        obtain rfl := Checked.pure_eq_ok.mp h
        simp [eq_comm]
      · obtain rfl := Checked.pure_eq_ok.mp h
        simp [eq_comm]

/-- What a recording holds: records, and blocks that have been come to. -/
def Recording.Has (r : Recording) : Dictionary.Record ⊕ (FuncId × BlockId) → Prop
  | .inl record => record ∈ r.dictionary.records
  | .inr place => place ∈ r.reached

namespace Module

variable {m : Module} {r r' : Recording}

/-- What a probe adds to a recording. -/
def Adds (m : Module) (planned : PlannedProbe) (x : Dictionary.Record ⊕ (FuncId × BlockId)) : Prop :=
  ∃ f b, m.function planned.site.function = .ok f ∧ planned.site.StandsFor f b ∧
    match x with
    | .inl record => f.Offers b planned.id record
    | .inr place => place = (planned.site.function, b)

theorem recordProbe_adds {planned : PlannedProbe} (h : m.recordProbe r planned = .ok r')
    (x : Dictionary.Record ⊕ (FuncId × BlockId)) : r'.Has x ↔ r.Has x ∨ m.Adds planned x := by
  obtain ⟨f, hf, h⟩ := Checked.bind_eq_ok.mp h
  obtain ⟨blocks, hblocks, h⟩ := Checked.bind_eq_ok.mp h
  rw [(Checked.foldlM_adds (I := fun _ => True) (H := Recording.Has) (A := fun b x =>
    match x with
    | .inl record => f.Offers b planned.id record
    | .inr place => place = (planned.site.function, b)) ?_ trivial h).2]
  · simp only [ProbeSite.mem_blocks hblocks]
    refine or_congr_right ⟨fun ⟨b, hstands, hx⟩ => ⟨f, b, hf, hstands, hx⟩, ?_⟩
    rintro ⟨f', b, hf', hstands, hx⟩
    obtain rfl := Except.ok.inj (hf.symm.trans hf')
    exact ⟨b, hstands, hx⟩
  · intro r block r' _ h
    obtain ⟨d, hd, h⟩ := Checked.bind_eq_ok.mp h
    obtain rfl := Checked.pure_eq_ok.mp h
    refine ⟨trivial, fun x => ?_⟩
    cases x with
    | inl record => exact Dictionary.mem_recordBlock hd
    | inr place =>
      change place ∈ r.reached.insert _ ↔ place ∈ r.reached ∨ _
      rw [Std.TreeSet.mem_insert, Std.LawfulEqCmp.compare_eq_iff_eq, eq_comm, or_comm]

/-- What a function adds whose live blocks have in part been come to. -/
theorem recordRest_adds {id : FuncId} (h : m.recordRest r id = .ok r') :
    r'.reached = r.reached ∧ ∀ record, record ∈ r'.dictionary.records ↔
      record ∈ r.dictionary.records ∨ ∃ f, m.function id = .ok f ∧
        ∃ b ∈ f.layout, (id, b) ∉ r.reached ∧ f.Offers b 0 record := by
  obtain ⟨f, hf, h⟩ := Checked.bind_eq_ok.mp h
  simp only [hf, Except.ok.injEq, exists_eq_left']
  refine Checked.foldlM_adds (I := fun r₁ : Recording => r₁.reached = r.reached)
    (H := fun r record => record ∈ r.dictionary.records) ?_ rfl h
  intro r₁ block r₂ hr₁ h
  rw [← hr₁]
  split at h
  · next hreached =>
    obtain rfl := Checked.pure_eq_ok.mp h
    refine ⟨rfl, fun record => ?_⟩
    have hreached : (id, block) ∈ r₁.reached := hreached
    simp [hreached]
  · next hreached =>
    obtain ⟨d, hd, h⟩ := Checked.bind_eq_ok.mp h
    obtain rfl := Checked.pure_eq_ok.mp h
    have hreached : (id, block) ∉ r₁.reached := hreached
    refine ⟨rfl, fun record => ?_⟩
    simpa only [hreached, not_false_eq_true, true_and] using Dictionary.mem_recordBlock hd

end Module

/-- The number stands for a block: it is the identifier of a probe that does, or zero if there is
none. -/
def Identifies (plan : List PlannedProbe) (id : FuncId) (f : Function) (b : BlockId) (n : Nat) :
    Prop :=
  (∃ planned ∈ plan, planned.site.function = id ∧ planned.site.StandsFor f b ∧ planned.id = n) ∨
    (∀ planned ∈ plan, planned.site.function = id → ¬planned.site.StandsFor f b) ∧ n = 0

namespace Module

variable {m : Module}

/-- A dictionary has what the probes add, and the tokens of the live blocks that none of them has
come to. -/
theorem recordTokens_adds {plan : List PlannedProbe} {d : Dictionary}
    (h : m.recordTokens plan = .ok d) (r : Dictionary.Record) :
    r ∈ d.records ↔ (∃ planned ∈ plan, m.Adds planned (.inl r)) ∨ ∃ id f b, m.function id = .ok f ∧
      b ∈ f.layout ∧ (∀ planned ∈ plan, ¬m.Adds planned (.inr (id, b))) ∧ f.Offers b 0 r := by
  obtain ⟨probed, hprobed, h⟩ := Checked.bind_eq_ok.mp h
  obtain ⟨rest, hrest, h⟩ := Checked.bind_eq_ok.mp h
  obtain rfl := Checked.pure_eq_ok.mp h
  obtain ⟨-, hprobes⟩ := Checked.foldlM_adds (I := fun _ => True) (H := Recording.Has)
    (fun _ _ _ _ h => ⟨trivial, recordProbe_adds h⟩) trivial hprobed
  obtain ⟨-, hothers⟩ := Checked.foldlM_adds (I := fun r₁ : Recording => r₁.reached = probed.reached)
    (H := fun r record => record ∈ r.dictionary.records) (A := fun id record =>
      ∃ f, m.function id = .ok f ∧ ∃ b ∈ f.layout, (id, b) ∉ probed.reached ∧ f.Offers b 0 record)
    (fun r₁ id r₂ hr₁ h => by
      obtain ⟨hr₂, hadds⟩ := recordRest_adds h
      exact ⟨hr₂.trans hr₁, hr₁ ▸ hadds⟩) rfl hrest
  have hrecords : r ∈ probed.dictionary.records ↔ ∃ planned ∈ plan, m.Adds planned (.inl r) :=
    (hprobes (.inl r)).trans (or_iff_right List.not_mem_nil)
  have hreached : ∀ place, place ∉ probed.reached ↔
      ∀ planned ∈ plan, ¬m.Adds planned (.inr place) := by
    intro place
    have hnone : ¬place ∈ ({} : Recording).reached := Std.TreeSet.not_mem_emptyc
    rw [show place ∈ probed.reached ↔ _ from (hprobes (.inr place)).trans (or_iff_right hnone)]
    simp only [not_exists, not_and]
  rw [hothers, hrecords]
  refine or_congr_right ⟨?_, ?_⟩
  · rintro ⟨id, -, f, hf, b, hb, hnot, hoffers⟩
    exact ⟨id, f, b, hf, hb, (hreached _).mp hnot, hoffers⟩
  · rintro ⟨id, f, b, hf, hb, hnot, hoffers⟩
    exact ⟨id, mem_functionIds.mpr (index_lt_of_function hf), f, hf, b, hb, (hreached _).mpr hnot,
      hoffers⟩

/-- Probes that stand for live blocks only lead to the tokens of all live blocks and no other ones. -/
theorem mem_recordTokens {plan : List PlannedProbe} {d : Dictionary}
    (hlive : ∀ planned ∈ plan, ∀ f b, m.function planned.site.function = .ok f →
      planned.site.StandsFor f b → b ∈ f.layout)
    (h : m.recordTokens plan = .ok d) {r : Dictionary.Record} :
    r ∈ d.records ↔ ∃ id f b n, m.function id = .ok f ∧ b ∈ f.layout ∧ Identifies plan id f b n ∧
      f.Offers b n r := by
  have hreached : ∀ id f b, m.function id = .ok f →
      ((∀ planned ∈ plan, ¬m.Adds planned (.inr (id, b))) ↔
        ∀ planned ∈ plan, planned.site.function = id → ¬planned.site.StandsFor f b) := by
    intro id f b hf
    constructor
    · rintro hnot planned hplanned rfl hstands
      exact hnot planned hplanned ⟨f, b, hf, hstands, rfl⟩
    · rintro hnot planned hplanned ⟨f', b', hf', hstands, heq⟩
      obtain ⟨rfl, rfl⟩ := Prod.mk.inj heq
      obtain rfl := Except.ok.inj (hf.symm.trans hf')
      exact hnot planned hplanned rfl hstands
  rw [recordTokens_adds h]
  constructor
  · rintro (⟨planned, hplanned, f, b, hf, hstands, hoffers⟩ | ⟨id, f, b, hf, hb, hnot, hoffers⟩)
    · exact ⟨_, f, b, planned.id, hf, hlive planned hplanned f b hf hstands,
        .inl ⟨planned, hplanned, rfl, hstands, rfl⟩, hoffers⟩
    · exact ⟨id, f, b, 0, hf, hb, .inr ⟨(hreached id f b hf).mp hnot, rfl⟩, hoffers⟩
  · rintro ⟨id, f, b, n, hf, hb, ⟨planned, hplanned, rfl, hstands, rfl⟩ | ⟨hnot, rfl⟩, hoffers⟩
    · exact .inl ⟨planned, hplanned, f, b, hf, hstands, hoffers⟩
    · exact .inr ⟨id, f, b, hf, hb, (hreached id f b hf).mpr hnot, hoffers⟩

/-- What is recorded are tokens of the module. -/
theorem exists_offers_of_recordTokens {plan : List PlannedProbe} {d : Dictionary}
    (h : m.recordTokens plan = .ok d) {r : Dictionary.Record} (hr : r ∈ d.records) :
    ∃ id f b n, m.function id = .ok f ∧ f.Offers b n r := by
  obtain ⟨planned, -, f, b, hf, -, hoffers⟩ | ⟨id, f, b, hf, -, -, hoffers⟩ :=
    (recordTokens_adds h r).mp hr
  · exact ⟨_, f, b, planned.id, hf, hoffers⟩
  · exact ⟨id, f, b, 0, hf, hoffers⟩

/-- The dictionary holds the tokens of the module with its landing pads split. -/
structure Recorded (config : Config) (m : Module) (report : InstrumentReport) (split : Module)
    (pointedTo : Option (List String)) (plan : List PlannedProbe) : Prop where
  pads : m.EachBecomes (fun _ => Pass.PadsSplit) split
  pointers : split.pointedTo? = .ok pointedTo
  /-- The probes are those of the sites, numbered from one. -/
  sites : ∃ sites, (split.probeSites config pointedTo).run = .ok (.ok sites) ∧
    plan.map (·.site) = sites ∧ plan.map (·.id) = (List.range sites.length).map (· + 1)
  /-- Each record is the one of a token on a live instruction under a number of its block, and each
  of these is a record. -/
  records : ∀ r, r ∈ report.dictionary.entries .optimized ↔ ∃ id f b n, split.function id = .ok f ∧
    b ∈ f.layout ∧ Identifies plan id f b n ∧ f.Offers b n r
  nodup : (report.dictionary.entries .optimized).Nodup

end Module

namespace Pass.Instrumentation

variable {config : Config} {drawn : UInt64} {m m' : Module} {report : InstrumentReport}
  {i : Instrumentation config drawn m report m'}

/-- What a probe stands for is live. -/
theorem Valid.live_of_standsFor (hi : i.Valid) (hm : m.Accepted) {planned : PlannedProbe}
    (hplanned : planned ∈ i.plan) {f : Function} {b : BlockId}
    (hf : i.split.function planned.site.function = .ok f) (hstands : planned.site.StandsFor f b) :
    b ∈ f.layout := by
  have hsite := hi.isSite hplanned
  obtain ⟨g, hg, hbody, -⟩ := hsite.fits
  obtain rfl := Except.ok.inj (hf.symm.trans hg)
  obtain ⟨f₀, -, hwf, hsplit⟩ := hi.exists_wellFormed hm hf hbody
  cases h : planned.site with
  | entry id =>
    rw [h] at hstands
    exact Function.mem_layout_of_entryBlock? hstands
  | edge id block index =>
    rw [h] at hstands hsite hf
    obtain rfl | ⟨succs, hsuccs, hb⟩ := hstands
    · exact hsite.live hf
    · exact (hsplit.closed hwf).toLive block (hsite.live hf) b
        ⟨succs, hsuccs, List.mem_of_getElem? hb⟩

end Pass.Instrumentation

/-- The dictionary of an instrumented module holds the tokens of all live blocks, each under the
identifiers of the probes that stand for its block, and nothing else. -/
theorem Module.Accepted.tokens_recorded {m : Module} (hm : m.Accepted) {config : Config}
    {drawn : UInt64} {report : InstrumentReport} {s : PassState}
    (h : (Pass.instrumentEdges config drawn).runOn m = .ok (.ok report, s)) :
    ∃ split pointedTo plan, m.Recorded config report split pointedTo plan := by
  obtain ⟨i, hi⟩ := Pass.instrumentEdges_does (s := { module := m }) h
  exact ⟨i.split, i.pointedTo, i.plan, {
    pads := hi.split
    pointers := hi.pointedTo
    sites := ⟨i.sites, hi.sites, site_planProbes, id_planProbes⟩
    records := fun r => mem_recordTokens
      (fun _ hplanned _ _ hf hstands => hi.live_of_standsFor hm hplanned hf hstands) hi.dictionary
    nodup := SortedSet.nodup_members _ }⟩

/-- A function with tokens in two blocks, of which one follows the other on either of two edges, and
one with a token where no probe is. -/
def Module.noted : Module where
  name := "noted"
  functions := #[
    { name := "pick"
      params := [.i1]
      ret := .void
      blocks := #[⟨"entry", [], .condBr (.arg 0) ⟨0⟩ ⟨1⟩⟩, ⟨"done", [⟨0⟩], .ret none⟩]
      layout := [⟨0⟩, ⟨1⟩]
      insts := #[{ kind := .binary .add (.const (.int 32 1)) (.const (.int 32 2)), block := some ⟨1⟩ }]
      annotations := Annotations.modify {} ⟨0⟩ fun _ =>
        [{ value := "stop", provenance := "a_c_1", origin := .comparedString }] },
    { name := "lone"
      params := []
      ret := .void
      blocks := #[⟨"entry", [⟨0⟩], .ret none⟩]
      layout := [⟨0⟩]
      insts := #[{ kind := .binary .add (.const (.int 32 1)) (.const (.int 32 2)), block := some ⟨0⟩ }]
      annotations := Annotations.modify {} ⟨0⟩ fun _ =>
        [{ value := "spin", provenance := "a_c_2", origin := .comparedString }] }]

theorem Module.noted_tokens_recorded : ∃ report s,
    (Pass.instrumentEdges (.fuzzing .optimized .none) 0).runOn noted = .ok (.ok report, s) ∧
      report.dictionary.entries .optimized =
        [⟨"spin", "S2U_a_c_2_00000000"⟩, ⟨"stop", "S2U_a_c_1_00000002"⟩] ∧
      ∃ split pointedTo plan, noted.Recorded (.fuzzing .optimized .none) report split pointedTo plan := by
  have hm := accepted_of_isLocal (show noted.isLocal = true by decide +kernel)
  have hentries : (Pass.completed? ((Pass.instrumentEdges (.fuzzing .optimized .none) 0).runOn
      noted)).map (fun (report, _) => report.dictionary.entries .optimized) =
        some [⟨"spin", "S2U_a_c_2_00000000"⟩, ⟨"stop", "S2U_a_c_1_00000002"⟩] := by decide +kernel
  obtain ⟨⟨report, s⟩, h, hentries⟩ := Option.map_eq_some_iff.mp hentries
  have h := Pass.completed?_eq_some h
  exact ⟨report, s, h, hentries, hm.tokens_recorded h⟩

end EdgeProbe
