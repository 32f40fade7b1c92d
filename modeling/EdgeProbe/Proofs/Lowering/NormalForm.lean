import EdgeProbe.Proofs.Lowering.Recorded
import EdgeProbe.Proofs.Safety.Modules

/-!
# Taking comparisons apart a second time

What is left of the comparisons after one run has nothing that another run would take apart. It may
record the constant of a comparison again, and changes no code. Main statement:
`Pass.splitCompares_normal`.
-/

namespace EdgeProbe

open Checked (Yields yields_pure)

variable {m m' : Module} {f f' : Function} {config : Config} {preds : List Predicate} {i : InstId}
  {pred : Predicate} {lhs rhs : Value} {width : Nat} {annotations : Annotations}

namespace Function

/-- The function without its tokens. -/
def withoutTokens (f : Function) : Function :=
  { f with annotations := {} }

/-- There is nothing to take apart. The tokens that spare a comparison need not be on it yet: they
are put on it whenever it has its turn. -/
structure Apart (config : Config) (f : Function) : Prop where
  tidy : f.Tidy
  narrow : f.Narrow
  paired : ∀ id b pos pred lhs rhs, f.Listed id b pos → f.kind id = .ok (.icmp pred lhs rhs) →
    ∃ ty, f.valueType lhs = .ok ty ∧ f.valueType rhs = .ok ty
  normal : config.convert ≠ .none → f.Normal
  whole : config.convert ≠ .none → ∀ i pred lhs rhs width, f.Candidate i pred lhs rhs width →
    width ∈ [64, 32, 16] →
      ∃ annotations, ({ f with annotations } : Function).Spared config i pred lhs rhs

theorem Apart.withAnnotations (h : f.Apart config) (annotations : Annotations) :
    ({ f with annotations } : Function).Apart config := by
  have htypes : f.TypesKept { f with annotations } := .of_kinds rfl fun _ _ hkind => .inl hkind
  refine ⟨h.tidy.withAnnotations annotations, ?_, ?_, ?_, ?_⟩
  · intro id b pos pred lhs rhs hid hkind
    obtain ⟨width?, hwidth, hle⟩ := h.narrow id b pos pred lhs rhs hid hkind
    exact ⟨width?, htypes.intWidth? le_rfl hwidth, hle⟩
  · intro id b pos pred lhs rhs hid hkind
    obtain ⟨ty, hleft, hright⟩ := h.paired id b pos pred lhs rhs hid hkind
    exact ⟨ty, htypes.valueType le_rfl hleft, htypes.valueType le_rfl hright⟩
  · exact fun hconvert i pred lhs rhs width hi =>
      h.normal hconvert i pred lhs rhs width hi.of_tokens
  · exact fun hconvert i pred lhs rhs width hi =>
      h.whole hconvert i pred lhs rhs width hi.of_tokens

/-! ## What is asked is answered -/

theorem exists_isMagic (pred : Predicate) (hlhs : lhs.Below f.insts.size)
    (hrhs : rhs.Below f.insts.size) : Yields (f.isMagic pred lhs rhs) fun _ => True := by
  unfold isMagic
  cases hconstant : constantOperand? lhs rhs with
  | none => exact yields_pure trivial
  | some found =>
    obtain ⟨constant, other⟩ := found
    have hother : other.Below f.insts.size := by
      obtain rfl | rfl := constantOperand?_eq_some hconstant
      · exact hlhs
      · exact hrhs
    have hreads : Yields (f.readsCall other) fun _ => True := by
      cases other with
      | inst id =>
        obtain ⟨kind, hkind⟩ := exists_kind hother
        exact ⟨kind.isCall, by simp [readsCall, Value.inst?, hkind, Except.map], trivial⟩
      | _ => exact yields_pure trivial
    dsimp only
    split
    · exact yields_pure trivial
    · exact hreads.bind fun _ _ => yields_pure trivial

theorem Apart.candidateWidth?_yields (h : f.Apart config) {b : BlockId} {pos : Nat}
    (hid : f.Listed i b pos) : Yields (f.candidateWidth? preds i) fun _ => True := by
  obtain ⟨kind, hkind⟩ := h.tidy.exists_kind hid
  refine .after hkind ?_
  cases kind with
  | icmp pred lhs rhs =>
    obtain ⟨ty, hleft, hright⟩ := h.paired i b pos pred lhs rhs hid hkind
    have hbelow := h.tidy.values_below hid hkind
    simp only [InstKind.operands, List.forall_mem_cons] at hbelow
    dsimp only
    split
    · exact yields_pure trivial
    · refine .after (Checked.map_eq_ok.mpr ⟨ty, hleft, rfl⟩) ?_
      split
      · exact yields_pure trivial
      · refine .after (Checked.map_eq_ok.mpr ⟨ty, hright, rfl⟩) ?_
        split
        · exact yields_pure trivial
        · refine (exists_isMagic pred hbelow.1 hbelow.2.1).bind fun magic _ => ?_
          split <;> exact yields_pure trivial
  | _ => exact yields_pure trivial

/-- The comparisons that are worth taking apart can be found. -/
theorem Apart.candidates_yields (h : f.Apart config) (preds : List Predicate) :
    Yields (f.candidates preds) fun sites => ∀ site ∈ sites, ∃ pred lhs rhs, pred ∈ preds ∧
      f.Candidate site.1 pred lhs rhs site.2 := by
  have hfound : Yields (f.candidates preds) fun _ => True := by
    obtain ⟨ids, hids⟩ := h.tidy.closed.liveInsts_eq_ok
    refine .after hids (.bind (.each fun id hid => ?_) fun _ _ => yields_pure trivial)
    obtain ⟨b, pos, hlisted⟩ := listed_of_liveInsts hids hid
    exact (h.candidateWidth?_yields hlisted).bind fun _ _ => yields_pure trivial
  obtain ⟨sites, hsites, -⟩ := hfound
  exact ⟨sites, hsites, fun site => candidate_of_mem_candidates hsites⟩

/-- None of the comparisons that are left would be normalized. -/
theorem Apart.candidates_eq_nil (h : f.Apart config) (hconvert : config.convert ≠ .none)
    (hpreds : ∀ pred ∈ preds, pred ∉ [.eq, .ne, .ugt, .ult]) : f.candidates preds = .ok [] := by
  obtain ⟨sites, hsites, hfound⟩ := h.candidates_yields preds
  have hnone : sites = [] := by
    refine List.eq_nil_iff_forall_not_mem.mpr fun site hsite => ?_
    obtain ⟨pred, lhs, rhs, hpred, hi⟩ := hfound site hsite
    exact hpreds pred hpred (h.normal hconvert _ _ _ _ _ hi)
  rw [hsites, hnone]

/-- No comparison is too wide. -/
theorem Apart.wideComparison?_eq_none (h : f.Apart config) {ids : List InstId}
    (hids : ∀ id ∈ ids, ∃ b pos, f.Listed id b pos) : f.wideComparison? ids = .ok none := by
  induction ids with
  | nil => rfl
  | cons id rest ih =>
    obtain ⟨⟨b, pos, hlisted⟩, hrest⟩ := List.forall_mem_cons.mp hids
    obtain ⟨kind, hkind⟩ := h.tidy.exists_kind hlisted
    rw [wideComparison?]
    refine Checked.bind_eq_ok.mpr ⟨kind, hkind, ?_⟩
    split
    · next pred lhs rhs hcomparison =>
      obtain rfl := InstKind.comparison?_eq_some.mp hcomparison
      obtain ⟨width?, hwidth, hle⟩ := h.narrow id b pos pred lhs rhs hlisted hkind
      refine Checked.bind_eq_ok.mpr ⟨width?, hwidth, ?_⟩
      cases width? with
      | none => exact ih hrest
      | some width =>
        dsimp only
        rw [if_neg (Nat.not_lt.mpr (hle width rfl))]
        exact ih hrest
    · exact ih hrest

theorem firstLoc?_yields {ids : List InstId} (hids : ∀ id ∈ ids, ∃ inst, f.inst id = .ok inst) :
    Yields (f.firstLoc? ids) fun _ => True := by
  induction ids with
  | nil => exact yields_pure trivial
  | cons id rest ih =>
    obtain ⟨⟨inst, hinst⟩, hrest⟩ := List.forall_mem_cons.mp hids
    refine .after hinst ?_
    split
    · exact yields_pure trivial
    · exact ih hrest

theorem Tidy.provenance_yields (hf : f.Tidy) {b : BlockId} {pos : Nat} (hid : f.Listed i b pos) :
    Yields (f.provenance i) fun _ => True := by
  have hloc : Yields (f.nearestLoc? i) fun _ => True := by
    obtain ⟨inst, hinst, hblock⟩ := hf.home i b pos hid
    obtain ⟨hb, blk, hblk, -⟩ := hid
    refine .after hinst ?_
    split
    · exact yields_pure trivial
    · next b' _ hb' =>
      obtain rfl := Option.some.inj (hblock.symm.trans hb')
      refine .after hblk (firstLoc?_yields fun id hmem => ?_)
      obtain ⟨pos', hpos'⟩ := List.mem_iff_getElem?.mp hmem
      obtain ⟨inst', hinst', -⟩ := hf.home id b pos' ⟨hb, blk, hblk, hpos'⟩
      exact ⟨inst', hinst'⟩
    · exact yields_pure trivial
  refine hloc.bind fun loc _ => ?_
  split <;> exact yields_pure trivial

end Function

/-! ## A second run -/

namespace Module

def withoutTokens (m : Module) : Module :=
  { m with functions := m.functions.map Function.withoutTokens }

/-- There is nothing to take apart in any function. -/
def Apart (config : Config) (m : Module) : Prop :=
  ∀ id f, m.function id = .ok f → f.Apart config

theorem withoutTokens_setFunction {id : FuncId} (hid : m.function id = .ok f)
    (hf' : f'.withoutTokens = f.withoutTokens) :
    (m.setFunction id f').withoutTokens = m.withoutTokens := by
  have hget := function_eq_ok.mp hid
  refine congrArg (fun functions => ({ m with functions } : Module)) (Array.ext_getElem? fun i => ?_)
  rw [setFunction, Array.getElem?_map, Array.getElem?_map, Array.getElem?_setIfInBounds]
  split
  · next heq =>
    subst heq
    rw [if_pos (Array.getElem?_eq_some_iff.mp hget).1, hget]
    exact congrArg some hf'
  · rfl

end Module

namespace Pass

variable {s : PassState} {id : FuncId} {stats : CompareStats}

theorem exists_recordCompared (config : Config) (hid : s.module.function id = .ok f)
    (hf : f.Tidy) {b : BlockId} {pos : Nat} (hi : f.Listed i b pos) (lhs rhs : Value) :
    ∃ s', (recordCompared config id i lhs rhs).Does s (comparedBytes? lhs rhs).isSome s' := by
  unfold recordCompared
  cases comparedBytes? lhs rhs with
  | none => exact ⟨s, does_pure.mpr ⟨rfl, rfl⟩⟩
  | some bytes =>
    obtain ⟨provenance, hprovenance, -⟩ := hf.provenance_yields hi
    have hquery : (do (← s.module.function id).provenance i) = .ok provenance :=
      Checked.bind_eq_ok.mpr ⟨f, hid, hprovenance⟩
    refine Exists.imp
      (fun s' h => does_bind.mpr ⟨provenance, s, does_query.mpr ⟨hquery, rfl⟩, h⟩) ?_
    split
    · next token htoken =>
      have hsingle : token.origin.isMultiple = false := by
        obtain ⟨value, -, rfl⟩ := Option.map_eq_some_iff.mp htoken
        rfl
      have hattach : ∃ f', (Edit.attach i token config.limits).Does f () f' := by
        simp only [Edit.Does, Edit.attach, Annotations.attach?, hsingle, Bool.false_eq_true,
          if_false]
        exact ⟨_, rfl⟩
      obtain ⟨f', hattach⟩ := hattach
      exact ⟨_, does_bind.mpr ⟨(), _, does_inFunction.mpr ⟨f, f', hid, hattach, rfl⟩,
        does_pure.mpr ⟨rfl, rfl⟩⟩⟩
    · exact ⟨_, does_bind.mpr ⟨(), _, rfl, does_pure.mpr ⟨rfl, rfl⟩⟩⟩

/-- A comparison that has been taken apart as far as the settings ask for stays as it is. -/
theorem exists_halveCompare (hid : s.module.function id = .ok f) (hf : f.Apart config)
    (hi : f.Candidate i pred lhs rhs width) (hwidth : width ∈ [64, 32, 16, 8]) :
    ∃ done s' annotations, (halveCompare config id width i).Does s done s' ∧ done.halved = false ∧
      s'.module = s.module.setFunction id { f with annotations } := by
  obtain ⟨b, pos, hlisted⟩ := hi.listed
  obtain ⟨inst, hinst, hkind⟩ := Function.kind_eq_ok.mp hi.kind
  have hquery : (do (← s.module.function id).inst i) = .ok inst :=
    Checked.bind_eq_ok.mpr ⟨f, hid, hinst⟩
  -- It is narrow or spared, if any comparison is taken apart at all.
  have hstays : (config.convert == .none || decide (width ≤ 8)) = true ∨
      (config.convert ≠ .all ∧ pred.isEquality = true) ∧ inst.split = false ∧
        (comparedBytes? lhs rhs).isSome = true := by
    rw [Bool.or_eq_true, beq_iff_eq, decide_eq_true_eq]
    by_cases hnarrow : config.convert = .none ∨ width ≤ 8
    · exact .inl hnarrow
    rw [not_or] at hnarrow
    have hwide : width ∈ [64, 32, 16] := by
      simp only [List.mem_cons, List.not_mem_nil, or_false] at hwidth ⊢
      omega
    obtain ⟨annotations, hspared⟩ := hf.whole hnarrow.1 i pred lhs rhs width hi hwide
    obtain ⟨inst', hinst', hmark⟩ := hspared.own
    obtain rfl : inst = inst' := Except.ok.inj (hinst.symm.trans hinst')
    obtain ⟨bytes, hbytes, -⟩ := hspared.constant
    exact .inr ⟨⟨hspared.convert, hspared.equality⟩, hmark, by rw [hbytes]; rfl⟩
  have hrest : ∀ (recorded : Bool) (rest : Pass Halving) s₁,
      (config.convert == .none || decide (width ≤ 8)) = true ∨
        (recorded && config.convert != .all) = true →
      (if (recorded && config.convert != .all) = true then pure { recorded }
        else if (config.convert == .none || decide (width ≤ 8)) = true then pure { recorded }
        else rest : Pass Halving).Does s₁ { recorded } s₁ := by
    intro recorded rest s₁ hstop
    split
    · exact does_pure.mpr ⟨rfl, rfl⟩
    · next hnot =>
      rw [if_pos (hstop.resolve_right hnot)]
      exact does_pure.mpr ⟨rfl, rfl⟩
  unfold halveCompare
  cases hasked : !inst.split && pred.isEquality with
  | true =>
    obtain ⟨s₁, hrecord⟩ := exists_recordCompared config hid hf.tidy hlisted lhs rhs
    obtain ⟨f₁, hs₁, htagged, -⟩ := recordCompared_does hid hrecord
    obtain ⟨annotations, rfl⟩ := htagged.code
    refine ⟨{ recorded := (comparedBytes? lhs rhs).isSome }, s₁, annotations,
      does_bind.mpr ⟨inst, s, does_query.mpr ⟨hquery, rfl⟩, ?_⟩, rfl, hs₁⟩
    rw [hkind]
    dsimp only [InstKind.comparison?]
    rw [if_pos hasked]
    refine does_bind.mpr ⟨_, s₁, hrecord, hrest _ _ s₁ (hstays.imp_right fun hspared => ?_)⟩
    simp [hspared.1.1, hspared.2.2]
  | false =>
    refine ⟨{}, s, f.annotations, does_bind.mpr ⟨inst, s, does_query.mpr ⟨hquery, rfl⟩, ?_⟩, rfl,
      (Module.setFunction_self hid).symm⟩
    rw [hkind]
    dsimp only [InstKind.comparison?]
    rw [if_neg (by simp [hasked])]
    refine does_bind.mpr ⟨false, s, does_pure.mpr ⟨rfl, rfl⟩, hrest _ _ s (.inl ?_)⟩
    refine hstays.resolve_right fun hspared => ?_
    simp [hspared.1.2, hspared.2.1] at hasked

/-- The run so far has counted nothing and has changed no code. -/
structure Repeats (config : Config) (m : Module) (stats : CompareStats) (s : PassState) : Prop where
  updates : stats.updates = 0
  apart : s.module.Apart config
  same : s.module.withoutTokens = m.withoutTokens

theorem Repeats.exists_function (h : Repeats config m stats s) (hid : id ∈ m.functionIds) :
    ∃ f, s.module.function id = .ok f ∧ f.Apart config := by
  have hsize : s.module.functions.size = m.functions.size := by
    simpa [Module.withoutTokens] using congrArg (fun m => m.functions.size) h.same
  obtain ⟨f, hf⟩ := Module.exists_function (hsize.symm ▸ Module.mem_functionIds.mp hid)
  exact ⟨f, hf, h.apart id f hf⟩

/-- New tokens make no difference. -/
theorem Repeats.setFunction (h : Repeats config m stats s) (hid : s.module.function id = .ok f)
    {s' : PassState} (hs' : s'.module = s.module.setFunction id { f with annotations }) :
    Repeats config m stats s' := by
  refine ⟨h.updates, fun i g hi => ?_, ?_⟩
  · rw [hs', Module.function_setFunction (Module.index_lt_of_function hid)] at hi
    split at hi
    · exact Except.ok.inj hi ▸ (h.apart id f hid).withAnnotations annotations
    · exact h.apart i g hi
  · rw [hs', ← h.same]
    exact Module.withoutTokens_setFunction hid rfl

theorem exists_normalizeCompares (hconvert : config.convert ≠ .none)
    (h : Repeats config m stats s) (hid : id ∈ m.functionIds) :
    ∃ stats' s', (normalizeCompares stats id).Does s stats' s' ∧ Repeats config m stats' s' := by
  obtain ⟨f, hf, hapart⟩ := h.exists_function hid
  have hsimplify : Edit.simplifyAll.Does f 0 f := by
    refine Edit.does_bind.mpr ⟨[], f, Edit.does_query.mpr ⟨?_, rfl⟩, rfl⟩
    exact hapart.candidates_eq_nil hconvert (by decide)
  have hnormalize : Edit.normalizeSigns.Does f 0 f := by
    refine Edit.does_bind.mpr ⟨[], f, Edit.does_query.mpr ⟨?_, rfl⟩, rfl⟩
    exact hapart.candidates_eq_nil hconvert (by decide)
  have hself : { s with module := s.module.setFunction id f } = s := by
    rw [Module.setFunction_self hf]
  refine ⟨stats, s, does_bind.mpr ⟨0, s, does_inFunction.mpr ⟨f, f, hf, hsimplify, hself⟩, ?_⟩, h⟩
  refine does_bind.mpr ⟨0, s, does_inFunction.mpr ⟨f, f, hf, hnormalize, hself⟩, ?_⟩
  exact does_pure.mpr ⟨rfl, rfl⟩

theorem exists_halveCompares (hwidth : width ∈ [64, 32, 16, 8]) (h : Repeats config m stats s)
    (hid : id ∈ m.functionIds) : ∃ stats' s', (halveCompares config width stats id).Does s stats' s' ∧
      Repeats config m stats' s' := by
  obtain ⟨f, hf, hapart⟩ := h.exists_function hid
  obtain ⟨sites, hsites, hfound⟩ := hapart.candidates_yields [.eq, .ne, .ugt, .ult]
  have hloop := exists_foldlM_along (g := fun stats site => do
      let done ← halveCompare config id width site.1
      return { stats with
        recorded := stats.recorded + done.recorded.toNat
        halved := stats.halved + done.halved.toNat })
    (l := sites.filter fun site => site.2 == width) (b := stats) (s := s)
    (fun stats s => Repeats config m stats s ∧
      ∃ annotations, s.module.function id = .ok { f with annotations }) ?_ ⟨h, f.annotations, hf⟩
  · obtain ⟨stats', s', hdoes, hrepeats, -⟩ := hloop
    refine ⟨stats', s', does_bind.mpr ⟨sites, s, does_query.mpr ⟨?_, rfl⟩, hdoes⟩, hrepeats⟩
    exact Checked.bind_eq_ok.mpr ⟨f, hf, hsites⟩
  · rintro site hsite stats₁ s₁ ⟨h₁, annotations, hf₁⟩
    obtain ⟨hmem, heq⟩ := List.mem_filter.mp hsite
    obtain rfl : site.2 = width := by simpa using heq
    obtain ⟨pred, lhs, rhs, -, hi⟩ := hfound site hmem
    have hi₁ : ({ f with annotations } : Function).Candidate site.1 pred lhs rhs site.2 :=
      Function.Candidate.of_tokens hi
    obtain ⟨done, s₂, annotations', hdoes, hdone, hs₂⟩ := exists_halveCompare hf₁
      (h₁.apart id _ hf₁) hi₁ hwidth
    have h₂ := h₁.setFunction hf₁ hs₂
    refine ⟨_, s₂, does_bind.mpr ⟨done, s₂, hdoes, does_pure.mpr ⟨rfl, rfl⟩⟩,
      ⟨?_, h₂.apart, h₂.same⟩, annotations', ?_⟩
    · simpa [CompareStats.updates, hdone] using h₂.updates
    · rw [hs₂, Module.function_setFunction (Module.index_lt_of_function hf₁), if_pos rfl]

/-- Where there is nothing to take apart the run comes to its end, counts nothing and changes no
code. -/
theorem exists_splitCompares (hm : m.Apart config) :
    ∃ stats s, (splitCompares config).runOn m = .ok (.ok stats, s) ∧ stats.updates = 0 ∧
      s.module.withoutTokens = m.withoutTokens := by
  let s₀ : PassState := { module := m }
  have hwidths : (m.functionIds.forM checkWidths).Does s₀ () s₀ := by
    have hloop := exists_forM (fun s => s = s₀) (l := m.functionIds) (g := checkWidths) (s := s₀) ?_ rfl
    · obtain ⟨s₁, hdoes, rfl⟩ := hloop
      exact hdoes
    · rintro id hid s rfl
      obtain ⟨f, hf⟩ := Module.exists_function (Module.mem_functionIds.mp hid)
      obtain ⟨ids, hids⟩ := (hm id f hf).tidy.closed.liveInsts_eq_ok
      have hwide := (hm id f hf).wideComparison?_eq_none fun i => Function.listed_of_liveInsts hids
      refine ⟨s₀, does_bind.mpr ⟨f, s₀, does_query.mpr ⟨hf, rfl⟩, ?_⟩, rfl⟩
      refine does_bind.mpr ⟨none, s₀, does_query.mpr ⟨?_, rfl⟩, does_pure.mpr ⟨rfl, rfl⟩⟩
      exact Checked.bind_eq_ok.mpr ⟨ids, hids, hwide⟩
  have hstart : Repeats config m {} s₀ := ⟨rfl, hm, rfl⟩
  have hnormalized : ∃ stats₁ s₁, (if (config.convert == .none) = true then pure {}
      else m.functionIds.foldlM normalizeCompares {} : Pass CompareStats).Does s₀ stats₁ s₁ ∧
        Repeats config m stats₁ s₁ := by
    split
    · exact ⟨{}, s₀, does_pure.mpr ⟨rfl, rfl⟩, hstart⟩
    · next hconvert =>
      refine exists_foldlM_along (Repeats config m) (fun id hid stats s h => ?_) hstart
      exact exists_normalizeCompares (by simpa using hconvert) h hid
  obtain ⟨stats₁, s₁, hnormalize, hstart⟩ := hnormalized
  obtain ⟨stats₂, s₂, hhalve, hend⟩ := exists_foldlM_along (g := fun stats width =>
      m.functionIds.foldlM (halveCompares config width) stats) (l := [64, 32, 16, 8])
    (Repeats config m) (fun width hwidth stats s h =>
      exists_foldlM_along (Repeats config m) (fun id hid stats s h =>
        exists_halveCompares hwidth h hid) h) hstart
  obtain ⟨s₃, hreport⟩ : ∃ s₃, (reportCompares stats₂).Does s₂ () s₃ := by
    unfold reportCompares reportRecorded
    rw [if_pos hend.updates]
    split <;> exact ⟨_, rfl⟩
  refine ⟨stats₂, s₃, ?_, hend.updates, ?_⟩
  · refine does_bind.mpr ⟨_, s₀, does_functionIds.mpr ⟨rfl, rfl⟩, ?_⟩
    refine does_bind.mpr ⟨(), s₀, hwidths, ?_⟩
    have hrest : (do
        let stats ← [64, 32, 16, 8].foldlM
          (fun stats width => m.functionIds.foldlM (halveCompares config width) stats) stats₁
        reportCompares stats
        return stats : Pass CompareStats).Does s₁ stats₂ s₃ :=
      does_bind.mpr ⟨stats₂, s₂, hhalve,
        does_bind.mpr ⟨(), s₃, hreport, does_pure.mpr ⟨rfl, rfl⟩⟩⟩
    split
    · next hconvert =>
      rw [if_pos hconvert] at hnormalize
      exact does_bind.mpr ⟨stats₁, s₁, hnormalize, hrest⟩
    · next hconvert =>
      rw [if_neg hconvert] at hnormalize
      exact does_bind.mpr ⟨stats₁, s₁, hnormalize, hrest⟩
  · rw [silent_reportCompares stats₂ s₂ () s₃ hreport, hend.same]

/-- A run leaves nothing to take apart. -/
theorem splitCompares_apart (hm : m.Accepted) (honce : m.ListsOnce)
    (h : (splitCompares config).runOn m = .ok (.ok stats, s)) : s.module.Apart config := by
  have hnarrow := splitCompares_narrow (s := { module := m }) (hm.tidy honce) h
  have hsplits := splitCompares_splits (s := { module := m }) (hm.tidy honce) h
  have hnarrow' := hsplits.narrow hnarrow
  intro id f hid
  refine ⟨hnarrow'.tidy id f hid, hnarrow'.narrow id f hid, ?_, ?_, ?_⟩
  · intro i b pos pred lhs rhs hlisted hkind
    have hs := hsplits.sound (hm.sound honce) id f hid hlisted.isDeclaration
    exact hs.paired i b pos _ lhs rhs hlisted hkind rfl
  · exact fun hconvert => (splitCompares_spared hm honce hconvert h hid).normal
  · intro hconvert i pred lhs rhs width hi hwidth
    have hspared := (splitCompares_spared hm honce hconvert h hid).spared i pred lhs rhs width hi hwidth
      (by simp at hwidth; omega)
    exact ⟨f.annotations, hspared.resolve_left List.not_mem_nil⟩

/-- A run that takes all comparisons apart leaves equalities and strict orders of unsigned integers,
and none of them of 16, 32 or 64 bits. In each mode another run with the same settings counts
nothing and changes no code. -/
theorem splitCompares_normal (hm : m.Accepted) (honce : m.ListsOnce)
    (h : (splitCompares config).runOn m = .ok (.ok stats, s)) :
    (config.convert = .all → ∀ id f, s.module.function id = .ok f →
      ∀ i pred lhs rhs width, f.Candidate i pred lhs rhs width →
        width ∉ [16, 32, 64] ∧ pred ∈ [.eq, .ne, .ugt, .ult]) ∧
    ∃ stats' s', (splitCompares config).runOn s.module = .ok (.ok stats', s') ∧
      stats'.updates = 0 ∧ s'.module.withoutTokens = s.module.withoutTokens := by
  have hapart := splitCompares_apart hm honce h
  refine ⟨fun hconvert id f hid i pred lhs rhs width hi => ⟨fun hwidth => ?_, ?_⟩,
    exists_splitCompares hapart⟩
  · have hwide : width ∈ [64, 32, 16] := by
      simp only [List.mem_cons, List.not_mem_nil, or_false] at hwidth ⊢
      omega
    obtain ⟨annotations, hspared⟩ :=
      (hapart id f hid).whole (by rw [hconvert]; decide) i pred lhs rhs width hi hwide
    exact hspared.convert hconvert
  · exact (hapart id f hid).normal (by rw [hconvert]; decide) i pred lhs rhs width hi

end Pass

theorem Machine.comparing_splitCompares_normal : ∃ stats s,
    (Pass.splitCompares (.coverage .all)).runOn comparing.world.module = .ok (.ok stats, s) ∧
      (∀ id f, s.module.function id = .ok f → ∀ i pred lhs rhs width,
        f.Candidate i pred lhs rhs width → width ∉ [16, 32, 64] ∧ pred ∈ [.eq, .ne, .ugt, .ult]) ∧
      ∃ stats' s', (Pass.splitCompares (.coverage .all)).runOn s.module = .ok (.ok stats', s') ∧
        stats'.updates = 0 ∧ s'.module.withoutTokens = s.module.withoutTokens := by
  obtain ⟨stats, s, h⟩ := Pass.exists_of_completes comparing_completes
  obtain ⟨hnormal, hagain⟩ := Pass.splitCompares_normal comparing_accepted comparing_listsOnce h
  exact ⟨stats, s, h, hnormal rfl, hagain⟩

end EdgeProbe
