import EdgeProbe.Proofs.Lowering.Halves
import EdgeProbe.Proofs.Lowering.Refined
import EdgeProbe.Proofs.Lowering.Normalized
import EdgeProbe.Proofs.Validity.Passes

/-!
# Taking all comparisons apart

The comparisons to take apart are found once for each function and step, and stay comparisons of
the same operands while others are rewritten. Main statement: `Machine.call_splitCompares`.
-/

namespace EdgeProbe

variable {f f' : Function} {preds : List Predicate} {site : InstId × Nat}

theorem InstKind.comparison?_eq_some {kind : InstKind} {pred : Predicate} {lhs rhs : Value} :
    kind.comparison? = some (pred, lhs, rhs) ↔ kind = .icmp pred lhs rhs := by
  cases kind <;> simp [comparison?]

namespace Function

/-- A live instruction that, if it is a comparison, has one of some predicates and compares integers
of a width. -/
structure Site (f : Function) (preds : List Predicate) (site : InstId × Nat) : Prop where
  listed : ∃ b pos, f.Listed site.1 b pos
  compares : ∀ pred lhs rhs, f.kind site.1 = .ok (.icmp pred lhs rhs) →
    pred ∈ preds ∧ f.Compares site.1 pred lhs rhs site.2

theorem candidateWidth?_eq_some {id : InstId} {width : Nat}
    (h : f.candidateWidth? preds id = .ok (some width)) :
    ∃ pred lhs rhs, pred ∈ preds ∧ f.Compares id pred lhs rhs width ∧
      f.isMagic pred lhs rhs = .ok false := by
  unfold candidateWidth? at h
  obtain ⟨kind, hkind, h⟩ := Checked.bind_eq_ok.mp h
  cases kind with
  | icmp pred lhs rhs =>
    dsimp only at h
    split at h
    · cases h
    next hpred =>
    obtain ⟨left, hleft, h⟩ := Checked.bind_eq_ok.mp h
    cases left with
    | none => cases h
    | some found =>
      obtain ⟨right, hright, h⟩ := Checked.bind_eq_ok.mp h
      split at h
      · cases h
      next heq =>
      obtain ⟨magic, hmagic, h⟩ := Checked.bind_eq_ok.mp h
      cases magic with
      | true => cases h
      | false =>
        obtain rfl : found = width := Option.some.inj (Except.ok.inj h)
        obtain rfl : right = some found := by simpa using heq
        exact ⟨pred, lhs, rhs, by simpa using hpred, ⟨hkind, hleft, hright⟩, hmagic⟩
  | _ => cases h

theorem candidateWidth?_of_mem {sites : List (InstId × Nat)} (h : f.candidates preds = .ok sites)
    (hsite : site ∈ sites) :
    (∃ b pos, f.Listed site.1 b pos) ∧ f.candidateWidth? preds site.1 = .ok (some site.2) := by
  obtain ⟨ids, hids, h⟩ := Checked.bind_eq_ok.mp h
  obtain ⟨found, hfound, h⟩ := Checked.bind_eq_ok.mp h
  obtain rfl := Checked.pure_eq_ok.mp h
  obtain ⟨list, hlist, hmem⟩ := List.mem_flatten.mp hsite
  obtain ⟨id, hid, hone⟩ := Checked.exists_member hfound hlist
  obtain ⟨width, hwidth, hone⟩ := Checked.bind_eq_ok.mp hone
  obtain rfl := Checked.pure_eq_ok.mp hone
  cases width with
  | none => cases hmem
  | some width =>
    obtain rfl : site = (id, width) := by simpa using hmem
    exact ⟨listed_of_liveInsts hids hid, hwidth⟩

theorem candidates_site {sites : List (InstId × Nat)} (h : f.candidates preds = .ok sites)
    (hsite : site ∈ sites) : f.Site preds site := by
  obtain ⟨hlisted, hwidth⟩ := candidateWidth?_of_mem h hsite
  obtain ⟨pred, lhs, rhs, hpred, hcompares, -⟩ := candidateWidth?_eq_some hwidth
  refine ⟨hlisted, fun pred' lhs' rhs' hkind => ?_⟩
  obtain ⟨rfl, rfl, rfl⟩ := InstKind.icmp.inj (Except.ok.inj (hcompares.kind.symm.trans hkind))
  exact ⟨hpred, hcompares⟩

/-- A site remains one while other code is rewritten. -/
theorem Site.extended (hsite : f.Site preds site) (hf : f.Tidy) (h : f.Extended f') :
    f'.Site preds site := by
  obtain ⟨b, pos, hid⟩ := hsite.listed
  obtain ⟨kind, hkind⟩ := hf.exists_kind hid
  refine ⟨h.listed site.1 b pos hid, fun pred lhs rhs hkind' => ?_⟩
  have hbefore := h.kinds site.1 _ (index_lt_of_kind hkind) hkind' rfl
  obtain ⟨hpred, hcompares⟩ := hsite.compares pred lhs rhs hbefore
  exact ⟨hpred, hkind', h.types.intWidth? h.size hcompares.left,
    h.types.intWidth? h.size hcompares.right⟩

/-- The operands of live comparisons are no wider than a word. -/
def Narrow (f : Function) : Prop :=
  ∀ id b pos pred lhs rhs, f.Listed id b pos → f.kind id = .ok (.icmp pred lhs rhs) →
    ∃ width?, f.intWidth? lhs = .ok width? ∧ ∀ width ∈ width?, width ≤ 64

theorem wideComparison?_eq_none {ids : List InstId} (h : f.wideComparison? ids = .ok none) :
    ∀ id ∈ ids, ∀ pred lhs rhs, f.kind id = .ok (.icmp pred lhs rhs) →
      ∃ width?, f.intWidth? lhs = .ok width? ∧ ∀ width ∈ width?, width ≤ 64 := by
  induction ids with
  | nil => exact fun id hid => absurd hid List.not_mem_nil
  | cons first rest ih =>
    rw [wideComparison?] at h
    obtain ⟨kind, hkind, h⟩ := Checked.bind_eq_ok.mp h
    rw [List.forall_mem_cons]
    split at h
    · next pred₀ lhs₀ rhs₀ hcomparison =>
      obtain rfl := InstKind.comparison?_eq_some.mp hcomparison
      obtain ⟨width?, hwidth, h⟩ := Checked.bind_eq_ok.mp h
      have hfirst : (∀ width ∈ width?, width ≤ 64) ∧ f.wideComparison? rest = .ok none := by
        cases width? with
        | none => exact ⟨nofun, h⟩
        | some width =>
          dsimp only at h
          split at h
          · cases h
          · next hle => exact ⟨fun _ hw => Option.mem_some.mp hw ▸ Nat.le_of_not_lt hle, h⟩
      refine ⟨fun pred lhs rhs hicmp => ?_, ih hfirst.2⟩
      obtain ⟨rfl, rfl, rfl⟩ := InstKind.icmp.inj (Except.ok.inj (hkind.symm.trans hicmp))
      exact ⟨width?, hwidth, hfirst.1⟩
    · next hnone =>
      refine ⟨fun pred lhs rhs hicmp => ?_, ih h⟩
      obtain rfl := Except.ok.inj (hkind.symm.trans hicmp)
      cases hnone

theorem Site.width_le (hsite : f.Site preds site) (hnarrow : f.Narrow) {pred : Predicate}
    {lhs rhs : Value} (hkind : f.kind site.1 = .ok (.icmp pred lhs rhs)) : site.2 ≤ 64 := by
  obtain ⟨b, pos, hid⟩ := hsite.listed
  obtain ⟨width?, hwidth, hle⟩ := hnarrow site.1 b pos pred lhs rhs hid hkind
  have hleft := (hsite.compares pred lhs rhs hkind).2.left
  obtain rfl := Except.ok.inj (hwidth.symm.trans hleft)
  exact hle site.2 rfl

end Function

/-! ## Rewriting one comparison -/

/-- Code has been put in the place of a comparison that has the predicate and the width for it, or
tokens have moved. -/
inductive Function.Splits (f f' : Function) : Prop
  | strict {c : Cut} {join middle : BlockId} {strict equal : InstId} {pred : Predicate}
      {lhs rhs : Value} {width : Nat} (hc : c.Of f) (hsite : f.Compares c.site pred lhs rhs width)
      (hpred : pred ∈ [.uge, .sge, .ule, .sle]) (hne : middle ≠ c.head)
      (hstrict : f.insts.size ≤ strict.index) (hequal : strict.index < equal.index)
      (hlast : equal.index < f'.insts.size)
      (h : Opened f c join (c.simplified join middle strict equal pred lhs rhs)
        (.phi .i1 [(.inst equal, middle), (.ofBool true, c.head)]) f')
  | signs {c : Cut} {join : BlockId} {code : SignCode} {pred : Predicate} {lhs rhs : Value}
      {width : Nat} (hc : c.Of f) (hsite : f.Compares c.site pred lhs rhs width)
      (hpred : pred ∈ [.sgt, .slt]) (hpos : 0 < width) (hle : width ≤ 64)
      (hsigns : code.signs ≠ c.head) (hwords : code.words ≠ c.head)
      (hne : code.signs ≠ code.words) (hnew : code.Ordered f.insts.size f'.insts.size)
      (h : Opened f c join (code.parts c join pred lhs rhs width) (.phi .i1 code.entries) f')
  | equality {c : Cut} {join : BlockId} {code : HalfCode} {pred : Predicate} {lhs rhs : Value}
      {width : Nat} (hc : c.Of f) (hsite : f.Compares c.site pred lhs rhs width)
      (hpred : pred.isEquality = true) (hwidth : width ∈ [64, 32, 16]) (hlow : code.low ≠ c.head)
      (hnew : code.Ordered f.insts.size f'.insts.size)
      (h : Opened f c join (code.equalityParts c join pred lhs rhs width)
        (.phi .i1 (code.equalityEntries c pred)) f')
  | order {c : Cut} {join block : BlockId} {inverse : InstId} {code : HalfCode} {pred : Predicate}
      {lhs rhs : Value} {width : Nat} (hc : c.Of f) (hsite : f.Compares c.site pred lhs rhs width)
      (hpred : pred ∈ [.ugt, .ult]) (hwidth : width ∈ [64, 32, 16]) (hlow : code.low ≠ c.head)
      (hblock : block ≠ c.head) (hne : block ≠ code.low)
      (hafter : code.high.index < inverse.index) (hbefore : inverse.index < code.low0.index)
      (hnew : code.Ordered f.insts.size f'.insts.size)
      (h : Opened f c join (code.orderParts c join pred lhs rhs width block inverse)
        (.phi .i1 (code.orderEntries c block)) f')
  | tokens {annotations : Annotations} (h : f' = { f with annotations })
      (htokens : f.KeepsTokens f')

namespace Function.Splits

variable {g : Guard} {kept : Stop → Prop} {id : FuncId}

/-- Either tokens have moved, or a comparison has become a phi behind parts whose own comparisons
are of its left operand or of bits. -/
theorem cases_patched (h : f.Splits f') (hf : f.Tidy) :
    (∃ annotations, f' = { f with annotations }) ∨
    ∃ c join parts entries pred lhs rhs width, c.Of f ∧ f.Compares c.site pred lhs rhs width ∧
      Patched f c join parts .i1 entries f' ∧ ∀ p ∈ parts, ∀ i pred' lhs' rhs',
        (i, .icmp pred' lhs' rhs') ∈ p.insts → lhs' = lhs ∨ ∃ bits value count,
          lhs' = .inst bits ∧ f'.kind bits = .ok (.cast .trunc value count) ∧ count ≤ 64 := by
  cases h with
  | tokens h htokens => exact .inl ⟨_, h⟩
  | @strict c join middle strict equal pred lhs rhs width hc hsite hpred hne hstrict hequal hlast h =>
    obtain ⟨hlhs, hrhs⟩ := hsite.below hf hc.listed_site
    have hpatched := h.patched_simplified hne (by omega) hlast hlhs hrhs
    refine .inr ⟨c, join, _, _, pred, lhs, rhs, width, hc, hsite, hpatched, ?_⟩
    intro p hp i pred' lhs' rhs' hentry
    simp only [Cut.simplified, List.mem_cons, List.not_mem_nil, or_false] at hp
    obtain rfl | rfl := hp
    · simp at hentry
      exact .inl hentry.2.2.1
    · simp at hentry
      exact .inl hentry.2.2.1
  | @signs c join code pred lhs rhs width hc hsite hpred hpos hle hsigns hwords hne hnew h =>
    obtain ⟨hlhs, hrhs⟩ := hsite.below hf hc.listed_site
    have hpatched := SignCode.patched h hc hsigns hwords hnew hlhs hrhs
    refine .inr ⟨c, join, _, _, pred, lhs, rhs, width, hc, hsite, hpatched, ?_⟩
    intro p hp i pred' lhs' rhs' hentry
    have hsign : f'.kind code.sign0 = .ok (.cast .trunc (.inst code.shifted0) 1) :=
      (SignCode.reads hpatched).sign0
    simp only [SignCode.parts, List.mem_cons, List.not_mem_nil, or_false] at hp
    obtain rfl | rfl | rfl := hp
    · simp [SignCode.head] at hentry
      exact .inr ⟨_, _, _, hentry.2.2.1, hsign, by decide⟩
    · simp [SignCode.signPart] at hentry
      exact .inr ⟨_, _, _, hentry.2.2.1, hsign, by decide⟩
    · simp [SignCode.wordPart] at hentry
      exact .inl hentry.2.2.1
  | @equality c join code pred lhs rhs width hc hsite hpred hwidth hlow hnew h =>
    obtain ⟨hlhs, hrhs⟩ := hsite.below hf hc.listed_site
    have hpatched := HalfCode.patched_equality h hc hlow hnew hlhs hrhs
    refine .inr ⟨c, join, _, _, pred, lhs, rhs, width, hc, hsite, hpatched, ?_⟩
    have hreads : code.Reads f' pred lhs rhs width :=
      .of_parts hpatched List.mem_cons_self (by simp [HalfCode.equalityParts])
    have hhalf : width / 2 ≤ 64 := by simp at hwidth; omega
    intro p hp i pred' lhs' rhs' hentry
    simp only [HalfCode.equalityParts, List.mem_cons, List.not_mem_nil, or_false] at hp
    obtain rfl | rfl := hp
    · simp [HalfCode.head] at hentry
      exact .inr ⟨_, _, _, hentry.2.2.1, hreads.high0, hhalf⟩
    · simp [HalfCode.lowPart] at hentry
      exact .inr ⟨_, _, _, hentry.2.2.1, hreads.low0, hhalf⟩
  | @order c join block inverse code pred lhs rhs width hc hsite hpred hwidth hlow hblock hne hafter
      hbefore hnew h =>
    obtain ⟨hlhs, hrhs⟩ := hsite.below hf hc.listed_site
    have hpatched := HalfCode.patched_order h hc hlow hblock hbefore hnew hlhs hrhs
    refine .inr ⟨c, join, _, _, pred, lhs, rhs, width, hc, hsite, hpatched, ?_⟩
    have hreads : code.Reads f' pred lhs rhs width :=
      .of_parts hpatched List.mem_cons_self (by simp [HalfCode.orderParts])
    have hhalf : width / 2 ≤ 64 := by simp at hwidth; omega
    intro p hp i pred' lhs' rhs' hentry
    simp only [HalfCode.orderParts, List.mem_cons, List.not_mem_nil, or_false] at hp
    obtain rfl | rfl | rfl := hp
    · simp [HalfCode.head] at hentry
      exact .inr ⟨_, _, _, hentry.2.2.1, hreads.high0, hhalf⟩
    · simp [HalfCode.inversePart] at hentry
      exact .inr ⟨_, _, _, hentry.2.2.1, hreads.high0, hhalf⟩
    · simp [HalfCode.lowPart] at hentry
      exact .inr ⟨_, _, _, hentry.2.2.1, hreads.low0, hhalf⟩

theorem extended (h : f.Splits f') (hf : f.Tidy) : f.Extended f' := by
  obtain ⟨annotations, rfl⟩ | ⟨c, join, parts, entries, pred, lhs, rhs, width, hc, hsite, hpatched, -⟩ :=
    h.cases_patched hf
  · exact .refl hf annotations
  · exact hpatched.extended hf hc hsite.kind rfl rfl

/-- New comparisons are narrow if those that they stand for are. -/
theorem narrow (h : f.Splits f') (hf : f.Tidy) (hnarrow : f.Narrow) : f'.Narrow := by
  obtain ⟨annotations, rfl⟩ | ⟨c, join, parts, entries, pred, lhs, rhs, width, hc, hsite, hpatched,
    hgiven⟩ := h.cases_patched hf
  · intro i b pos pred lhs rhs hi hicmp
    obtain ⟨width?, hwidth, hle⟩ := hnarrow i b pos pred lhs rhs hi hicmp
    exact ⟨width?, (Extended.refl hf annotations).types.intWidth? le_rfl hwidth, hle⟩
  have htypes := hpatched.typesKept hsite.kind rfl
  have hold : ∀ i b pos pred lhs rhs, f.Listed i b pos → f'.kind i = .ok (.icmp pred lhs rhs) →
      ∃ width?, f'.intWidth? lhs = .ok width? ∧ ∀ width ∈ width?, width ≤ 64 := by
    intro i b pos pred lhs rhs hi hicmp
    obtain ⟨k, hk⟩ := hf.exists_kind hi
    have hbefore := hpatched.kind_of_kind (index_lt_of_kind hk) hicmp rfl
    obtain ⟨width?, hwidth, hle⟩ := hnarrow i b pos pred lhs rhs hi hbefore
    exact ⟨width?, htypes.intWidth? hpatched.opened.sizeInsts hwidth, hle⟩
  intro i b pos pred' lhs' rhs' hi hicmp
  obtain ⟨hlisted, -⟩ | ⟨-, hlisted⟩ | ⟨p, hp, -, -, k, hentry⟩ :=
    hpatched.opened.listed_cases hf.closed hc hi
  · exact hold i b pos pred' lhs' rhs' hlisted hicmp
  · exact hold i _ _ pred' lhs' rhs' hlisted hicmp
  · obtain rfl := Except.ok.inj ((hpatched.kind_of_mem hp hentry).symm.trans hicmp)
    obtain rfl | ⟨bits, value, count, rfl, hbits, hle⟩ := hgiven p hp i pred' lhs' rhs' hentry
    · obtain ⟨width?, hwidth, hle⟩ := hnarrow _ _ _ _ _ _ hc.listed_site hsite.kind
      exact ⟨width?, htypes.intWidth? hpatched.opened.sizeInsts hwidth, hle⟩
    · refine ⟨some count, intWidth?_of_fixedType? hbits rfl, ?_⟩
      exact fun _ hw => Option.mem_some.mp hw ▸ hle

/-- Whatever a comparison has become, it does what it did. -/
theorem simulated (h : f.Splits f') (hf : f.Tidy) : f.Simulated f' := by
  have hhalves : ∀ {width}, width ∈ [64, 32, 16] →
      width = 2 * (width / 2) ∧ 0 < width ∧ width ≤ 64 := by
    intro width hwidth
    simp only [List.mem_cons, List.not_mem_nil, or_false] at hwidth
    omega
  cases h with
  | @tokens annotations h htokens =>
    subst h
    exact hf.simulated annotations
  | strict hc hsite hpred hne hstrict hequal hlast h =>
    obtain ⟨hlhs, hrhs⟩ := hsite.below hf hc.listed_site
    have hpatched := h.patched_simplified hne (by omega) hlast hlhs hrhs
    exact hpatched.simulated_simplified hf hc hsite hpred hne hstrict hequal
  | signs hc hsite hpred hpos hle hsigns hwords hne hnew h =>
    obtain ⟨hlhs, hrhs⟩ := hsite.below hf hc.listed_site
    exact SignCode.simulated (SignCode.patched h hc hsigns hwords hnew hlhs hrhs) hf hc hsite hpred
      hpos hle hsigns hwords hne hnew
  | equality hc hsite hpred hwidth hlow hnew h =>
    obtain ⟨hlhs, hrhs⟩ := hsite.below hf hc.listed_site
    obtain ⟨heven, hpos, hle⟩ := hhalves hwidth
    exact HalfCode.simulated_equality hf hc hsite heven hpos hle hlow hnew
      (HalfCode.patched_equality h hc hlow hnew hlhs hrhs) hpred
  | order hc hsite hpred hwidth hlow hblock hne hafter hbefore hnew h =>
    obtain ⟨hlhs, hrhs⟩ := hsite.below hf hc.listed_site
    obtain ⟨heven, hpos, hle⟩ := hhalves hwidth
    exact HalfCode.simulated_order hf hc hsite heven hpos hle hlow hnew
      (HalfCode.patched_order h hc hlow hblock hbefore hnew hlhs hrhs) hpred hblock hne hafter

end Function.Splits

/-! ## Loops -/

/-- What a function has become in the course of a loop over comparisons found in it. -/
structure Function.SplitFrom (f f' : Function) : Prop where
  steps : Relation.ReflTransGen Function.Splits f f'
  extended : f.Extended f'
  narrow : f.Narrow → f'.Narrow

namespace Function.SplitFrom

variable {f₁ : Function}

theorem refl (hf : f.Tidy) : f.SplitFrom f :=
  ⟨.refl, .refl hf f.annotations, id⟩

theorem tail (h : f.SplitFrom f₁) (hlast : f₁.Splits f') : f.SplitFrom f' :=
  ⟨h.steps.tail hlast, h.extended.trans (hlast.extended h.extended.tidy),
    fun hnarrow => hlast.narrow h.extended.tidy (h.narrow hnarrow)⟩

theorem trans (h : f.SplitFrom f₁) (h' : f₁.SplitFrom f') : f.SplitFrom f' :=
  ⟨h.steps.trans h'.steps, h.extended.trans h'.extended, h'.narrow ∘ h.narrow⟩

end Function.SplitFrom

namespace Edit

variable {u : Unit}

theorem simplify_unchanged {id : InstId} {kind : InstKind} (hkind : f.kind id = .ok kind)
    (hnot : kind.comparison? = none) (h : (simplify id).Does f u f') : f = f' := by
  obtain ⟨k, f₁, hasked, h⟩ := does_bind.mp h
  obtain ⟨hk, rfl⟩ := kind_does.mp hasked
  obtain rfl := Except.ok.inj (hkind.symm.trans hk)
  rw [hnot] at h
  exact (does_pure.mp h).2

theorem normalizeSign_unchanged {id : InstId} {width : Nat} {kind : InstKind}
    (hkind : f.kind id = .ok kind) (hnot : kind.comparison? = none)
    (h : (normalizeSign width id).Does f u f') : f = f' := by
  obtain ⟨k, f₁, hasked, h⟩ := does_bind.mp h
  obtain ⟨hk, rfl⟩ := kind_does.mp hasked
  obtain rfl := Except.ok.inj (hkind.symm.trans hk)
  rw [hnot] at h
  exact (does_pure.mp h).2

theorem simplify_splits (hf : f.Tidy) (hsite : f.Site [.uge, .sge, .ule, .sle] site)
    (h : (simplify site.1).Does f u f') : f = f' ∨ f.Splits f' := by
  obtain ⟨b, pos, hid⟩ := hsite.listed
  obtain ⟨kind, hkind⟩ := hf.exists_kind hid
  cases hcomparison : kind.comparison? with
  | none => exact .inl (simplify_unchanged hkind hcomparison h)
  | some operands =>
    obtain ⟨pred, lhs, rhs⟩ := operands
    obtain rfl := InstKind.comparison?_eq_some.mp hcomparison
    obtain ⟨hpred, hcompares⟩ := hsite.compares pred lhs rhs hkind
    obtain ⟨c, join, strict, middle, equal, hc, hcsite, hne, hstrict, hequal, hlast, hopened⟩ :=
      simplify_opened hf hid hkind h
    exact .inr (.strict hc (hcsite ▸ hcompares) hpred hne hstrict hequal hlast hopened)

theorem normalizeSign_splits (hf : f.Tidy) (hsite : f.Site [.sgt, .slt] site) (hnarrow : f.Narrow)
    (h : (normalizeSign site.2 site.1).Does f u f') : f = f' ∨ f.Splits f' := by
  obtain ⟨b, pos, hid⟩ := hsite.listed
  obtain ⟨kind, hkind⟩ := hf.exists_kind hid
  cases hcomparison : kind.comparison? with
  | none => exact .inl (normalizeSign_unchanged hkind hcomparison h)
  | some operands =>
    obtain ⟨pred, lhs, rhs⟩ := operands
    obtain rfl := InstKind.comparison?_eq_some.mp hcomparison
    obtain ⟨hpred, hcompares⟩ := hsite.compares pred lhs rhs hkind
    obtain ⟨hpos, c, join, code, hc, hcsite, hsigns, hwords, hne, hnew, hopened⟩ :=
      normalizeSign_opened hf hid hkind h
    exact .inr (.signs hc (hcsite ▸ hcompares) hpred hpos (hsite.width_le hnarrow hkind) hsigns
      hwords hne hnew hopened)

theorem halve_splits (hf : f.Tidy) (hsite : f.Site [.eq, .ne, .ugt, .ult] site)
    (hwidth : site.2 ∈ [64, 32, 16]) {pred : Predicate} {lhs rhs : Value}
    (hkind : f.kind site.1 = .ok (.icmp pred lhs rhs))
    (h : (halve site.2 site.1 pred lhs rhs).Does f u f') : f.Splits f' := by
  obtain ⟨b, pos, hid⟩ := hsite.listed
  obtain ⟨hpred, hcompares⟩ := hsite.compares pred lhs rhs hkind
  cases hequality : pred.isEquality with
  | true =>
    obtain ⟨c, join, code, hc, hcsite, hlow, hnew, hopened, -⟩ :=
      halve_opened_equality hf hid hkind hequality h
    exact .equality hc (hcsite ▸ hcompares) hequality hwidth hlow hnew hopened
  | false =>
    have horder : pred ∈ [.ugt, .ult] := by
      simp only [List.mem_cons, List.not_mem_nil, or_false] at hpred ⊢
      obtain rfl | rfl | hpred := hpred
      · cases hequality
      · cases hequality
      · exact hpred
    obtain ⟨c, join, block, inverse, code, hc, hcsite, hlow, hblock, hne, hafter, hbefore, hnew,
      hopened, -⟩ := halve_opened_order hf hid hkind hequality h
    exact .order hc (hcsite ▸ hcompares) horder hwidth hlow hblock hne hafter hbefore hnew hopened

/-- What is true of single comparisons is true of a loop over those that were found. -/
theorem forM_splitFrom {sites : List (InstId × Nat)} {edit : InstId × Nat → Edit Unit}
    (hf : f.Tidy) (hsites : ∀ site ∈ sites, f.Site preds site)
    (hedit : ∀ site, ∀ f₁ f₂, f.SplitFrom f₁ → f₁.Site preds site →
      (edit site).Does f₁ () f₂ → f₁ = f₂ ∨ f₁.Splits f₂)
    (h : (sites.forM edit).Does f u f') : f.SplitFrom f' := by
  refine h.forM (fun f' => f.SplitFrom f') ?_ (.refl hf)
  intro site hsite f₁ f₂ hfrom hdoes
  have hsite₁ := (hsites site hsite).extended hf hfrom.extended
  obtain rfl | hsplits := hedit site f₁ f₂ hfrom hsite₁ hdoes
  · exact hfrom
  · exact hfrom.tail hsplits

theorem simplifyAll_splitFrom (hf : f.Tidy) {count : Nat} (h : simplifyAll.Does f count f') :
    f.SplitFrom f' := by
  rw [simplifyAll, does_bind] at h
  obtain ⟨sites, f₁, hquery, h⟩ := h
  obtain ⟨hsites, rfl⟩ := does_query.mp hquery
  obtain ⟨u, f₂, hloop, h⟩ := does_bind.mp h
  obtain ⟨-, rfl⟩ := does_pure.mp h
  refine forM_splitFrom hf (fun site => Function.candidates_site hsites) ?_ hloop
  exact fun site f₁ f₂ hfrom hsite hdoes => simplify_splits hfrom.extended.tidy hsite hdoes

theorem normalizeSigns_splitFrom (hf : f.Tidy) (hnarrow : f.Narrow) {count : Nat}
    (h : normalizeSigns.Does f count f') : f.SplitFrom f' := by
  rw [normalizeSigns, does_bind] at h
  obtain ⟨sites, f₁, hquery, h⟩ := h
  obtain ⟨hsites, rfl⟩ := does_query.mp hquery
  obtain ⟨u, f₂, hloop, h⟩ := does_bind.mp h
  obtain ⟨-, rfl⟩ := does_pure.mp h
  refine forM_splitFrom hf (fun site => Function.candidates_site hsites) ?_ hloop
  exact fun site f₁ f₂ hfrom hsite hdoes =>
    normalizeSign_splits hfrom.extended.tidy hsite (hfrom.narrow hnarrow) hdoes

end Edit

/-! ## The pass -/

namespace Module

/-- Functions have been split one after another. -/
abbrev Splits : Module → Module → Prop :=
  Steps fun _ f f' => f.Splits f'

/-- What a module has to be like for comparisons to be split. -/
structure Narrow (m : Module) : Prop where
  tidy : m.Tidy
  narrow : ∀ id f, m.function id = .ok f → f.Narrow

end Module

namespace Pass

variable {s s' : PassState} {id : FuncId}

theorem checkWidth_narrow {u : Unit} (h : (checkWidths id).Does s u s') :
    s' = s ∧ ∀ f, s.module.function id = .ok f → f.Narrow := by
  rw [checkWidths, does_bind] at h
  obtain ⟨f, s₁, hquery, h⟩ := h
  obtain ⟨hid, rfl⟩ := does_query.mp hquery
  rw [does_bind] at h
  obtain ⟨width?, s₂, hquery, h⟩ := h
  obtain ⟨hwide, rfl⟩ := does_query.mp hquery
  obtain ⟨ids, hids, hwide⟩ := Checked.bind_eq_ok.mp hwide
  cases width? with
  | some width => exact absurd h not_does_throw
  | none =>
    obtain ⟨-, rfl⟩ := does_pure.mp h
    refine ⟨rfl, fun f' hid' => ?_⟩
    obtain rfl := Except.ok.inj (hid.symm.trans hid')
    intro i b pos pred lhs rhs hi hkind
    exact Function.wideComparison?_eq_none hwide i (Function.mem_liveInsts hids hi) pred lhs rhs hkind

/-- When no width is refused, all comparisons are narrow. -/
theorem checkWidths_narrow {ids : List FuncId} {u : Unit} (h : (ids.forM checkWidths).Does s u s') :
    s' = s ∧ ∀ id ∈ ids, ∀ f, s.module.function id = .ok f → f.Narrow := by
  induction ids generalizing s with
  | nil =>
    obtain ⟨-, rfl⟩ := does_pure.mp h
    exact ⟨rfl, fun id hid => absurd hid List.not_mem_nil⟩
  | cons id rest ih =>
    obtain ⟨s₁, hfirst, hrest⟩ := does_forM.mp h
    obtain ⟨rfl, hnarrow⟩ := checkWidth_narrow hfirst
    obtain ⟨rfl, hall⟩ := ih hrest
    exact ⟨rfl, List.forall_mem_cons.mpr ⟨hnarrow, hall⟩⟩

/-- The function has been split further, so the module has. -/
theorem inFunction_splits {α : Type} {edit : Edit α} {a : α}
    (hdoes : (inFunction id edit).Does s a s')
    (hedit : ∀ f f', s.module.function id = .ok f → edit.Does f a f' → f.SplitFrom f') :
    s.module.Splits s'.module ∧ ∀ f, s.module.function id = .ok f →
      ∃ f', s'.module.function id = .ok f' ∧ f.SplitFrom f' := by
  refine ⟨.inFunction hdoes fun f f' hid h => (hedit f f' hid h).steps, fun f hid => ?_⟩
  obtain ⟨f₁, f', hid₁, h, rfl⟩ := does_inFunction.mp hdoes
  obtain rfl := Except.ok.inj (hid.symm.trans hid₁)
  refine ⟨f', ?_, hedit f f' hid h⟩
  dsimp only
  rw [Module.function_setFunction (Module.index_lt_of_function hid), if_pos rfl]

end Pass

namespace Module

variable {m m' : Module}

/-- Steps keep functions tidy. -/
theorem Splits.tidy (h : m.Splits m') (hm : m.Tidy) : m'.Tidy := by
  refine Steps.keeps Module.Tidy h (fun m id f f' hm hid hsplits => ?_) hm
  exact hm.setFunction hid (hsplits.extended (hm id f hid)).tidy

theorem Splits.narrow (h : m.Splits m') (hm : m.Narrow) : m'.Narrow := by
  refine Steps.keeps Module.Narrow h (fun m id f f' hm hid hsplits => ?_) hm
  refine ⟨hm.tidy.setFunction hid (hsplits.extended (hm.tidy id f hid)).tidy, fun i f₁ hi => ?_⟩
  rw [function_setFunction (index_lt_of_function hid)] at hi
  split at hi
  · exact Except.ok.inj hi ▸ hsplits.narrow (hm.tidy id f hid) (hm.narrow id f hid)
  · exact hm.narrow i f₁ hi

end Module

namespace Pass

variable {s s' : PassState} {id : FuncId}

theorem normalizeCompares_splits (hs : s.module.Narrow) {stats stats' : CompareStats}
    (h : (normalizeCompares stats id).Does s stats' s') : s.module.Splits s'.module := by
  rw [normalizeCompares, does_bind] at h
  obtain ⟨simplified, s₁, hfirst, h⟩ := h
  obtain ⟨hsplits₁, hfrom⟩ := inFunction_splits hfirst fun f f' hid hdoes =>
    Edit.simplifyAll_splitFrom (hs.tidy id f hid) hdoes
  rw [does_bind] at h
  obtain ⟨signNormalized, s₂, hsecond, h⟩ := h
  obtain ⟨-, rfl⟩ := does_pure.mp h
  have hs₁ := hsplits₁.narrow hs
  obtain ⟨hsplits₂, -⟩ := inFunction_splits hsecond fun f f' hid hdoes =>
    Edit.normalizeSigns_splitFrom (hs₁.tidy id f hid) (hs₁.narrow id f hid) hdoes
  exact hsplits₁.trans hsplits₂

end Pass

namespace Function

/-- Only the tokens of one instruction may differ. -/
structure Retagged (f : Function) (id : InstId) (f' : Function) : Prop where
  code : ∃ annotations, f' = { f with annotations }
  others : ∀ i ≠ id, f'.annotations.get i = f.annotations.get i

/-- The constant of a comparison, if it has the length of a token, is one of its tokens. -/
def HasConstant (f : Function) (limits : Limits) (id : InstId) (lhs rhs : Value) : Prop :=
  ∃ bytes, Pass.comparedBytes? lhs rhs = some bytes ∧
    ∀ value ∈ Token.encode? limits false bytes, ∃ token ∈ f.annotations.get id,
      token.origin = .comparedInteger ∧ token.value = value

/-- What happens to one comparison: if it is none any more, nothing, else it may be recorded, and
then it is left whole or halved. -/
inductive HalvingStep (config : Config) (width : Nat) (id : InstId) (f f' : Function) : Prop
  | other (hkind : ∀ pred lhs rhs, f.kind id ≠ .ok (.icmp pred lhs rhs)) (h : f' = f)
  | recorded {pred : Predicate} {lhs rhs : Value} (hkind : f.kind id = .ok (.icmp pred lhs rhs))
    (hpred : pred.isEquality = true) (hconvert : config.convert ≠ .all)
    (hmark : ∀ inst, f.inst id = .ok inst → inst.split = false) (h : f.Retagged id f')
    (hconstant : f'.HasConstant config.limits id lhs rhs)
  | whole {pred : Predicate} {lhs rhs : Value} (hkind : f.kind id = .ok (.icmp pred lhs rhs))
    (hwhole : config.convert = .none ∨ width ≤ 8) (h : f.Retagged id f')
  | halved {pred : Predicate} {lhs rhs : Value} {f₁ : Function}
    (hkind : f.kind id = .ok (.icmp pred lhs rhs)) (hwidth : 8 < width) (hfirst : f.Retagged id f₁)
    (h : (Edit.halve width id pred lhs rhs).Does f₁ () f')

theorem Retagged.refl (f : Function) (id : InstId) : f.Retagged id f :=
  ⟨⟨f.annotations, rfl⟩, fun _ _ => rfl⟩

theorem Retagged.kind {id : InstId} (h : f.Retagged id f') (i : InstId) : f'.kind i = f.kind i := by
  obtain ⟨annotations, rfl⟩ := h.code
  rfl

/-- Tokens on a live instruction are a step. -/
theorem Retagged.splitFrom {id : InstId} (h : f.Retagged id f') (hf : f.Tidy)
    (hid : id.index < f.insts.size) : f.SplitFrom f' := by
  obtain ⟨annotations, rfl⟩ := h.code
  refine (SplitFrom.refl hf).tail (.tokens rfl fun i hi => ?_)
  by_cases heq : i = id
  · exact .inr (heq ▸ hid)
  · exact .inl (h.others i heq ▸ hi)

theorem HalvingStep.splitFrom {config : Config} (hf : f.Tidy)
    (hsite : f.Site [.eq, .ne, .ugt, .ult] site) (hwidth : site.2 ∈ [64, 32, 16, 8])
    (h : HalvingStep config site.2 site.1 f f') : f.SplitFrom f' := by
  cases h with
  | other hkind h =>
    rw [h]
    exact .refl hf
  | recorded hkind _ _ _ h => exact h.splitFrom hf (index_lt_of_kind hkind)
  | whole hkind _ h => exact h.splitFrom hf (index_lt_of_kind hkind)
  | halved hkind hlt hfirst h =>
    have hfrom := hfirst.splitFrom hf (index_lt_of_kind hkind)
    have hwide : site.2 ∈ [64, 32, 16] := by
      simp only [List.mem_cons, List.not_mem_nil, or_false] at hwidth ⊢
      omega
    exact hfrom.tail (Edit.halve_splits hfrom.extended.tidy (hsite.extended hf hfrom.extended) hwide
      ((hfirst.kind _).trans hkind) h)

end Function

namespace Pass

variable {s s' : PassState} {id : FuncId} {config : Config} {i : InstId} {width : Nat}

theorem recordCompared_does {lhs rhs : Value} {recorded : Bool}
    (hid : s.module.function id = .ok f)
    (h : (recordCompared config id i lhs rhs).Does s recorded s') :
    ∃ f', s'.module = s.module.setFunction id f' ∧ f.Retagged i f' ∧
      (recorded = true → f'.HasConstant config.limits i lhs rhs) := by
  unfold recordCompared at h
  split at h
  · obtain ⟨rfl, rfl⟩ := does_pure.mp h
    exact ⟨f, (Module.setFunction_self hid).symm, .refl f i, fun hrecorded => by cases hrecorded⟩
  next bytes hbytes =>
  obtain ⟨provenance, s₁, hquery, h⟩ := does_bind.mp h
  obtain ⟨-, rfl⟩ := does_query.mp hquery
  split at h
  · next token htoken =>
    obtain ⟨u, s₂, hattach, h⟩ := does_bind.mp h
    obtain ⟨-, rfl⟩ := does_pure.mp h
    obtain ⟨f₁, f', hid₁, hdoes, rfl⟩ := does_inFunction.mp hattach
    obtain rfl := Except.ok.inj (hid.symm.trans hid₁)
    obtain ⟨value, hvalue, rfl⟩ := Option.map_eq_some_iff.mp htoken
    obtain rfl := Edit.does_attach_single rfl hdoes
    refine ⟨_, rfl, ⟨⟨_, rfl⟩, fun j hne => ?_⟩, fun _ => ⟨bytes, hbytes, fun value' hvalue' => ?_⟩⟩
    · exact (Annotations.get_modify _ _ _ _).trans (if_neg hne)
    · obtain rfl : value = value' := Option.some.inj (hvalue.symm.trans hvalue')
      refine ⟨{ value, provenance, origin := .comparedInteger }, ?_, rfl, rfl⟩
      dsimp only
      rw [Annotations.get_modify, if_pos rfl]
      exact List.mem_append_right _ (List.mem_singleton_self _)
  · next htoken =>
    obtain ⟨u, s₂, hreport, h⟩ := does_bind.mp h
    obtain ⟨-, rfl⟩ := does_pure.mp h
    refine ⟨f, ?_, .refl f i, fun _ => ⟨bytes, hbytes, fun value hvalue => ?_⟩⟩
    · rw [module_of_report hreport, Module.setFunction_self hid]
    · rw [Token.ofBytes?, Option.mem_def.mp hvalue] at htoken
      cases htoken

theorem halveCompare_does {done : Halving}
    (h : (halveCompare config id width i).Does s done s') :
    ∃ f f', s.module.function id = .ok f ∧ s'.module = s.module.setFunction id f' ∧
      Function.HalvingStep config width i f f' := by
  unfold halveCompare at h
  obtain ⟨inst, s₁, hquery, h⟩ := does_bind.mp h
  obtain ⟨hinst, rfl⟩ := does_query.mp hquery
  obtain ⟨f, hid, hinst⟩ := Checked.bind_eq_ok.mp hinst
  have hkind : f.kind i = .ok inst.kind := Function.kind_eq_ok.mpr ⟨inst, hinst, rfl⟩
  split at h
  · next hnone =>
    obtain ⟨-, rfl⟩ := does_pure.mp h
    refine ⟨f, f, hid, (Module.setFunction_self hid).symm, .other (fun pred lhs rhs hicmp => ?_) rfl⟩
    rw [Except.ok.inj (hkind.symm.trans hicmp)] at hnone
    cases hnone
  next pred lhs rhs hcomparison =>
  rw [InstKind.comparison?_eq_some.mp hcomparison] at hkind
  dsimp only at h
  -- What follows once the comparison has been recorded or not.
  have hrest : ∀ recorded s₂ f₁, s₂.module = s.module.setFunction id f₁ → f.Retagged i f₁ →
      (recorded = true → (inst.split = false ∧ pred.isEquality = true) ∧
        f₁.HasConstant config.limits i lhs rhs) →
      (if (recorded && config.convert != .all) = true then pure { recorded }
        else if (config.convert == .none || decide (width ≤ 8)) = true then pure { recorded }
        else do
          let name := (← query (·.function id)).name
          debug ("splitting " ++ toString width ++ "-bit " ++ pred.mnemonic ++ " in " ++ name)
          Pass.inFunction id (Edit.halve width i pred lhs rhs)
          pure { recorded, halved := !inst.split } : Pass Halving).Does s₂ done s' →
      ∃ f f', s.module.function id = .ok f ∧ s'.module = s.module.setFunction id f' ∧
        Function.HalvingStep config width i f f' := by
    intro recorded s₂ f₁ hs₂ htagged hrecorded h
    split at h
    · next hleft =>
      obtain ⟨-, rfl⟩ := does_pure.mp h
      rw [Bool.and_eq_true, bne_iff_ne] at hleft
      obtain ⟨⟨hmark, hpred⟩, hconstant⟩ := hrecorded hleft.1
      refine ⟨f, f₁, hid, hs₂, .recorded hkind hpred hleft.2 (fun inst' hinst' => ?_) htagged hconstant⟩
      exact Except.ok.inj (hinst.symm.trans hinst') ▸ hmark
    split at h
    · next hwhole =>
      obtain ⟨-, rfl⟩ := does_pure.mp h
      rw [Bool.or_eq_true, beq_iff_eq, decide_eq_true_eq] at hwhole
      exact ⟨f, f₁, hid, hs₂, .whole hkind hwhole htagged⟩
    next hgo =>
    obtain ⟨f₂, s₃, hquery, h⟩ := does_bind.mp h
    obtain ⟨-, rfl⟩ := does_query.mp hquery
    obtain ⟨u, s₄, hreport, h⟩ := does_bind.mp h
    obtain ⟨v, s₅, hhalve, h⟩ := does_bind.mp h
    obtain ⟨-, rfl⟩ := does_pure.mp h
    obtain ⟨f₃, f', hid₃, hdoes, rfl⟩ := does_inFunction.mp hhalve
    rw [module_of_report hreport, hs₂,
      Module.function_setFunction (Module.index_lt_of_function hid),
      if_pos rfl] at hid₃
    obtain rfl := Except.ok.inj hid₃
    have hwidth : 8 < width := by
      rw [Bool.or_eq_true, decide_eq_true_eq, not_or] at hgo
      exact Nat.lt_of_not_le hgo.2
    refine ⟨f, f', hid, ?_, .halved hkind hwidth htagged hdoes⟩
    dsimp only
    rw [module_of_report hreport, hs₂, Module.setFunction_setFunction]
  split at h
  · next hask =>
    obtain ⟨recorded, s₂, hrecord, h⟩ := does_bind.mp h
    obtain ⟨f₁, hs₂, htagged, hconstant⟩ := recordCompared_does hid hrecord
    rw [Bool.and_eq_true, Bool.not_eq_true'] at hask
    exact hrest recorded s₂ f₁ hs₂ htagged (fun hrecorded => ⟨hask, hconstant hrecorded⟩) h
  · obtain ⟨recorded, s₂, hpure, h⟩ := does_bind.mp h
    obtain ⟨rfl, rfl⟩ := does_pure.mp hpure
    exact hrest false s f (Module.setFunction_self hid).symm (.refl f i)
      (fun hrecorded => by cases hrecorded) h

/-- What the loop over the comparisons of a function keeps. -/
structure Halved (m : Module) (id : FuncId) (f : Function) (s : PassState) : Prop where
  splits : m.Splits s.module
  tidy : s.module.Tidy
  function : ∃ f', s.module.function id = .ok f' ∧ f.SplitFrom f'

theorem halveCompare_halved {m : Module} (hf : f.Tidy) (hsite : f.Site [.eq, .ne, .ugt, .ult] site)
    (hwidth : site.2 ∈ [64, 32, 16, 8]) (hs : Halved m id f s) {done : Halving}
    (h : (halveCompare config id site.2 site.1).Does s done s') : Halved m id f s' := by
  obtain ⟨f₁, hid₁, hfrom⟩ := hs.function
  obtain ⟨f₂, f', hid₂, hs', hstep⟩ := halveCompare_does h
  obtain rfl := Except.ok.inj (hid₁.symm.trans hid₂)
  have hfrom' := hstep.splitFrom hfrom.extended.tidy (hsite.extended hf hfrom.extended) hwidth
  have hsplits : s.module.Splits s'.module := hs' ▸ .of_function hid₁ hfrom'.steps
  refine ⟨hs.splits.trans hsplits, hsplits.tidy hs.tidy, f', ?_, hfrom.trans hfrom'⟩
  rw [hs', Module.function_setFunction (Module.index_lt_of_function hid₁), if_pos rfl]

theorem halveCompares_splits {config : Config} {width : Nat} (hwidth : width ∈ [64, 32, 16, 8])
    (hs : s.module.Tidy) {stats stats' : CompareStats}
    (h : (halveCompares config width stats id).Does s stats' s') : s.module.Splits s'.module := by
  unfold halveCompares at h
  obtain ⟨sites, s₁, hquery, h⟩ := does_bind.mp h
  obtain ⟨hsites, rfl⟩ := does_query.mp hquery
  obtain ⟨f, hid, hsites⟩ := Checked.bind_eq_ok.mp hsites
  have hf := hs id f hid
  have hkept : Halved s.module id f s' := by
    refine h.foldlM (Halved s.module id f) ?_ ⟨.refl, hs, f, hid, .refl hf⟩
    intro site hsite stats stats' s₂ s₃ hs₂ hstep
    obtain ⟨hmem, heq⟩ := List.mem_filter.mp hsite
    obtain rfl : site.2 = width := by simpa using heq
    obtain ⟨done, s₄, hdone, hstep⟩ := does_bind.mp hstep
    obtain ⟨-, rfl⟩ := does_pure.mp hstep
    exact halveCompare_halved hf (Function.candidates_site hsites hmem) hwidth hs₂ hdone
  exact hkept.splits

theorem silent_reportRecorded (count : Nat) (pairs : List (String × String)) :
    (reportRecorded count pairs).Silent := by
  unfold reportRecorded
  split
  · exact silent_report _
  · exact silent_report _

theorem silent_reportCompares (stats : CompareStats) : (reportCompares stats).Silent := by
  unfold reportCompares
  dsimp only
  split
  · exact (silent_report _).bind fun _ => silent_reportRecorded _ _
  · exact (silent_report _).bind fun _ => silent_reportRecorded _ _

/-- Splitting the comparisons of a module is a number of steps, each of which puts code in the place
of one comparison or moves tokens. -/
theorem splitCompares_splits {config : Config} (hs : s.module.Tidy) {stats : CompareStats}
    (h : (splitCompares config).Does s stats s') : s.module.Splits s'.module := by
  unfold splitCompares at h
  obtain ⟨ids, s₁, hids, h⟩ := does_bind.mp h
  obtain ⟨rfl, rfl⟩ := does_functionIds.mp hids
  obtain ⟨u, s₂, hwidths, h⟩ := does_bind.mp h
  obtain ⟨rfl, hnarrow⟩ := checkWidths_narrow hwidths
  have hnarrow : s₂.module.Narrow :=
    ⟨hs, fun id f hid => hnarrow id (Module.mem_functionIds.mpr (Module.index_lt_of_function hid)) f hid⟩
  have hhalves : ∀ s₃ stats₃, s₂.module.Splits s₃.module → (do
      let stats ← [64, 32, 16, 8].foldlM
        (fun stats width => s₂.module.functionIds.foldlM (halveCompares config width) stats) stats₃
      reportCompares stats
      return stats : Pass CompareStats).Does s₃ stats s' → s₂.module.Splits s'.module := by
    intro s₃ stats₃ hsplits₃ h
    obtain ⟨stats₄, s₄, hloop, h⟩ := does_bind.mp h
    obtain ⟨u, s₅, hreport, h⟩ := does_bind.mp h
    obtain ⟨-, rfl⟩ := does_pure.mp h
    rw [silent_reportCompares stats₄ s₄ u s₅ hreport]
    refine hloop.foldlM (fun s => s₂.module.Splits s.module) ?_ hsplits₃
    intro width hwidth stats stats' s s' hinv hinner
    refine hinner.foldlM (fun s => s₂.module.Splits s.module) ?_ hinv
    intro id _ stats stats' s s' hinv hstep
    exact hinv.trans (halveCompares_splits hwidth (hinv.tidy hs) hstep)
  split at h
  · obtain ⟨stats₃, s₃, hpure, h⟩ := does_bind.mp h
    obtain ⟨-, rfl⟩ := does_pure.mp hpure
    exact hhalves _ _ .refl h
  · obtain ⟨stats₃, s₃, hloop, h⟩ := does_bind.mp h
    refine hhalves s₃ stats₃ ?_ h
    refine hloop.foldlM (fun s => s₂.module.Splits s.module) ?_ .refl
    intro id _ stats stats' s s' hinv hstep
    exact hinv.trans (normalizeCompares_splits (hinv.narrow hnarrow) hstep)

end Pass

theorem Module.Splits.refinedBy {m m' : Module} {g : Guard} {kept : Stop → Prop}
    (hkept : Exec.Keeps kept) (hm : m.Tidy) (h : m.Splits m') : m.RefinedBy g kept m' :=
  Steps.refinedBy hkept hm h fun _ _ _ hf hsplits =>
    ⟨(hsplits.extended hf).tidy, (hsplits.simulated hf).under⟩

/-- Taking comparisons apart keeps what a call ends in, in a value or a trap, and what it leaves in
memory and in the trace. -/
theorem Machine.call_splitCompares {m : Module} (hm : m.Accepted) (honce : m.ListsOnce)
    {config : Config} {stats : CompareStats} {s : PassState}
    (h : (Pass.splitCompares config).runOn m = .ok (.ok stats, s)) :
    ofModule s.module = (ofModule m).map (·.withModule s.module) ∧
      ∀ machine : Machine, machine.world.module = m → ∀ name args,
        Finished (machine.call name args).1 → machine.RepeatedBy s.module name args := by
  have htidy := hm.tidy honce
  have hsplits : m.Splits s.module := Pass.splitCompares_splits (s := { module := m }) htidy h
  have hrefined : m.RefinedBy .free (fun cause => Finished (.error cause)) s.module :=
    hsplits.refinedBy Exec.keeps_finished htidy
  refine ⟨ofModule_withModule hrefined.globals, ?_⟩
  rintro machine rfl name args hfinished
  refine hrefined.repeatedBy Exec.keeps_finished htidy (fun id n _ _ => ?_) fun cause hcause => ?_
  · rw [World.enterIf_free]
  · exact hcause ▸ hfinished

/-- A comparison that allows equality, of numbers that are wider than a byte. -/
def Function.atLeast : Function :=
  .sole "at_least" [.int 16, .int 16] .i1 (.icmp .uge (.arg 0) (.arg 1))

namespace Machine

def comparing : Machine where
  world := { module := { name := "comparing", functions := #[.atLeast] }, globals := #[] }
  store := { memory := .empty, stepsLeft := 2 }

theorem comparing_accepted : comparing.world.module.Accepted := by
  refine Module.accepted_of_passes fun f hf _ => ?_
  obtain rfl := List.mem_singleton.mp hf
  exact Module.verifyFunction_sole (by decide) (by simp [InstKind.operands]) rfl

theorem comparing_listsOnce : comparing.world.module.ListsOnce := by
  intro id f hf ids hids
  obtain rfl := List.mem_singleton.mp (Module.mem_of_function hf)
  obtain rfl : [⟨0⟩] = ids := Except.ok.inj hids
  exact List.nodup_singleton _

theorem comparing_call : (comparing.call "at_least" [7, 5]).1 = .ok 1 := by
  have hid : comparing.world.module.findFunction? "at_least" = some ⟨0⟩ := by
    simp [Module.findFunction?, comparing, Function.atLeast, Function.sole]
  have hcall : comparing.world.call "at_least" [7, 5] comparing.store =
      comparing.world.run (2 + 1) ⟨.atLeast, [7, 5]⟩ ⟨∅, none, ⟨0⟩⟩ comparing.store :=
    World.call_of_found hid [7, 5] comparing.store
  have hblock : Function.atLeast.block ⟨0⟩ = .ok ⟨"entry", [⟨0⟩], .ret (some (.inst ⟨0⟩))⟩ := rfl
  have hphis : Function.atLeast.phis ⟨0⟩ = .ok [] := rfl
  have hstep : ∀ caller, comparing.world.step caller ⟨.atLeast, [7, 5]⟩ ∅ ⟨0⟩ = pure 1 :=
    fun _ => rfl
  rw [call, exec, hcall, World.run_succ]
  simp [hblock, hphis, hstep, World.enteredPhis, World.setAll, World.rest_nil, World.rest_cons,
    World.runTerminator, World.eval]
  rfl

theorem comparing_completes :
    Pass.completes ((Pass.splitCompares (.coverage .all)).runOn comparing.world.module) = true := by
  decide +kernel

theorem comparing_call_splitCompares : ∃ s, (∃ stats,
    (Pass.splitCompares (.coverage .all)).runOn comparing.world.module = .ok (.ok stats, s)) ∧
      comparing.RepeatedBy s.module "at_least" [7, 5] := by
  obtain ⟨stats, s, h⟩ := Pass.exists_of_completes comparing_completes
  refine ⟨s, ⟨stats, h⟩, ?_⟩
  refine (call_splitCompares comparing_accepted comparing_listsOnce h).2 comparing rfl _ _ ?_
  rw [comparing_call]
  exact ⟨nofun, fun _ => nofun⟩

end Machine

end EdgeProbe
