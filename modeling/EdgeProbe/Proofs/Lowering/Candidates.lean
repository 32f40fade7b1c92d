import EdgeProbe.Proofs.Lowering.Sound

/-!
# Comparisons that are worth taking apart

When one of them gives way to code, those of the function afterwards are the other ones, as they
were, and comparisons in the new code. Those have other predicates, or integers of half the width.
Main statements: `Edit.simplify_givesWay`, `Edit.normalizeSign_givesWay`, `Edit.halve_givesWay`.
-/

namespace EdgeProbe

variable {m : Module} {exempt : BlockId → Prop} {f f' : Function} {id : InstId} {pred : Predicate}
  {lhs rhs : Value} {width : Nat} {preds : List Predicate}

@[simp] theorem InstKind.isCall_renameIncoming (kind : InstKind) (source target : BlockId) :
    (kind.renameIncoming source target).isCall = kind.isCall := by
  cases kind <;> rfl

theorem constantOperand?_eq_some {other : Value} {constant : Constant}
    (h : constantOperand? lhs rhs = some (constant, other)) : other = lhs ∨ other = rhs := by
  unfold constantOperand? at h
  split at h <;> simp_all

namespace Function

/-- A live comparison of integers of a width that is worth taking apart. -/
structure Candidate (f : Function) (id : InstId) (pred : Predicate) (lhs rhs : Value)
    (width : Nat) : Prop extends f.Compares id pred lhs rhs width where
  listed : ∃ b pos, f.Listed id b pos
  magic : f.isMagic pred lhs rhs = .ok false

theorem Candidate.candidateWidth?_eq (h : f.Candidate id pred lhs rhs width) (hpred : pred ∈ preds) :
    f.candidateWidth? preds id = .ok (some width) := by
  simp [candidateWidth?, h.kind, h.left, h.right, h.magic, hpred, bind, Except.bind, pure,
    Except.pure]

/-- All of them are found. -/
theorem Candidate.mem_candidates (h : f.Candidate id pred lhs rhs width) (hpred : pred ∈ preds)
    {sites : List (InstId × Nat)} (hsites : f.candidates preds = .ok sites) : (id, width) ∈ sites := by
  obtain ⟨ids, hids, hsites⟩ := Checked.bind_eq_ok.mp hsites
  obtain ⟨found, hfound, hsites⟩ := Checked.bind_eq_ok.mp hsites
  obtain rfl := Checked.pure_eq_ok.mp hsites
  obtain ⟨b, pos, hlisted⟩ := h.listed
  obtain ⟨one, hone, hasked⟩ := Checked.exists_result hfound (mem_liveInsts hids hlisted)
  rw [h.candidateWidth?_eq hpred] at hasked
  obtain rfl := Checked.pure_eq_ok.mp hasked
  exact List.mem_flatten_of_mem hone List.mem_cons_self

theorem candidate_of_mem_candidates {sites : List (InstId × Nat)} {site : InstId × Nat}
    (hsites : f.candidates preds = .ok sites) (hsite : site ∈ sites) :
    ∃ pred lhs rhs, pred ∈ preds ∧ f.Candidate site.1 pred lhs rhs site.2 := by
  obtain ⟨hlisted, hwidth⟩ := candidateWidth?_of_mem hsites hsite
  obtain ⟨pred, lhs, rhs, hpred, hcompares, hmagic⟩ := candidateWidth?_eq_some hwidth
  exact ⟨pred, lhs, rhs, hpred, hcompares, hlisted, hmagic⟩

/-- Whether a comparison is worth it depends on its operands, and on which of them are calls. -/
theorem isMagic_congr (h : ∀ i, .inst i = lhs ∨ .inst i = rhs →
    (f'.kind i).map InstKind.isCall = (f.kind i).map InstKind.isCall) :
    f'.isMagic pred lhs rhs = f.isMagic pred lhs rhs := by
  unfold isMagic
  cases hconstant : constantOperand? lhs rhs with
  | none => rfl
  | some found =>
    obtain ⟨constant, other⟩ := found
    have hreads : f'.readsCall other = f.readsCall other := by
      have hother := constantOperand?_eq_some hconstant
      cases other with
      | inst i => exact h i hother
      | _ => rfl
    dsimp only
    rw [hreads]

end Function

/-! ## Code in the place of a comparison -/

namespace Patched

variable {c : Cut} {join : BlockId} {parts : List Part} {ty : Ty} {entries : List (Value × BlockId)}

theorem isCall_kept (h : Patched f c join parts ty entries f') {kind k : InstKind}
    (hkind : f.kind c.site = .ok kind) (hcall : kind.isCall = false) {i : InstId}
    (hk : f.kind i = .ok k) : (f'.kind i).map InstKind.isCall = (f.kind i).map InstKind.isCall := by
  by_cases hsite : i = c.site
  · subst hsite
    rw [h.opened.site, hkind]
    exact congrArg Except.ok hcall.symm
  · rw [hk]
    obtain hsame | ⟨-, hrenamed⟩ := h.opened.kinds i k hsite hk
    · rw [hsame]
    · rw [hrenamed]
      exact congrArg Except.ok (k.isCall_renameIncoming c.head join)

/-- A comparison that is not in the new code was there before. -/
theorem candidate_cases (h : Patched f c join parts .i1 entries f') (hs : f.Sound m exempt)
    (hc : c.Of f) {pred₀ : Predicate} {lhs₀ rhs₀ : Value} {width₀ : Nat}
    (hsite : f.Compares c.site pred₀ lhs₀ rhs₀ width₀) (hid : f'.Candidate id pred lhs rhs width) :
    id ≠ c.site ∧ f.Candidate id pred lhs rhs width ∨
      ∃ p ∈ parts, (id, .icmp pred lhs rhs) ∈ p.insts := by
  have hf := hs.tidy
  have hne : id ≠ c.site := by
    rintro rfl
    cases h.opened.site.symm.trans hid.kind
  have hold : ∀ b pos, f.Listed id b pos → f.Candidate id pred lhs rhs width := by
    intro b pos hlisted
    obtain ⟨k, hk⟩ := hf.exists_kind hlisted
    have hkind := h.kind_of_kind (Function.index_lt_of_kind hk) hid.kind rfl
    obtain ⟨ty, hleft, hright⟩ := hs.paired id b pos _ lhs rhs hlisted hkind rfl
    have htypes := h.typesKept hsite.kind rfl
    have hsize := h.opened.sizeInsts
    refine ⟨⟨hkind, ?_, ?_⟩, ⟨b, pos, hlisted⟩, ?_⟩
    · rw [← hid.left, Function.intWidth?, Function.intWidth?, hleft, htypes.valueType hsize hleft]
    · rw [← hid.right, Function.intWidth?, Function.intWidth?, hright,
        htypes.valueType hsize hright]
    · rw [← hid.magic]
      refine (Function.isMagic_congr fun i hi => ?_).symm
      have hbelow := hf.values_below hlisted hkind (.inst i)
        (by simpa [InstKind.operands] using hi)
      have hlt : i.index < f.insts.size := by simpa using hbelow
      obtain ⟨k', hk'⟩ := Function.exists_kind hlt
      exact h.isCall_kept hsite.kind rfl hk'
  obtain ⟨b, pos, hlisted⟩ := hid.listed
  obtain ⟨hlisted, -⟩ | ⟨-, hlisted⟩ | ⟨p, hp, -, -, k, hentry⟩ :=
    h.opened.listed_cases hf.closed hc hlisted
  · exact .inl ⟨hne, hold b pos hlisted⟩
  · exact .inl ⟨hne, hold _ _ hlisted⟩
  · obtain rfl := Except.ok.inj ((h.kind_of_mem hp hentry).symm.trans hid.kind)
    exact .inr ⟨p, hp, hentry⟩

end Patched

/-- The comparisons that are worth taking apart are as they were, but for the one that has given way
to some that are as is allowed. -/
def Function.GivesWay (f f' : Function) (id : InstId) (allowed : Predicate → Nat → Prop) : Prop :=
  ∀ i pred lhs rhs width, f'.Candidate i pred lhs rhs width →
    i ≠ id ∧ f.Candidate i pred lhs rhs width ∨ allowed pred width

theorem Function.GivesWay.of_not {allowed : Predicate → Nat → Prop}
    (hnot : ∀ pred lhs rhs, f.kind id ≠ .ok (.icmp pred lhs rhs)) : f.GivesWay f id allowed :=
  fun _ pred lhs rhs _ hi => .inl ⟨fun heq => hnot pred lhs rhs (heq ▸ hi.kind), hi⟩

namespace Edit

variable {site : InstId × Nat} {u : Unit}

theorem simplify_givesWay (hs : f.Sound m exempt) (hsite : f.Site [.uge, .sge, .ule, .sle] site)
    (h : (simplify site.1).Does f u f') :
    f.GivesWay f' site.1 fun pred _ => pred ∉ [.uge, .sge, .ule, .sle] := by
  have hf := hs.tidy
  obtain ⟨b, pos, hid⟩ := hsite.listed
  obtain ⟨kind, hkind⟩ := hf.exists_kind hid
  cases hcomparison : kind.comparison? with
  | none =>
    obtain rfl := simplify_unchanged hkind hcomparison h
    refine .of_not fun pred lhs rhs hicmp => ?_
    obtain rfl := Except.ok.inj (hkind.symm.trans hicmp)
    cases hcomparison
  | some operands =>
    obtain ⟨pred₀, lhs₀, rhs₀⟩ := operands
    obtain rfl := InstKind.comparison?_eq_some.mp hcomparison
    obtain ⟨hpred, hcompares⟩ := hsite.compares pred₀ lhs₀ rhs₀ hkind
    obtain ⟨c, join, strict, middle, equal, hc, hcsite, hne, hstrict, hequal, hlast, hopened⟩ :=
      simplify_opened hf hid hkind h
    rw [← hcsite] at hcompares ⊢
    obtain ⟨hlhs, hrhs⟩ := hcompares.below hf hc.listed_site
    have hpatched := hopened.patched_simplified hne (by omega) hlast hlhs hrhs
    intro i pred lhs rhs width hi
    refine (hpatched.candidate_cases hs hc hcompares hi).imp_right ?_
    rintro ⟨p, hp, hentry⟩
    have hnew : pred = pred₀.strict ∨ pred = .eq := by
      simp only [Cut.simplified, List.mem_cons, List.not_mem_nil, or_false] at hp
      obtain rfl | rfl := hp
      · simp at hentry
        exact .inl hentry.2.1
      · simp at hentry
        exact .inr hentry.2.1
    obtain rfl | rfl := hnew
    · revert hpred
      cases pred₀ <;> decide
    · decide

theorem normalizeSign_givesWay (hs : f.Sound m exempt) (hsite : f.Site [.sgt, .slt] site)
    (h : (normalizeSign site.2 site.1).Does f u f') :
    f.GivesWay f' site.1 fun pred _ => pred ∈ [.eq, .ne, .ugt, .ult] := by
  have hf := hs.tidy
  obtain ⟨b, pos, hid⟩ := hsite.listed
  obtain ⟨kind, hkind⟩ := hf.exists_kind hid
  cases hcomparison : kind.comparison? with
  | none =>
    obtain rfl := normalizeSign_unchanged hkind hcomparison h
    refine .of_not fun pred lhs rhs hicmp => ?_
    obtain rfl := Except.ok.inj (hkind.symm.trans hicmp)
    cases hcomparison
  | some operands =>
    obtain ⟨pred₀, lhs₀, rhs₀⟩ := operands
    obtain rfl := InstKind.comparison?_eq_some.mp hcomparison
    obtain ⟨hpred, hcompares⟩ := hsite.compares pred₀ lhs₀ rhs₀ hkind
    obtain ⟨-, c, join, code, hc, hcsite, hsigns, hwords, hne, hnew, hopened⟩ :=
      normalizeSign_opened hf hid hkind h
    rw [← hcsite] at hcompares ⊢
    obtain ⟨hlhs, hrhs⟩ := hcompares.below hf hc.listed_site
    have hpatched := SignCode.patched hopened hc hsigns hwords hnew hlhs hrhs
    intro i pred lhs rhs width hi
    refine (hpatched.candidate_cases hs hc hcompares hi).imp_right ?_
    rintro ⟨p, hp, hentry⟩
    have hnew : pred = .eq ∨ pred = pred₀.ofSigns ∨ pred = pred₀.unsigned := by
      simp only [SignCode.parts, List.mem_cons, List.not_mem_nil, or_false] at hp
      obtain rfl | rfl | rfl := hp
      · simp [SignCode.head] at hentry
        exact .inl hentry.2.1
      · simp [SignCode.signPart] at hentry
        exact .inr (.inl hentry.2.1)
      · simp [SignCode.wordPart] at hentry
        exact .inr (.inr hentry.2.1)
    obtain rfl | rfl | rfl := hnew
    · decide
    · cases pred₀ <;> decide
    · cases pred₀ <;> decide

/-- What is left of a comparison is of half the width. -/
theorem halve_givesWay (hs : f.Sound m exempt) (hsite : f.Site [.eq, .ne, .ugt, .ult] site)
    {pred₀ : Predicate} {lhs₀ rhs₀ : Value} (hkind : f.kind site.1 = .ok (.icmp pred₀ lhs₀ rhs₀))
    (h : (halve site.2 site.1 pred₀ lhs₀ rhs₀).Does f u f') :
    f.GivesWay f' site.1 fun pred width => pred ∈ [.eq, .ne, .ugt, .ult] ∧ width = site.2 / 2 := by
  have hf := hs.tidy
  obtain ⟨b, pos, hid⟩ := hsite.listed
  obtain ⟨hpred, hcompares⟩ := hsite.compares pred₀ lhs₀ rhs₀ hkind
  have hconverse : pred₀.converse ∈ [.eq, .ne, .ugt, .ult] := by
    cases pred₀ <;> decide
  -- A comparison of a part of the left operand has the width of the part.
  have hhalf : ∀ {bits : InstId} {value rhs : Value} {pred : Predicate} {i : InstId} {width : Nat},
      f'.kind bits = .ok (.cast .trunc value (site.2 / 2)) →
      f'.Candidate i pred (.inst bits) rhs width → width = site.2 / 2 := by
    intro bits value rhs pred i width hbits hi
    have hwidth := Function.intWidth?_of_fixedType? hbits rfl
    exact Option.some.inj (Except.ok.inj (hi.left.symm.trans hwidth))
  cases hequality : pred₀.isEquality with
  | true =>
    obtain ⟨c, join, code, hc, hcsite, hlow, hnew, hopened, -⟩ :=
      halve_opened_equality hf hid hkind hequality h
    rw [← hcsite] at hcompares ⊢
    obtain ⟨hlhs, hrhs⟩ := hcompares.below hf hc.listed_site
    have hpatched := HalfCode.patched_equality hopened hc hlow hnew hlhs hrhs
    have hreads : code.Reads f' pred₀ lhs₀ rhs₀ site.2 :=
      .of_parts hpatched List.mem_cons_self (by simp [HalfCode.equalityParts])
    intro i pred lhs rhs width hi
    refine (hpatched.candidate_cases hs hc hcompares hi).imp_right ?_
    rintro ⟨p, hp, hentry⟩
    simp only [HalfCode.equalityParts, List.mem_cons, List.not_mem_nil, or_false] at hp
    obtain rfl | rfl := hp
    · simp [HalfCode.head] at hentry
      obtain ⟨-, rfl, rfl, rfl⟩ := hentry
      exact ⟨hpred, hhalf hreads.high0 hi⟩
    · simp [HalfCode.lowPart] at hentry
      obtain ⟨-, rfl, rfl, rfl⟩ := hentry
      exact ⟨hpred, hhalf hreads.low0 hi⟩
  | false =>
    obtain ⟨c, join, block, inverse, code, hc, hcsite, hlow, hblock, hne, hafter, hbefore, hnew,
      hopened, -⟩ := halve_opened_order hf hid hkind hequality h
    rw [← hcsite] at hcompares ⊢
    obtain ⟨hlhs, hrhs⟩ := hcompares.below hf hc.listed_site
    have hpatched := HalfCode.patched_order hopened hc hlow hblock hbefore hnew hlhs hrhs
    have hreads : code.Reads f' pred₀ lhs₀ rhs₀ site.2 :=
      .of_parts hpatched List.mem_cons_self (by simp [HalfCode.orderParts])
    intro i pred lhs rhs width hi
    refine (hpatched.candidate_cases hs hc hcompares hi).imp_right ?_
    rintro ⟨p, hp, hentry⟩
    simp only [HalfCode.orderParts, List.mem_cons, List.not_mem_nil, or_false] at hp
    obtain rfl | rfl | rfl := hp
    · simp [HalfCode.head] at hentry
      obtain ⟨-, rfl, rfl, rfl⟩ := hentry
      exact ⟨hpred, hhalf hreads.high0 hi⟩
    · simp [HalfCode.inversePart] at hentry
      obtain ⟨-, rfl, rfl, rfl⟩ := hentry
      exact ⟨hconverse, hhalf hreads.high0 hi⟩
    · simp [HalfCode.lowPart] at hentry
      obtain ⟨-, rfl, rfl, rfl⟩ := hentry
      exact ⟨hpred, hhalf hreads.low0 hi⟩

end Edit

end EdgeProbe
