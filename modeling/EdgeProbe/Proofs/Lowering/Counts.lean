import EdgeProbe.Proofs.Lowering.Bearers

/-!
# How many comparisons halving counts

A comparison is counted when it is halved unless it is marked as a half. The halves of an equality
are marked. Those of an order are not, so that they are counted as if they were of the program's
own: the count is right where there is no order of more than 16 bits, and otherwise too large. What
has been counted and what is still to be counted are, taken together, the same before and after
every step. Main statement: `Pass.splitCompares_halved`.
-/

namespace EdgeProbe

variable {m : Module} {exempt : BlockId → Prop} {f f₁ f' : Function} {x y : Comparison} {c : Cut}
  {join : BlockId} {parts : List Part} {entries : List (Value × BlockId)} {width : Nat}
  {pred : Predicate} {lhs rhs : Value} {config : Config}

/-- How often halving counts an unmarked comparison: an order of more than 16 bits once more for
each of the three orders that it becomes, and for those that they become. -/
def Comparison.turns (x : Comparison) : Nat :=
  match x.width with
  | 64 => if x.pred.isEquality then 1 else 13
  | 32 => if x.pred.isEquality then 1 else 4
  | 16 => 1
  | _ => 0

theorem Comparison.turns_of_equality (hpred : x.pred.isEquality = true)
    (hwidth : x.width ∈ [64, 32, 16]) : x.turns = 1 := by
  simp only [List.mem_cons, List.not_mem_nil, or_false] at hwidth
  obtain h | h | h := hwidth <;> simp [turns, h, hpred]

theorem Comparison.turns_of_order (hpred : x.pred.isEquality = false)
    (hwidth : x.width ∈ [64, 32, 16]) (hy : y.pred.isEquality = false)
    (hhalf : y.width = x.width / 2) : x.turns = 1 + 3 * y.turns := by
  simp only [List.mem_cons, List.not_mem_nil, or_false] at hwidth
  obtain h | h | h := hwidth <;> simp [turns, h, hhalf, hpred, hy]

theorem Comparison.turns_eq_zero (hwidth : x.width ∉ [64, 32, 16]) : x.turns = 0 := by
  simp only [List.mem_cons, List.not_mem_nil, or_false, not_or] at hwidth
  unfold turns
  split <;> simp_all

namespace Function

/-- The instruction is marked as a half. -/
def IsHalf (f : Function) (i : InstId) : Prop :=
  ∃ inst, f.inst i = .ok inst ∧ inst.split = true

/-- An instruction tells one comparison. -/
theorem has_finite (f : Function) : {x | f.Has x}.Finite := by
  refine .of_finite_image (f := fun x : Comparison => x.id.index) ?_ ?_
  · refine (Set.finite_lt_nat f.insts.size).subset ?_
    rintro _ ⟨x, hx, rfl⟩
    exact Has.index_lt hx
  · intro x hx y hy heq
    exact hx.ext hy (congrArg InstId.mk heq)

/-- The comparisons that are worth taking apart and have some property. -/
noncomputable def comparisons (f : Function) (p : Comparison → Prop) : Finset Comparison :=
  (f.has_finite.sep p).toFinset

@[simp] theorem mem_comparisons {p : Comparison → Prop} :
    x ∈ f.comparisons p ↔ f.Has x ∧ p x := by
  simp [comparisons]

/-- Those that are counted when they are halved. -/
noncomputable def own (f : Function) : Finset Comparison :=
  f.comparisons fun x => ¬f.IsHalf x.id

/-- What is still to be counted. -/
noncomputable def weight (f : Function) : Nat :=
  ∑ x ∈ f.own, x.turns

/-- Of the comparisons only equalities are marked. -/
def MarksEqualities (f : Function) : Prop :=
  ∀ x, f.Has x → f.IsHalf x.id → x.pred.isEquality = true

theorem IsHalf.index_lt {i : InstId} (h : f.IsHalf i) : i.index < f.insts.size := by
  obtain ⟨inst, hinst, -⟩ := h
  exact index_lt_of_inst hinst

end Function

/-! ## One comparison is halved -/

namespace Patched

variable (h : Patched f c join parts .i1 entries f')
include h

/-- A comparison of parts of operands is one that is worth taking apart. -/
theorem has_of_mem {p : Part} (hp : p ∈ parts) {i bits bits' : InstId}
    (hentry : (i, .icmp pred (.inst bits) (.inst bits')) ∈ p.insts) {value value' : Value}
    (hleft : f'.kind bits = .ok (.cast .trunc value width))
    (hright : f'.kind bits' = .ok (.cast .trunc value' width)) :
    f'.Has ⟨i, pred, .inst bits, .inst bits', width⟩ := by
  refine ⟨⟨h.kind_of_mem hp hentry, Function.intWidth?_of_fixedType? hleft rfl,
    Function.intWidth?_of_fixedType? hright rfl⟩, ?_, rfl⟩
  obtain ⟨name, hblock⟩ := h.opened.part p hp
  have hmem : i ∈ p.old ++ p.insts.map (·.1) :=
    List.mem_append_right _ (List.mem_map_of_mem hentry)
  obtain ⟨pos, hlisted⟩ := Function.Tidy.listed_of_mem (h.mem_layout_of_part hp) hblock hmem
  exact ⟨_, pos, hlisted⟩

/-- If the comparisons of the parts are known, so are those of the function. -/
theorem has_iff (hs : f.Sound m exempt) (hc : c.Of f)
    (hsite : f.Compares c.site pred lhs rhs width) {news : Finset Comparison}
    (hnews : ∀ z ∈ news, f'.Has z)
    (hall : ∀ p ∈ parts, ∀ i pred' lhs' rhs', (i, .icmp pred' lhs' rhs') ∈ p.insts →
      ∃ z ∈ news, i = z.id) :
    f'.Has x ↔ x.id ≠ c.site ∧ f.Has x ∨ x ∈ news := by
  constructor
  · intro hx
    refine (h.candidate_cases hs hc hsite hx).imp_right ?_
    rintro ⟨p, hp, hentry⟩
    obtain ⟨z, hz, hid⟩ := hall p hp _ _ _ _ hentry
    exact hx.ext (hnews z hz) hid ▸ hz
  · rintro (⟨hne, hx⟩ | hx)
    · exact h.has_mono hs hc hsite hne hx
    · exact hnews x hx

end Patched

namespace HalfCode

variable {code : HalfCode} {block : BlockId} {inverse : InstId}

/-- The comparison of the lower halves. -/
def below (code : HalfCode) (pred : Predicate) (width : Nat) : Comparison :=
  ⟨code.lower, pred, .inst code.low0, .inst code.low1, width / 2⟩

/-- The comparison of the upper halves the other way around. -/
def against (code : HalfCode) (pred : Predicate) (width : Nat) (inverse : InstId) : Comparison :=
  ⟨inverse, pred.converse, .inst code.high0, .inst code.high1, width / 2⟩

theorem has_halves {term : Terminator} (h : Patched f c join parts .i1 entries f')
    (hhead : code.head c pred lhs rhs width term ∈ parts)
    (hlow : code.lowPart join pred lhs rhs width ∈ parts) :
    f'.Has (code.upper pred width) ∧ f'.Has (code.below pred width) := by
  have hreads : code.Reads f' pred lhs rhs width := .of_parts h hhead hlow
  exact ⟨h.has_of_mem hhead (by simp [head]) hreads.high0 hreads.high1,
    h.has_of_mem hlow (by simp [lowPart]) hreads.low0 hreads.low1⟩

/-- An order becomes three comparisons. -/
theorem card_order {size size' : Nat} (hnew : code.Ordered size size')
    (hafter : code.high.index < inverse.index) (hbefore : inverse.index < code.low0.index) :
    ({code.upper pred width, code.against pred width inverse, code.below pred width} :
      Finset Comparison).card = 3 := by
  obtain ⟨-, -, -, -, -, h5, h6, h7, -⟩ := hnew
  have hne : ∀ {x y : Comparison}, x.id.index < y.id.index → x ≠ y :=
    fun hlt heq => absurd (congrArg (fun z : Comparison => z.id.index) heq) (Nat.ne_of_lt hlt)
  refine Finset.card_eq_three.mpr ⟨_, _, _, hne ?_, hne ?_, hne ?_, rfl⟩
  · exact hafter
  · exact h5.trans (h6.trans h7)
  · exact hbefore.trans (h6.trans h7)

end HalfCode

namespace Edit

variable {u : Unit} {b : BlockId} {pos : Nat} {id i : InstId}

theorem marks_of_markSplit (h : (markSplit id).Does f u f') :
    (∀ i, f'.kind i = f.kind i) ∧ f'.IsHalf id ∧ ∀ i, f.IsHalf i → f'.IsHalf i := by
  obtain ⟨hlt, rfl⟩ := Function.modifyInst_eq_ok.mp (does_update.mp h)
  obtain ⟨inst, hinst⟩ := Function.exists_inst hlt
  refine ⟨fun i => ?_, ⟨{ inst with split := true }, ?_, rfl⟩, fun i hi => ?_⟩
  · rw [Function.kind, Function.kind, Function.inst_withInst]
    split
    · cases f.inst i <;> rfl
    · rfl
  · rw [Function.inst_withInst, if_pos rfl, hinst]
    rfl
  · obtain ⟨inst', hinst', hmark⟩ := hi
    rw [Function.IsHalf, Function.inst_withInst, hinst']
    split
    · exact ⟨_, rfl, rfl⟩
    · exact ⟨_, rfl, hmark⟩

/-- The halves of an equality are marked. -/
theorem halve_marked (hf : f.Tidy) (hid : f.Listed id b pos)
    (hkind : f.kind id = .ok (.icmp pred lhs rhs)) (hpred : pred.isEquality = true)
    (h : (halve width id pred lhs rhs).Does f u f') {pred' : Predicate} {lhs' rhs' : Value}
    (hnew : f.insts.size ≤ i.index) (hi : f'.kind i = .ok (.icmp pred' lhs' rhs')) :
    f'.IsHalf i := by
  obtain ⟨l, c, join, shifted0, high0, shifted1, high1, high, f₁, hc, rfl, h0, h1, h2, h3, h4, h5,
    hopened, -, h⟩ := halve_does hf hid hkind h
  rw [if_pos hpred, halveEquality, does_bind] at h
  obtain ⟨r, f₂, hlow, h⟩ := h
  obtain ⟨block, low0, low1, lower, rfl, hfresh, -, -, -, -, hopened⟩ :=
    compareLow_does hopened hf.closed hc hlow
  obtain ⟨f₃, hterm, h⟩ : ∃ f₃, (∃ term, (setTerminator c.head term).Does f₂ () f₃) ∧ (do
      replaceKind c.site (.phi .i1 [(.inst lower, block), (.ofBool (pred == Predicate.ne), c.head)])
      setAnnotations fun a => a.moveOrigin c.site high .comparedInteger
      markSplit high
      markSplit lower).Does f₃ u f' := by
    dsimp only at h
    split at h
    · obtain ⟨_, f₃, hterm, h⟩ := does_bind.mp h
      exact ⟨f₃, ⟨_, hterm⟩, h⟩
    · obtain ⟨_, f₃, hterm, h⟩ := does_bind.mp h
      exact ⟨f₃, ⟨_, hterm⟩, h⟩
  obtain ⟨term, hterm⟩ := hterm
  obtain ⟨-, rfl⟩ := Function.modifyBlock_eq_ok.mp (does_update.mp hterm)
  obtain ⟨_, f₄, hreplace, h⟩ := does_bind.mp h
  obtain ⟨-, rfl⟩ := Function.modifyInst_eq_ok.mp (does_update.mp hreplace)
  obtain ⟨_, f₅, hmove, h⟩ := does_bind.mp h
  obtain rfl := does_setAnnotations.mp hmove
  obtain ⟨_, f₆, hmark, h⟩ := does_bind.mp h
  obtain ⟨hkinds₆, hhigh, -⟩ := marks_of_markSplit hmark
  obtain ⟨hkinds, hlower, hkept⟩ := marks_of_markSplit h
  -- The marks come last, and nothing is added after the comparisons have been.
  have hbefore : f₂.kind i = .ok (.icmp pred' lhs' rhs') := by
    have hne : i ≠ c.site := by
      rintro rfl
      exact absurd (Function.index_lt_of_kind hkind) (Nat.not_lt.mpr hnew)
    rw [hkinds, hkinds₆] at hi
    rw [← hi, Function.kind, Function.kind]
    exact congrArg _ ((Function.inst_withInst _ _ _ i).trans (if_neg hne)).symm
  obtain hlt | ⟨p, hp, hentry⟩ := hopened.news i _ hbefore
  · exact absurd hlt (Nat.not_lt.mpr hnew)
  simp only [List.cons_append, List.nil_append, List.mem_cons, List.not_mem_nil, or_false] at hp
  obtain rfl | rfl := hp
  · simp at hentry
    exact hentry.1 ▸ hkept high hhigh
  · simp at hentry
    exact hentry.1 ▸ hlower

theorem respects_halve_of_order {R : Function → Function → Prop} [Function.OfSteps R]
    (hpred : pred.isEquality = false) : (halve width id pred lhs rhs).Respects R := by
  refine .bind (respects_labelFor _ id) fun l => .bind (respects_splitAt l id _) fun halves => ?_
  cases halves with
  | none => exact respects_pure ()
  | some halves =>
    refine .bind (respects_emitHigh l _ width lhs _) fun high0 => ?_
    refine .bind (respects_emitHigh l _ width rhs _) fun high1 => ?_
    refine .bind (respects_pushInst _ _ _ _) fun high => ?_
    rw [if_neg (by rw [hpred]; decide)]
    exact respects_halveOrder l width id pred lhs rhs _ _ high high0 high1

/-- The halves of an order are not. -/
theorem halve_unmarked (hpred : pred.isEquality = false)
    (h : (halve width id pred lhs rhs).Does f u f') (hi : f'.IsHalf i) : f.IsHalf i := by
  obtain ⟨inst', hinst', hmark⟩ := hi
  have hkept : f.NotesKept f' := respects_halve_of_order hpred f (.ok u) f' h
  exact hkept.marks i inst' hinst' hmark

/-- The comparisons of the function are the other ones and those of half the width that the
comparison has become. -/
theorem halve_has (hs : f.Sound m exempt) (hy : f.Has y)
    (h : (halve y.width y.id y.pred y.lhs y.rhs).Does f u f') :
    ∃ news : Finset Comparison, (∀ x, f'.Has x ↔ x.id ≠ y.id ∧ f.Has x ∨ x ∈ news) ∧
      (∀ x ∈ news, f.insts.size ≤ x.id.index ∧ x.pred.isEquality = y.pred.isEquality ∧
        x.width = y.width / 2) ∧ (y.pred.isEquality = false → news.card = 3) := by
  have hf := hs.tidy
  obtain ⟨b, pos, hid⟩ := hy.listed
  have hsite := hy.toCompares
  cases hequality : y.pred.isEquality with
  | true =>
    obtain ⟨c, join, code, hc, hcsite, hlow, hnew, hopened, -⟩ :=
      halve_opened_equality hf hid hy.kind hequality h
    rw [← hcsite] at hsite ⊢
    obtain ⟨hlhs, hrhs⟩ := hsite.below hf hc.listed_site
    have hpatched := HalfCode.patched_equality hopened hc hlow hnew hlhs hrhs
    obtain ⟨hupper, hbelow⟩ := HalfCode.has_halves hpatched List.mem_cons_self
      (by simp [HalfCode.equalityParts])
    refine ⟨{code.upper y.pred y.width, code.below y.pred y.width}, fun x => ?_, ?_,
      fun hne => by cases hne⟩
    · refine hpatched.has_iff hs hc hsite (by simp [hupper, hbelow]) ?_
      intro p hp i pred' lhs' rhs' hentry
      simp only [HalfCode.equalityParts, List.mem_cons, List.not_mem_nil, or_false] at hp
      obtain rfl | rfl := hp
      · simp [HalfCode.head] at hentry
        exact ⟨code.upper y.pred y.width, by simp, hentry.1⟩
      · simp [HalfCode.lowPart] at hentry
        exact ⟨code.below y.pred y.width, by simp, hentry.1⟩
    · obtain ⟨h0, h1, h2, h3, h4, h5, h6, h7, -⟩ := hnew
      simp only [Finset.mem_insert, Finset.mem_singleton, forall_eq_or_imp, forall_eq]
      exact ⟨⟨by dsimp only [HalfCode.upper]; omega, hequality, rfl⟩,
        ⟨by dsimp only [HalfCode.below]; omega, hequality, rfl⟩⟩
  | false =>
    obtain ⟨c, join, block, inverse, code, hc, hcsite, hlow, hblock, -, hafter, hbefore, hnew,
      hopened, -⟩ := halve_opened_order hf hid hy.kind hequality h
    rw [← hcsite] at hsite ⊢
    obtain ⟨hlhs, hrhs⟩ := hsite.below hf hc.listed_site
    have hpatched := HalfCode.patched_order hopened hc hlow hblock hbefore hnew hlhs hrhs
    obtain ⟨hupper, hbelow⟩ := HalfCode.has_halves hpatched List.mem_cons_self
      (by simp [HalfCode.orderParts])
    have hinverse : f'.Has (code.against y.pred y.width inverse) := by
      have hreads : code.Reads f' y.pred y.lhs y.rhs y.width :=
        .of_parts hpatched List.mem_cons_self (by simp [HalfCode.orderParts])
      have hpart : code.inversePart join y.pred block inverse ∈
          code.orderParts c join y.pred y.lhs y.rhs y.width block inverse := by
        simp [HalfCode.orderParts]
      exact hpatched.has_of_mem hpart (by simp [HalfCode.inversePart]) hreads.high0 hreads.high1
    refine ⟨{code.upper y.pred y.width, code.against y.pred y.width inverse,
      code.below y.pred y.width}, fun x => ?_, ?_, fun _ => HalfCode.card_order hnew hafter hbefore⟩
    · refine hpatched.has_iff hs hc hsite (by simp [hupper, hinverse, hbelow]) ?_
      intro p hp i pred' lhs' rhs' hentry
      simp only [HalfCode.orderParts, List.mem_cons, List.not_mem_nil, or_false] at hp
      obtain rfl | rfl | rfl := hp
      · simp [HalfCode.head] at hentry
        exact ⟨code.upper y.pred y.width, by simp, hentry.1⟩
      · simp [HalfCode.inversePart] at hentry
        exact ⟨code.against y.pred y.width inverse, by simp, hentry.1⟩
      · simp [HalfCode.lowPart] at hentry
        exact ⟨code.below y.pred y.width, by simp, hentry.1⟩
    · have hconverse : y.pred.converse.isEquality = false := by
        cases y.pred <;> rfl
      obtain ⟨h0, h1, h2, h3, h4, h5, h6, h7, -⟩ := hnew
      simp only [Finset.mem_insert, Finset.mem_singleton, forall_eq_or_imp, forall_eq]
      exact ⟨⟨by dsimp only [HalfCode.upper]; omega, hequality, rfl⟩,
        ⟨by dsimp only [HalfCode.against]; omega, hconverse, rfl⟩,
        ⟨by dsimp only [HalfCode.below]; omega, hequality, rfl⟩⟩

/-- Instructions from before are marked as they were. -/
theorem halve_marked_iff (hf : f.Tidy) (hid : f.Listed id b pos)
    (hkind : f.kind id = .ok (.icmp pred lhs rhs))
    (h : (halve width id pred lhs rhs).Does f u f') (hi : i.index < f.insts.size) :
    f'.IsHalf i ↔ f.IsHalf i := by
  obtain ⟨inst, hinst⟩ := Function.exists_inst hi
  obtain ⟨inst', hinst', hsame⟩ := Function.halve_marks hf hid hkind h hinst
  rw [Function.IsHalf, Function.IsHalf, hinst, hinst']
  simp [hsame]

/-- An equality that is halved leaves nothing to be counted, and an order three orders. -/
theorem halve_own (hs : f.Sound m exempt) (hy : f.Has y)
    (h : (halve y.width y.id y.pred y.lhs y.rhs).Does f u f') :
    ∃ news : Finset Comparison, f'.own = f.own.erase y ∪ news ∧ Disjoint f.own news ∧
      (∀ x ∈ news, x.pred.isEquality = false ∧ x.width = y.width / 2) ∧
      news.card = if y.pred.isEquality then 0 else 3 := by
  have hf := hs.tidy
  obtain ⟨b, pos, hid⟩ := hy.listed
  obtain ⟨news, hhas, hnews, hcard⟩ := halve_has hs hy h
  have hold : ∀ x, f.Has x → (f'.IsHalf x.id ↔ f.IsHalf x.id) :=
    fun x hx => halve_marked_iff hf hid hy.kind h hx.index_lt
  have hne : ∀ x, f.Has x → (x.id ≠ y.id ↔ x ≠ y) :=
    fun x hx => not_congr ⟨hx.ext hy, congrArg Comparison.id⟩
  -- Of what the function has now, the new comparisons count if they are not marked.
  have hown : ∀ x, x ∈ f'.own ↔ x ∈ f.own.erase y ∨ x ∈ news ∧ ¬f'.IsHalf x.id := by
    intro x
    simp only [Function.own, Function.mem_comparisons, Finset.mem_erase, hhas, or_and_right]
    refine or_congr_left ⟨fun hx => ?_, fun hx => ?_⟩
    · exact ⟨(hne x hx.1.2).mp hx.1.1, hx.1.2, (hold x hx.1.2).not.mp hx.2⟩
    · exact ⟨⟨(hne x hx.2.1).mpr hx.1, hx.2.1⟩, (hold x hx.2.1).not.mpr hx.2.2⟩
  cases hequality : y.pred.isEquality with
  | true =>
    refine ⟨∅, Finset.ext fun x => ?_, Finset.disjoint_empty_right _, by simp, rfl⟩
    rw [hown, Finset.union_empty, or_iff_left]
    rintro ⟨hx, hmark⟩
    exact hmark (halve_marked hf hid hy.kind hequality h (hnews x hx).1
      ((hhas x).mpr (.inr hx)).kind)
  | false =>
    refine ⟨news, Finset.ext fun x => ?_, Finset.disjoint_left.mpr fun x hx hx' => ?_,
      fun x hx => ?_, hcard hequality⟩
    · rw [hown, Finset.mem_union]
      refine or_congr_right (and_iff_left_of_imp fun hx hmark => ?_)
      exact absurd (halve_unmarked hequality h hmark).index_lt (Nat.not_lt.mpr (hnews x hx).1)
    · have hlt := (Function.mem_comparisons.mp hx).1.index_lt
      exact absurd hlt (Nat.not_lt.mpr (hnews x hx').1)
    · obtain ⟨-, hpred, hhalf⟩ := hnews x hx
      exact ⟨hpred.trans hequality, hhalf⟩

/-- What a comparison adds to the count is taken off what is still to be counted. -/
theorem halve_weight (hs : f.Sound m exempt) (hy : f.Has y) (hwidth : y.width ∈ [64, 32, 16])
    (hmarks : f.MarksEqualities) (h : (halve y.width y.id y.pred y.lhs y.rhs).Does f u f')
    {counted : Bool} (hcounted : counted = true ↔ ¬f.IsHalf y.id) :
    counted.toNat + f'.weight = f.weight := by
  obtain ⟨news, hown, hdisjoint, horders, hcard⟩ := halve_own hs hy h
  have hweight : f'.weight = ∑ x ∈ f.own.erase y, x.turns + ∑ x ∈ news, x.turns := by
    rw [Function.weight, hown,
      Finset.sum_union (hdisjoint.mono_left (Finset.erase_subset _ _))]
  cases counted with
  | false =>
    have hmarked : f.IsHalf y.id := by simpa using hcounted
    have hnot : y ∉ f.own := fun hmem => (Function.mem_comparisons.mp hmem).2 hmarked
    rw [if_pos (hmarks y hy hmarked), Finset.card_eq_zero] at hcard
    rw [hweight, hcard, Finset.erase_eq_of_notMem hnot, Finset.sum_empty]
    exact Nat.zero_add _
  | true =>
    have hmem : y ∈ f.own := Function.mem_comparisons.mpr ⟨hy, hcounted.mp rfl⟩
    have hold : ∑ x ∈ f.own.erase y, x.turns + y.turns = f.weight :=
      Finset.sum_erase_add _ _ hmem
    suffices hturns : y.turns = 1 + ∑ x ∈ news, x.turns by
      rw [hweight, ← hold, hturns, Bool.toNat_true]
      omega
    cases hequality : y.pred.isEquality with
    | true =>
      rw [hequality, if_pos rfl, Finset.card_eq_zero] at hcard
      rw [hcard, Finset.sum_empty, Comparison.turns_of_equality hequality hwidth, Nat.add_zero]
    | false =>
      rw [hequality, if_neg Bool.false_ne_true] at hcard
      obtain ⟨x, y', z, hxy, hxz, hyz, rfl⟩ := Finset.card_eq_three.mp hcard
      have hturns : ∀ w ∈ ({x, y', z} : Finset Comparison), y.turns = 1 + 3 * w.turns :=
        fun w hw => Comparison.turns_of_order hequality hwidth (horders w hw).1 (horders w hw).2
      simp only [Finset.mem_insert, Finset.mem_singleton, forall_eq_or_imp, forall_eq] at hturns
      rw [Finset.sum_insert (by simp [hxy, hxz]), Finset.sum_pair hyz]
      omega

/-- Still only equalities are marked. -/
theorem halve_marksEqualities (hs : f.Sound m exempt) (hy : f.Has y) (hmarks : f.MarksEqualities)
    (h : (halve y.width y.id y.pred y.lhs y.rhs).Does f u f') : f'.MarksEqualities := by
  obtain ⟨b, pos, hid⟩ := hy.listed
  obtain ⟨news, hhas, hnews, -⟩ := halve_has hs hy h
  intro x hx hmarked
  obtain ⟨-, hold⟩ | hnew := (hhas x).mp hx
  · exact hmarks x hold ((halve_marked_iff hs.tidy hid hy.kind h hold.index_lt).mp hmarked)
  · obtain ⟨hle, hpred, -⟩ := hnews x hnew
    rw [hpred]
    by_contra hnot
    exact absurd (halve_unmarked (by simpa using hnot) h hmarked).index_lt (Nat.not_lt.mpr hle)

end Edit

/-! ## The pass -/

namespace Function

/-- Tokens are not counted. -/
theorem Retagged.weight_eq {id : InstId} (h : f.Retagged id f') : f'.weight = f.weight := by
  obtain ⟨annotations, rfl⟩ := h.code
  refine Finset.sum_congr (Finset.ext fun x => ?_) fun _ _ => rfl
  rw [own, own, mem_comparisons, mem_comparisons, has_withAnnotations]
  rfl

theorem Retagged.has_iff {id : InstId} (h : f.Retagged id f') : f'.Has x ↔ f.Has x := by
  obtain ⟨annotations, rfl⟩ := h.code
  exact has_withAnnotations

theorem Retagged.marked_iff {id i : InstId} (h : f.Retagged id f') : f'.IsHalf i ↔ f.IsHalf i := by
  rw [IsHalf, IsHalf, h.inst]

theorem Retagged.marksEqualities {id : InstId} (h : f.Retagged id f') (hmarks : f.MarksEqualities) :
    f'.MarksEqualities :=
  fun x hx hmarked => hmarks x (h.has_iff.mp hx) (h.marked_iff.mp hmarked)

/-- The comparisons of a function that are worth taking apart and have one of some predicates and
one of some widths, by their number. -/
noncomputable def count (f : Function) (preds : List Predicate) (widths : List Nat) : Nat :=
  (f.comparisons fun x => x.pred ∈ preds ∧ x.width ∈ widths).card

theorem count_eq_sum (hmarks : ∀ i, ¬f.IsHalf i) (preds : List Predicate) (widths : List Nat) :
    f.count preds widths =
      ∑ x ∈ f.own, if x.pred ∈ preds ∧ x.width ∈ widths then 1 else 0 := by
  rw [← Finset.card_filter]
  refine congrArg Finset.card (Finset.ext fun x => ?_)
  simp [own, hmarks]

/-- The pass would find as many. -/
theorem Sound.count_eq (hs : f.Sound m exempt) {preds : List Predicate}
    {sites : List (InstId × Nat)} (hsites : f.candidates preds = .ok sites) (widths : List Nat) :
    f.count preds widths = (sites.filter fun site => site.2 ∈ widths).length := by
  have hfound : (f.comparisons fun x => x.pred ∈ preds ∧ x.width ∈ widths).image
      (fun x => (x.id, x.width)) = (sites.filter fun site => site.2 ∈ widths).toFinset := by
    ext site
    simp only [Finset.mem_image, mem_comparisons, List.mem_toFinset, List.mem_filter,
      decide_eq_true_eq]
    constructor
    · rintro ⟨x, ⟨hx, hpred, hwidth⟩, rfl⟩
      exact ⟨hx.mem_candidates hpred hsites, hwidth⟩
    · rintro ⟨hsite, hwidth⟩
      obtain ⟨pred, lhs, rhs, hpred, hx⟩ := candidate_of_mem_candidates hsites hsite
      exact ⟨⟨site.1, pred, lhs, rhs, site.2⟩, ⟨hx, hpred, hwidth⟩, rfl⟩
  have hnodup : (sites.filter fun site => site.2 ∈ widths).Nodup :=
    (List.Nodup.of_map _ (hs.nodup_candidates hsites)).filter _
  rw [← List.toFinset_card_of_nodup hnodup, ← hfound, Finset.card_image_of_injOn]
  · rfl
  · intro x hx y hy heq
    exact (mem_comparisons.mp hx).1.ext (mem_comparisons.mp hy).1 (congrArg Prod.fst heq)

/-- Where nothing is marked and everything is normal, each comparison is still to be counted, and
wide orders more than once. -/
theorem Normal.weight_eq (hnormal : f.Normal) (hmarks : ∀ i, ¬f.IsHalf i) :
    f.weight = f.count [.eq, .ne, .ugt, .ult] [64, 32, 16] + 3 * f.count [.ugt, .ult] [32] +
      12 * f.count [.ugt, .ult] [64] := by
  rw [weight, count_eq_sum hmarks, count_eq_sum hmarks, count_eq_sum hmarks, Finset.mul_sum,
    Finset.mul_sum, ← Finset.sum_add_distrib, ← Finset.sum_add_distrib]
  refine Finset.sum_congr rfl fun x hx => ?_
  have hpred := hnormal _ _ _ _ _ (mem_comparisons.mp hx).1
  by_cases hwidth : x.width ∈ [64, 32, 16]
  · simp only [List.mem_cons, List.not_mem_nil, or_false] at hpred hwidth
    obtain hp | hp | hp | hp := hpred <;> obtain hw | hw | hw := hwidth <;>
      simp [Comparison.turns, hp, hw, Predicate.isEquality]
  · rw [Comparison.turns_eq_zero hwidth]
    simp only [List.mem_cons, List.not_mem_nil, or_false, not_or] at hwidth
    simp [hwidth]

/-- Nothing is still to be counted where no comparison of more than a byte is left. -/
theorem Halving.weight_eq_zero (h : f.Halving config 8 []) (hconvert : config.convert = .all) :
    f.weight = 0 := by
  refine Finset.sum_eq_zero fun x hx => Comparison.turns_eq_zero fun hwidth => ?_
  have hle : 8 ≤ x.width := by
    simp only [List.mem_cons, List.not_mem_nil, or_false] at hwidth
    omega
  obtain hmem | hspared := h.spared _ _ _ _ _ (mem_comparisons.mp hx).1 hwidth hle
  · exact List.not_mem_nil hmem
  · exact hspared.convert hconvert

end Function

namespace Module

/-- What the functions of a module come to together. -/
def total (m : Module) (count : Function → Nat) : Nat :=
  (m.functions.toList.map count).sum

/-- The comparisons of a module that are worth taking apart and have one of some predicates and one
of some widths, by their number. -/
noncomputable def count (m : Module) (preds : List Predicate) (widths : List Nat) : Nat :=
  m.total (·.count preds widths)

theorem total_setFunction {id : FuncId} (hid : m.function id = .ok f) (count : Function → Nat) :
    (m.setFunction id f').total count + count f = m.total count + count f' := by
  have hget := List.getElem?_eq_some_iff.mp
    (Array.getElem?_toList.trans (function_eq_ok.mp hid))
  obtain ⟨hlt, rfl⟩ := hget
  have hsplit : m.total count = ((m.functions.toList.map count).take id.index).sum +
      (count m.functions.toList[id.index] +
        ((m.functions.toList.map count).drop (id.index + 1)).sum) := by
    rw [total, ← List.sum_take_add_sum_drop _ id.index,
      List.drop_eq_getElem_cons (by simpa using hlt),
      List.sum_cons, List.getElem_map]
  rw [total, setFunction, Array.toList_setIfInBounds, List.map_set, List.sum_set,
    if_pos (by simpa using hlt), hsplit]
  omega

theorem total_congr {count count' : Function → Nat}
    (h : ∀ id f, m.function id = .ok f → count f = count' f) : m.total count = m.total count' := by
  refine congrArg List.sum (List.map_congr_left fun f hf => ?_)
  obtain ⟨i, hi⟩ := List.mem_iff_getElem?.mp hf
  exact h ⟨i⟩ f (function_eq_ok.mpr (Array.getElem?_toList.symm.trans hi))

/-- No comparison has been marked as a half. -/
def Unmarked (m : Module) : Prop :=
  ∀ id f, m.function id = .ok f → ∀ i, ¬f.IsHalf i

end Module

namespace Pass

variable {s s' : PassState} {id : FuncId} {stats stats' : CompareStats}

/-- A comparison is counted if it is halved and not marked. -/
theorem halveCompare_counted (hconvert : config.convert = .all) (hid : s.module.function id = .ok f)
    (hy : f.Has y) {done : Halving} (h : (halveCompare config id y.width y.id).Does s done s') :
    done.halved = true ↔ 8 < y.width ∧ ¬f.IsHalf y.id := by
  unfold halveCompare at h
  obtain ⟨inst, s₁, hquery, h⟩ := does_bind.mp h
  obtain ⟨hinst, rfl⟩ := does_query.mp hquery
  obtain ⟨f₀, hid₀, hinst⟩ := Checked.bind_eq_ok.mp hinst
  obtain rfl := Except.ok.inj (hid.symm.trans hid₀)
  have hkind : inst.kind = .icmp y.pred y.lhs y.rhs :=
    Except.ok.inj ((Function.kind_eq_ok.mpr ⟨inst, hinst, rfl⟩).symm.trans hy.kind)
  have hmarked : f.IsHalf y.id ↔ inst.split = true := by
    simp [Function.IsHalf, hinst]
  rw [hkind] at h
  simp only [InstKind.comparison?, hconvert] at h
  -- Recorded or not, the rest is the same where all comparisons are halved.
  obtain ⟨recorded, s₂, h⟩ : ∃ recorded s₂,
      (if (recorded && ConvertMode.all != .all) = true then pure { recorded }
        else if (ConvertMode.all == .none || decide (y.width ≤ 8)) = true then pure { recorded }
        else do
          let name := (← query (·.function id)).name
          debug ("splitting " ++ toString y.width ++ "-bit " ++ y.pred.mnemonic ++ " in " ++ name)
          Pass.inFunction id (Edit.halve y.width y.id y.pred y.lhs y.rhs)
          pure { recorded, halved := !inst.split } : Pass Halving).Does s₂ done s' := by
    split at h
    · obtain ⟨recorded, s₂, -, h⟩ := does_bind.mp h
      exact ⟨recorded, s₂, h⟩
    · obtain ⟨recorded, s₂, -, h⟩ := does_bind.mp h
      exact ⟨recorded, s₂, h⟩
  rw [if_neg (by simp)] at h
  split at h
  · next hbyte =>
    obtain ⟨rfl, -⟩ := does_pure.mp h
    have hle : y.width ≤ 8 := by simpa using hbyte
    simp [Nat.not_lt.mpr hle]
  next hwide =>
  have hlt : 8 < y.width := by simpa using hwide
  obtain ⟨f₂, s₃, -, h⟩ := does_bind.mp h
  obtain ⟨u, s₄, -, h⟩ := does_bind.mp h
  obtain ⟨v, s₅, -, h⟩ := does_bind.mp h
  obtain ⟨rfl, -⟩ := does_pure.mp h
  simp [hlt, hmarked]

/-- Whatever becomes of a comparison, what has been counted and what is still to be counted remain
the same together. -/
theorem halveCompare_weight (hconvert : config.convert = .all) (hid : s.module.function id = .ok f)
    (hs : f.Sound m exempt) (hy : f.Has y) (hwidth : y.width ∈ [64, 32, 16, 8])
    (hmarks : f.MarksEqualities) {done : Halving}
    (h : (halveCompare config id y.width y.id).Does s done s') :
    ∃ f', s'.module = s.module.setFunction id f' ∧
      f.HalvingStep config y.width y.id f' ∧ f'.MarksEqualities ∧
      done.halved.toNat + f'.weight = f.weight ∧ ∀ x, x.id ≠ y.id → f.Has x → f'.Has x := by
  have hcounted := halveCompare_counted hconvert hid hy h
  obtain ⟨f₀, f', hid₀, hs', hstep⟩ := halveCompare_does h
  obtain rfl := Except.ok.inj (hid.symm.trans hid₀)
  refine ⟨f', hs', hstep, ?_⟩
  cases hstep with
  | other hkind => exact absurd hy.kind (hkind _ _ _)
  | recorded hkind hpred hnot => exact absurd hconvert hnot
  | whole hkind hwhole htagged =>
    have hle : y.width ≤ 8 := hwhole.resolve_left (by rw [hconvert]; nofun)
    have hnone : done.halved = false := by
      by_contra hsome
      exact absurd (hcounted.mp (by simpa using hsome)).1 (Nat.not_lt.mpr hle)
    refine ⟨htagged.marksEqualities hmarks, ?_, fun x _ hx => htagged.has_iff.mpr hx⟩
    rw [hnone, htagged.weight_eq]
    exact Nat.zero_add _
  | @halved pred lhs rhs f₁ hkind hwide htagged hdoes =>
    obtain ⟨rfl, rfl, rfl⟩ := InstKind.icmp.inj (Except.ok.inj (hkind.symm.trans hy.kind))
    have hs₁ := (htagged.splitFrom hs.tidy hy.index_lt).sound hs
    have hy₁ := htagged.has_iff.mpr hy
    have hmarks₁ := htagged.marksEqualities hmarks
    have hhalf : y.width ∈ [64, 32, 16] := by
      simp only [List.mem_cons, List.not_mem_nil, or_false] at hwidth ⊢
      omega
    refine ⟨Edit.halve_marksEqualities hs₁ hy₁ hmarks₁ hdoes, ?_, fun x hne hx =>
      (Edit.halve_halvesAt hs₁ hy₁ hdoes).others x hne (htagged.has_iff.mpr hx)⟩
    rw [← htagged.weight_eq]
    refine Edit.halve_weight hs₁ hy₁ hhalf hmarks₁ hdoes ?_
    rw [hcounted, htagged.marked_iff]
    exact and_iff_right hwide

/-- So they do while the comparisons of a function that have some width have their turn. -/
theorem halveCompares_weight (hconvert : config.convert = .all) (hwidth : width ∈ [64, 32, 16, 8])
    (hf : f.Tidy) (hs : f.isDeclaration = false → f.Sound m exempt)
    (hid : s.module.function id = .ok f) (hmarks : f.MarksEqualities)
    (h : (halveCompares config width stats id).Does s stats' s') :
    ∃ f', s'.module = s.module.setFunction id f' ∧ f'.MarksEqualities ∧
      stats'.halved + f'.weight = stats.halved + f.weight := by
  obtain ⟨sites, s₁, hquery, h⟩ := does_bind.mp h
  obtain ⟨hsites, rfl⟩ := does_query.mp hquery
  obtain ⟨f₀, hid₀, hsites⟩ := Checked.bind_eq_ok.mp hsites
  obtain rfl := Except.ok.inj (hid.symm.trans hid₀)
  have hlt := Module.index_lt_of_function hid
  have hbody : ∀ site ∈ sites, f.Sound m exempt := by
    intro site hsite
    obtain ⟨b, pos, hlisted⟩ := (Function.candidates_site hsites hsite).listed
    exact hs hlisted.isDeclaration
  have hnodup : ((sites.filter (·.2 == width)).map Prod.fst).Nodup := by
    refine List.Nodup.sublist (List.filter_sublist.map _) ?_
    cases sites with
    | nil => exact List.nodup_nil
    | cons site _ => exact (hbody site List.mem_cons_self).nodup_candidates hsites
  -- The comparisons that are still to come stay as they were found.
  have hend := h.foldlM_along (fun rest stats₂ s₂ => rest <:+ sites.filter (·.2 == width) ∧
    ∃ f', s₂.module = s.module.setFunction id f' ∧ f.SplitFrom f' ∧ f'.MarksEqualities ∧
      stats₂.halved + f'.weight = stats.halved + f.weight ∧
      ∀ site ∈ rest, ∃ y, f'.Has y ∧ y.id = site.1 ∧ y.width = width) ?_ ?_
  · obtain ⟨-, f', hs', -, hmarks', hsum, -⟩ := hend
    exact ⟨f', hs', hmarks', hsum⟩
  · rintro site rest stats₁ stats₂ s₂ s₃
      ⟨hrest, f₁, hs₂, hfrom, hmarks₁, hsum, hpending⟩ hstep
    obtain ⟨hfound, heq⟩ := List.mem_filter.mp (hrest.mem List.mem_cons_self)
    obtain rfl : site.2 = width := by simpa using heq
    obtain ⟨y, hy, hyid, hywidth⟩ := hpending site List.mem_cons_self
    obtain ⟨done, s₄, hdone, hstep⟩ := does_bind.mp hstep
    obtain ⟨rfl, rfl⟩ := does_pure.mp hstep
    have hid₂ : s₂.module.function id = .ok f₁ := by
      rw [hs₂, Module.function_setFunction hlt, if_pos rfl]
    rw [← hyid, ← hywidth] at hdone
    obtain ⟨f', hs₃, hhalving, hmarks', hweight, hothers⟩ := halveCompare_weight hconvert hid₂
      (hfrom.sound (hbody site hfound)) hy (hywidth ▸ hwidth) hmarks₁ hdone
    rw [hyid, hywidth] at hhalving
    have hsite := (Function.candidates_site hsites hfound).extended hf hfrom.extended
    refine ⟨(List.suffix_cons site rest).trans hrest, f', ?_,
      hfrom.trans (hhalving.splitFrom hfrom.extended.tidy hsite hwidth), hmarks', ?_, ?_⟩
    · rw [hs₃, hs₂, Module.setFunction_setFunction]
    · dsimp only
      omega
    · intro site' hsite'
      obtain ⟨z, hz, hzid, hzwidth⟩ := hpending site' (List.mem_cons_of_mem _ hsite')
      refine ⟨z, hothers z (fun heq => ?_) hz, hzid, hzwidth⟩
      have hdistinct := hnodup.sublist (hrest.sublist.map Prod.fst)
      rw [List.map_cons, List.nodup_cons] at hdistinct
      exact hdistinct.1 (List.mem_map.mpr ⟨site', hsite', hzid.symm.trans (heq.trans hyid)⟩)
  · refine ⟨List.suffix_refl _, f, (Module.setFunction_self hid).symm, .refl hf, hmarks, rfl,
      fun site hsite => ?_⟩
    obtain ⟨hmem, heq⟩ := List.mem_filter.mp hsite
    obtain ⟨pred, lhs, rhs, -, hcandidate⟩ := Function.candidate_of_mem_candidates hsites hmem
    exact ⟨⟨site.1, pred, lhs, rhs, site.2⟩, hcandidate, rfl, by simpa using heq⟩

/-- In every function only equalities are marked, and what has been counted and what is still to be
counted come to some number. -/
structure Counts (total : Nat) (stats : CompareStats) (m : Module) : Prop where
  marks : ∀ id f, m.function id = .ok f → f.MarksEqualities
  sum : stats.halved + m.total Function.weight = total

/-- A round over all functions does not change that. -/
theorem halveAll_counts (hconvert : config.convert = .all) (hwidth : width ∈ [64, 32, 16, 8])
    (hm : s.module.Sound) (htidy : s.module.Tidy) {ids : List FuncId} {total : Nat}
    (hcounts : Counts total stats s.module)
    (h : (ids.foldlM (halveCompares config width) stats).Does s stats' s') :
    s.module.Splits s'.module ∧ Counts total stats' s'.module := by
  refine h.foldlM_along (fun _ stats₁ s₁ => s.module.Splits s₁.module ∧
    Counts total stats₁ s₁.module) ?_ ⟨.refl, hcounts⟩
  rintro id rest stats₁ stats₂ s₁ s₂ ⟨hsplits, hcounts⟩ hstep
  have htidy₁ := hsplits.tidy htidy
  obtain ⟨sites, s₃, hquery, -⟩ := does_bind.mp hstep
  obtain ⟨hsites, -⟩ := does_query.mp hquery
  obtain ⟨f, hid, -⟩ := Checked.bind_eq_ok.mp hsites
  obtain ⟨f', hs₂, hmarks', hweight⟩ := halveCompares_weight hconvert hwidth (htidy₁ id f hid)
    (hsplits.sound hm id f hid) hid (hcounts.marks id f hid) hstep
  refine ⟨hsplits.trans (halveCompares_splits hwidth htidy₁ hstep), fun i g hi => ?_, ?_⟩
  · rw [hs₂, Module.function_setFunction (Module.index_lt_of_function hid)] at hi
    split at hi
    · exact Except.ok.inj hi ▸ hmarks'
    · exact hcounts.marks i g hi
  · have htotal : s₂.module.total Function.weight + f.weight =
        s₁.module.total Function.weight + f'.weight := by
      rw [hs₂, Module.total_setFunction hid Function.weight]
    have hsum := hcounts.sum
    omega

/-- Before halving nothing has been counted. -/
theorem beforeHalving_halved {ids : List FuncId} (h : (beforeHalving config ids).Does s stats s') :
    stats.halved = 0 := by
  unfold beforeHalving at h
  split at h
  · obtain ⟨rfl, -⟩ := does_pure.mp h
    rfl
  · refine h.foldlM_along (fun _ stats _ => stats.halved = 0) ?_ rfl
    intro id rest stats₁ stats₂ s₁ s₂ hzero hstep
    obtain ⟨simplified, s₃, -, hstep⟩ := does_bind.mp hstep
    obtain ⟨signNormalized, s₄, -, hstep⟩ := does_bind.mp hstep
    obtain ⟨rfl, -⟩ := does_pure.mp hstep
    exact hzero

/-- What the pass reports as halved: the comparisons that are worth taking apart when halving starts,
and on top of them the halves of orders, which it takes for comparisons of the program's own. An order
of 32 bits counts for three more, and one of 64 bits for twelve more. -/
theorem splitCompares_halved (hm : m.Accepted) (honce : m.ListsOnce) (hmarks : m.Unmarked)
    (hconvert : config.convert = .all)
    (h : (splitCompares config).runOn m = .ok (.ok stats, s)) :
    ∃ stats₁ s₁, (beforeHalving config m.functionIds).Does { module := m } stats₁ s₁ ∧
      stats.halved = s₁.module.count [.eq, .ne, .ugt, .ult] [64, 32, 16] +
        3 * s₁.module.count [.ugt, .ult] [32] + 12 * s₁.module.count [.ugt, .ult] [64] := by
  have htidy : m.Tidy := hm.tidy honce
  have hsound : m.Sound := hm.sound honce
  have hnone : config.convert ≠ .none := by
    rw [hconvert]
    decide
  obtain ⟨stats₁, s₁, s₂, hbefore, hsplits, hkept, hhalve, hs⟩ := splitCompares_rounds hm honce h
  refine ⟨stats₁, s₁, hbefore, ?_⟩
  -- When halving starts everything is normal and nothing is marked.
  have hnormal : ∀ id g, s₁.module.function id = .ok g → g.Normal := by
    have hnormalize := hbefore
    rw [beforeHalving, if_neg (by simpa using hnone)] at hnormalize
    refine (normalizeAll_normal hsound (splitCompares_narrow htidy h) (fun id f hid => ?_) rfl
      hnormalize).2
    exact Module.mem_functionIds.mpr (Module.index_lt_of_function hid)
  have hunmarked : s₁.module.Unmarked := by
    rintro id g hid i ⟨inst', hinst', hmark⟩
    have hlt := Module.index_lt_of_function hid
    rw [Module.Steps.size_functions hsplits] at hlt
    obtain ⟨f, hf⟩ := Module.exists_function hlt
    obtain ⟨g', hg', hnotes⟩ := hkept id f hf
    obtain rfl := Except.ok.inj (hid.symm.trans hg')
    exact hmarks id f hf i (hnotes.marks i inst' hinst' hmark)
  have hstart : Counts (s₁.module.total Function.weight) stats₁ s₁.module := by
    refine ⟨fun id g hid x _ hmarked => absurd hmarked (hunmarked id g hid x.id), ?_⟩
    rw [beforeHalving_halved hbefore, Nat.zero_add]
  have hend := hhalve.foldlM_along (fun rest stats s => (∀ width ∈ rest, width ∈ [64, 32, 16, 8]) ∧
    m.Splits s.module ∧ Counts (s₁.module.total Function.weight) stats s.module) ?_
    ⟨fun _ => id, hsplits, hstart⟩
  · obtain ⟨-, -, -, hsum⟩ := hend
    have hzero : s₂.module.total Function.weight = s₂.module.total fun _ => 0 := by
      refine Module.total_congr fun id f hid => ?_
      exact (splitCompares_spared hm honce hnone h (hs ▸ hid)).weight_eq_zero hconvert
    have hweight := Module.total_congr fun id g hid =>
      (hnormal id g hid).weight_eq (hunmarked id g hid)
    rw [hzero, hweight] at hsum
    simpa [Module.total, Module.count, List.sum_map_add, List.sum_map_mul_left] using hsum
  · rintro width rest stats stats' s s' ⟨hrest, hsplits, hcounts⟩ hround
    obtain ⟨hwidth, hrest⟩ := List.forall_mem_cons.mp hrest
    obtain ⟨hsplits', hcounts'⟩ := halveAll_counts hconvert hwidth (hsplits.sound hsound)
      (hsplits.tidy htidy) hcounts hround
    exact ⟨hrest, hsplits.trans hsplits', hcounts'⟩

end Pass

/-- Whether a number is above another one. -/
def Function.isAbove : Function :=
  .sole "is_above" [.int 32, .int 32] .i1 (.icmp .ugt (.arg 0) (.arg 1))

def Module.ranking : Module where
  name := "ranking"
  functions := #[.isAbove]

namespace Module

theorem ranking_accepted : ranking.Accepted := by
  refine accepted_of_passes fun f hf _ => ?_
  obtain rfl := List.mem_singleton.mp hf
  exact verifyFunction_sole (by decide) (by simp [InstKind.operands]) rfl

theorem ranking_listsOnce : ranking.ListsOnce := by
  intro id f hf ids hids
  obtain rfl := List.mem_singleton.mp (mem_of_function hf)
  obtain rfl : [⟨0⟩] = ids := Except.ok.inj hids
  exact List.nodup_singleton _

theorem ranking_unmarked : ranking.Unmarked := by
  rintro id f hf i ⟨inst, hinst, hmark⟩
  obtain rfl := List.mem_singleton.mp (mem_of_function hf)
  obtain rfl := List.mem_singleton.mp (List.mem_of_getElem? (Array.getElem?_toList.trans
    (Function.inst_eq_ok.mp hinst)))
  cases hmark

theorem ranking_completes : ∃ stats s,
    (Pass.splitCompares (.coverage .all)).runOn ranking = .ok (.ok stats, s) ∧ stats.halved = 4 := by
  have hfour : (Pass.completed? ((Pass.splitCompares (.coverage .all)).runOn ranking)).map
      (·.1.halved) = some 4 := by decide +kernel
  obtain ⟨⟨stats, s⟩, hcompleted, hfour⟩ := Option.map_eq_some_iff.mp hfour
  exact ⟨stats, s, Pass.completed?_eq_some hcompleted, hfour⟩

/-- The order is worth taking apart, and nothing else is. -/
theorem ranking_count : ranking.count [.eq, .ne, .ugt, .ult] [64, 32, 16] = 1 := by
  have hs := ranking_accepted.sound ranking_listsOnce ⟨0⟩ .isAbove rfl rfl
  have hsites : Function.isAbove.candidates [.eq, .ne, .ugt, .ult] = .ok [(⟨0⟩, 32)] := by
    decide +kernel
  have hcount : Function.isAbove.count [.eq, .ne, .ugt, .ult] [64, 32, 16] = 1 :=
    hs.count_eq hsites _
  simp [count, total, ranking, hcount]

end Module

namespace Pass

theorem ranking_halved : ∃ stats s stats₁ s₁,
    (splitCompares (.coverage .all)).runOn .ranking = .ok (.ok stats, s) ∧
      (beforeHalving (.coverage .all) Module.ranking.functionIds).Does { module := .ranking }
        stats₁ s₁ ∧
      stats.halved = s₁.module.count [.eq, .ne, .ugt, .ult] [64, 32, 16] +
        3 * s₁.module.count [.ugt, .ult] [32] + 12 * s₁.module.count [.ugt, .ult] [64] := by
  obtain ⟨stats, s, h, -⟩ := Module.ranking_completes
  obtain ⟨stats₁, s₁, hbefore, hhalved⟩ := splitCompares_halved Module.ranking_accepted
    Module.ranking_listsOnce Module.ranking_unmarked rfl h
  exact ⟨stats, s, stats₁, s₁, h, hbefore, hhalved⟩

/-- The only comparison of the program is halved once, and reported as four. -/
theorem ranking_overcounted : Module.ranking.Accepted ∧ Module.ranking.ListsOnce ∧
    Module.ranking.Unmarked ∧ ∃ stats s stats₁ s₁,
      (splitCompares (.coverage .all)).runOn .ranking = .ok (.ok stats, s) ∧
      (beforeHalving (.coverage .all) Module.ranking.functionIds).Does { module := .ranking }
        stats₁ s₁ ∧
      s₁.module.count [.eq, .ne, .ugt, .ult] [64, 32, 16] = 1 ∧ stats.halved = 4 := by
  refine ⟨Module.ranking_accepted, Module.ranking_listsOnce, Module.ranking_unmarked, ?_⟩
  obtain ⟨stats, s, h, hfour⟩ := Module.ranking_completes
  have hfirst : (completed? (beforeHalving (.coverage .all) Module.ranking.functionIds
      { module := .ranking })).map (·.2.module.functions) = some Module.ranking.functions := by
    decide +kernel
  obtain ⟨⟨stats₁, s₁⟩, hcompleted, hsame⟩ := Option.map_eq_some_iff.mp hfirst
  refine ⟨stats, s, stats₁, s₁, h, completed?_eq_some hcompleted, ?_, hfour⟩
  dsimp only at hsame
  rw [← Module.ranking_count, Module.count, Module.count, Module.total, Module.total, hsame]

end Pass

end EdgeProbe
