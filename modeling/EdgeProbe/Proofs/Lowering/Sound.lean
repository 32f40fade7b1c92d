import EdgeProbe.Proofs.Lowering.Compares
import EdgeProbe.Proofs.Validity.Passes
import EdgeProbe.Proofs.Validity.Patched

/-!
# Split comparisons are sound

What stands for a comparison reads the operands of the comparison and what it has computed itself,
so a function stays sound when its comparisons are split. Main statement:
`Module.Splits.sound`.
-/

namespace EdgeProbe

variable {m : Module} {exempt : BlockId → Prop} {f f' : Function} {c : Cut} {join : BlockId}
  {parts : List Part}

theorem Ty.eq_int_of_intWidth? {ty : Ty} {width : Nat} (h : ty.intWidth? = some width) :
    ty = .int width := by
  cases ty <;> simp_all [Ty.intWidth?]

namespace Function

theorem valueType_of_intWidth? {value : Value} {width : Nat}
    (h : f.intWidth? value = .ok (some width)) : f.valueType value = .ok (.int width) := by
  obtain ⟨ty, hty, hwidth⟩ := Checked.map_eq_ok.mp h
  rw [hty, Ty.eq_int_of_intWidth? hwidth]

/-- What the instruction at a cut reads is there for the parts that stand for it. -/
theorem Sound.gives (hs : f.Sound m exempt) (hc : c.Of f) {kind : InstKind}
    (hkind : f.kind c.site = .ok kind) (hsite : kind.isPhi = false) {value : Value}
    (hvalue : value ∈ kind.operands) (p : Part) (pos : Option Nat) :
    c.Gives m f parts p pos value := by
  have hknown := hs.named.kinds c.site kind hkind
  unfold Module.knowsKind at hknown
  rw [Bool.and_eq_true, List.all_eq_true] at hknown
  cases value with
  | inst used => exact .before (hs.uses _ _ _ kind hc.listed_site hkind hsite used hvalue)
  | _ => exact .plain rfl (hknown.1 _ hvalue)

end Function

/-- What the parts that stand for a comparison count on: the operands are there, and they are
integers of one width. -/
structure Cut.Feeds (m : Module) (f : Function) (c : Cut) (parts : List Part) (f' : Function)
    (lhs rhs : Value) (width : Nat) : Prop where
  left : ∀ p pos, c.Gives m f parts p pos lhs
  right : ∀ p pos, c.Gives m f parts p pos rhs
  leftType : f'.valueType lhs = .ok (.int width)
  rightType : f'.valueType rhs = .ok (.int width)

theorem Cut.Gives.ofWord (p : Part) (pos : Option Nat) (width : Nat) (x : UInt64) :
    c.Gives m f parts p pos (.ofWord width x) :=
  .plain rfl rfl

/-- What a part computes is there at its end. -/
theorem Cut.Gives.atEnd {p : Part} {used : InstId} {kind : InstKind} {k : Nat}
    (hused : p.insts[k]? = some (used, kind)) : c.Gives m f parts p none (.inst used) :=
  .here hused (by simp)

theorem Cut.Gives.ofBool (p : Part) (pos : Option Nat) (b : Bool) :
    c.Gives m f parts p pos (.ofBool b) :=
  .plain rfl rfl

section

variable {pred : Predicate} {lhs rhs : Value} {width : Nat} {ty : Ty}
  {entries : List (Value × BlockId)}

theorem Patched.feeds (h : Patched f c join parts .i1 entries f') (hs : f.Sound m exempt)
    (hc : c.Of f) (hsite : f.Compares c.site pred lhs rhs width) :
    c.Feeds m f parts f' lhs rhs width := by
  have htypes := h.typesKept hsite.kind rfl
  refine ⟨?_, ?_, ?_, ?_⟩
  · exact hs.gives hc hsite.kind rfl (by simp [InstKind.operands])
  · exact hs.gives hc hsite.kind rfl (by simp [InstKind.operands])
  · exact Function.valueType_of_intWidth? (htypes.intWidth? h.opened.sizeInsts hsite.left)
  · exact Function.valueType_of_intWidth? (htypes.intWidth? h.opened.sizeInsts hsite.right)

theorem Patched.sound_of_compares (h : Patched f c join parts .i1 entries f')
    (hs : f.Sound m exempt) (hc : c.Of f) (hsite : f.Compares c.site pred lhs rhs width)
    (hfits : Patched.Fits m f c join parts entries f') : f'.Sound m exempt :=
  h.sound hs hc hsite.kind rfl rfl hfits (h.typesKept hsite.kind rfl)

/-- The operands of instructions in a row. -/
theorem forall_getElem?_cons {α : Type} {P : Nat → InstId → α → Prop} {first : InstId × α}
    {rest : List (InstId × α)} :
    (∀ k id a, (first :: rest)[k]? = some (id, a) → P k id a) ↔
      P 0 first.1 first.2 ∧ ∀ k id a, rest[k]? = some (id, a) → P (k + 1) id a := by
  constructor
  · exact fun h => ⟨h 0 _ _ rfl, fun k id a hk => h (k + 1) id a hk⟩
  · rintro ⟨hfirst, hrest⟩ k id a hk
    cases k with
    | zero =>
      obtain rfl := Option.some.inj hk
      exact hfirst
    | succ k => exact hrest k id a hk

theorem forall_getElem?_nil {α : Type} {P : Nat → InstId → α → Prop} :
    (∀ k id a, ([] : List (InstId × α))[k]? = some (id, a) → P k id a) ↔ True := by
  simp

/-- What is asked of the operands of one instruction. -/
theorem InstKind.paired_operands {kind : InstKind} (h : kind.paired? = some (lhs, rhs))
    (hty : ∃ ty, f.valueType lhs = .ok ty ∧ f.valueType rhs = .ok ty) :
    ∀ lhs' rhs', kind.paired? = some (lhs', rhs') →
      ∃ ty, f.valueType lhs' = .ok ty ∧ f.valueType rhs' = .ok ty := by
  intro lhs' rhs' h'
  obtain ⟨rfl, rfl⟩ := Prod.mk.inj (Option.some.inj (h.symm.trans h'))
  exact hty

/-- Nothing is asked of the operands of an instruction that may be of different types. -/
theorem InstKind.unpaired {kind : InstKind} (h : kind.paired? = none) {asked : Value → Value → Prop} :
    ∀ lhs rhs, kind.paired? = some (lhs, rhs) → asked lhs rhs := by
  simp [h]

variable (hfeeds : c.Feeds m f parts f' lhs rhs width)
include hfeeds

/-- A part that makes one comparison of the operands. -/
theorem Cut.Feeds.fits_compare {b : BlockId} {old : List InstId} {i : InstId} {term : Terminator}
    (hends : (∃ target, term = .br target) ∨
      (∃ onTrue onFalse, term = .condBr (.inst i) onTrue onFalse) ∧
        f'.kind i = .ok (.icmp pred lhs rhs)) :
    Part.Fits m f c parts f' ⟨b, old, [(i, .icmp pred lhs rhs)], term⟩ where
  plain := by simp [InstKind.isLandingPad, InstKind.isCall]
  operands := by
    simp only [forall_getElem?_cons, forall_getElem?_nil, InstKind.operands,
      List.forall_mem_cons, List.not_mem_nil, false_implies, implies_true, and_true]
    exact ⟨hfeeds.left _ _, hfeeds.right _ _⟩
  paired := List.forall_mem_singleton.mpr
    (InstKind.paired_operands rfl ⟨_, hfeeds.leftType, hfeeds.rightType⟩)
  ends := by
    refine hends.imp_right ?_
    rintro ⟨⟨onTrue, onFalse, hterm⟩, hkind⟩
    exact ⟨_, onTrue, onFalse, hterm, Function.valueType_of_fixedType? hkind rfl,
      .atEnd (k := 0) rfl⟩

theorem HalfCode.fits_head {code : HalfCode} {term : Terminator}
    (hreads : code.Reads f' pred lhs rhs width)
    (hends : ∃ onTrue onFalse, term = .condBr (.inst code.high) onTrue onFalse) :
    (code.head c pred lhs rhs width term).Fits m f c parts f' where
  plain := by simp [head, InstKind.isLandingPad, InstKind.isCall]
  operands := by
    simp only [head, forall_getElem?_cons, forall_getElem?_nil, InstKind.operands,
      List.forall_mem_cons, List.not_mem_nil, false_implies, implies_true, and_true]
    refine ⟨⟨hfeeds.left _ _, .ofWord _ _ _ _⟩, .here (k := 0) rfl ?_,
      ⟨hfeeds.right _ _, .ofWord _ _ _ _⟩, .here (k := 2) rfl ?_,
      ⟨.here (k := 1) rfl ?_, .here (k := 3) rfl ?_⟩⟩ <;> simp
  paired := by
    simp only [head, List.forall_mem_cons, List.not_mem_nil, false_implies, implies_true, and_true]
    refine ⟨InstKind.paired_operands rfl ⟨_, hfeeds.leftType, Function.valueType_ofWord _ _ _⟩,
      InstKind.unpaired rfl,
      InstKind.paired_operands rfl ⟨_, hfeeds.rightType, Function.valueType_ofWord _ _ _⟩,
      InstKind.unpaired rfl,
      InstKind.paired_operands rfl
        ⟨_, Function.valueType_of_fixedType? hreads.high0 rfl,
          Function.valueType_of_fixedType? hreads.high1 rfl⟩⟩
  ends := by
    obtain ⟨onTrue, onFalse, rfl⟩ := hends
    exact .inr ⟨_, onTrue, onFalse, rfl, Function.valueType_of_fixedType? hreads.high rfl,
      .atEnd (k := 4) rfl⟩

theorem HalfCode.fits_lowPart {code : HalfCode} (hreads : code.Reads f' pred lhs rhs width) :
    (code.lowPart join pred lhs rhs width).Fits m f c parts f' where
  plain := by simp [lowPart, InstKind.isLandingPad, InstKind.isCall]
  operands := by
    simp only [lowPart, forall_getElem?_cons, forall_getElem?_nil, InstKind.operands,
      List.forall_mem_cons, List.not_mem_nil, false_implies, implies_true, and_true]
    refine ⟨hfeeds.left _ _, hfeeds.right _ _,
      ⟨.here (k := 0) rfl ?_, .here (k := 1) rfl ?_⟩⟩ <;> simp
  paired := by
    simp only [lowPart, List.forall_mem_cons, List.not_mem_nil, false_implies, implies_true,
      and_true]
    exact ⟨InstKind.unpaired rfl, InstKind.unpaired rfl, InstKind.paired_operands rfl
      ⟨_, Function.valueType_of_fixedType? hreads.low0 rfl,
        Function.valueType_of_fixedType? hreads.low1 rfl⟩⟩
  ends := .inl ⟨join, rfl⟩

omit hfeeds in
theorem HalfCode.fits_inversePart {code : HalfCode} {block : BlockId} {inverse : InstId}
    {term : Terminator} (hhead : code.head c pred lhs rhs width term ∈ parts)
    (hblock : block ≠ c.head) (hreads : code.Reads f' pred lhs rhs width)
    (hinverse : f'.kind inverse = .ok (.icmp pred.converse (.inst code.high0) (.inst code.high1))) :
    (code.inversePart join pred block inverse).Fits m f c parts f' where
  plain := by simp [inversePart, InstKind.isLandingPad, InstKind.isCall]
  operands := by
    simp only [inversePart, forall_getElem?_cons, forall_getElem?_nil, InstKind.operands,
      List.forall_mem_cons, List.not_mem_nil, false_implies, implies_true, and_true]
    exact ⟨.head hhead rfl hblock (List.mem_of_getElem? (i := 1) rfl),
      .head hhead rfl hblock (List.mem_of_getElem? (i := 3) rfl)⟩
  paired := List.forall_mem_singleton.mpr (InstKind.paired_operands rfl
    ⟨_, Function.valueType_of_fixedType? hreads.high0 rfl,
      Function.valueType_of_fixedType? hreads.high1 rfl⟩)
  ends := .inr ⟨_, join, code.low, rfl, Function.valueType_of_fixedType? hinverse rfl,
    .atEnd (k := 0) rfl⟩

theorem SignCode.fits_head {code : SignCode} (hreads : code.Reads f' pred lhs rhs width) :
    (code.head c lhs rhs width).Fits m f c parts f' where
  plain := by simp [head, InstKind.isLandingPad, InstKind.isCall]
  operands := by
    simp only [head, forall_getElem?_cons, forall_getElem?_nil, InstKind.operands,
      List.forall_mem_cons, List.not_mem_nil, false_implies, implies_true, and_true]
    refine ⟨⟨hfeeds.left _ _, .ofWord _ _ _ _⟩, .here (k := 0) rfl ?_,
      ⟨hfeeds.right _ _, .ofWord _ _ _ _⟩, .here (k := 2) rfl ?_,
      ⟨.here (k := 1) rfl ?_, .here (k := 3) rfl ?_⟩⟩ <;> simp
  paired := by
    simp only [head, List.forall_mem_cons, List.not_mem_nil, false_implies, implies_true, and_true]
    exact ⟨InstKind.paired_operands rfl ⟨_, hfeeds.leftType, Function.valueType_ofWord _ _ _⟩,
      InstKind.unpaired rfl,
      InstKind.paired_operands rfl ⟨_, hfeeds.rightType, Function.valueType_ofWord _ _ _⟩,
      InstKind.unpaired rfl,
      InstKind.paired_operands rfl
        ⟨_, Function.valueType_of_fixedType? hreads.sign0 rfl,
          Function.valueType_of_fixedType? hreads.sign1 rfl⟩⟩
  ends := .inr ⟨_, code.words, code.signs, rfl, Function.valueType_of_fixedType? hreads.same rfl,
    .atEnd (k := 4) rfl⟩

omit hfeeds in
theorem SignCode.fits_signPart {code : SignCode} (hhead : code.head c lhs rhs width ∈ parts)
    (hsigns : code.signs ≠ c.head) (hreads : code.Reads f' pred lhs rhs width) :
    (code.signPart join pred).Fits m f c parts f' where
  plain := by simp [signPart, InstKind.isLandingPad, InstKind.isCall]
  operands := by
    simp only [signPart, forall_getElem?_cons, forall_getElem?_nil, InstKind.operands,
      List.forall_mem_cons, List.not_mem_nil, false_implies, implies_true, and_true]
    exact ⟨.head hhead rfl hsigns (List.mem_of_getElem? (i := 1) rfl),
      .head hhead rfl hsigns (List.mem_of_getElem? (i := 3) rfl)⟩
  paired := List.forall_mem_singleton.mpr (InstKind.paired_operands rfl
    ⟨_, Function.valueType_of_fixedType? hreads.sign0 rfl,
      Function.valueType_of_fixedType? hreads.sign1 rfl⟩)
  ends := .inl ⟨join, rfl⟩

end

/-! ## Each way to split -/

namespace Function

/-- Moving tokens between instructions of the function changes nothing that is asked. -/
theorem Sound.withAnnotations (hs : f.Sound m exempt) {annotations : Annotations}
    (htokens : f.KeepsTokens { f with annotations }) :
    ({ f with annotations } : Function).Sound m exempt := by
  have htypes : f.TypesKept { f with annotations } := .of_kinds rfl fun _ _ hkind => .inl hkind
  have hprecedes : ∀ {used b pos}, f.Precedes used b pos →
      ({ f with annotations } : Function).Precedes used b pos :=
    Precedes.mono (f := f) { f with annotations } (fun _ he => he) (fun _ _ hedge => hedge)
      fun _ _ _ hid => hid
  exact { hs with
    tidy := hs.tidy.withAnnotations annotations
    named := ⟨hs.named.insts, hs.named.successors, hs.named.terminators, hs.named.kinds,
      fun id hid => (htokens id hid).elim (hs.named.tokens id) fun hlt => hlt⟩
    paired := fun id b pos kind lhs rhs hid hkind hpaired => by
      obtain ⟨ty, hleft, hright⟩ := hs.paired id b pos kind lhs rhs hid hkind hpaired
      exact ⟨ty, htypes.valueType le_rfl hleft, htypes.valueType le_rfl hright⟩
    conditions := fun b hb blk hblk cond onTrue onFalse hterm =>
      htypes.valueType le_rfl (hs.conditions b hb blk hblk cond onTrue onFalse hterm)
    phiUses := fun id b pos ty incoming hid hkind used source hmem =>
      hprecedes (hs.phiUses id b pos ty incoming hid hkind used source hmem)
    uses := fun id b pos kind hid hkind hphi used hused =>
      hprecedes (hs.uses id b pos kind hid hkind hphi used hused)
    termUses := fun b hb blk hblk used hused => hprecedes (hs.termUses b hb blk hblk used hused) }

variable {pred : Predicate} {lhs rhs : Value} {width : Nat}

theorem Splits.sound (h : f.Splits f') (hs : f.Sound m exempt) : f'.Sound m exempt := by
  cases h with
  | @tokens annotations h htokens =>
    subst h
    exact hs.withAnnotations htokens
  | @strict c join middle strict equal pred lhs rhs width hc hsite hpred hne hstrict hequal hlast h =>
    obtain ⟨hlhs, hrhs⟩ := hsite.below hs.tidy hc.listed_site
    have hpatched := h.patched_simplified hne (by omega) hlast hlhs hrhs
    have hfeeds := hpatched.feeds hs hc hsite
    refine hpatched.sound_of_compares hs hc hsite ⟨?_, ?_, ?_⟩
    · have hkind : f'.kind strict = .ok (.icmp pred.strict lhs rhs) :=
        hpatched.kind_of_mem List.mem_cons_self List.mem_cons_self
      simp only [Cut.simplified, List.forall_mem_cons, List.not_mem_nil, false_implies,
        implies_true, and_true]
      exact ⟨hfeeds.fits_compare (.inr ⟨⟨join, middle, rfl⟩, hkind⟩),
        hfeeds.fits_compare (.inl ⟨join, rfl⟩)⟩
    · simp [hne]
    · simp only [List.forall_mem_cons, List.not_mem_nil, false_implies, implies_true, and_true]
      refine ⟨⟨_, List.mem_cons_of_mem _ List.mem_cons_self, rfl, List.mem_cons_self, ?_⟩,
        ⟨_, List.mem_cons_self, rfl, List.mem_cons_self, .ofBool _ _ _⟩⟩
      exact .atEnd (k := 0) rfl
  | @signs c join code pred lhs rhs width hc hsite hpred hpos hle hsigns hwords hne hnew h =>
    obtain ⟨hlhs, hrhs⟩ := hsite.below hs.tidy hc.listed_site
    have hpatched := SignCode.patched h hc hsigns hwords hnew hlhs hrhs
    have hfeeds := hpatched.feeds hs hc hsite
    have hreads := SignCode.reads hpatched
    refine hpatched.sound_of_compares hs hc hsite ⟨?_, ?_, ?_⟩
    · simp only [SignCode.parts, List.forall_mem_cons, List.not_mem_nil, false_implies,
        implies_true, and_true]
      exact ⟨SignCode.fits_head hfeeds hreads,
        SignCode.fits_signPart List.mem_cons_self hsigns hreads,
        hfeeds.fits_compare (.inl ⟨join, rfl⟩)⟩
    · simp [SignCode.entries, hne.symm]
    · simp only [SignCode.entries, List.forall_mem_cons, List.not_mem_nil, false_implies,
        implies_true, and_true]
      refine ⟨⟨code.wordPart join pred lhs rhs, by simp [SignCode.parts], rfl, List.mem_cons_self,
          .atEnd (k := 0) rfl⟩,
        ⟨code.signPart join pred, by simp [SignCode.parts], rfl, List.mem_cons_self,
          .atEnd (k := 0) rfl⟩⟩
  | @equality c join code pred lhs rhs width hc hsite hpred hwidth hlow hnew h =>
    obtain ⟨hlhs, hrhs⟩ := hsite.below hs.tidy hc.listed_site
    have hpatched := HalfCode.patched_equality h hc hlow hnew hlhs hrhs
    have hfeeds := hpatched.feeds hs hc hsite
    have hreads : code.Reads f' pred lhs rhs width :=
      .of_parts hpatched List.mem_cons_self (by simp [HalfCode.equalityParts])
    have hends : ∃ onTrue onFalse, code.decideEquality join pred =
        .condBr (.inst code.high) onTrue onFalse ∧ (join = onTrue ∨ join = onFalse) := by
      unfold HalfCode.decideEquality
      split
      · exact ⟨_, _, rfl, .inr rfl⟩
      · exact ⟨_, _, rfl, .inl rfl⟩
    obtain ⟨onTrue, onFalse, hterm, hjoin⟩ := hends
    refine hpatched.sound_of_compares hs hc hsite ⟨?_, ?_, ?_⟩
    · simp only [HalfCode.equalityParts, List.forall_mem_cons, List.not_mem_nil, false_implies,
        implies_true, and_true]
      exact ⟨HalfCode.fits_head hfeeds hreads ⟨onTrue, onFalse, hterm⟩,
        HalfCode.fits_lowPart hfeeds hreads⟩
    · simp [HalfCode.equalityEntries, hlow]
    · simp only [HalfCode.equalityEntries, List.forall_mem_cons, List.not_mem_nil, false_implies,
        implies_true, and_true]
      refine ⟨⟨code.lowPart join pred lhs rhs width, by simp [HalfCode.equalityParts], rfl,
          List.mem_cons_self, .atEnd (k := 2) rfl⟩,
        ⟨_, List.mem_cons_self, rfl, ?_, .ofBool _ _ _⟩⟩
      rw [HalfCode.head, hterm]
      simpa [Terminator.successors] using hjoin
  | @order c join block inverse code pred lhs rhs width hc hsite hpred hwidth hlow hblock hne hafter
      hbefore hnew h =>
    obtain ⟨hlhs, hrhs⟩ := hsite.below hs.tidy hc.listed_site
    have hpatched := HalfCode.patched_order h hc hlow hblock hbefore hnew hlhs hrhs
    have hfeeds := hpatched.feeds hs hc hsite
    have hreads : code.Reads f' pred lhs rhs width :=
      .of_parts hpatched List.mem_cons_self (by simp [HalfCode.orderParts])
    have hinverse : f'.kind inverse =
        .ok (.icmp pred.converse (.inst code.high0) (.inst code.high1)) :=
      hpatched.kind_of_mem (p := code.inversePart join pred block inverse)
        (by simp [HalfCode.orderParts]) List.mem_cons_self
    refine hpatched.sound_of_compares hs hc hsite ⟨?_, ?_, ?_⟩
    · simp only [HalfCode.orderParts, List.forall_mem_cons, List.not_mem_nil, false_implies,
        implies_true, and_true]
      exact ⟨HalfCode.fits_head hfeeds hreads ⟨_, _, rfl⟩,
        HalfCode.fits_inversePart List.mem_cons_self hblock hreads hinverse,
        HalfCode.fits_lowPart hfeeds hreads⟩
    · simp [HalfCode.orderEntries, hlow, hblock.symm, hne.symm]
    · simp only [HalfCode.orderEntries, List.forall_mem_cons, List.not_mem_nil, false_implies,
        implies_true, and_true]
      refine ⟨⟨code.lowPart join pred lhs rhs width, by simp [HalfCode.orderParts], rfl,
          List.mem_cons_self, .atEnd (k := 2) rfl⟩,
        ⟨_, List.mem_cons_self, rfl, List.mem_cons_self, .ofBool _ _ _⟩,
        ⟨code.inversePart join pred block inverse, by simp [HalfCode.orderParts], rfl,
          List.mem_cons_self, .ofBool _ _ _⟩⟩

theorem Splits.params (h : f.Splits f') : f'.params = f.params := by
  cases h with
  | tokens h => rw [h]
  | strict _ _ _ _ _ _ _ h => exact h.params
  | signs _ _ _ _ _ _ _ _ _ h => exact h.params
  | equality _ _ _ _ _ _ h => exact h.params
  | order _ _ _ _ _ _ _ _ _ _ h => exact h.params

/-- A declaration stays one. -/
theorem Splits.isDeclaration (h : f.Splits f') (hbody : f'.isDeclaration = false) :
    f.isDeclaration = false := by
  cases h with
  | tokens h => rwa [h] at hbody
  | strict hc => exact hc.isDeclaration
  | signs hc => exact hc.isDeclaration
  | equality hc => exact hc.isDeclaration
  | order hc => exact hc.isDeclaration

end Function

theorem Module.Splits.sound {m' : Module} (h : m.Splits m') (hm : m.Sound) : m'.Sound := by
  refine Steps.keeps Module.Sound h (fun m id f f' hm hid hsplits => ?_) hm
  exact hm.setFunction hid hsplits.params fun hbody =>
    hsplits.sound (hm id f hid (hsplits.isDeclaration hbody))

end EdgeProbe
