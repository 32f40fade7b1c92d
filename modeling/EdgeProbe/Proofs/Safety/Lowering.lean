import EdgeProbe.Lowering.Select
import EdgeProbe.Lowering.StringCompare
import EdgeProbe.Proofs.Lowering.StringSite
import EdgeProbe.Proofs.Safety.Edits
import EdgeProbe.Proofs.Safety.Queries

/-!
# Taking the code of sturdy functions apart

The edits that take one selection or one comparison apart come to no fault in a sturdy function. Nor
does looking for string comparisons that can be taken apart, or putting chains of blocks in their
places.
-/

namespace EdgeProbe

/-- A strict comparison is one of signed numbers if the comparison that allows equality is. -/
theorem Predicate.isSigned_strict {pred : Predicate} (h : pred ∈ [uge, sge, ule, sle]) :
    pred.strict.isSigned = pred.isSigned := by
  simp only [List.mem_cons, List.not_mem_nil, or_false] at h
  obtain rfl | rfl | rfl | rfl := h <;> rfl

namespace Edit

variable {m : Module} {f : Function} (hf : f.Sturdy m) {id : InstId}
include hf

/-! ## Comparisons -/

theorem safe_simplify (hid : f.Held id)
    (hpred : ∀ pred lhs rhs, f.kind id = .ok (.icmp pred lhs rhs) →
      pred ∈ [Predicate.uge, .sge, .ule, .sle]) : Safe m (simplify id) f fun _ _ => True := by
  obtain ⟨kind, hkind, -⟩ := hid.kind
  refine safe_kind_bind hf hkind ?_
  obtain hnone | ⟨pred, lhs, rhs, rfl, hl, hr⟩ := hf.comparison_cases hkind
  · rw [hnone]
    exact safe_pure hf trivial
  refine safe_labelFor_bind hf _ hid.lt fun l => ?_
  refine .bind (safe_splitAt hf l hid _) ?_
  rintro halves f₁ hf₁ h₁ ⟨hsteady, hhalves⟩
  cases halves with
  | none => exact safe_pure hf₁ trivial
  | some halves =>
  obtain ⟨head, join⟩ := halves
  obtain ⟨hhead, hjoin⟩ := hhalves head join rfl
  have hbits : f₁.ReadsBits (.icmp pred.strict lhs rhs) := by
    intro _ _ _ heq hsigned
    obtain ⟨rfl, rfl, rfl⟩ := InstKind.icmp.inj heq
    rw [Predicate.isSigned_strict (hpred pred lhs rhs hkind)] at hsigned
    exact hf₁.signs id _ (hsteady.kind_of_not_phi hkind rfl) pred lhs rhs rfl hsigned
  refine .bind (safe_emitValue hf₁ l hhead (.icmp (h₁.knowsValue hl) (h₁.knowsValue hr) hbits) _)
    fun strict f₂ hf₂ h₂ hstrict => ?_
  refine .bind (safe_blockBefore hf₂ l _ join) fun middle f₃ hf₃ h₃ hmiddle => ?_
  have h₁₃ : f₁.Onward f₃ := h₂.trans h₃
  have h₀₃ : f.Onward f₃ := h₁.trans h₁₃
  refine .bind (safe_emitValue hf₃ l hmiddle
    (.unsigned (h₀₃.knowsValue hl) (h₀₃.knowsValue hr) rfl) _) fun equal f₄ hf₄ h₄ hequal => ?_
  refine .bind (safe_setBr hf₄ (h₄.lt_blocks hmiddle) ((h₁₃.trans h₄).lt_blocks hjoin))
    fun _ f₅ hf₅ h₅ _ => ?_
  have h₃₅ : f₃.Onward f₅ := h₄.trans h₅
  have h₁₅ : f₁.Onward f₅ := h₁₃.trans h₃₅
  refine .bind (safe_setCondBr hf₅ (h₁₅.lt_blocks hhead) (h₁₅.lt_blocks hjoin)
    (h₃₅.lt_blocks hmiddle)) fun _ f₆ hf₆ h₆ _ => ?_
  exact safe_choose hf₆ ((h₁.trans (h₁₅.trans h₆)).lt_insts hid.lt)
    ((h₅.trans h₆).knowsValue hequal) ((h₃₅.trans h₆).lt_blocks hmiddle) rfl
    ((h₁₅.trans h₆).lt_blocks hhead) (by simp [Ty.i1])

theorem safe_emitSign (l : Label) {b : BlockId} (hb : b.index < f.blocks.size) {value shift : Value}
    (hvalue : m.knowsValue f value = true) (hshift : m.knowsValue f shift = true) (n : String) :
    Safe m (emitSign l b value shift n) f fun value g => m.knowsValue g value = true := by
  refine .bind (safe_emitValue hf l hb (.binary hvalue hshift _) _)
    fun shifted f₁ hf₁ h₁ hshifted => ?_
  exact safe_emitValue hf₁ l (h₁.lt_blocks hb) (.cast hshifted _ _) _

/-- The sign bit is asked only of integers that have one. -/
theorem safe_normalizeSign {width : Nat} (hid : f.Held id)
    (hwidth : ∀ pred lhs rhs, f.kind id = .ok (.icmp pred lhs rhs) → width ≠ 0) :
    Safe m (normalizeSign width id) f fun _ _ => True := by
  obtain ⟨kind, hkind, -⟩ := hid.kind
  refine safe_kind_bind hf hkind ?_
  obtain hnone | ⟨pred, lhs, rhs, rfl, hl, hr⟩ := hf.comparison_cases hkind
  · rw [hnone]
    exact safe_pure hf trivial
  refine safe_labelFor_bind hf _ hid.lt fun l => ?_
  refine .bind (safe_splitAt hf l hid _) ?_
  rintro halves f₁ hf₁ h₁ ⟨-, hhalves⟩
  cases halves with
  | none => exact safe_pure hf₁ trivial
  | some halves =>
  obtain ⟨head, join⟩ := halves
  obtain ⟨hhead, hjoin⟩ := hhalves head join rfl
  dsimp only
  rw [if_neg (hwidth pred lhs rhs hkind)]
  have hsigns : pred.ofSigns.isSigned = false := by cases pred <;> rfl
  have hunsigned : pred.unsigned.isSigned = false := by cases pred <;> rfl
  refine .bind (safe_emitSign hf₁ l hhead (h₁.knowsValue hl) rfl _)
    fun sign0 f₂ hf₂ h₂ hsign0 => ?_
  refine .bind (safe_emitSign hf₂ l (h₂.lt_blocks hhead) ((h₁.trans h₂).knowsValue hr) rfl _)
    fun sign1 f₃ hf₃ h₃ hsign1 => ?_
  have hsign0 : m.knowsValue f₃ sign0 = true := h₃.knowsValue hsign0
  have h₁₃ : f₁.Onward f₃ := h₂.trans h₃
  refine .bind (safe_emitValue hf₃ l (h₁₃.lt_blocks hhead) (.unsigned hsign0 hsign1 rfl) _)
    fun same f₄ hf₄ h₄ hsame => ?_
  refine .bind (safe_blockBefore hf₄ l _ join) fun signBlock f₅ hf₅ h₅ hsignBlock => ?_
  have h₃₅ : f₃.Onward f₅ := h₄.trans h₅
  refine .bind (safe_emitValue hf₅ l hsignBlock
    (.unsigned (h₃₅.knowsValue hsign0) (h₃₅.knowsValue hsign1) hsigns) _)
    fun bySign f₆ hf₆ h₆ hbySign => ?_
  have h₁₆ : f₁.Onward f₆ := h₁₃.trans (h₃₅.trans h₆)
  refine .bind (safe_setBr hf₆ (h₆.lt_blocks hsignBlock) (h₁₆.lt_blocks hjoin))
    fun _ f₇ hf₇ h₇ _ => ?_
  refine .bind (safe_blockBefore hf₇ l _ join) fun middle f₈ hf₈ h₈ hmiddle => ?_
  have h₆₈ : f₆.Onward f₈ := h₇.trans h₈
  have h₀₈ : f.Onward f₈ := h₁.trans (h₁₆.trans h₆₈)
  refine .bind (safe_emitValue hf₈ l hmiddle
    (.unsigned (h₀₈.knowsValue hl) (h₀₈.knowsValue hr) hunsigned) _)
    fun byValue f₉ hf₉ h₉ hbyValue => ?_
  have h₁₉ : f₁.Onward f₉ := h₁₆.trans (h₆₈.trans h₉)
  refine .bind (safe_setBr hf₉ (h₉.lt_blocks hmiddle) (h₁₉.lt_blocks hjoin))
    fun _ f₁₀ hf₁₀ h₁₀ _ => ?_
  have hmiddle : middle.index < f₁₀.blocks.size := (h₉.trans h₁₀).lt_blocks hmiddle
  have h₆₁₀ : f₆.Onward f₁₀ := h₆₈.trans (h₉.trans h₁₀)
  have hsignBlock : signBlock.index < f₁₀.blocks.size := (h₆.trans h₆₁₀).lt_blocks hsignBlock
  refine .bind (safe_setCondBr hf₁₀ ((h₁₉.trans h₁₀).lt_blocks hhead) hmiddle hsignBlock)
    fun _ f₁₁ hf₁₁ h₁₁ _ => ?_
  exact safe_choose hf₁₁ ((h₁.trans (h₁₉.trans (h₁₀.trans h₁₁))).lt_insts hid.lt)
    ((h₁₀.trans h₁₁).knowsValue hbyValue) (h₁₁.lt_blocks hmiddle)
    ((h₆₁₀.trans h₁₁).knowsValue hbySign) (h₁₁.lt_blocks hsignBlock) (by simp [Ty.i1])

theorem safe_emitHigh (l : Label) {b : BlockId} (hb : b.index < f.blocks.size) (width : Nat)
    {value : Value} (hvalue : m.knowsValue f value = true) (n : String) :
    Safe m (emitHigh l b width value n) f fun value g => m.knowsValue g value = true := by
  refine .bind (safe_emitValue hf l hb (.binary hvalue rfl _) _)
    fun shifted f₁ hf₁ h₁ hshifted => ?_
  exact safe_emitValue hf₁ l (h₁.lt_blocks hb) (.cast hshifted _ _) _

theorem safe_emitLow (l : Label) {b : BlockId} (hb : b.index < f.blocks.size) (width : Nat)
    {value : Value} (hvalue : m.knowsValue f value = true) (n : String) :
    Safe m (emitLow l b width value n) f fun value g => m.knowsValue g value = true :=
  safe_emitValue hf l hb (.cast hvalue _ _) _

theorem safe_compareLow (l : Label) (name : String) (width : Nat) {pred : Predicate}
    (hpred : pred.isSigned = false) {lhs rhs : Value} (hl : m.knowsValue f lhs = true)
    (hr : m.knowsValue f rhs = true) {join : BlockId} (hjoin : join.index < f.blocks.size) :
    Safe m (compareLow l name width pred lhs rhs join) f fun low g =>
      low.1.index < g.blocks.size ∧ m.knowsValue g (.inst low.2) = true := by
  refine .bind (safe_blockBefore hf l name join) fun b f₁ hf₁ h₁ hb => ?_
  refine .bind (safe_emitLow hf₁ l hb width (h₁.knowsValue hl) _) fun low0 f₂ hf₂ h₂ hlow0 => ?_
  refine .bind (safe_emitLow hf₂ l (h₂.lt_blocks hb) width ((h₁.trans h₂).knowsValue hr) _)
    fun low1 f₃ hf₃ h₃ hlow1 => ?_
  refine .bind (safe_emit hf₃ l ((h₂.trans h₃).lt_blocks hb)
    (.unsigned (h₃.knowsValue hlow0) hlow1 hpred) _) fun low f₄ hf₄ h₄ hlow => ?_
  have h₁₄ : f₁.Onward f₄ := h₂.trans (h₃.trans h₄)
  refine .bind (safe_setBr hf₄ (h₁₄.lt_blocks hb) ((h₁.trans h₁₄).lt_blocks hjoin))
    fun _ f₅ hf₅ h₅ _ => ?_
  exact safe_pure hf₅ ⟨(h₁₄.trans h₅).lt_blocks hb, h₅.knowsValue hlow⟩

section

variable (l : Label) (width : Nat) {pred : Predicate} (hpred : pred.isSigned = false)
  {lhs rhs : Value} (hl : m.knowsValue f lhs = true) (hr : m.knowsValue f rhs = true)
  {head join : BlockId} (hhead : head.index < f.blocks.size) (hjoin : join.index < f.blocks.size)
  (hid : id.index < f.insts.size) {high : InstId} (hhigh : high.index < f.insts.size)
include hpred hl hr hhead hjoin hid hhigh

theorem safe_halveEquality :
    Safe m (halveEquality l width id pred lhs rhs head join high) f fun _ _ => True := by
  refine .bind (safe_compareLow hf l _ width hpred hl hr hjoin) ?_
  rintro ⟨lowBlock, low⟩ f₁ hf₁ h₁ ⟨hlowBlock, hlow⟩
  have hlow' : low.index < f₁.insts.size := of_decide_eq_true hlow
  have hrest : ∀ f₂, f₂.Sturdy m → f₁.Onward f₂ → Safe m (do
      replaceKind id (.phi .i1 [(.inst low, lowBlock), (.ofBool (pred == .ne), head)])
      setAnnotations fun a => a.moveOrigin id high .comparedInteger
      markSplit high
      markSplit low) f₂ fun _ _ => True := by
    intro f₂ hf₂ h₂
    have h₀₂ : f.Onward f₂ := h₁.trans h₂
    refine .bind (safe_choose hf₂ (h₀₂.lt_insts hid) (h₂.knowsValue hlow) (h₂.lt_blocks hlowBlock)
      rfl (h₀₂.lt_blocks hhead) (by simp [Ty.i1])) fun _ f₃ hf₃ h₃ _ => ?_
    refine .bind (safe_setAnnotations hf₃ _) fun _ f₄ hf₄ h₄ _ => ?_
    have h₂₄ : f₂.Onward f₄ := h₃.trans h₄
    refine .bind (safe_markSplit hf₄ ((h₀₂.trans h₂₄).lt_insts hhigh)) fun _ f₅ hf₅ h₅ _ => ?_
    exact safe_markSplit hf₅ ((h₂.trans (h₂₄.trans h₅)).lt_insts hlow')
  dsimp only
  split
  · exact .bind (safe_setCondBr hf₁ (h₁.lt_blocks hhead) hlowBlock (h₁.lt_blocks hjoin))
      fun _ f₂ hf₂ h₂ _ => hrest f₂ hf₂ h₂
  · exact .bind (safe_setCondBr hf₁ (h₁.lt_blocks hhead) (h₁.lt_blocks hjoin) hlowBlock)
      fun _ f₂ hf₂ h₂ _ => hrest f₂ hf₂ h₂

omit hhigh in
theorem safe_halveOrder {high0 high1 : Value} (hhigh0 : m.knowsValue f high0 = true)
    (hhigh1 : m.knowsValue f high1 = true) :
    Safe m (halveOrder l width id pred lhs rhs head join high high0 high1) f fun _ _ => True := by
  have hconverse : pred.converse.isSigned = false := by cases pred <;> rfl
  refine .bind (safe_blockBefore hf l _ join) fun inverseBlock f₁ hf₁ h₁ hinverseBlock => ?_
  refine .bind (safe_emitValue hf₁ l hinverseBlock
    (.unsigned (h₁.knowsValue hhigh0) (h₁.knowsValue hhigh1) hconverse) _)
    fun inverse f₂ hf₂ h₂ hinverse => ?_
  have h₀₂ : f.Onward f₂ := h₁.trans h₂
  refine .bind (safe_setCondBr hf₂ (h₀₂.lt_blocks hhead) (h₀₂.lt_blocks hjoin)
    (h₂.lt_blocks hinverseBlock)) fun _ f₃ hf₃ h₃ _ => ?_
  have h₀₃ : f.Onward f₃ := h₀₂.trans h₃
  refine .bind (safe_compareLow hf₃ l _ width hpred (h₀₃.knowsValue hl) (h₀₃.knowsValue hr)
    (h₀₃.lt_blocks hjoin)) ?_
  rintro ⟨lowBlock, low⟩ f₄ hf₄ h₄ ⟨hlowBlock, hlow⟩
  have h₀₄ : f.Onward f₄ := h₀₃.trans h₄
  have hinverseBlock : inverseBlock.index < f₄.blocks.size :=
    (h₂.trans (h₃.trans h₄)).lt_blocks hinverseBlock
  refine .bind (safe_setCondBr hf₄ hinverseBlock (h₀₄.lt_blocks hjoin) hlowBlock)
    fun _ f₅ hf₅ h₅ _ => ?_
  have h₀₅ : f.Onward f₅ := h₀₄.trans h₅
  refine safe_replaceKind hf₅ (h₀₅.lt_insts hid) ?_ (by simp [Ty.i1])
  exact List.forall_mem_cons.mpr ⟨⟨h₅.knowsValue hlow, h₅.lt_blocks hlowBlock⟩,
    List.forall_mem_cons.mpr ⟨⟨rfl, h₀₅.lt_blocks hhead⟩,
      List.forall_mem_singleton.mpr ⟨rfl, h₅.lt_blocks hinverseBlock⟩⟩⟩

end

theorem safe_halve (width : Nat) (hid : f.Held id) {pred : Predicate}
    (hpred : pred.isSigned = false) {lhs rhs : Value}
    (hl : m.knowsValue f lhs = true) (hr : m.knowsValue f rhs = true) :
    Safe m (halve width id pred lhs rhs) f fun _ _ => True := by
  refine safe_labelFor_bind hf _ hid.lt fun l => ?_
  refine .bind (safe_splitAt hf l hid _) ?_
  rintro halves f₁ hf₁ h₁ ⟨-, hhalves⟩
  cases halves with
  | none => exact safe_pure hf₁ trivial
  | some halves =>
  obtain ⟨head, join⟩ := halves
  obtain ⟨hhead, hjoin⟩ := hhalves head join rfl
  refine .bind (safe_emitHigh hf₁ l hhead width (h₁.knowsValue hl) _)
    fun high0 f₂ hf₂ h₂ hhigh0 => ?_
  refine .bind (safe_emitHigh hf₂ l (h₂.lt_blocks hhead) width ((h₁.trans h₂).knowsValue hr) _)
    fun high1 f₃ hf₃ h₃ hhigh1 => ?_
  refine .bind (safe_emit hf₃ l ((h₂.trans h₃).lt_blocks hhead)
    (.unsigned (h₃.knowsValue hhigh0) hhigh1 hpred) _) fun high f₄ hf₄ h₄ hhigh => ?_
  have hhigh : high.index < f₄.insts.size := of_decide_eq_true hhigh
  have h₁₄ : f₁.Onward f₄ := h₂.trans (h₃.trans h₄)
  have h₀₄ : f.Onward f₄ := h₁.trans h₁₄
  split
  · exact safe_halveEquality hf₄ l width hpred (h₀₄.knowsValue hl) (h₀₄.knowsValue hr)
      (h₁₄.lt_blocks hhead) (h₁₄.lt_blocks hjoin) (h₀₄.lt_insts hid.lt) hhigh
  · exact safe_halveOrder hf₄ l width hpred (h₀₄.knowsValue hl) (h₀₄.knowsValue hr)
      (h₁₄.lt_blocks hhead) (h₁₄.lt_blocks hjoin) (h₀₄.lt_insts hid.lt)
      ((h₃.trans h₄).knowsValue hhigh0) (h₄.knowsValue hhigh1)

/-! ## Selections -/

theorem safe_splitThrice (l : Label) (hid : f.Held id) :
    Safe m (splitThrice l id) f fun blocks g => f.Steady g ∧ ∀ onTrue onFalse join,
      blocks = some (onTrue, onFalse, join) → onTrue.index < g.blocks.size ∧
        onFalse.index < g.blocks.size ∧ join.index < g.blocks.size := by
  refine .bind (safe_splitAt hf l hid _) ?_
  rintro first f₁ hf₁ h₁ ⟨hsteady₁, hfirst⟩
  cases first with
  | none => exact safe_pure hf₁ ⟨hsteady₁, by simp⟩
  | some first =>
  obtain ⟨parent, onTrue⟩ := first
  obtain ⟨-, htrue⟩ := hfirst parent onTrue rfl
  refine .bind (safe_splitAt hf₁ l (h₁.held hid) _) ?_
  rintro second f₂ hf₂ h₂ ⟨hsteady₂, hsecond⟩
  cases second with
  | none => exact safe_pure hf₂ ⟨hsteady₁.trans hsteady₂, by simp⟩
  | some second =>
  obtain ⟨_, onFalse⟩ := second
  obtain ⟨-, hfalse⟩ := hsecond _ onFalse rfl
  refine .bind (safe_splitAt hf₂ l ((h₁.trans h₂).held hid) _) ?_
  rintro third f₃ hf₃ h₃ ⟨hsteady₃, hthird⟩
  have hsteady := (hsteady₁.trans hsteady₂).trans hsteady₃
  cases third with
  | none => exact safe_pure hf₃ ⟨hsteady, by simp⟩
  | some third =>
  obtain ⟨_, join⟩ := third
  obtain ⟨-, hjoin⟩ := hthird _ join rfl
  refine safe_pure hf₃ ⟨hsteady, fun _ _ _ heq => ?_⟩
  obtain ⟨rfl, rfl, rfl⟩ : onTrue = _ ∧ onFalse = _ ∧ join = _ := by simpa using heq
  exact ⟨(h₂.trans h₃).lt_blocks htrue, h₃.lt_blocks hfalse, hjoin⟩

theorem safe_lowerSelect (count : Nat) (hid : f.Held id) :
    Safe m (lowerSelect count id) f fun _ _ => True := by
  obtain ⟨kind, hkind, -⟩ := hid.kind
  refine safe_kind_bind hf hkind ?_
  cases kind with
  | select cond ifTrue ifFalse =>
    obtain ⟨ty, hty⟩ := hf.exists_valueType hid.knows
    obtain ⟨place, hplace, hlt⟩ := hid.owned.exists_position? hid.lt
    have htrue : m.knowsValue f ifTrue = true := hf.knowsValue hkind (by simp [InstKind.operands])
    have hfalse : m.knowsValue f ifFalse = true := hf.knowsValue hkind (by simp [InstKind.operands])
    refine safe_query_bind hf hty (safe_query_bind hf hplace ?_)
    cases place with
    | none => exact safe_pure hf trivial
    | some place =>
    obtain ⟨parent, pos⟩ := place
    have hparent := hlt parent pos rfl
    obtain ⟨blk, hblk⟩ := Function.exists_block hparent
    refine safe_query_bind hf hblk (safe_labelFor_bind hf _ hid.lt fun l => ?_)
    refine .bind (safe_splitThrice hf l hid) ?_
    rintro blocks f₁ hf₁ h₁ ⟨hsteady, hblocks⟩
    cases blocks with
    | none => exact safe_pure hf₁ trivial
    | some blocks =>
    obtain ⟨onTrue, onFalse, join⟩ := blocks
    obtain ⟨hontrue, honfalse, hjoin⟩ := hblocks onTrue onFalse join rfl
    refine .bind (safe_setCondBr hf₁ (h₁.lt_blocks hparent) hontrue honfalse)
      fun _ f₂ hf₂ h₂ hsteady₂ => ?_
    refine .bind (safe_setBr hf₂ (h₂.lt_blocks hontrue) (h₂.lt_blocks hjoin))
      fun _ f₃ hf₃ h₃ hsteady₃ => ?_
    have h₁₃ : f₁.Onward f₃ := h₂.trans h₃
    have h₀₃ : f.Onward f₃ := h₁.trans h₁₃
    refine .bind (safe_choose hf₃ (h₀₃.lt_insts hid.lt) (h₀₃.knowsValue htrue)
      (h₁₃.lt_blocks hontrue) (h₀₃.knowsValue hfalse) (h₁₃.lt_blocks honfalse) fun _ => ?_)
      fun _ f₄ hf₄ _ _ => safe_pure hf₄ trivial
    -- The phi takes the type that the selection had before its block was split.
    exact ((hsteady.trans hsteady₂).trans hsteady₃).hasType ⟨f.insts.size, hty⟩
  | _ => exact safe_pure hf trivial

end Edit

end EdgeProbe

/-! ## Comparisons of strings -/

namespace EdgeProbe

open Checked

/-- The pointer on a side, if there is one, stands for something. -/
def Side.Known (m : Module) (f : Function) (side : Side) : Prop :=
  ∀ ptr, side = .pointer ptr → m.knowsValue f ptr = true

/-- The call of a site is in the arena, and so is what it reads. -/
structure StringSite.Known (m : Module) (f : Function) (site : StringSite) : Prop where
  held : f.Held site.call
  left : site.lhs.Known m f
  right : site.rhs.Known m f

variable {m : Module} {f f' : Function}

theorem Function.Onward.side (h : f.Onward f') {side : Side} (hside : side.Known m f) :
    side.Known m f' :=
  fun ptr heq => h.knowsValue (hside ptr heq)

theorem Function.Onward.site (h : f.Onward f') {site : StringSite} (hsite : site.Known m f) :
    site.Known m f' :=
  ⟨h.held hsite.held, h.side hsite.left, h.side hsite.right⟩

/-! ## Inspections -/

namespace Function.Sturdy

variable (hf : f.Sturdy m) (limits : Limits) {call : InstId} (hcall : f.Held call)
include hf hcall

theorem inspectLength_yields (name : String) (family : CompareFamily) (foldCase : Bool)
    (lhs rhs : Side) (len : Nat) (keyword : Option (List UInt8)) :
    Yields (Module.inspectLength f limits call name family foldCase lhs rhs len keyword)
      fun _ => True := by
  unfold Module.inspectLength
  split
  · exact yields_pure trivial
  · split
    · exact (hf.provenance_yields hcall).bind fun _ _ => yields_pure trivial
    · exact yields_pure trivial

theorem inspectConstant_yields (name : String) (family : CompareFamily) (foldCase : Bool)
    (lhs rhs : Side) (data : List UInt8) (limit : Option Nat) :
    Yields (Module.inspectConstant f limits call name family foldCase lhs rhs data limit)
      fun _ => True := by
  unfold Module.inspectConstant
  split
  · exact hf.inspectLength_yields limits hcall ..
  · dsimp only
    split
    · exact (hf.provenance_yields hcall).bind fun _ _ => yields_pure trivial
    · exact hf.inspectLength_yields limits hcall ..

theorem inspectCall_yields (name : String) (family : CompareFamily) (foldCase : Bool)
    {first second : Value} (hfirst : m.knowsValue f first = true)
    (hsecond : m.knowsValue f second = true) (limit : Option Nat) :
    Yields (m.inspectCall f limits call name family foldCase first second limit)
      fun _ => True := by
  obtain ⟨left?, hleft⟩ := hf.exists_constantBytes? hfirst
  obtain ⟨right?, hright⟩ := hf.exists_constantBytes? hsecond
  refine .after hleft (.after hright ?_)
  cases left? with
  | none =>
    cases right? with
    | none =>
      cases limit with
      | none => exact yields_pure trivial
      | some len => exact hf.inspectLength_yields limits hcall ..
    | some data => exact hf.inspectConstant_yields limits hcall ..
  | some data =>
    cases right? with
    | none => exact hf.inspectConstant_yields limits hcall ..
    | some _ => exact (hf.provenance_yields hcall).bind fun _ _ => yields_pure trivial

theorem inspect_yields : Yields (m.inspect f limits call) fun _ => True := by
  obtain ⟨kind, hkind, -⟩ := hcall.kind
  refine .after hkind ?_
  split
  case h_2 => exact yields_pure trivial
  next target args ret =>
  obtain ⟨g, hg⟩ := hf.exists_callee hkind
  have hargs : ∀ arg ∈ args, m.knowsValue f arg = true := fun arg harg => hf.knowsValue hkind harg
  have hbytes : ∀ a b : Value, m.knowsValue f a = true → m.knowsValue f b = true → Yields (do
      let _ ← m.constantBytes? f a
      let _ ← m.constantBytes? f b
      return Inspection.nothing : Checked Inspection) fun _ => True := by
    intro a b ha hb
    obtain ⟨left?, hleft⟩ := hf.exists_constantBytes? ha
    obtain ⟨right?, hright⟩ := hf.exists_constantBytes? hb
    exact .after hleft (.after hright (yields_pure trivial))
  refine .after hg ?_
  split
  · exact yields_pure trivial
  split
  · exact yields_pure trivial
  split
  · exact yields_pure trivial
  split
  · exact hf.inspectCall_yields limits hcall _ _ _ (hargs _ (by simp)) (hargs _ (by simp)) _
  · split
    · exact hf.inspectCall_yields limits hcall _ _ _ (hargs _ (by simp)) (hargs _ (by simp)) _
    · exact hbytes _ _ (hargs _ (by simp)) (hargs _ (by simp))
  · split
    · exact hf.inspectCall_yields limits hcall _ _ _ (hargs _ (by simp)) (hargs _ (by simp)) _
    · exact hbytes _ _ (hargs _ (by simp)) (hargs _ (by simp))
  · exact yields_pure trivial

omit hcall in
theorem inspections_yields : Yields (m.inspections f limits) fun found =>
    ∀ site, .site site ∈ found → site.Known m f ∧
      ∃ call, m.inspect f limits call = .ok (.site site) := by
  refine hf.liveInsts.bind fun ids hids => ?_
  refine (Yields.mapM (q := fun found => ∀ site, found = .site site → site.Known m f ∧
    ∃ call, m.inspect f limits call = .ok (.site site))
    fun call hcall => ?_).imp fun found hfound site hsite => hfound _ hsite site rfl
  obtain ⟨found, hfound, -⟩ := hf.inspect_yields limits (hids call hcall)
  refine ⟨found, hfound, ?_⟩
  rintro site rfl
  obtain ⟨rfl, target, g, args, ret, first, second, limit, hsite⟩ := Module.inspect_eq_site hfound
  have hargs : ∀ arg ∈ args, m.knowsValue f arg = true :=
    fun arg harg => hf.knowsValue hsite.kind harg
  have hoperands : m.knowsValue f first = true ∧ m.knowsValue f second = true := by
    cases hsite.operands with
    | unbounded => exact ⟨hargs _ (by simp), hargs _ (by simp)⟩
    | bounded => exact ⟨hargs _ (by simp), hargs _ (by simp)⟩
  refine ⟨⟨hids _ hcall, fun ptr heq => ?_, fun ptr heq => ?_⟩, _, hfound⟩
  · cases hsite.decided with
    | neither _ _ _ hleft => exact Side.pointer.inj (hleft.symm.trans heq) ▸ hoperands.1
    | left _ _ hleft => cases hleft.symm.trans heq
    | right _ _ hleft => exact Side.pointer.inj (hleft.symm.trans heq) ▸ hoperands.1
  · cases hsite.decided with
    | neither _ _ _ _ hright => exact Side.pointer.inj (hright.symm.trans heq) ▸ hoperands.2
    | left _ _ _ hright => exact Side.pointer.inj (hright.symm.trans heq) ▸ hoperands.2
    | right _ _ _ hright => cases hright.symm.trans heq

end Function.Sturdy

/-! ## Chains -/

namespace Edit

variable (hf : f.Sturdy m)
include hf

theorem safe_takeStrings {users : List InstId} (husers : ∀ user ∈ users, f.Held user)
    (found : Option Token) : Safe m (takeStrings found users) f fun _ _ => True := by
  induction users generalizing f found with
  | nil => exact safe_pure hf trivial
  | cons user rest ih =>
    obtain ⟨huser, hrest⟩ := List.forall_mem_cons.mp husers
    obtain ⟨kind, hkind, -⟩ := huser.kind
    have htake : Safe m (do
        let taken := ((← get).annotations.take user Token.isString).1
        setAnnotations fun a => (a.take user Token.isString).2
        takeStrings (found.or taken.head?) rest) f fun _ _ => True := by
      refine safe_get_bind hf (.bind (safe_setAnnotations hf _) fun _ f₁ hf₁ h₁ _ => ?_)
      exact ih hf₁ (fun user huser => h₁.held (hrest user huser)) _
    refine safe_kind_bind hf hkind ?_
    split
    · exact htake
    · exact htake
    · exact ih hf hrest _

variable (l : Label) {b : BlockId} (hb : b.index < f.blocks.size)
include hb

theorem safe_emitLower {c : Value} (hc : m.knowsValue f c = true) :
    Safe m (emitLower l b c) f fun value g => m.knowsValue g value = true := by
  refine .bind (safe_emitValue hf l hb (.binary hc rfl _) _) fun offset f₁ hf₁ h₁ hoffset => ?_
  refine .bind (safe_emitValue hf₁ l (h₁.lt_blocks hb) (.unsigned hoffset rfl rfl) _)
    fun isUpper f₂ hf₂ h₂ hisUpper => ?_
  have h₀₂ : f.Onward f₂ := h₁.trans h₂
  refine .bind (safe_emitValue hf₂ l (h₀₂.lt_blocks hb) (.binary (h₀₂.knowsValue hc) rfl _) _)
    fun lowered f₃ hf₃ h₃ hlowered => ?_
  have h₀₃ : f.Onward f₃ := h₀₂.trans h₃
  exact safe_emitValue hf₃ l (h₀₃.lt_blocks hb)
    (.select hlowered (h₀₃.knowsValue hc) (h₃.knowsValue hisUpper)) _

theorem safe_emitByte {side : Side} (hside : side.Known m f) (index : Nat) (foldCase : Bool) :
    Safe m (emitByte l b side index foldCase) f fun value g => m.knowsValue g value = true := by
  cases side with
  | bytes data => exact safe_pure hf rfl
  | pointer ptr =>
    have hptr := hside ptr rfl
    refine .bind (safe_emitValue hf l hb (.gep hptr rfl) _) fun addr f₁ hf₁ h₁ haddr => ?_
    refine .bind (safe_emitValue hf₁ l (h₁.lt_blocks hb) (.load haddr _) _)
      fun byte f₂ hf₂ h₂ hbyte => ?_
    have h₀₂ : f.Onward f₂ := h₁.trans h₂
    refine .bind (safe_emitValue hf₂ l (h₀₂.lt_blocks hb) (.cast hbyte _ _) _)
      fun wide f₃ hf₃ h₃ hwide => ?_
    split
    · exact safe_emitLower hf₃ l ((h₀₂.trans h₃).lt_blocks hb) hwide
    · exact safe_pure hf₃ hwide

theorem safe_emitDifference {site : StringSite} (hsite : site.Known m f) (limits : Limits)
    (token : Option Token) (index : Nat) :
    Safe m (emitDifference l site limits token b index) f fun values g =>
      m.knowsValue g values.1 = true ∧ m.knowsValue g values.2 = true := by
  refine .bind (safe_emitByte hf l hb hsite.left index _) fun lhs f₁ hf₁ h₁ hlhs => ?_
  refine .bind (safe_emitByte hf₁ l (h₁.lt_blocks hb) (h₁.side hsite.right) index _)
    fun rhs f₂ hf₂ h₂ hrhs => ?_
  have hlhs : m.knowsValue f₂ lhs = true := h₂.knowsValue hlhs
  refine .bind (safe_emit hf₂ l ((h₁.trans h₂).lt_blocks hb) (.binary hlhs hrhs _) _)
    fun difference f₃ hf₃ h₃ hdifference => ?_
  cases token with
  | none => exact safe_pure hf₃ ⟨h₃.knowsValue hlhs, hdifference⟩
  | some token =>
    refine .bind (safe_attach hf₃ difference token limits) fun _ f₄ hf₄ h₄ _ => ?_
    exact safe_pure hf₄ ⟨(h₃.trans h₄).knowsValue hlhs, h₄.knowsValue hdifference⟩

theorem safe_emitContinue (site : StringSite) {lhs difference : Value}
    (hlhs : m.knowsValue f lhs = true) (hdifference : m.knowsValue f difference = true) :
    Safe m (emitContinue l site b lhs difference) f fun _ _ => True := by
  refine .bind (safe_emitValue hf l hb (.unsigned hdifference rfl rfl) _)
    fun same f₁ hf₁ h₁ hsame => ?_
  split
  · refine .bind (safe_emitValue hf₁ l (h₁.lt_blocks hb)
      (.unsigned (h₁.knowsValue hlhs) rfl rfl) _) fun notNul f₂ hf₂ h₂ hnotNul => ?_
    exact (safe_emitValue hf₂ l ((h₁.trans h₂).lt_blocks hb)
      (.binary (h₂.knowsValue hsame) hnotNul _) _).some
  · exact safe_pure hf₁ trivial

/-- A chain yields known differences in blocks of the arena. -/
theorem safe_emitChain {site : StringSite} (hsite : site.Known m f) (limits : Limits)
    {join : BlockId} (hjoin : join.index < f.blocks.size) (left : Nat) (token : Option Token)
    (index : Nat) : Safe m (emitChain l site limits join left token b index) f fun incoming g =>
      ∀ entry ∈ incoming, m.knowsValue g entry.1 = true ∧ entry.2.index < g.blocks.size := by
  induction left generalizing f token b index with
  | zero =>
    refine .bind (safe_emitDifference hf l hb hsite limits token index) ?_
    rintro ⟨_, difference⟩ f₁ hf₁ h₁ ⟨-, hdifference⟩
    refine .bind (safe_setBr hf₁ (h₁.lt_blocks hb) (h₁.lt_blocks hjoin)) fun _ f₂ hf₂ h₂ _ => ?_
    exact safe_pure hf₂ (List.forall_mem_singleton.mpr
      ⟨h₂.knowsValue hdifference, (h₁.trans h₂).lt_blocks hb⟩)
  | succ left ih =>
    refine .bind (safe_emitDifference hf l hb hsite limits token index) ?_
    rintro ⟨lhs, difference⟩ f₁ hf₁ h₁ ⟨hlhs, hdifference⟩
    refine .bind (safe_blockBefore hf₁ l _ join) fun next f₂ hf₂ h₂ hnext => ?_
    refine .bind (safe_emitContinue hf₂ l (h₂.lt_blocks (h₁.lt_blocks hb)) site
      (h₂.knowsValue hlhs) (h₂.knowsValue hdifference)) fun goOn f₃ hf₃ h₃ _ => ?_
    have h₁₃ : f₁.Onward f₃ := h₂.trans h₃
    have h₀₃ : f.Onward f₃ := h₁.trans h₁₃
    refine .bind (safe_setCondBr hf₃ (h₀₃.lt_blocks hb) (h₃.lt_blocks hnext) (h₀₃.lt_blocks hjoin))
      fun _ f₄ hf₄ h₄ _ => ?_
    have h₀₄ : f.Onward f₄ := h₀₃.trans h₄
    refine .bind (ih hf₄ ((h₃.trans h₄).lt_blocks hnext) (h₀₄.site hsite) (h₀₄.lt_blocks hjoin)
      none (index + 1)) fun rest f₅ hf₅ h₅ hrest => ?_
    refine safe_pure hf₅ (List.forall_mem_cons.mpr ⟨⟨?_, (h₀₄.trans h₅).lt_blocks hb⟩, hrest⟩)
    exact (h₁₃.trans (h₄.trans h₅)).knowsValue hdifference

omit hb l in
theorem safe_reserveEntries {count : Nat} (hroom : count * entrySize < addressBound) :
    Safe m (reserveEntries count) f fun _ g => g = f :=
  Course.Safe.imp (safe_query hf (if_pos hroom)) fun _ _ _ _ h => h.2

omit hb l in
theorem safe_unroll {site : StringSite} (hsite : site.Known m f)
    (hroom : site.len * entrySize < addressBound) (limits : Limits) :
    Safe m (unroll site limits) f fun _ _ => True := by
  obtain ⟨users, hasked, husers⟩ := hf.instUsers_yields site.call
  refine safe_query_bind hf hasked ?_
  refine .bind (safe_takeStrings hf husers none) fun token f₁ hf₁ h₁ _ => ?_
  have hsite₁ := h₁.site hsite
  refine safe_labelFor_bind hf₁ _ hsite₁.held.lt fun l => ?_
  refine .bind (safe_splitAt hf₁ l hsite₁.held _) ?_
  rintro halves f₂ hf₂ h₂ ⟨-, hhalves⟩
  cases halves with
  | none => exact safe_pure hf₂ trivial
  | some halves =>
  obtain ⟨head, join⟩ := halves
  obtain ⟨hhead, hjoin⟩ := hhalves head join rfl
  refine .bind (safe_blockBefore hf₂ l _ join) fun first f₃ hf₃ h₃ hfirst => ?_
  refine .bind (safe_setBr hf₃ (h₃.lt_blocks hhead) hfirst) fun _ f₄ hf₄ h₄ _ => ?_
  have h₁₄ : f₁.Onward f₄ := h₂.trans (h₃.trans h₄)
  refine .bind (safe_reserveEntries hf₄ hroom) ?_
  rintro _ _ - - rfl
  refine .bind (safe_emitChain hf₄ l (h₄.lt_blocks hfirst) (h₁₄.site hsite₁) limits
    ((h₃.trans h₄).lt_blocks hjoin) _ token 0) fun incoming f₅ hf₅ h₅ hincoming => ?_
  exact safe_replaceKind hf₅ (h₅.lt_insts (h₁₄.lt_insts hsite₁.held.lt)) hincoming (by simp [Ty.i32])

end Edit

end EdgeProbe
