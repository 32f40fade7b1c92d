import EdgeProbe.Proofs.Code.Body
import EdgeProbe.Proofs.Lowering.Chain
import EdgeProbe.Proofs.Word.Compare

/-!
# Halved comparisons

What a function looks like once an equality or an unsigned order has been made one of the upper
halves and, where they do not decide, one of the lower halves, and why that is the same comparison.
-/

namespace EdgeProbe

/-- What both kinds of halved comparisons have: the instructions of the head, which compare the
upper halves, and the block of the lower halves. -/
structure HalfCode where
  low : BlockId
  shifted0 : InstId
  high0 : InstId
  shifted1 : InstId
  high1 : InstId
  high : InstId
  low0 : InstId
  low1 : InstId
  lower : InstId

namespace HalfCode

/-- The amount by which the upper half is shifted. -/
def shift (width : Nat) : Value :=
  .ofWord width (UInt64.ofNat (width / 2))

variable (code : HalfCode) (c : Cut) (join : BlockId) (pred : Predicate) (lhs rhs : Value)
  (width : Nat)

def head (term : Terminator) : Part where
  block := c.head
  old := c.before
  insts := [(code.shifted0, .binary .lshr lhs (shift width)),
    (code.high0, .cast .trunc (.inst code.shifted0) (width / 2)),
    (code.shifted1, .binary .lshr rhs (shift width)),
    (code.high1, .cast .trunc (.inst code.shifted1) (width / 2)),
    (code.high, .icmp pred (.inst code.high0) (.inst code.high1))]
  term := term

def lowPart : Part where
  block := code.low
  insts := [(code.low0, .cast .trunc lhs (width / 2)), (code.low1, .cast .trunc rhs (width / 2)),
    (code.lower, .icmp pred (.inst code.low0) (.inst code.low1))]
  term := .br join

/-- Where an equality goes once the upper halves have been compared. -/
def decideEquality : Terminator :=
  if pred == .eq then .condBr (.inst code.high) code.low join
  else .condBr (.inst code.high) join code.low

def equalityParts : List Part :=
  [code.head c pred lhs rhs width (code.decideEquality join pred),
    code.lowPart join pred lhs rhs width]

def equalityEntries : List (Value × BlockId) :=
  [(.inst code.lower, code.low), (.ofBool (pred == .ne), c.head)]

/-- The part that finds out whether the upper halves decide against an order. -/
def inversePart (block : BlockId) (inverse : InstId) : Part where
  block := block
  insts := [(inverse, .icmp pred.converse (.inst code.high0) (.inst code.high1))]
  term := .condBr (.inst inverse) join code.low

def orderParts (block : BlockId) (inverse : InstId) : List Part :=
  [code.head c pred lhs rhs width (.condBr (.inst code.high) join block),
    code.inversePart join pred block inverse, code.lowPart join pred lhs rhs width]

def orderEntries (block : BlockId) : List (Value × BlockId) :=
  [(.inst code.lower, code.low), (.ofBool true, c.head), (.ofBool false, block)]

/-- The instructions are new and come one after another. -/
structure Ordered (size size' : Nat) : Prop where
  shifted0 : size ≤ code.shifted0.index
  high0 : code.shifted0.index < code.high0.index
  shifted1 : code.high0.index < code.shifted1.index
  high1 : code.shifted1.index < code.high1.index
  high : code.high1.index < code.high.index
  low0 : code.high.index < code.low0.index
  low1 : code.low0.index < code.low1.index
  lower : code.low1.index < code.lower.index
  last : code.lower.index < size'

end HalfCode

/-- Changes of the code leave tokens alone. -/
theorem Function.ofCode_annotations :
    OfCode fun f f' : Function => f'.annotations = f.annotations where
  code := SameRest.annotations
  trans h h' := h'.trans h

namespace Edit

section

variable {related : Function → Function → Prop} (hcode : Function.OfCode related)
include hcode

theorem keeps_emitHigh (l : Label) (block : BlockId) (width : Nat) (value : Value) (n : String) :
    (emitHigh l block width value n).Keeps related :=
  .bind hcode (keeps_emitValue hcode _ _ _ _) fun _ => keeps_emitValue hcode _ _ _ _

theorem keeps_compareLow (l : Label) (name : String) (width : Nat) (pred : Predicate)
    (lhs rhs : Value) (join : BlockId) :
    (compareLow l name width pred lhs rhs join).Keeps related := by
  refine .bind hcode (keeps_addBlockBefore hcode _ _) fun block => ?_
  refine .bind hcode (keeps_emitValue hcode _ _ _ _) fun low0 => ?_
  refine .bind hcode (keeps_emitValue hcode _ _ _ _) fun low1 => ?_
  refine .bind hcode (keeps_pushInst hcode _ _ _ _) fun low => ?_
  exact .bind hcode (keeps_setTerminator hcode _ _) fun _ => keeps_pure hcode _

theorem keeps_halveOrder (l : Label) (width : Nat) (id : InstId) (pred : Predicate)
    (lhs rhs : Value) (head join : BlockId) (high : InstId) (high0 high1 : Value) :
    (halveOrder l width id pred lhs rhs head join high high0 high1).Keeps related := by
  refine .bind hcode (keeps_addBlockBefore hcode _ _) fun inverseBlock => ?_
  refine .bind hcode (keeps_emitValue hcode _ _ _ _) fun inverse => ?_
  refine .bind hcode (keeps_setTerminator hcode _ _) fun _ => ?_
  refine .bind hcode (keeps_compareLow hcode _ _ _ _ _ _ _) fun low => ?_
  refine .bind hcode (keeps_setTerminator hcode _ _) fun _ => ?_
  exact keeps_replaceKind hcode _ _

end

variable {f f' : Function} {id : InstId} {b : BlockId} {pos : Nat} {pred : Predicate}
  {lhs rhs : Value} {width : Nat}

/-- The block of the lower halves is one more part. -/
theorem compareLow_does {f₁ f₂ : Function} {c : Cut} {join : BlockId} {parts : List Part}
    {now : InstKind} {l : Label} {name : String} {r : BlockId × InstId}
    (h : Opened f c join parts now f₁) (hf : f.Closed) (hc : c.Of f)
    (hdoes : (compareLow l name width pred lhs rhs join).Does f₁ r f₂) :
    ∃ block low0 low1 lower, r = (block, lower) ∧ block ∉ parts.map Part.block ∧
      low0.index = f₁.insts.size ∧ low1.index = low0.index + 1 ∧ lower.index = low1.index + 1 ∧
      f₂.insts.size = lower.index + 1 ∧
      Opened f c join (parts ++ [⟨block, [], [(low0, .cast .trunc lhs (width / 2)),
        (low1, .cast .trunc rhs (width / 2)), (lower, .icmp pred (.inst low0) (.inst low1))],
        .br join⟩]) now f₂ := by
  rw [compareLow, does_bind] at hdoes
  obtain ⟨block, f₃, hblock, hdoes⟩ := hdoes
  obtain ⟨hopened, hsize₃, hfresh⟩ := blockBefore_does h hf hblock
  rw [does_bind] at hdoes
  obtain ⟨v0, f₄, hemit, hdoes⟩ := hdoes
  obtain ⟨low0, rfl, hopened, hlow0, hsize₄⟩ := emitValue_does hopened hc (by simp) hemit
  rw [does_bind] at hdoes
  obtain ⟨v1, f₅, hemit, hdoes⟩ := hdoes
  obtain ⟨low1, rfl, hopened, hlow1, hsize₅⟩ := emitValue_does hopened hc (by simp) hemit
  rw [does_bind] at hdoes
  obtain ⟨lower, f₆, hemit, hdoes⟩ := hdoes
  obtain ⟨hopened, hlower, hsize₆⟩ := emit_does hopened hc (by simp) hemit
  rw [does_bind] at hdoes
  obtain ⟨_, f₇, hterm, hdoes⟩ := hdoes
  obtain ⟨hopened, hsize₇⟩ := setTerminator_does hopened hc (by simp) hterm
  obtain ⟨rfl, rfl⟩ := does_pure.mp hdoes
  refine ⟨block, low0, low1, lower, rfl, hfresh, by omega, by omega, by omega, by omega, ?_⟩
  simpa [Part.emit_append_new hfresh, Part.close_append_new hfresh] using hopened

/-- Any halving compares the upper halves in front of the cut first. -/
theorem halve_does (hf : f.Tidy) (hid : f.Listed id b pos)
    (hkind : f.kind id = .ok (.icmp pred lhs rhs)) {u : Unit}
    (h : (halve width id pred lhs rhs).Does f u f') :
    ∃ l c join shifted0 high0 shifted1 high1 high f₁, c.Of f ∧ c.site = id ∧
      shifted0.index = f.insts.size ∧ high0.index = shifted0.index + 1 ∧
      shifted1.index = high0.index + 1 ∧ high1.index = shifted1.index + 1 ∧
      high.index = high1.index + 1 ∧ f₁.insts.size = high.index + 1 ∧
      Opened f c join [⟨c.head, c.before,
        [(shifted0, .binary .lshr lhs (HalfCode.shift width)),
          (high0, .cast .trunc (.inst shifted0) (width / 2)),
          (shifted1, .binary .lshr rhs (HalfCode.shift width)),
          (high1, .cast .trunc (.inst shifted1) (width / 2)),
          (high, .icmp pred (.inst high0) (.inst high1))], .br join⟩] (.icmp pred lhs rhs) f₁ ∧
      f₁.annotations = f.annotations ∧
      (if pred.isEquality then halveEquality l width id pred lhs rhs c.head join high
        else halveOrder l width id pred lhs rhs c.head join high (.inst high0)
          (.inst high1)).Does f₁ u f' := by
  rw [halve, does_bind] at h
  obtain ⟨l, f₁, hl, h⟩ := h
  obtain rfl := labelFor_does hl
  rw [does_bind] at h
  obtain ⟨r, f₂, hsplit, h⟩ := h
  obtain ⟨c, join, rfl, rfl, hc, hopened, hsize⟩ := splitAt_does hf hid hkind rfl hsplit
  simp only [] at h
  rw [does_bind] at h
  obtain ⟨v0, f₃, hemit₀, h⟩ := h
  obtain ⟨shifted0, high0, rfl, hshifted0, hhigh0, hsize₃, hopened⟩ :=
    emitBits_does hopened hc (by simp) hemit₀
  rw [does_bind] at h
  obtain ⟨v1, f₄, hemit₁, h⟩ := h
  obtain ⟨shifted1, high1, rfl, hshifted1, hhigh1, hsize₄, hopened⟩ :=
    emitBits_does hopened hc (by simp) hemit₁
  rw [does_bind] at h
  obtain ⟨high, f₅, hemit, h⟩ := h
  obtain ⟨hopened, hhigh, hsize₅⟩ := emit_does hopened hc (by simp) hemit
  have htokens : f₅.annotations = f₁.annotations := by
    have hcode := Function.ofCode_annotations
    rw [keeps_pushInst hcode _ _ _ _ _ _ _ hemit, keeps_emitHigh hcode _ _ _ _ _ _ _ _ hemit₁,
      keeps_emitHigh hcode _ _ _ _ _ _ _ _ hemit₀, keeps_splitAt hcode _ _ _ _ _ _ hsplit]
  refine ⟨l, c, join, shifted0, high0, shifted1, high1, high, f₅, hc, rfl, by omega, by omega,
    by omega, by omega, by omega, by omega, ?_, htokens, h⟩
  simpa [Part.emit, HalfCode.shift] using hopened

theorem halve_opened_equality (hf : f.Tidy) (hid : f.Listed id b pos)
    (hkind : f.kind id = .ok (.icmp pred lhs rhs)) (hpred : pred.isEquality = true) {u : Unit}
    (h : (halve width id pred lhs rhs).Does f u f') :
    ∃ c join, ∃ code : HalfCode, c.Of f ∧ c.site = id ∧ code.low ≠ c.head ∧
      code.Ordered f.insts.size f'.insts.size ∧
      Opened f c join (code.equalityParts c join pred lhs rhs width)
        (.phi .i1 (code.equalityEntries c pred)) f' ∧
      f'.annotations = f.annotations.moveOrigin id code.high .comparedInteger := by
  obtain ⟨l, c, join, shifted0, high0, shifted1, high1, high, f₁, hc, rfl, h0, h1, h2, h3, h4, h5,
    hopened, hsame, h⟩ := halve_does hf hid hkind h
  rw [if_pos hpred, halveEquality, does_bind] at h
  obtain ⟨r, f₂, hlow, h⟩ := h
  obtain ⟨block, low0, low1, lower, rfl, hfresh, h6, h7, h8, h9, hopened⟩ :=
    compareLow_does hopened hf.closed hc hlow
  have hne : block ≠ c.head := by simpa using hfresh
  have hend : (do
      setTerminator c.head (if pred == Predicate.eq then .condBr (.inst high) block join
        else .condBr (.inst high) join block)
      replaceKind c.site (.phi .i1 [(.inst lower, block), (.ofBool (pred == Predicate.ne), c.head)])
      setAnnotations fun a => a.moveOrigin c.site high .comparedInteger
      markSplit high
      markSplit lower).Does f₂ u f' := by
    cases heq : pred == Predicate.eq <;> simpa [heq] using h
  rw [does_bind] at hend
  obtain ⟨_, f₃, hterm, h⟩ := hend
  obtain ⟨hopened, hsize₃⟩ := setTerminator_does hopened hc (by simp) hterm
  rw [does_bind] at h
  obtain ⟨_, f₄, hreplace, h⟩ := h
  obtain ⟨hopened, hsize₄⟩ := replaceKind_does hopened hkind rfl hreplace
  rw [does_bind] at h
  obtain ⟨_, f₅, hmove, h⟩ := h
  have htokens : ∀ i, (f₄.annotations.moveOrigin c.site high .comparedInteger).get i ≠ [] →
      f₄.annotations.get i ≠ [] ∨ i.index < f₄.insts.size :=
    fun i hi => (Annotations.get_moveOrigin hi).imp_right fun heq => by rw [heq]; omega
  obtain ⟨hopened, hsize₅⟩ := setAnnotations_does hopened htokens hmove
  rw [does_bind] at h
  obtain ⟨_, f₆, hmark, h⟩ := h
  obtain ⟨hopened, hsize₆⟩ := markSplit_does hopened (by omega) hmark
  obtain ⟨hopened, hsize₇⟩ := markSplit_does hopened (by omega) h
  have hmoved : f'.annotations = f.annotations.moveOrigin c.site high .comparedInteger := by
    have hcode := Function.ofCode_annotations
    have hbefore : f₄.annotations = f.annotations := by
      rw [keeps_replaceKind hcode _ _ _ _ _ hreplace, keeps_setTerminator hcode _ _ _ _ _ hterm,
        keeps_compareLow hcode _ _ _ _ _ _ _ _ _ _ hlow, hsame]
    have hafter : f'.annotations = f₅.annotations := by
      rw [keeps_markSplit hcode _ _ _ _ h, keeps_markSplit hcode _ _ _ _ hmark]
    obtain rfl := does_setAnnotations.mp hmove
    rw [hafter, hbefore]
  refine ⟨c, join, ⟨block, shifted0, high0, shifted1, high1, high, low0, low1, lower⟩, hc, rfl, hne,
    ?_, ?_, hmoved⟩
  · constructor <;> dsimp only <;> omega
  simpa [HalfCode.equalityParts, HalfCode.head, HalfCode.lowPart, HalfCode.decideEquality,
    HalfCode.equalityEntries, Part.close, hne, hne.symm] using hopened

theorem halve_opened_order (hf : f.Tidy) (hid : f.Listed id b pos)
    (hkind : f.kind id = .ok (.icmp pred lhs rhs)) (hpred : pred.isEquality = false) {u : Unit}
    (h : (halve width id pred lhs rhs).Does f u f') :
    ∃ c join block inverse, ∃ code : HalfCode, c.Of f ∧ c.site = id ∧ code.low ≠ c.head ∧
      block ≠ c.head ∧ block ≠ code.low ∧ code.high.index < inverse.index ∧
      inverse.index < code.low0.index ∧ code.Ordered f.insts.size f'.insts.size ∧
      Opened f c join (code.orderParts c join pred lhs rhs width block inverse)
        (.phi .i1 (code.orderEntries c block)) f' ∧ f'.annotations = f.annotations := by
  obtain ⟨l, c, join, shifted0, high0, shifted1, high1, high, f₁, hc, rfl, h0, h1, h2, h3, h4, h5,
    hopened, hsame, h⟩ := halve_does hf hid hkind h
  rw [if_neg (by simp [hpred])] at h
  have hkept : f'.annotations = f.annotations :=
    (keeps_halveOrder Function.ofCode_annotations _ _ _ _ _ _ _ _ _ _ _ _ _ _ h).trans hsame
  rw [halveOrder, does_bind] at h
  obtain ⟨block, f₂, hblock, h⟩ := h
  obtain ⟨hopened, hsize₂, hfresh⟩ := blockBefore_does hopened hf.closed hblock
  have hneHead : block ≠ c.head := by simpa using hfresh
  rw [does_bind] at h
  obtain ⟨v, f₃, hemit, h⟩ := h
  obtain ⟨inverse, rfl, hopened, hinverse, hsize₃⟩ := emitValue_does hopened hc (by simp) hemit
  rw [does_bind] at h
  obtain ⟨_, f₄, hterm, h⟩ := h
  obtain ⟨hopened, hsize₄⟩ := setTerminator_does hopened hc (by simp) hterm
  rw [does_bind] at h
  obtain ⟨r, f₅, hlow, h⟩ := h
  obtain ⟨low, low0, low1, lower, rfl, hfresh', h6, h7, h8, h9, hopened⟩ :=
    compareLow_does hopened hf.closed hc hlow
  obtain ⟨hneLow, hneBlock⟩ : low ≠ c.head ∧ low ≠ block := by simpa using hfresh'
  simp only [] at h
  rw [does_bind] at h
  obtain ⟨_, f₆, hterm, h⟩ := h
  obtain ⟨hopened, hsize₆⟩ := setTerminator_does hopened hc (by simp) hterm
  obtain ⟨hopened, hsize₇⟩ := replaceKind_does hopened hkind rfl h
  refine ⟨c, join, block, inverse,
    ⟨low, shifted0, high0, shifted1, high1, high, low0, low1, lower⟩, hc, rfl, hneLow, hneHead,
    hneBlock.symm, by dsimp only; omega, by dsimp only; omega, ?_, ?_, hkept⟩
  · constructor <;> dsimp only <;> omega
  simpa [HalfCode.orderParts, HalfCode.head, HalfCode.lowPart, HalfCode.inversePart,
    HalfCode.orderEntries, Part.emit, Part.close, hneHead, hneHead.symm, hneLow, hneLow.symm,
    hneBlock, hneBlock.symm] using hopened

end Edit

namespace HalfCode

variable {f f' : Function} {c : Cut} {join block : BlockId} {code : HalfCode} {inverse : InstId}
  {pred : Predicate} {lhs rhs : Value} {width : Nat}

theorem patched_equality (h : Opened f c join (code.equalityParts c join pred lhs rhs width)
      (.phi .i1 (code.equalityEntries c pred)) f') (hc : c.Of f) (hlow : code.low ≠ c.head)
    (hnew : code.Ordered f.insts.size f'.insts.size) (hlhs : lhs.Below f.insts.size)
    (hrhs : rhs.Below f.insts.size) :
    Patched f c join (code.equalityParts c join pred lhs rhs width) .i1
      (code.equalityEntries c pred) f' := by
  have hlhs' := hlhs.mono h.sizeInsts
  have hrhs' := hrhs.mono h.sizeInsts
  obtain ⟨h0, h1, h2, h3, h4, h5, h6, h7, h8⟩ := hnew
  have hlt : code.shifted0.index < f'.insts.size ∧ code.high0.index < f'.insts.size ∧
      code.shifted1.index < f'.insts.size ∧ code.high1.index < f'.insts.size ∧
      code.high.index < f'.insts.size ∧ code.low0.index < f'.insts.size ∧
      code.low1.index < f'.insts.size :=
    ⟨by omega, by omega, by omega, by omega, by omega, by omega, by omega⟩
  have hjoin : ∀ p ∈ code.equalityParts c join pred lhs rhs width, join ≠ p.block :=
    fun p hp => (h.block_ne_join hc hp).symm
  simp only [equalityParts, List.forall_mem_cons] at hjoin
  obtain ⟨hjoin, hjoin', -⟩ := hjoin
  rw [head] at hjoin
  rw [lowPart] at hjoin'
  refine ⟨h, ?_, ?_, ?_, ?_, ?_, ?_, ?_⟩ <;> cases heq : pred == Predicate.eq <;>
    simp [-Prod.forall, equalityParts, head, lowPart, equalityEntries, decideEquality, heq, shift,
      Value.ofWord, Value.ofBool, Constant.ofBool, Constant.ofWord, InstKind.isPhi,
      InstKind.operands, Terminator.successors, Terminator.operands, hlhs', hrhs', hlow, hlt, h8,
      hjoin, hjoin']

theorem patched_order (h : Opened f c join (code.orderParts c join pred lhs rhs width block inverse)
      (.phi .i1 (code.orderEntries c block)) f') (hc : c.Of f) (hlow : code.low ≠ c.head)
    (hblock : block ≠ c.head) (hinverse : inverse.index < code.low0.index)
    (hnew : code.Ordered f.insts.size f'.insts.size) (hlhs : lhs.Below f.insts.size)
    (hrhs : rhs.Below f.insts.size) :
    Patched f c join (code.orderParts c join pred lhs rhs width block inverse) .i1
      (code.orderEntries c block) f' := by
  have hlhs' := hlhs.mono h.sizeInsts
  have hrhs' := hrhs.mono h.sizeInsts
  obtain ⟨h0, h1, h2, h3, h4, h5, h6, h7, h8⟩ := hnew
  have hlt : code.shifted0.index < f'.insts.size ∧ code.high0.index < f'.insts.size ∧
      code.shifted1.index < f'.insts.size ∧ code.high1.index < f'.insts.size ∧
      code.high.index < f'.insts.size ∧ code.low0.index < f'.insts.size ∧
      code.low1.index < f'.insts.size ∧ inverse.index < f'.insts.size :=
    ⟨by omega, by omega, by omega, by omega, by omega, by omega, by omega, by omega⟩
  have hjoin : ∀ p ∈ code.orderParts c join pred lhs rhs width block inverse, join ≠ p.block :=
    fun p hp => (h.block_ne_join hc hp).symm
  simp only [orderParts, List.forall_mem_cons] at hjoin
  obtain ⟨hjoin, hjoin', hjoin'', -⟩ := hjoin
  rw [head] at hjoin
  rw [inversePart] at hjoin'
  rw [lowPart] at hjoin''
  refine ⟨h, ?_, ?_, ?_, ?_, ?_, ?_, ?_⟩ <;>
    simp [-Prod.forall, orderParts, head, inversePart, lowPart, orderEntries, shift, Value.ofWord,
      Value.ofBool, Constant.ofBool, Constant.ofWord, InstKind.isPhi, InstKind.operands,
      Terminator.successors, Terminator.operands, hlhs', hrhs', hlow, hlow.symm, hblock,
      hblock.symm, hlt, h8, hjoin, hjoin', hjoin'']

/-- The kinds of the instructions. -/
structure Reads (code : HalfCode) (f' : Function) (pred : Predicate) (lhs rhs : Value)
    (width : Nat) : Prop where
  shifted0 : f'.kind code.shifted0 = .ok (.binary .lshr lhs (shift width))
  high0 : f'.kind code.high0 = .ok (.cast .trunc (.inst code.shifted0) (width / 2))
  shifted1 : f'.kind code.shifted1 = .ok (.binary .lshr rhs (shift width))
  high1 : f'.kind code.high1 = .ok (.cast .trunc (.inst code.shifted1) (width / 2))
  high : f'.kind code.high = .ok (.icmp pred (.inst code.high0) (.inst code.high1))
  low0 : f'.kind code.low0 = .ok (.cast .trunc lhs (width / 2))
  low1 : f'.kind code.low1 = .ok (.cast .trunc rhs (width / 2))
  lower : f'.kind code.lower = .ok (.icmp pred (.inst code.low0) (.inst code.low1))

theorem Reads.of_parts {parts : List Part} {entries : List (Value × BlockId)} {ty : Ty}
    {term : Terminator} (h : Patched f c join parts ty entries f')
    (hhead : code.head c pred lhs rhs width term ∈ parts)
    (hlow : code.lowPart join pred lhs rhs width ∈ parts) : code.Reads f' pred lhs rhs width := by
  have hmem : ∀ p ∈ parts, ∀ entry ∈ p.insts, f'.kind entry.1 = .ok entry.2 :=
    fun p hp entry => h.kind_of_mem hp
  have hfirst := hmem _ hhead
  have hsecond := hmem _ hlow
  simp only [head, lowPart, List.mem_cons, List.not_mem_nil, or_false, forall_eq_or_imp,
    forall_eq] at hfirst hsecond
  obtain ⟨h0, h1, h2, h3, h4⟩ := hfirst
  obtain ⟨h5, h6, h7⟩ := hsecond
  exact ⟨h0, h1, h2, h3, h4, h5, h6, h7⟩

/-- What is known of the code when it is run. -/
structure Runs (code : HalfCode) (f f' : Function) (pred : Predicate) (lhs rhs : Value)
    (width : Nat) : Prop where
  reads : code.Reads f' pred lhs rhs width
  ordered : code.Ordered f.insts.size f'.insts.size
  leftBelow : lhs.Below f.insts.size
  rightBelow : rhs.Below f.insts.size
  left : f'.intWidth? lhs = .ok (some width)
  right : f'.intWidth? rhs = .ok (some width)
  width0 : f'.intWidth? (.inst code.shifted0) = .ok (some width)
  width1 : f'.intWidth? (.inst code.shifted1) = .ok (some width)

section

variable (h : code.Runs f f' pred lhs rhs width) {w : World} {g : Guard} {id : FuncId}
  {args : List UInt64} {s : Store} {frame : Frame} {x y : UInt64}
include h

/-- The head finds the upper halves and compares them. -/
theorem Runs.computes_high {term : Terminator} (hx : w.eval ⟨f', args⟩ frame lhs = pure x)
    (hy : w.eval ⟨f', args⟩ frame rhs = pure y) :
    ∃ frame', w.Leads g id ⟨f', args⟩ s
        ⟨c.head, term, (code.head c pred lhs rhs width term).insts.map (·.1)⟩ frame
        ⟨c.head, term, []⟩ frame' ∧ Agree f.insts.size frame frame' ∧
      w.eval ⟨f', args⟩ frame' (.inst code.high0) = pure (upperHalf width x) ∧
      w.eval ⟨f', args⟩ frame' (.inst code.high1) = pure (upperHalf width y) ∧
      w.eval ⟨f', args⟩ frame' (.inst code.high) =
        pure (if pred.evaluate (width / 2) (upperHalf width x) (upperHalf width y) then 1 else 0) := by
  obtain ⟨h0, h1, h2, h3, h4, -, -, -⟩ := h.ordered
  obtain ⟨frame₁, hlead₁, hagree₁, (hhigh₁ : _ = pure (upperHalf width x))⟩ :=
    World.computes_bits h.reads.shifted0 h.reads.high0 h.width0 h1 hx
  have hy₁ := (World.eval_of_agree hagree₁ (h.rightBelow.mono h0)).trans hy
  obtain ⟨frame₂, hlead₂, hagree₂, (hhigh₂ : _ = pure (upperHalf width y))⟩ :=
    World.computes_bits h.reads.shifted1 h.reads.high1 h.width1 h3 hy₁
  have hhigh₁' := (World.eval_of_agree hagree₂ (by simpa using h2)).trans hhigh₁
  have hwidth : f'.intWidth? (.inst code.high0) = .ok (some (width / 2)) :=
    Function.intWidth?_of_fixedType? h.reads.high0 rfl
  obtain ⟨frame₃, hlead₃, hagree₃, hvalue⟩ :=
    World.computes_icmp h.reads.high hwidth hhigh₁' hhigh₂
  refine ⟨frame₃, hlead₁.trans (hlead₂.trans hlead₃), ?_, ?_, ?_, hvalue⟩
  · exact ((hagree₁.mono h0).trans (hagree₂.mono (by omega))).trans (hagree₃.mono (by omega))
  · exact (World.eval_of_agree hagree₃ (by simp; omega)).trans hhigh₁'
  · exact (World.eval_of_agree hagree₃ (by simpa using h4)).trans hhigh₂

/-- The part of the lower halves finds and compares them. -/
theorem Runs.computes_lower (hx : w.eval ⟨f', args⟩ frame lhs = pure x)
    (hy : w.eval ⟨f', args⟩ frame rhs = pure y) :
    w.Computes g id ⟨f', args⟩ s
      ⟨code.low, .br join, (code.lowPart join pred lhs rhs width).insts.map (·.1)⟩ frame
      ⟨code.low, .br join, []⟩ f.insts.size code.lower
      (if pred.evaluate (width / 2) (lowerHalf width x) (lowerHalf width y) then 1 else 0) := by
  obtain ⟨h0, h1, h2, h3, h4, h5, h6, h7, -⟩ := h.ordered
  obtain ⟨frame₁, hlead₁, hagree₁, (hlow₁ : _ = pure (lowerHalf width x))⟩ :=
    World.computes_trunc h.reads.low0 h.left hx
  have hy₁ := (World.eval_of_agree hagree₁ (h.rightBelow.mono (by omega))).trans hy
  obtain ⟨frame₂, hlead₂, hagree₂, (hlow₂ : _ = pure (lowerHalf width y))⟩ :=
    World.computes_trunc h.reads.low1 h.right hy₁
  have hlow₁' := (World.eval_of_agree hagree₂ (by simpa using h6)).trans hlow₁
  have hwidth : f'.intWidth? (.inst code.low0) = .ok (some (width / 2)) :=
    Function.intWidth?_of_fixedType? h.reads.low0 rfl
  obtain ⟨frame₃, hlead₃, hagree₃, hvalue⟩ :=
    World.computes_icmp h.reads.lower hwidth hlow₁' hlow₂
  refine ⟨frame₃, hlead₁.trans (hlead₂.trans hlead₃), ?_, hvalue⟩
  exact ((hagree₁.mono (by omega)).trans (hagree₂.mono (by omega))).trans (hagree₃.mono (by omega))

end

theorem Runs.of_compares {parts : List Part} {entries : List (Value × BlockId)} {term : Terminator}
    (h : Patched f c join parts .i1 entries f') (hf : f.Tidy) (hc : c.Of f)
    (hsite : f.Compares c.site pred lhs rhs width)
    (hnew : code.Ordered f.insts.size f'.insts.size)
    (hhead : code.head c pred lhs rhs width term ∈ parts)
    (hlow : code.lowPart join pred lhs rhs width ∈ parts) :
    code.Runs f f' pred lhs rhs width := by
  obtain ⟨hlhs, hrhs⟩ := hsite.below hf hc.listed_site
  have htypes := h.typesKept hsite.kind rfl
  have hreads : code.Reads f' pred lhs rhs width := .of_parts h hhead hlow
  have hsize : f.insts.size < f'.insts.size := by
    obtain ⟨h0, h1, h2, h3, h4, h5, h6, h7, h8⟩ := hnew
    omega
  exact ⟨hreads, hnew, hlhs, hrhs, htypes.intWidth? hsize.le hsite.left,
    htypes.intWidth? hsize.le hsite.right,
    htypes.intWidth?_of_typeOperand? hsize hreads.shifted0 rfl hsite.left,
    htypes.intWidth?_of_typeOperand? hsize hreads.shifted1 rfl hsite.right⟩

section

variable {parts : List Part} {entries : List (Value × BlockId)} {term : Terminator}
  (h : code.Runs f f' pred lhs rhs width) (hp : Patched f c join parts .i1 entries f')
  (hf : f.Tidy) (hc : c.Of f) (hsite : f.Compares c.site pred lhs rhs width)
include h hp hf hc hsite

/-- From the part of the lower halves their comparison becomes the result. -/
theorem Runs.arrives_lower (hlow : code.lowPart join pred lhs rhs width ∈ parts)
    (hne : code.low ≠ c.head)
    (hfound : (entries.find? fun entry => entry.2 == code.low) = some (.inst code.lower, code.low))
    {w : World} {g : Guard} {id : FuncId} {args : List UInt64} {s : Store} {frame frame₁ : Frame}
    {x y : UInt64} {block : BlockId} {term : Terminator} (hagree : Agree f.insts.size frame frame₁)
    (hx : w.eval ⟨f', args⟩ frame lhs = pure x) (hy : w.eval ⟨f', args⟩ frame rhs = pure y)
    (hjump : ∀ caller, w.runTerminator caller ⟨f', args⟩ frame₁ block term =
      pure (.jump ⟨frame₁, some block, code.low⟩)) :
    w.Arrives g id ⟨f', args⟩ s f.insts.size (frame.insert c.site
        (if pred.evaluate (width / 2) (lowerHalf width x) (lowerHalf width y) then 1 else 0))
      ⟨block, term, []⟩ frame₁ ⟨join, c.term, c.after⟩ := by
  have hx₁ := (World.eval_of_agree hagree h.leftBelow).trans hx
  have hy₁ := (World.eval_of_agree hagree h.rightBelow).trans hy
  refine .after (hp.leads_part hlow hne hjump) ?_
  obtain ⟨frame₂, hlead₂, hagree₂, hvalue⟩ := h.computes_lower hx₁ hy₁
  refine .after hlead₂ ?_
  exact hp.arrives_join hf hc hsite.kind rfl (hagree.trans hagree₂) (fun _ => World.jump_br join)
    hfound hvalue

/-- Whatever is made of the comparison of the upper halves, the head comes to it or is stopped like
the comparison was. -/
theorem Runs.simulated (hhead : code.head c pred lhs rhs width term ∈ parts)
    (hdecide : ∀ (w : World) g id args s frame frame₁ x y,
      w.eval ⟨f', args⟩ frame lhs = pure x → w.eval ⟨f', args⟩ frame rhs = pure y →
      Agree f.insts.size frame frame₁ →
      w.eval ⟨f', args⟩ frame₁ (.inst code.high0) = pure (upperHalf width x) →
      w.eval ⟨f', args⟩ frame₁ (.inst code.high1) = pure (upperHalf width y) →
      w.eval ⟨f', args⟩ frame₁ (.inst code.high) = pure
        (if pred.evaluate (width / 2) (upperHalf width x) (upperHalf width y) then 1 else 0) →
      w.Arrives g id ⟨f', args⟩ s f.insts.size
        (frame.insert c.site (if pred.evaluate width x y then 1 else 0)) ⟨c.head, term, []⟩ frame₁
        ⟨join, c.term, c.after⟩) :
    f.Simulated f' := by
  obtain ⟨h0, h1, -, -, -, -, -, -, -⟩ := h.ordered
  refine hp.simulated hf hc hsite hhead rfl ?_ ?_ ?_
  · intro w g id args frame s cause hx
    refine World.fails_step h.reads.shifted0 rfl fun caller => ?_
    rw [World.step_binary h.reads.shifted0 h.width0, hx]
    rfl
  · intro w g id args frame s x cause hx hy
    obtain ⟨frame₁, hlead₁, hagree₁, -⟩ :=
      World.computes_bits h.reads.shifted0 h.reads.high0 h.width0 h1 hx
    refine hlead₁.fails (World.fails_step h.reads.shifted1 rfl fun caller => ?_)
    rw [World.step_binary h.reads.shifted1 h.width1,
      World.eval_of_agree hagree₁ (h.rightBelow.mono h0), hy]
    rfl
  · intro w g id args frame s x y hx hy
    obtain ⟨frame₁, hlead₁, hagree₁, hhigh0, hhigh1, hhigh⟩ := h.computes_high hx hy
    exact .after hlead₁ (hdecide w g id args s frame frame₁ x y hx hy hagree₁ hhigh0 hhigh1 hhigh)

end

section

variable (hf : f.Tidy) (hc : c.Of f) (hsite : f.Compares c.site pred lhs rhs width)
  (hwidth : width = 2 * (width / 2)) (hpos : 0 < width) (hle : width ≤ 64)
  (hlow : code.low ≠ c.head) (hnew : code.Ordered f.insts.size f'.insts.size)
include hf hc hsite hwidth hpos hle hlow hnew

/-- An equality holds if both halves agree, and the lower ones are compared only if the upper ones
do. -/
theorem simulated_equality (h : Patched f c join (code.equalityParts c join pred lhs rhs width) .i1
      (code.equalityEntries c pred) f') (hpred : pred.isEquality = true) : f.Simulated f' := by
  have hlowMem : code.lowPart join pred lhs rhs width ∈
      code.equalityParts c join pred lhs rhs width := by simp [equalityParts]
  have hruns : code.Runs f f' pred lhs rhs width :=
    .of_compares h hf hc hsite hnew List.mem_cons_self hlowMem
  have hatLow : (code.equalityEntries c pred).find? (fun entry => entry.2 == code.low) =
      some (.inst code.lower, code.low) := by simp [equalityEntries]
  have hatHead : (code.equalityEntries c pred).find? (fun entry => entry.2 == c.head) =
      some (.ofBool (pred == .ne), c.head) := by simp [equalityEntries, hlow]
  refine hruns.simulated h hf hc hsite List.mem_cons_self ?_
  intro w g id args s frame frame₁ x y hx hy hagree hhigh0 hhigh1 hhigh
  have hhalves := Predicate.evaluate_eq_halves (x := x) (y := y) hwidth (by omega) hle
  cases pred with
  | eq =>
    rw [hhalves]
    cases heq : Predicate.eq.evaluate (width / 2) (upperHalf width x) (upperHalf width y) with
    | true =>
      rw [heq] at hhigh
      rw [Bool.true_and]
      exact hruns.arrives_lower h hf hc hsite hlowMem hlow hatLow hagree hx hy
        fun _ => World.jump_condBr hhigh
    | false =>
      rw [heq] at hhigh
      exact h.arrives_join hf hc hsite.kind rfl hagree (fun _ => World.jump_condBr hhigh) hatHead rfl
  | ne =>
    rw [Predicate.evaluate_ne, hhalves]
    rw [Predicate.evaluate_ne] at hhigh
    cases heq : Predicate.eq.evaluate (width / 2) (upperHalf width x) (upperHalf width y) with
    | true =>
      rw [heq] at hhigh
      rw [Bool.true_and, ← Predicate.evaluate_ne]
      exact hruns.arrives_lower h hf hc hsite hlowMem hlow hatLow hagree hx hy
        fun _ => World.jump_condBr hhigh
    | false =>
      rw [heq] at hhigh
      exact h.arrives_join hf hc hsite.kind rfl hagree (fun _ => World.jump_condBr hhigh) hatHead rfl
  | _ => cases hpred

/-- An order is that of the upper halves, and that of the lower ones where those agree. -/
theorem simulated_order {inverse : InstId} (h : Patched f c join
      (code.orderParts c join pred lhs rhs width block inverse) .i1 (code.orderEntries c block) f')
    (hpred : pred ∈ [.ugt, .ult]) (hblock : block ≠ c.head) (hne : block ≠ code.low)
    (hinverse : code.high.index < inverse.index) : f.Simulated f' := by
  have hlowMem : code.lowPart join pred lhs rhs width ∈
      code.orderParts c join pred lhs rhs width block inverse := by simp [orderParts]
  have hinverseMem : code.inversePart join pred block inverse ∈
      code.orderParts c join pred lhs rhs width block inverse := by simp [orderParts]
  have hruns : code.Runs f f' pred lhs rhs width :=
    .of_compares h hf hc hsite hnew List.mem_cons_self hlowMem
  have hkind : f'.kind inverse = .ok (.icmp pred.converse (.inst code.high0) (.inst code.high1)) :=
    h.kind_of_mem hinverseMem List.mem_cons_self
  have hhalf : f'.intWidth? (.inst code.high0) = .ok (some (width / 2)) :=
    Function.intWidth?_of_fixedType? hruns.reads.high0 rfl
  have hatLow : (code.orderEntries c block).find? (fun entry => entry.2 == code.low) =
      some (.inst code.lower, code.low) := by simp [orderEntries]
  have hatHead : (code.orderEntries c block).find? (fun entry => entry.2 == c.head) =
      some (.ofBool true, c.head) := by simp [orderEntries, hlow]
  have hatBlock : (code.orderEntries c block).find? (fun entry => entry.2 == block) =
      some (.ofBool false, block) := by simp [orderEntries, hne.symm, hblock.symm]
  refine hruns.simulated h hf hc hsite List.mem_cons_self ?_
  intro w g id args s frame frame₁ x y hx hy hagree hhigh0 hhigh1 hhigh
  obtain ⟨h0, h1, h2, h3, h4, -, -, -, -⟩ := hnew
  rw [Predicate.evaluate_halves hwidth (by omega) hle hpred]
  cases hupper : pred.evaluate (width / 2) (upperHalf width x) (upperHalf width y) with
  | true =>
    rw [hupper] at hhigh
    exact h.arrives_join hf hc hsite.kind rfl hagree (fun _ => World.jump_condBr hhigh) hatHead rfl
  | false =>
    rw [hupper] at hhigh
    refine .after (h.leads_part hinverseMem hblock fun _ => World.jump_condBr hhigh) ?_
    obtain ⟨frame₂, hlead₂, hagree₂, hvalue⟩ := World.computes_icmp hkind hhalf hhigh0 hhigh1
    refine .after hlead₂ ?_
    have hagree' := hagree.trans (hagree₂.mono (by omega))
    cases hconverse : pred.converse.evaluate (width / 2) (upperHalf width x) (upperHalf width y) with
    | true =>
      rw [hconverse] at hvalue
      exact h.arrives_join hf hc hsite.kind rfl hagree' (fun _ => World.jump_condBr hvalue) hatBlock
        rfl
    | false =>
      rw [hconverse] at hvalue
      exact hruns.arrives_lower h hf hc hsite hlowMem hlow hatLow hagree' hx hy
        fun _ => World.jump_condBr hvalue

end

end HalfCode

end EdgeProbe
