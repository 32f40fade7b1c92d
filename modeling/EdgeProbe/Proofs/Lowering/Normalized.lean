import EdgeProbe.Lowering.Compare
import EdgeProbe.Proofs.Lowering.Chain
import EdgeProbe.Proofs.Word.Compare

/-!
# Comparisons that are made strict and unsigned

What a function looks like once a comparison that allows equality has been made a strict one and an
equality, or a signed one has been made one of the signs and, where they agree, an unsigned one, and
why that is the same comparison.
-/

namespace EdgeProbe

/-! ## Comparisons that allow equality -/

/-- A strict comparison in front of the cut and, for when it fails, an equality. -/
def Cut.simplified (c : Cut) (join middle : BlockId) (strict equal : InstId) (pred : Predicate)
    (lhs rhs : Value) : List Part :=
  [⟨c.head, c.before, [(strict, .icmp pred.strict lhs rhs)], .condBr (.inst strict) join middle⟩,
    ⟨middle, [], [(equal, .icmp .eq lhs rhs)], .br join⟩]

namespace Edit

variable {f f' : Function} {id : InstId} {b : BlockId} {pos : Nat} {pred : Predicate}
  {lhs rhs : Value}

theorem simplify_opened (hf : f.Tidy) (hid : f.Listed id b pos)
    (hkind : f.kind id = .ok (.icmp pred lhs rhs)) {u : Unit} (h : (simplify id).Does f u f') :
    ∃ c join strict middle equal, c.Of f ∧ c.site = id ∧ middle ≠ c.head ∧
      f.insts.size ≤ strict.index ∧ strict.index < equal.index ∧ equal.index < f'.insts.size ∧
      Opened f c join (c.simplified join middle strict equal pred lhs rhs)
        (.phi .i1 [(.inst equal, middle), (.ofBool true, c.head)]) f' := by
  rw [simplify, does_bind] at h
  obtain ⟨k, f₀, hasked, h⟩ := h
  obtain ⟨hk, rfl⟩ := kind_does.mp hasked
  obtain rfl := Except.ok.inj (hkind.symm.trans hk)
  simp only [InstKind.comparison?] at h
  rw [does_bind] at h
  obtain ⟨l, f₁, hl, h⟩ := h
  obtain rfl := labelFor_does hl
  rw [does_bind] at h
  obtain ⟨r, f₂, hsplit, h⟩ := h
  obtain ⟨c, join, rfl, rfl, hc, hopened, hsize⟩ := splitAt_does hf hid hkind rfl hsplit
  rw [does_bind] at h
  obtain ⟨strict, f₃, hemit, h⟩ := h
  obtain ⟨strict, rfl, hopened, hstrict, hsize₃⟩ := emitValue_does hopened hc (by simp) hemit
  rw [does_bind] at h
  obtain ⟨middle, f₄, hblock, h⟩ := h
  obtain ⟨hopened, hsize₄, hmiddle⟩ := blockBefore_does hopened hf.closed hblock
  rw [does_bind] at h
  obtain ⟨equal, f₅, hemit, h⟩ := h
  obtain ⟨equal, rfl, hopened, hequal, hsize₅⟩ := emitValue_does hopened hc (by simp) hemit
  rw [does_bind] at h
  obtain ⟨_, f₆, hterm, h⟩ := h
  obtain ⟨hopened, hsize₆⟩ := setTerminator_does hopened hc (by simp) hterm
  rw [does_bind] at h
  obtain ⟨_, f₇, hterm, h⟩ := h
  obtain ⟨hopened, hsize₇⟩ := setTerminator_does hopened hc (by simp) hterm
  obtain ⟨hopened, hsize₈⟩ := replaceKind_does hopened hkind rfl h
  have hne : middle ≠ c.head := by simpa using hmiddle
  refine ⟨c, join, strict, middle, equal, hc, rfl, hne, by omega, by omega, by omega, ?_⟩
  simpa [Cut.simplified, Part.emit, Part.close, hne, hne.symm] using hopened

end Edit

section

variable {f f' : Function} {c : Cut} {join middle : BlockId} {strict equal : InstId}
  {pred : Predicate} {lhs rhs : Value} {width : Nat}

theorem Opened.patched_simplified (h : Opened f c join
      (c.simplified join middle strict equal pred lhs rhs)
      (.phi .i1 [(.inst equal, middle), (.ofBool true, c.head)]) f')
    (hne : middle ≠ c.head) (hstrict : strict.index < f'.insts.size)
    (hequal : equal.index < f'.insts.size) (hlhs : lhs.Below f.insts.size)
    (hrhs : rhs.Below f.insts.size) :
    Patched f c join (c.simplified join middle strict equal pred lhs rhs) .i1
      [(.inst equal, middle), (.ofBool true, c.head)] f' := by
  have hlhs' := hlhs.mono h.sizeInsts
  have hrhs' := hrhs.mono h.sizeInsts
  refine ⟨h, ?_, ?_, ?_, ?_, ?_, ?_, ?_⟩ <;>
    simp [Cut.simplified, InstKind.isPhi, InstKind.operands, Terminator.successors,
      Terminator.operands, Value.ofBool, hlhs', hrhs', hne, hstrict, hequal]

/-- The strict comparison and the equality come to what was asked. -/
theorem Patched.simulated_simplified
    (h : Patched f c join (c.simplified join middle strict equal pred lhs rhs) .i1
      [(.inst equal, middle), (.ofBool true, c.head)] f')
    (hf : f.Tidy) (hc : c.Of f) (hsite : f.Compares c.site pred lhs rhs width)
    (hpred : pred ∈ [.uge, .sge, .ule, .sle]) (hne : middle ≠ c.head)
    (hstrict : f.insts.size ≤ strict.index) (hequal : strict.index < equal.index) :
    f.Simulated f' := by
  obtain ⟨hleftBelow, hrightBelow⟩ := hsite.below hf hc.listed_site
  have hlhs : lhs.Below strict.index := hleftBelow.mono hstrict
  have hrhs : rhs.Below strict.index := hrightBelow.mono hstrict
  have hleft : f'.intWidth? lhs = .ok (some width) :=
    (h.typesKept hsite.kind rfl).intWidth? h.opened.sizeInsts hsite.left
  have hheadMem : (⟨c.head, c.before, [(strict, .icmp pred.strict lhs rhs)],
      .condBr (.inst strict) join middle⟩ : Part) ∈
      c.simplified join middle strict equal pred lhs rhs := List.mem_cons_self
  have hmiddleMem : (⟨middle, [], [(equal, .icmp .eq lhs rhs)], .br join⟩ : Part) ∈
      c.simplified join middle strict equal pred lhs rhs := by simp [Cut.simplified]
  have hkindStrict := h.kind_of_mem hheadMem List.mem_cons_self
  have hkindEqual := h.kind_of_mem hmiddleMem List.mem_cons_self
  refine h.simulated hf hc hsite hheadMem rfl ?_ ?_ ?_
  · intro w g id args frame s cause hx
    refine World.fails_step hkindStrict rfl fun caller => ?_
    rw [World.step_icmp hkindStrict hleft, hx]
    rfl
  · intro w g id args frame s x cause hx hy
    refine World.fails_step hkindStrict rfl fun caller => ?_
    rw [World.step_icmp hkindStrict hleft, hx, hy]
    rfl
  · intro w g id args frame s x y hx hy
    rw [Predicate.evaluate_strict hpred]
    obtain ⟨frame₁, hlead, hagree, hcond⟩ := World.computes_icmp hkindStrict hleft hx hy
    refine .after hlead ?_
    cases hp : pred.strict.evaluate width x y with
    | true =>
      rw [hp] at hcond
      have hfound : ([(Value.inst equal, middle), (.ofBool true, c.head)].find?
          fun entry => entry.2 == c.head) = some (.ofBool true, c.head) := by simp [hne]
      exact h.arrives_join hf hc hsite.kind rfl (hagree.mono hstrict)
        (fun _ => World.jump_condBr hcond) hfound rfl
    | false =>
      rw [hp] at hcond
      have hfound : ([(Value.inst equal, middle), (.ofBool true, c.head)].find?
          fun entry => entry.2 == middle) = some (.inst equal, middle) := by simp
      refine .after (h.leads_part hmiddleMem hne fun _ => World.jump_condBr hcond) ?_
      have hx₁ := (World.eval_of_agree hagree hlhs).trans hx
      have hy₁ := (World.eval_of_agree hagree hrhs).trans hy
      obtain ⟨frame₂, hlead₂, hagree₂, hequal₂⟩ := World.computes_icmp hkindEqual hleft hx₁ hy₁
      refine .after hlead₂ ?_
      exact h.arrives_join hf hc hsite.kind rfl
        ((hagree.mono hstrict).trans (hagree₂.mono (hstrict.trans hequal.le)))
        (fun _ => World.jump_br join) hfound hequal₂

end

/-! ## Signed comparisons -/

/-- What stands for a signed comparison: the new blocks and the instructions in them. -/
structure SignCode where
  signs : BlockId
  words : BlockId
  shifted0 : InstId
  sign0 : InstId
  shifted1 : InstId
  sign1 : InstId
  same : InstId
  bySign : InstId
  byWord : InstId

namespace SignCode

/-- The amount by which the sign bit is shifted. -/
def shift (width : Nat) : Value :=
  .ofWord width (UInt64.ofNat (width - 1))

variable (code : SignCode) (c : Cut) (join : BlockId) (pred : Predicate) (lhs rhs : Value)
  (width : Nat)

def head : Part where
  block := c.head
  old := c.before
  insts := [(code.shifted0, .binary .lshr lhs (shift width)),
    (code.sign0, .cast .trunc (.inst code.shifted0) 1),
    (code.shifted1, .binary .lshr rhs (shift width)),
    (code.sign1, .cast .trunc (.inst code.shifted1) 1),
    (code.same, .icmp .eq (.inst code.sign0) (.inst code.sign1))]
  term := .condBr (.inst code.same) code.words code.signs

def signPart : Part where
  block := code.signs
  insts := [(code.bySign, .icmp pred.ofSigns (.inst code.sign0) (.inst code.sign1))]
  term := .br join

def wordPart : Part where
  block := code.words
  insts := [(code.byWord, .icmp pred.unsigned lhs rhs)]
  term := .br join

def parts : List Part :=
  [code.head c lhs rhs width, code.signPart join pred, code.wordPart join pred lhs rhs]

def entries : List (Value × BlockId) :=
  [(.inst code.byWord, code.words), (.inst code.bySign, code.signs)]

/-- The instructions are new and come one after another. -/
structure Ordered (size size' : Nat) : Prop where
  shifted0 : size ≤ code.shifted0.index
  sign0 : code.shifted0.index < code.sign0.index
  shifted1 : code.sign0.index < code.shifted1.index
  sign1 : code.shifted1.index < code.sign1.index
  same : code.sign1.index < code.same.index
  bySign : code.same.index < code.bySign.index
  byWord : code.bySign.index < code.byWord.index
  last : code.byWord.index < size'

end SignCode

namespace Edit

variable {f f' : Function} {id : InstId} {b : BlockId} {pos : Nat} {pred : Predicate}
  {lhs rhs : Value} {width : Nat}

theorem normalizeSign_opened (hf : f.Tidy) (hid : f.Listed id b pos)
    (hkind : f.kind id = .ok (.icmp pred lhs rhs)) {u : Unit}
    (h : (normalizeSign width id).Does f u f') :
    0 < width ∧ ∃ c join, ∃ code : SignCode, c.Of f ∧ c.site = id ∧ code.signs ≠ c.head ∧
      code.words ≠ c.head ∧ code.signs ≠ code.words ∧ code.Ordered f.insts.size f'.insts.size ∧
      Opened f c join (code.parts c join pred lhs rhs width) (.phi .i1 code.entries) f' := by
  rw [normalizeSign, does_bind] at h
  obtain ⟨k, f₀, hasked, h⟩ := h
  obtain ⟨hk, rfl⟩ := kind_does.mp hasked
  obtain rfl := Except.ok.inj (hkind.symm.trans hk)
  simp only [InstKind.comparison?] at h
  rw [does_bind] at h
  obtain ⟨l, f₁, hl, h⟩ := h
  obtain rfl := labelFor_does hl
  rw [does_bind] at h
  obtain ⟨r, f₂, hsplit, h⟩ := h
  obtain ⟨c, join, rfl, rfl, hc, hopened, hsize⟩ := splitAt_does hf hid hkind rfl hsplit
  simp only [] at h
  split at h
  · rw [does_bind] at h
    obtain ⟨_, f₃, hthrow, -⟩ := h
    cases (does_query.mp hthrow).1
  next hwidth =>
  rw [does_bind] at h
  obtain ⟨v0, f₃, hemit, h⟩ := h
  obtain ⟨shifted0, sign0, rfl, hshifted0, hsign0, hsize₃, hopened⟩ :=
    emitBits_does hopened hc (by simp) hemit
  rw [does_bind] at h
  obtain ⟨v1, f₄, hemit, h⟩ := h
  obtain ⟨shifted1, sign1, rfl, hshifted1, hsign1, hsize₄, hopened⟩ :=
    emitBits_does hopened hc (by simp) hemit
  rw [does_bind] at h
  obtain ⟨v2, f₅, hemit, h⟩ := h
  obtain ⟨same, rfl, hopened, hsame, hsize₅⟩ := emitValue_does hopened hc (by simp) hemit
  rw [does_bind] at h
  obtain ⟨signs, f₆, hblock, h⟩ := h
  obtain ⟨hopened, hsize₆, hsigns⟩ := blockBefore_does hopened hf.closed hblock
  rw [does_bind] at h
  obtain ⟨v3, f₇, hemit, h⟩ := h
  obtain ⟨bySign, rfl, hopened, hbySign, hsize₇⟩ := emitValue_does hopened hc (by simp) hemit
  rw [does_bind] at h
  obtain ⟨_, f₈, hterm, h⟩ := h
  obtain ⟨hopened, hsize₈⟩ := setTerminator_does hopened hc (by simp) hterm
  rw [does_bind] at h
  obtain ⟨words, f₉, hblock, h⟩ := h
  obtain ⟨hopened, hsize₉, hwords⟩ := blockBefore_does hopened hf.closed hblock
  rw [does_bind] at h
  obtain ⟨v4, f₁₀, hemit, h⟩ := h
  obtain ⟨byWord, rfl, hopened, hbyWord, hsize₁₀⟩ := emitValue_does hopened hc (by simp) hemit
  rw [does_bind] at h
  obtain ⟨_, f₁₁, hterm, h⟩ := h
  obtain ⟨hopened, hsize₁₁⟩ := setTerminator_does hopened hc (by simp) hterm
  rw [does_bind] at h
  obtain ⟨_, f₁₂, hterm, h⟩ := h
  obtain ⟨hopened, hsize₁₂⟩ := setTerminator_does hopened hc (by simp) hterm
  obtain ⟨hopened, hsize₁₃⟩ := replaceKind_does hopened hkind rfl h
  have hne : signs ≠ c.head := by simpa using hsigns
  have hne' : words ≠ c.head ∧ words ≠ signs := by simpa using hwords
  refine ⟨Nat.pos_of_ne_zero hwidth, c, join,
    ⟨signs, words, shifted0, sign0, shifted1, sign1, same, bySign, byWord⟩, hc, rfl, hne, hne'.1,
    hne'.2.symm, ?_, ?_⟩
  · constructor <;> dsimp only <;> omega
  simpa [SignCode.parts, SignCode.head, SignCode.signPart, SignCode.wordPart, SignCode.entries,
    SignCode.shift, Part.emit, Part.close, hne, hne.symm, hne'.1, hne'.1.symm, hne'.2, hne'.2.symm]
    using hopened

end Edit

namespace SignCode

variable {f f' : Function} {c : Cut} {join : BlockId} {code : SignCode} {pred : Predicate}
  {lhs rhs : Value} {width : Nat}

theorem patched (h : Opened f c join (code.parts c join pred lhs rhs width)
      (.phi .i1 code.entries) f') (hc : c.Of f)
    (hsigns : code.signs ≠ c.head) (hwords : code.words ≠ c.head)
    (hnew : code.Ordered f.insts.size f'.insts.size) (hlhs : lhs.Below f.insts.size)
    (hrhs : rhs.Below f.insts.size) :
    Patched f c join (code.parts c join pred lhs rhs width) .i1 code.entries f' := by
  have hlhs' := hlhs.mono h.sizeInsts
  have hrhs' := hrhs.mono h.sizeInsts
  obtain ⟨h0, h1, h2, h3, h4, h5, h6, h7⟩ := hnew
  have hlt : code.shifted0.index < f'.insts.size ∧ code.sign0.index < f'.insts.size ∧
      code.shifted1.index < f'.insts.size ∧ code.sign1.index < f'.insts.size ∧
      code.same.index < f'.insts.size ∧ code.bySign.index < f'.insts.size :=
    ⟨by omega, by omega, by omega, by omega, by omega, by omega⟩
  have hjoin : ∀ p ∈ code.parts c join pred lhs rhs width, join ≠ p.block :=
    fun p hp => (h.block_ne_join hc hp).symm
  simp only [parts, List.forall_mem_cons] at hjoin
  obtain ⟨-, hjoin, hjoin', -⟩ := hjoin
  rw [signPart] at hjoin
  rw [wordPart] at hjoin'
  refine ⟨h, ?_, ?_, ?_, ?_, ?_, ?_, ?_⟩ <;>
    simp [-Prod.forall, parts, head, signPart, wordPart, entries, shift, Value.ofWord,
      InstKind.isPhi, InstKind.operands, Terminator.successors, Terminator.operands, hlhs', hrhs',
      hsigns, hwords, hlt, h7, hjoin, hjoin']

/-- The kinds and the widths of the instructions. -/
structure Reads (code : SignCode) (f' : Function) (pred : Predicate) (lhs rhs : Value)
    (width : Nat) : Prop where
  shifted0 : f'.kind code.shifted0 = .ok (.binary .lshr lhs (shift width))
  sign0 : f'.kind code.sign0 = .ok (.cast .trunc (.inst code.shifted0) 1)
  shifted1 : f'.kind code.shifted1 = .ok (.binary .lshr rhs (shift width))
  sign1 : f'.kind code.sign1 = .ok (.cast .trunc (.inst code.shifted1) 1)
  same : f'.kind code.same = .ok (.icmp .eq (.inst code.sign0) (.inst code.sign1))
  bySign : f'.kind code.bySign = .ok (.icmp pred.ofSigns (.inst code.sign0) (.inst code.sign1))
  byWord : f'.kind code.byWord = .ok (.icmp pred.unsigned lhs rhs)

theorem reads (h : Patched f c join (code.parts c join pred lhs rhs width) .i1 code.entries f') :
    code.Reads f' pred lhs rhs width := by
  have hmem : ∀ p ∈ code.parts c join pred lhs rhs width, ∀ entry ∈ p.insts,
      f'.kind entry.1 = .ok entry.2 := fun p hp entry => h.kind_of_mem hp
  simp only [parts, head, signPart, wordPart, List.mem_cons, List.not_mem_nil, or_false,
    forall_eq_or_imp, forall_eq] at hmem
  obtain ⟨⟨h0, h1, h2, h3, h4⟩, h5, h6⟩ := hmem
  exact ⟨h0, h1, h2, h3, h4, h5, h6⟩

/-- The comparison of the signs and the unsigned one come to what was asked. -/
theorem simulated (h : Patched f c join (code.parts c join pred lhs rhs width) .i1 code.entries f')
    (hf : f.Tidy) (hc : c.Of f) (hsite : f.Compares c.site pred lhs rhs width)
    (hpred : pred ∈ [.sgt, .slt]) (hpos : 0 < width) (hle : width ≤ 64)
    (hsigns : code.signs ≠ c.head) (hwords : code.words ≠ c.head)
    (hne : code.signs ≠ code.words) (hnew : code.Ordered f.insts.size f'.insts.size) :
    f.Simulated f' := by
  obtain ⟨k0, k1, k2, k3, k4, k5, k6⟩ := reads h
  obtain ⟨h0, h1, h2, h3, h4, h5, h6, h7⟩ := hnew
  obtain ⟨hlhs, hrhs⟩ := hsite.below hf hc.listed_site
  have htypes := h.typesKept hsite.kind rfl
  have hsize : f.insts.size < f'.insts.size := by omega
  have hleft : f'.intWidth? lhs = .ok (some width) := htypes.intWidth? hsize.le hsite.left
  have w0 : f'.intWidth? (.inst code.shifted0) = .ok (some width) :=
    htypes.intWidth?_of_typeOperand? hsize k0 rfl hsite.left
  have w2 : f'.intWidth? (.inst code.shifted1) = .ok (some width) :=
    htypes.intWidth?_of_typeOperand? hsize k2 rfl hsite.right
  have w1 : f'.intWidth? (.inst code.sign0) = .ok (some 1) :=
    Function.intWidth?_of_fixedType? k1 rfl
  refine h.simulated hf hc hsite List.mem_cons_self rfl ?_ ?_ ?_
  · intro w g id args frame s cause hx
    refine World.fails_step k0 rfl fun caller => ?_
    rw [World.step_binary k0 w0, hx]
    rfl
  · intro w g id args frame s x cause hx hy
    obtain ⟨frame₁, hlead₁, hagree₁, -⟩ := World.computes_bits k0 k1 w0 h1 hx
    refine hlead₁.fails (World.fails_step k2 rfl fun caller => ?_)
    rw [World.step_binary k2 w2, World.eval_of_agree hagree₁ (hrhs.mono h0), hy]
    rfl
  · intro w g id args frame s x y hx hy
    obtain ⟨frame₁, hlead₁, hagree₁, (hsign₁ : _ = pure (signBit width x))⟩ :=
      World.computes_bits k0 k1 w0 h1 hx
    refine .after hlead₁ ?_
    have hy₁ := (World.eval_of_agree hagree₁ (hrhs.mono h0)).trans hy
    obtain ⟨frame₂, hlead₂, hagree₂, (hsign₂ : _ = pure (signBit width y))⟩ :=
      World.computes_bits k2 k3 w2 h3 hy₁
    refine .after hlead₂ ?_
    have hsign₁' := (World.eval_of_agree hagree₂ (by simpa using h2)).trans hsign₁
    obtain ⟨frame₃, hlead₃, hagree₃, hsame⟩ := World.computes_icmp k4 w1 hsign₁' hsign₂
    refine .after hlead₃ ?_
    have hagree : Agree f.insts.size frame frame₃ :=
      ((hagree₁.mono h0).trans (hagree₂.mono (by omega))).trans (hagree₃.mono (by omega))
    rw [Predicate.evaluate_signs hpred hpos hle]
    cases heq : Predicate.eq.evaluate 1 (signBit width x) (signBit width y) with
    | true =>
      rw [heq] at hsame
      have hfound : code.entries.find? (fun entry => entry.2 == code.words) =
          some (.inst code.byWord, code.words) := by simp [entries]
      refine .after (h.leads_part (p := code.wordPart join pred lhs rhs) (by simp [parts]) hwords
        fun _ => World.jump_condBr hsame) ?_
      have hx₃ := (World.eval_of_agree hagree hlhs).trans hx
      have hy₃ := (World.eval_of_agree hagree hrhs).trans hy
      obtain ⟨frame₄, hlead₄, hagree₄, hvalue⟩ := World.computes_icmp k6 hleft hx₃ hy₃
      refine .after hlead₄ ?_
      exact h.arrives_join hf hc hsite.kind rfl (hagree.trans (hagree₄.mono (by omega)))
        (fun _ => World.jump_br join) hfound hvalue
    | false =>
      rw [heq] at hsame
      have hfound : code.entries.find? (fun entry => entry.2 == code.signs) =
          some (.inst code.bySign, code.signs) := by simp [entries, hne.symm]
      refine .after (h.leads_part (p := code.signPart join pred) (by simp [parts]) hsigns
        fun _ => World.jump_condBr hsame) ?_
      have hsign₁'' := (World.eval_of_agree hagree₃ (by simp; omega)).trans hsign₁'
      have hsign₂'' := (World.eval_of_agree hagree₃ (by simpa using h4)).trans hsign₂
      obtain ⟨frame₄, hlead₄, hagree₄, hvalue⟩ := World.computes_icmp k5 w1 hsign₁'' hsign₂''
      refine .after hlead₄ ?_
      exact h.arrives_join hf hc hsite.kind rfl (hagree.trans (hagree₄.mono (by omega)))
        (fun _ => World.jump_br join) hfound hvalue

end SignCode

end EdgeProbe
