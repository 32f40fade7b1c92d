import EdgeProbe.Proofs.Code.Split

/-!
# A function that is closed again

When the parts of a function that was cut are complete and the instruction on the other side has
become a phi of their results, the records of the function agree once more, and it is the function
from before with the parts in the place of the instruction.
-/

namespace EdgeProbe

/-- The parts of a function that was cut are complete: they lead to each other and to the other
side, where a phi has an entry for each of them that leads there. -/
structure Patched (f : Function) (c : Cut) (join : BlockId) (parts : List Part) (ty : Ty)
    (entries : List (Value × BlockId)) (f' : Function) : Prop where
  opened : Opened f c join parts (.phi ty entries) f'
  kinds : ∀ p ∈ parts, ∀ entry ∈ p.insts, entry.2.isPhi = false
  operands : ∀ p ∈ parts, ∀ entry ∈ p.insts, ∀ value ∈ entry.2.operands,
    value.Below f'.insts.size
  ends : ∀ p ∈ parts, ∀ s ∈ p.term.successors, s = join ∨ s ∈ parts.map Part.block ∧ s ≠ c.head
  endOperands : ∀ p ∈ parts, ∀ value ∈ p.term.operands, value.Below f'.insts.size
  sources : ∀ entry ∈ entries, entry.2 ∈ parts.map Part.block
  values : ∀ entry ∈ entries, entry.1.Below f'.insts.size
  covered : ∀ p ∈ parts, join ∈ p.term.successors → ∃ value, (value, p.block) ∈ entries

namespace Cut.Of

variable {f : Function} {c : Cut}

theorem isDeclaration (hc : c.Of f) : f.isDeclaration = false := by
  rw [Function.isDeclaration, List.isEmpty_eq_false_iff]
  exact List.ne_nil_of_mem hc.live

theorem listed_site (hc : c.Of f) : f.Listed c.site c.head c.before.length :=
  ⟨hc.live, _, hc.block, by simp⟩

theorem listed_before (hc : c.Of f) {id : InstId} {pos : Nat} (h : c.before[pos]? = some id) :
    f.Listed id c.head pos := by
  refine ⟨hc.live, _, hc.block, ?_⟩
  obtain ⟨hlt, -⟩ := List.getElem?_eq_some_iff.mp h
  rw [List.getElem?_append_left hlt, h]

theorem listed_rest (hc : c.Of f) {id : InstId} {pos : Nat}
    (h : (c.site :: c.after)[pos]? = some id) : f.Listed id c.head (c.before.length + pos) := by
  refine ⟨hc.live, _, hc.block, ?_⟩
  rw [List.getElem?_append_right (Nat.le_add_right _ _), Nat.add_sub_cancel_left, h]

end Cut.Of

namespace Opened

variable {f f' : Function} {c : Cut} {join b : BlockId} {parts : List Part} {now : InstKind}

theorem head_mem (h : Opened f c join parts now f') : c.head ∈ parts.map Part.block := by
  obtain ⟨p, hp, hblock, -⟩ := h.head
  exact hblock ▸ List.mem_map_of_mem hp

theorem old_eq (h : Opened f c join parts now f') {p : Part} (hp : p ∈ parts)
    (hblock : p.block = c.head) : p.old = c.before := by
  obtain ⟨q, hq, hqblock, hold⟩ := h.head
  obtain rfl := h.eq_of_block_eq hp hq (hblock.trans hqblock.symm)
  exact hold

theorem not_mem_of_kept (h : Opened f c join parts now f') (hf : f.Closed) (hb : b ∈ f.layout)
    (hne : b ≠ c.head) : b ∉ parts.map Part.block :=
  fun hmem => h.ne_of_kept hmem (hf.inArena b hb) hne rfl

theorem join_not_mem (h : Opened f c join parts now f') (hf : f.Closed) : join ∉ f.layout := by
  intro hmem
  have hlt := hf.inArena join hmem
  have hle := h.joinNew
  omega

/-- The live blocks are those from before, the other side of the cut and the parts. -/
theorem block_cases (h : Opened f c join parts now f') (hb : b ∈ f'.layout) :
    (b ∈ f.layout ∧ b ≠ c.head) ∨ b = join ∨ ∃ p ∈ parts, p.block = b := by
  by_cases hpart : b ∈ parts.map Part.block
  · obtain ⟨p, hp, hblock⟩ := List.mem_map.mp hpart
    exact .inr (.inr ⟨p, hp, hblock⟩)
  · obtain hold | rfl | hpart' := (h.layout b).mp hb
    · refine .inl ⟨hold, ?_⟩
      rintro rfl
      exact hpart h.head_mem
    · exact .inr (.inl rfl)
    · exact absurd hpart' hpart

theorem block_kept (h : Opened f c join parts now f') (hf : f.Closed) (hb : b ∈ f.layout)
    (hne : b ≠ c.head) : f'.block b = f.block b :=
  h.kept b (hf.inArena b hb) hne

/-- What a live block lists was there before, is from the other side of the cut or has been given
to a part. -/
theorem listed_cases (h : Opened f c join parts now f') (hf : f.Closed) (hc : c.Of f)
    {id : InstId} {pos : Nat} (hid : f'.Listed id b pos) :
    (f.Listed id b pos ∧ (b = c.head → pos < c.before.length)) ∨
    (b = join ∧ f.Listed id c.head (c.before.length + pos)) ∨
    ∃ p ∈ parts, p.block = b ∧ p.old.length ≤ pos ∧ ∃ kind, (id, kind) ∈ p.insts := by
  obtain ⟨hb, blk, hblk, hpos⟩ := hid
  obtain ⟨hold, hne⟩ | rfl | ⟨p, hp, rfl⟩ := h.block_cases hb
  · rw [h.block_kept hf hold hne] at hblk
    exact .inl ⟨⟨hold, blk, hblk, hpos⟩, fun heq => absurd heq hne⟩
  · obtain ⟨name, htail⟩ := h.tail
    obtain rfl := Except.ok.inj (htail.symm.trans hblk)
    exact .inr (.inl ⟨rfl, hc.listed_rest hpos⟩)
  · obtain ⟨name, hpart⟩ := h.part p hp
    obtain rfl := Except.ok.inj (hpart.symm.trans hblk)
    dsimp only at hpos
    by_cases hlt : pos < p.old.length
    · have hhead : p.block = c.head := by
        by_contra hne
        rw [(h.fresh p hp hne).2.2] at hlt
        exact absurd hlt (Nat.not_lt_zero pos)
      rw [List.getElem?_append_left hlt, h.old_eq hp hhead] at hpos
      rw [h.old_eq hp hhead] at hlt
      exact .inl ⟨hhead ▸ hc.listed_before hpos, fun _ => hlt⟩
    · rw [List.getElem?_append_right (Nat.le_of_not_lt hlt)] at hpos
      obtain ⟨entry, hentry, rfl⟩ := List.mem_map.mp (List.mem_of_getElem? hpos)
      exact .inr (.inr ⟨p, hp, rfl, Nat.le_of_not_lt hlt, entry.2, hentry⟩)

/-- An edge was there before, now starts on the other side of the cut or belongs to a part. -/
theorem edge_cases (h : Opened f c join parts now f') (hf : f.Closed) {a : BlockId}
    (ha : a ∈ f'.layout) (hedge : f'.Edge a b) :
    (a ∈ f.layout ∧ a ≠ c.head ∧ f.Edge a b) ∨
    (a = join ∧ b ∈ c.term.successors) ∨
    ∃ p ∈ parts, p.block = a ∧ b ∈ p.term.successors := by
  obtain ⟨succs, hsuccs, hb⟩ := hedge
  obtain ⟨hold, hne⟩ | rfl | ⟨p, hp, rfl⟩ := h.block_cases ha
  · refine .inl ⟨hold, hne, succs, ?_, hb⟩
    rw [← hsuccs, Function.successors, Function.successors, h.block_kept hf hold hne]
  · obtain ⟨name, htail⟩ := h.tail
    rw [Function.successors_of_block htail] at hsuccs
    obtain rfl := Except.ok.inj hsuccs
    exact .inr (.inl ⟨rfl, hb⟩)
  · obtain ⟨name, hpart⟩ := h.part p hp
    rw [Function.successors_of_block hpart] at hsuccs
    obtain rfl := Except.ok.inj hsuccs
    exact .inr (.inr ⟨p, hp, rfl, hb⟩)

theorem edge_of_successor (hc : c.Of f) (hb : b ∈ c.term.successors) : f.Edge c.head b :=
  ⟨_, Function.successors_of_block hc.block, hb⟩

theorem live_of_successor (hf : f.Closed) (hc : c.Of f) (hb : b ∈ c.term.successors) :
    b ∈ f.layout :=
  hf.toLive c.head hc.live b (edge_of_successor hc hb)

/-- An instruction from before is what it was, but for the name of a source. -/
theorem kind_cases (h : Opened f c join parts now f') (hf : f.Tidy) {id : InstId} {pos : Nat}
    (hid : f.Listed id b pos) (hne : id ≠ c.site) {kind : InstKind} (hkind : f'.kind id = .ok kind) :
    ∃ kind₀, f.kind id = .ok kind₀ ∧ (kind = kind₀ ∨ kind = kind₀.renameIncoming c.head join) := by
  obtain ⟨kind₀, hkind₀⟩ := hf.exists_kind hid
  refine ⟨kind₀, hkind₀, ?_⟩
  obtain hsame | ⟨-, hrenamed⟩ := h.kinds id kind₀ hne hkind₀
  · exact .inl (Except.ok.inj (hkind.symm.trans hsame))
  · exact .inr (Except.ok.inj (hkind.symm.trans hrenamed))

end Opened

namespace Patched

variable {f f' : Function} {c : Cut} {join b : BlockId} {parts : List Part} {ty : Ty}
  {entries : List (Value × BlockId)} {kind : InstKind}

section

variable (h : Patched f c join parts ty entries f') (hf : f.Tidy) (hc : c.Of f)
include h hf hc

theorem closed : f'.Closed where
  inArena := by
    intro b hb
    have hsize := h.opened.size
    obtain ⟨hold, -⟩ | rfl | ⟨p, hp, rfl⟩ := h.opened.block_cases hb
    · have := hf.closed.inArena b hold
      omega
    · obtain ⟨name, htail⟩ := h.opened.tail
      exact Function.index_lt_of_block htail
    · exact h.opened.index_lt_of_mem hp
  toLive := by
    intro a ha b hedge
    rw [h.opened.layout]
    obtain ⟨hold, -, hedge⟩ | ⟨rfl, hsucc⟩ | ⟨p, hp, rfl, hsucc⟩ :=
      h.opened.edge_cases hf.closed ha hedge
    · exact .inl (hf.closed.toLive a hold b hedge)
    · exact .inl (Opened.live_of_successor hf.closed hc hsucc)
    · obtain rfl | ⟨hmem, -⟩ := h.ends p hp b hsucc
      · exact .inr (.inl rfl)
      · exact .inr (.inr hmem)

theorem home {id : InstId} {pos : Nat} (hid : f'.Listed id b pos) :
    ∃ inst, f'.inst id = .ok inst ∧ inst.block = some b := by
  obtain ⟨hold, hbefore⟩ | ⟨rfl, hmoved⟩ | ⟨p, hp, rfl, -, k, hgiven⟩ :=
    h.opened.listed_cases hf.closed hc hid
  · obtain ⟨inst, hinst, hblock⟩ := hf.home id b pos hold
    obtain ⟨inst', hinst', hblock', -⟩ := h.opened.parents id inst hinst
    refine ⟨inst', hinst', ?_⟩
    rw [hblock', if_neg, hblock]
    intro hmem
    obtain ⟨k, hk⟩ := List.mem_iff_getElem?.mp hmem
    obtain ⟨rfl, rfl⟩ := hf.listed_unique (hc.listed_rest hk) hold
    exact absurd (hbefore rfl) (by omega)
  · obtain ⟨inst, hinst, -⟩ := hf.home id c.head _ hmoved
    obtain ⟨inst', hinst', hblock', -⟩ := h.opened.parents id inst hinst
    refine ⟨inst', hinst', ?_⟩
    rw [hblock', if_pos]
    obtain ⟨-, blk, hblk, hpos⟩ := hmoved
    obtain rfl := Except.ok.inj (hc.block.symm.trans hblk)
    rw [List.getElem?_append_right (Nat.le_add_right _ _), Nat.add_sub_cancel_left] at hpos
    exact List.mem_of_getElem? hpos
  · obtain ⟨-, inst, hinst, -, hblock⟩ := h.opened.given p hp _ hgiven
    exact ⟨inst, hinst, hblock⟩

theorem nodup (hb : b ∈ f'.layout) {blk : Block} (hblk : f'.block b = .ok blk) :
    blk.insts.Nodup := by
  have hhead : (c.before ++ c.site :: c.after).Nodup := hf.nodup c.head hc.live _ hc.block
  obtain ⟨hold, hne⟩ | rfl | ⟨p, hp, rfl⟩ := h.opened.block_cases hb
  · rw [h.opened.block_kept hf.closed hold hne] at hblk
    exact hf.nodup b hold blk hblk
  · obtain ⟨name, htail⟩ := h.opened.tail
    obtain rfl := Except.ok.inj (htail.symm.trans hblk)
    exact hhead.of_append_right
  · obtain ⟨name, hpart⟩ := h.opened.part p hp
    obtain rfl := Except.ok.inj (hpart.symm.trans hblk)
    by_cases hblock : p.block = c.head
    · rw [h.opened.old_eq hp hblock]
      refine List.nodup_append.mpr ⟨hhead.of_append_left, h.opened.givenNodup p hp, ?_⟩
      rintro id hid _ hid' rfl
      obtain ⟨pos, hpos⟩ := List.mem_iff_getElem?.mp hid
      obtain ⟨entry, hentry, rfl⟩ := List.mem_map.mp hid'
      obtain ⟨inst, hinst, -⟩ := hf.home _ _ _ (hc.listed_before hpos)
      exact absurd (Function.index_lt_of_inst hinst) (Nat.not_lt.mpr (h.opened.given p hp _ hentry).1)
    · rw [(h.opened.fresh p hp hblock).2.2]
      exact h.opened.givenNodup p hp

theorem operands_below {id : InstId} {pos : Nat} (hid : f'.Listed id b pos) {k : InstKind}
    (hk : f'.kind id = .ok k) : ∀ value ∈ k.operands, value.Below f'.insts.size := by
  have hfrom : ∀ b₀ pos₀, f.Listed id b₀ pos₀ →
      ∀ value ∈ k.operands, value.Below f'.insts.size := by
    intro b₀ pos₀ hlisted value hvalue
    by_cases hsite : id = c.site
    · subst hsite
      obtain rfl := Except.ok.inj (h.opened.site.symm.trans hk)
      obtain ⟨entry, hentry, rfl⟩ := List.mem_map.mp hvalue
      exact h.values entry hentry
    · obtain ⟨k₀, hk₀, hcases⟩ := h.opened.kind_cases hf hlisted hsite hk
      refine (hf.operands id b₀ pos₀ k₀ hlisted hk₀ value ?_).mono h.opened.sizeInsts
      obtain rfl | rfl := hcases
      · exact hvalue
      · rwa [InstKind.operands_renameIncoming] at hvalue
  obtain ⟨hold, -⟩ | ⟨-, hmoved⟩ | ⟨p, hp, -, -, k', hgiven⟩ :=
    h.opened.listed_cases hf.closed hc hid
  · exact hfrom b pos hold
  · exact hfrom c.head _ hmoved
  · obtain ⟨-, inst, hinst, rfl, -⟩ := h.opened.given p hp _ hgiven
    obtain rfl := Except.ok.inj ((Function.kind_eq_ok.mpr ⟨inst, hinst, rfl⟩).symm.trans hk)
    exact h.operands p hp _ hgiven

theorem termOperands_below (hb : b ∈ f'.layout) {blk : Block} (hblk : f'.block b = .ok blk) :
    ∀ value ∈ blk.term.operands, value.Below f'.insts.size := by
  obtain ⟨hold, hne⟩ | rfl | ⟨p, hp, rfl⟩ := h.opened.block_cases hb
  · rw [h.opened.block_kept hf.closed hold hne] at hblk
    exact fun value hvalue =>
      (hf.termOperands b hold blk hblk value hvalue).mono h.opened.sizeInsts
  · obtain ⟨name, htail⟩ := h.opened.tail
    obtain rfl := Except.ok.inj (htail.symm.trans hblk)
    exact fun value hvalue =>
      (hf.termOperands c.head hc.live _ hc.block value hvalue).mono h.opened.sizeInsts
  · obtain ⟨name, hpart⟩ := h.opened.part p hp
    obtain rfl := Except.ok.inj (hpart.symm.trans hblk)
    exact h.endOperands p hp

/-- A phi is that of the join or one from before. -/
theorem phi_cases {id : InstId} {pos : Nat} (hsite : kind.isPhi = false)
    (hkind : f.kind c.site = .ok kind) (hid : f'.Listed id b pos) {ty' : Ty}
    {incoming : List (Value × BlockId)} (hphi : f'.kind id = .ok (.phi ty' incoming)) :
    (id = c.site ∧ b = join ∧ pos = 0 ∧ incoming = entries) ∨
    (id ≠ c.site ∧ f.Listed id b pos ∧ (b = c.head → pos < c.before.length) ∧
      ∃ before, f.kind id = .ok (.phi ty' before) ∧ (.phi ty' incoming = InstKind.phi ty' before ∨
        .phi ty' incoming = (InstKind.phi ty' before).renameIncoming c.head join)) := by
  have hfrom : ∀ b₀ pos₀, f.Listed id b₀ pos₀ → id ≠ c.site →
      ∃ before, f.kind id = .ok (.phi ty' before) ∧ (.phi ty' incoming = InstKind.phi ty' before ∨
        .phi ty' incoming = (InstKind.phi ty' before).renameIncoming c.head join) := by
    intro b₀ pos₀ hlisted hne
    obtain ⟨kind₀, hkind₀, hcases⟩ := h.opened.kind_cases hf hlisted hne hphi
    cases kind₀ with
    | phi ty₀ before =>
      obtain rfl : ty' = ty₀ := by obtain heq | heq := hcases <;> exact (InstKind.phi.inj heq).1
      exact ⟨before, hkind₀, hcases⟩
    | _ => obtain heq | heq := hcases <;> cases heq
  obtain ⟨hold, hbefore⟩ | ⟨rfl, hmoved⟩ | ⟨p, hp, rfl, -, k, hgiven⟩ :=
    h.opened.listed_cases hf.closed hc hid
  · have hne : id ≠ c.site := by
      rintro rfl
      obtain ⟨rfl, rfl⟩ := hf.listed_unique hc.listed_site hold
      exact absurd (hbefore rfl) (lt_irrefl _)
    exact .inr ⟨hne, hold, hbefore, hfrom b pos hold hne⟩
  · by_cases hid' : id = c.site
    · subst hid'
      obtain ⟨-, hpos⟩ := hf.listed_unique hc.listed_site hmoved
      have hentries := Except.ok.inj (h.opened.site.symm.trans hphi)
      exact .inl ⟨rfl, rfl, by omega, (InstKind.phi.inj hentries).2.symm⟩
    · obtain ⟨before, hbefore, -⟩ := hfrom c.head _ hmoved hid'
      have hpos : 0 < pos := by
        by_contra hzero
        obtain rfl : pos = 0 := by omega
        obtain ⟨-, blk, hblk, hget⟩ := hmoved
        obtain rfl := Except.ok.inj (hc.block.symm.trans hblk)
        exact hid' (by simpa using hget.symm)
      obtain ⟨ty₁, incoming₁, hsitePhi⟩ := hf.phisLead id c.head _ ty' before hmoved hbefore
        c.before.length (by omega) c.site hc.listed_site
      obtain rfl := Except.ok.inj (hkind.symm.trans hsitePhi)
      cases hsite
  · obtain ⟨-, inst, hinst, rfl, -⟩ := h.opened.given p hp _ hgiven
    have hk := Except.ok.inj ((Function.kind_eq_ok.mpr ⟨inst, hinst, rfl⟩).symm.trans hphi)
    have hnot := h.kinds p hp _ hgiven
    dsimp only at hnot
    rw [hk] at hnot
    cases hnot

variable (hkind : f.kind c.site = .ok kind) (hsite : kind.isPhi = false)
include hkind hsite

theorem sources_lt {id : InstId} {pos : Nat} (hid : f'.Listed id b pos) {ty' : Ty}
    {incoming : List (Value × BlockId)} (hphi : f'.kind id = .ok (.phi ty' incoming)) :
    ∀ entry ∈ incoming, entry.2.index < f'.blocks.size := by
  have hsize := h.opened.size
  intro entry hentry
  obtain ⟨rfl, -, -, rfl⟩ | ⟨-, hold, -, before, hbefore, heq | heq⟩ :=
    h.phi_cases hf hc hsite hkind hid hphi
  · obtain ⟨p, hp, hblock⟩ := List.mem_map.mp (h.sources entry hentry)
    exact hblock ▸ h.opened.index_lt_of_mem hp
  · obtain rfl := (InstKind.phi.inj heq).2
    have := hf.sources id b pos ty' incoming hold hbefore entry hentry
    omega
  · obtain rfl := (InstKind.phi.inj heq).2
    obtain ⟨entry₀, hentry₀, rfl⟩ := List.mem_map.mp hentry
    split
    · obtain ⟨name, htail⟩ := h.opened.tail
      exact Function.index_lt_of_block htail
    · have := hf.sources id b pos ty' before hold hbefore entry₀ hentry₀
      omega

theorem phis_lead {id id' : InstId} {pos place : Nat} (hid : f'.Listed id b pos) {ty' : Ty}
    {incoming : List (Value × BlockId)} (hphi : f'.kind id = .ok (.phi ty' incoming))
    (hlt : place < pos) (hid' : f'.Listed id' b place) :
    ∃ ty₁ incoming₁, f'.kind id' = .ok (.phi ty₁ incoming₁) := by
  obtain ⟨-, -, rfl, -⟩ | ⟨-, hold, hbefore, before, hkind₀, -⟩ :=
    h.phi_cases hf hc hsite hkind hid hphi
  · exact absurd hlt (Nat.not_lt_zero place)
  have hold' : f.Listed id' b place := by
    obtain ⟨hold', -⟩ | ⟨rfl, -⟩ | ⟨p, hp, rfl, hge, -⟩ := h.opened.listed_cases hf.closed hc hid'
    · exact hold'
    · exact absurd hold.1 (h.opened.join_not_mem hf.closed)
    · by_cases hblock : p.block = c.head
      · rw [h.opened.old_eq hp hblock] at hge
        exact absurd (hbefore hblock) (by omega)
      · exact absurd (List.mem_map_of_mem hp)
          (h.opened.not_mem_of_kept hf.closed hold.1 hblock)
  obtain ⟨ty₁, incoming₁, hphi'⟩ := hf.phisLead id b pos ty' before hold hkind₀ place hlt id' hold'
  have hne : id' ≠ c.site := by
    rintro rfl
    obtain rfl := Except.ok.inj (hkind.symm.trans hphi')
    cases hsite
  obtain hsame | ⟨-, hrenamed⟩ := h.opened.kinds id' _ hne hphi'
  · exact ⟨ty₁, incoming₁, hsame⟩
  · exact ⟨ty₁, _, hrenamed⟩

theorem exists_entry {id : InstId} {pos : Nat} (hid : f'.Listed id b pos) {ty' : Ty}
    {incoming : List (Value × BlockId)} (hphi : f'.kind id = .ok (.phi ty' incoming))
    {source : BlockId} (hsource : source ∈ f'.layout) (hedge : f'.Edge source b) :
    ∃ value, (value, source) ∈ incoming := by
  obtain ⟨rfl, rfl, -, rfl⟩ | ⟨hne, hold, -, before, hbefore, hcases⟩ :=
    h.phi_cases hf hc hsite hkind hid hphi
  · obtain ⟨hold, -, hedge⟩ | ⟨-, hsucc⟩ | ⟨p, hp, rfl, hsucc⟩ :=
      h.opened.edge_cases hf.closed hsource hedge
    · exact absurd (hf.closed.toLive source hold _ hedge) (h.opened.join_not_mem hf.closed)
    · exact absurd (Opened.live_of_successor hf.closed hc hsucc) (h.opened.join_not_mem hf.closed)
    · exact h.covered p hp hsucc
  · obtain ⟨hlive, hnehead, hedge⟩ | ⟨rfl, hsucc⟩ | ⟨p, hp, rfl, hsucc⟩ :=
      h.opened.edge_cases hf.closed hsource hedge
    · obtain ⟨value, hvalue⟩ := hf.entries id b pos ty' before hold hbefore source hlive hedge
      refine ⟨value, ?_⟩
      obtain heq | heq := hcases
      · obtain rfl := (InstKind.phi.inj heq).2
        exact hvalue
      · obtain rfl := (InstKind.phi.inj heq).2
        refine List.mem_map.mpr ⟨(value, source), hvalue, ?_⟩
        simp [hnehead]
    · obtain ⟨value, hvalue⟩ := hf.entries id b pos ty' before hold hbefore c.head hc.live
        (Opened.edge_of_successor hc hsucc)
      obtain ⟨blk, phis, hblk, hphis⟩ := hf.phis_eq_ok hold.1
      have hrenamed := h.opened.renamed b hsucc phis hphis id (hf.mem_phis hold hbefore hphis) _
        hbefore
      have heq := Except.ok.inj (hphi.symm.trans hrenamed)
      obtain rfl := (InstKind.phi.inj heq).2
      exact ⟨value, List.mem_map.mpr ⟨(value, c.head), hvalue, by simp⟩⟩
    · obtain rfl | ⟨hmem, hnehead⟩ := h.ends p hp b hsucc
      · exact absurd hold.1 (h.opened.join_not_mem hf.closed)
      · exact absurd hmem (h.opened.not_mem_of_kept hf.closed hold.1 hnehead)

theorem tidy : f'.Tidy where
  closed := h.closed hf hc
  home := fun _ _ _ hid => h.home hf hc hid
  nodup := fun _ hb _ hblk => h.nodup hf hc hb hblk
  operands := fun _ _ _ _ hid hk => h.operands_below hf hc hid hk
  termOperands := fun _ hb _ hblk => h.termOperands_below hf hc hb hblk
  sources := fun _ _ _ _ _ hid hphi => h.sources_lt hf hc hkind hsite hid hphi
  phisLead := fun _ _ _ _ _ hid hphi _ hlt _ hid' => h.phis_lead hf hc hkind hsite hid hphi hlt hid'
  entries := fun _ _ _ _ _ hid hphi _ hsource hedge =>
    h.exists_entry hf hc hkind hsite hid hphi hsource hedge

end

end Patched

end EdgeProbe
