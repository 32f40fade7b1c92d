import EdgeProbe.Proofs.Code.Does
import EdgeProbe.Proofs.Code.Tidy

/-!
# A function that is cut open

To take an instruction apart its block is split in front of it, and blocks are put in between. While
that goes on `Opened` says what the function looks like: what it was before, apart from the block
that was cut, and the list of parts that have been put in. Each step of the work changes one part.
-/

namespace EdgeProbe

/-- Where a block is cut: in front of an instruction. -/
structure Cut where
  head : BlockId
  name : String
  before : List InstId
  site : InstId
  after : List InstId
  term : Terminator

namespace Cut

/-- The cut is one of a live block of the function. -/
structure Of (c : Cut) (f : Function) : Prop where
  live : c.head ∈ f.layout
  block : f.block c.head = .ok ⟨c.name, c.before ++ c.site :: c.after, c.term⟩

end Cut

/-- A block that leads up to the other side of the cut: the instructions that it had and those that
it has been given, and its end. -/
structure Part where
  block : BlockId
  old : List InstId := []
  insts : List (InstId × InstKind) := []
  term : Terminator := .unreachable

namespace Part

/-- Gives an instruction to the part that is some block. -/
def emit (b : BlockId) (entry : InstId × InstKind) (parts : List Part) : List Part :=
  parts.map fun p => if p.block = b then { p with insts := p.insts ++ [entry] } else p

/-- Ends the part that is some block. -/
def close (b : BlockId) (term : Terminator) (parts : List Part) : List Part :=
  parts.map fun p => if p.block = b then { p with term } else p

variable {b : BlockId} {parts : List Part}

@[simp] theorem map_block_emit {entry : InstId × InstKind} :
    (emit b entry parts).map block = parts.map block := by
  rw [emit, List.map_map]
  apply List.map_congr_left
  intro p _
  dsimp only [Function.comp_apply]
  split <;> rfl

@[simp] theorem map_block_close {term : Terminator} :
    (close b term parts).map block = parts.map block := by
  rw [close, List.map_map]
  apply List.map_congr_left
  intro p _
  dsimp only [Function.comp_apply]
  split <;> rfl

theorem emit_append_new (hnew : b ∉ parts.map block) {p : Part} (hp : p.block = b)
    {entry : InstId × InstKind} :
    emit b entry (parts ++ [p]) = parts ++ [{ p with insts := p.insts ++ [entry] }] := by
  have hold : emit b entry parts = parts := by
    conv_rhs => rw [← List.map_id parts]
    apply List.map_congr_left
    intro q hq
    have hne : q.block ≠ b := fun heq => hnew (heq ▸ List.mem_map_of_mem hq)
    rw [if_neg hne, id]
  rw [emit, List.map_append, ← emit, hold]
  simp [hp]

theorem close_append_new (hnew : b ∉ parts.map block) {p : Part} (hp : p.block = b)
    {term : Terminator} : close b term (parts ++ [p]) = parts ++ [{ p with term }] := by
  have hold : close b term parts = parts := by
    conv_rhs => rw [← List.map_id parts]
    apply List.map_congr_left
    intro q hq
    have hne : q.block ≠ b := fun heq => hnew (heq ▸ List.mem_map_of_mem hq)
    rw [if_neg hne, id]
  rw [close, List.map_append, ← close, hold]
  simp [hp]

theorem mem_emit {entry : InstId × InstKind} {q : Part} (h : q ∈ emit b entry parts) :
    ∃ p ∈ parts, q.block = p.block ∧ q.old = p.old ∧ q.term = p.term ∧
      q.insts = if p.block = b then p.insts ++ [entry] else p.insts := by
  obtain ⟨p, hp, rfl⟩ := List.mem_map.mp h
  refine ⟨p, hp, ?_⟩
  by_cases hb : p.block = b <;> simp [hb]

theorem mem_close {term : Terminator} {q : Part} (h : q ∈ close b term parts) :
    ∃ p ∈ parts, q.block = p.block ∧ q.old = p.old ∧ q.insts = p.insts ∧
      q.term = if p.block = b then term else p.term := by
  obtain ⟨p, hp, rfl⟩ := List.mem_map.mp h
  refine ⟨p, hp, ?_⟩
  by_cases hb : p.block = b <;> simp [hb]

end Part

/-- No token comes to an instruction outside the arena that had none. -/
def Function.KeepsTokens (f f' : Function) : Prop :=
  ∀ i, f'.annotations.get i ≠ [] → f.annotations.get i ≠ [] ∨ i.index < f'.insts.size

/-- The instruction is one of the phis of some blocks. -/
def Function.PhiOf (f : Function) (targets : List BlockId) (id : InstId) : Prop :=
  ∃ b ∈ targets, ∃ phis, f.phis b = .ok phis ∧ id ∈ phis

/-- What a function that was cut looks like when parts have been put in and the instruction on the
other side has become `now`. -/
structure Opened (f : Function) (c : Cut) (join : BlockId) (parts : List Part) (now : InstKind)
    (f₁ : Function) : Prop where
  name : f₁.name = f.name
  params : f₁.params = f.params
  entry : f₁.entryBlock? = f.entryBlock?
  joinNew : f.blocks.size ≤ join.index
  size : f.blocks.size ≤ f₁.blocks.size
  sizeInsts : f.insts.size ≤ f₁.insts.size
  layout : ∀ b, b ∈ f₁.layout ↔ b ∈ f.layout ∨ b = join ∨ b ∈ parts.map Part.block
  layoutNodup : f.layout.Nodup → f₁.layout.Nodup
  nodup : (parts.map Part.block).Nodup
  head : ∃ p ∈ parts, p.block = c.head ∧ p.old = c.before
  fresh : ∀ p ∈ parts, p.block ≠ c.head →
    f.blocks.size ≤ p.block.index ∧ p.block ≠ join ∧ p.old = []
  kept : ∀ b, b.index < f.blocks.size → b ≠ c.head → f₁.block b = f.block b
  grown : ∀ b blk, f₁.block b = .ok blk →
    b.index < f.blocks.size ∨ b = join ∨ b ∈ parts.map Part.block
  part : ∀ p ∈ parts, ∃ name, f₁.block p.block = .ok ⟨name, p.old ++ p.insts.map (·.1), p.term⟩
  tail : ∃ name, f₁.block join = .ok ⟨name, c.site :: c.after, c.term⟩
  site : f₁.kind c.site = .ok now
  kinds : ∀ id kind, id ≠ c.site → f.kind id = .ok kind →
    f₁.kind id = .ok kind ∨
      f.PhiOf c.term.successors id ∧ f₁.kind id = .ok (kind.renameIncoming c.head join)
  renamed : ∀ succ ∈ c.term.successors, ∀ phis, f.phis succ = .ok phis → ∀ id ∈ phis, ∀ kind,
    f.kind id = .ok kind → f₁.kind id = .ok (kind.renameIncoming c.head join)
  news : ∀ id kind, f₁.kind id = .ok kind →
    id.index < f.insts.size ∨ ∃ p ∈ parts, (id, kind) ∈ p.insts
  parents : ∀ id inst, f.inst id = .ok inst → ∃ inst₁, f₁.inst id = .ok inst₁ ∧
    (inst₁.block = if id ∈ c.site :: c.after then some join else inst.block) ∧
      inst₁.split = inst.split
  given : ∀ p ∈ parts, ∀ entry ∈ p.insts, f.insts.size ≤ entry.1.index ∧
    ∃ inst, f₁.inst entry.1 = .ok inst ∧ inst.kind = entry.2 ∧ inst.block = some p.block
  givenNodup : ∀ p ∈ parts, (p.insts.map (·.1)).Nodup
  tokens : f.KeepsTokens f₁

namespace Opened

variable {f f₁ f₂ : Function} {c : Cut} {join b : BlockId} {parts : List Part}
  {now kind : InstKind}

/-- Parts are told apart by their blocks. -/
theorem eq_of_block_eq (h : Opened f c join parts now f₁) {p q : Part} (hp : p ∈ parts)
    (hq : q ∈ parts) (heq : p.block = q.block) : p = q :=
  List.inj_on_of_nodup_map h.nodup hp hq heq

theorem block_ne_join (h : Opened f c join parts now f₁) (hc : c.Of f) {p : Part} (hp : p ∈ parts) :
    p.block ≠ join := by
  intro heq
  by_cases hhead : p.block = c.head
  · have := Function.index_lt_of_block hc.block
    have := h.joinNew
    rw [← hhead, heq] at *
    omega
  · exact (h.fresh p hp hhead).2.1 heq

theorem ne_of_kept (h : Opened f c join parts now f₁) {b' : BlockId} (hb : b ∈ parts.map Part.block)
    (hlt : b'.index < f.blocks.size) (hne : b' ≠ c.head) : b' ≠ b := by
  obtain ⟨p, hp, rfl⟩ := List.mem_map.mp hb
  rintro rfl
  exact absurd hlt (Nat.not_lt.mpr (h.fresh p hp hne).1)

theorem index_lt_of_mem (h : Opened f c join parts now f₁) {p : Part} (hp : p ∈ parts) :
    p.block.index < f₁.blocks.size := by
  obtain ⟨name, hpart⟩ := h.part p hp
  exact Function.index_lt_of_block hpart

theorem index_join_lt (h : Opened f c join parts now f₁) : join.index < f₁.blocks.size := by
  obtain ⟨name, htail⟩ := h.tail
  exact Function.index_lt_of_block htail

theorem inArena (h : Opened f c join parts now f₁) (hf : f.Closed) :
    ∀ b ∈ f₁.layout, b.index < f₁.blocks.size := by
  intro b hb
  obtain hold | rfl | hpart := (h.layout b).mp hb
  · exact (hf.inArena b hold).trans_le h.size
  · exact h.index_join_lt
  · obtain ⟨p, hp, rfl⟩ := List.mem_map.mp hpart
    exact h.index_lt_of_mem hp

/-- An instruction is added to a part. -/
theorem emit (h : Opened f c join parts now f₁) (hc : c.Of f) (hb : b ∈ parts.map Part.block)
    {inst : Inst} (hinst : inst.block = some b) :
    Opened f c join (Part.emit b (⟨f₁.insts.size⟩, inst.kind) parts) now (f₁.withNewInst b inst) where
  name := h.name
  params := h.params
  entry := h.entry
  joinNew := h.joinNew
  size := by simpa using h.size
  sizeInsts := by
    rw [Function.size_insts_withNewInst]
    exact h.sizeInsts.trans (Nat.le_succ _)
  layout := by simpa using h.layout
  layoutNodup := by simpa using h.layoutNodup
  nodup := by simpa using h.nodup
  head := by
    obtain ⟨p, hp, hblock, hold⟩ := h.head
    refine ⟨_, List.mem_map_of_mem hp, ?_⟩
    by_cases hpb : p.block = b
    · rw [if_pos hpb]
      exact ⟨hblock, hold⟩
    · rw [if_neg hpb]
      exact ⟨hblock, hold⟩
  fresh := by
    intro q hq hne
    obtain ⟨p, hp, hblock, hold, -, -⟩ := Part.mem_emit hq
    rw [hblock] at hne ⊢
    rw [hold]
    exact h.fresh p hp hne
  kept := by
    intro b' hlt hne
    rw [Function.block_withNewInst, if_neg (h.ne_of_kept hb hlt hne)]
    exact h.kept b' hlt hne
  grown := by
    intro b' blk hblk
    rw [Part.map_block_emit]
    rw [Function.block_withNewInst] at hblk
    split at hblk
    · next heq =>
      exact .inr (.inr (heq ▸ hb))
    · exact h.grown b' blk hblk
  part := by
    intro q hq
    obtain ⟨p, hp, hblock, hold, hterm, hinsts⟩ := Part.mem_emit hq
    obtain ⟨name, hpart⟩ := h.part p hp
    refine ⟨name, ?_⟩
    rw [hblock, hold, hterm, hinsts, Function.block_withNewInst]
    by_cases hpb : p.block = b
    · rw [if_pos hpb, if_pos hpb, hpart]
      simp [Except.map]
    · rw [if_neg hpb, if_neg hpb, hpart]
  tail := by
    obtain ⟨p, hp, hpb⟩ := List.mem_map.mp hb
    have hne : join ≠ b := hpb ▸ (h.block_ne_join hc hp).symm
    rw [Function.block_withNewInst, if_neg hne]
    exact h.tail
  site := by
    rw [Function.kind_withNewInst_of_lt _ _ _ (Function.index_lt_of_kind h.site)]
    exact h.site
  kinds := by
    intro id kind hne hkind
    have hlt := (Function.index_lt_of_kind hkind).trans_le h.sizeInsts
    rw [Function.kind_withNewInst_of_lt _ _ _ hlt]
    exact h.kinds id kind hne hkind
  renamed := by
    intro succ hsucc phis hphis id hid kind hkind
    have hlt := (Function.index_lt_of_kind hkind).trans_le h.sizeInsts
    rw [Function.kind_withNewInst_of_lt _ _ _ hlt]
    exact h.renamed succ hsucc phis hphis id hid kind hkind
  news := by
    intro id kind hkind
    obtain ⟨q, hq, hqb⟩ := List.mem_map.mp hb
    rw [Function.kind, Function.inst_withNewInst] at hkind
    split at hkind
    · next hlast =>
      obtain rfl : inst.kind = kind := Except.ok.inj hkind
      obtain rfl : id = ⟨f₁.insts.size⟩ := congrArg InstId.mk hlast
      refine .inr ⟨_, List.mem_map_of_mem hq, ?_⟩
      simp [hqb]
    · obtain hlt | ⟨p, hp, hmem⟩ := h.news id kind hkind
      · exact .inl hlt
      · refine .inr ⟨_, List.mem_map_of_mem hp, ?_⟩
        split
        · exact List.mem_append_left _ hmem
        · exact hmem
  parents := by
    intro id i hi
    have hlt := (Function.index_lt_of_inst hi).trans_le h.sizeInsts
    rw [Function.inst_withNewInst_of_lt _ _ _ hlt]
    exact h.parents id i hi
  given := by
    intro q hq entry hentry
    obtain ⟨p, hp, hblock, -, -, hinsts⟩ := Part.mem_emit hq
    have hold : entry ∈ p.insts → f.insts.size ≤ entry.1.index ∧
        ∃ i, (f₁.withNewInst b inst).inst entry.1 = .ok i ∧ i.kind = entry.2 ∧
          i.block = some q.block := by
      intro hmem
      obtain ⟨hle, i, hi, hkind, hparent⟩ := h.given p hp entry hmem
      refine ⟨hle, i, ?_, hkind, hblock ▸ hparent⟩
      rw [Function.inst_withNewInst_of_lt _ _ _ (Function.index_lt_of_inst hi)]
      exact hi
    by_cases hpb : p.block = b
    · rw [hinsts, if_pos hpb] at hentry
      obtain hmem | hnew := List.mem_append.mp hentry
      · exact hold hmem
      · obtain rfl := List.mem_singleton.mp hnew
        refine ⟨h.sizeInsts, inst, ?_, rfl, ?_⟩
        · rw [Function.inst_withNewInst, if_pos rfl]
        · rw [hinst, hblock, hpb]
    · rw [hinsts, if_neg hpb] at hentry
      exact hold hentry
  givenNodup := by
    intro q hq
    obtain ⟨p, hp, -, -, -, hinsts⟩ := Part.mem_emit hq
    by_cases hpb : p.block = b
    · rw [hinsts, if_pos hpb, List.map_append, List.nodup_append]
      refine ⟨h.givenNodup p hp, by simp, ?_⟩
      intro id hid id' hid' heq
      obtain rfl := List.mem_singleton.mp hid'
      obtain ⟨entry, hentry, rfl⟩ := List.mem_map.mp hid
      obtain ⟨-, i, hi, -⟩ := h.given p hp entry hentry
      have := Function.index_lt_of_inst hi
      rw [heq] at this
      exact absurd this (lt_irrefl _)
    · rw [hinsts, if_neg hpb]
      exact h.givenNodup p hp
  tokens := by
    intro i hi
    refine (h.tokens i hi).imp id fun hlt => ?_
    rw [Function.size_insts_withNewInst]
    exact hlt.trans (Nat.lt_succ_self _)

/-- A part is given an end. -/
theorem close (h : Opened f c join parts now f₁) (hc : c.Of f) (hb : b ∈ parts.map Part.block)
    (term : Terminator) :
    Opened f c join (Part.close b term parts) now (f₁.withBlock b fun blk => { blk with term }) where
  name := h.name
  params := h.params
  entry := h.entry
  joinNew := h.joinNew
  size := by simpa using h.size
  sizeInsts := h.sizeInsts
  layout := by simpa using h.layout
  layoutNodup := h.layoutNodup
  nodup := by simpa using h.nodup
  head := by
    obtain ⟨p, hp, hblock, hold⟩ := h.head
    refine ⟨_, List.mem_map_of_mem hp, ?_⟩
    by_cases hpb : p.block = b
    · rw [if_pos hpb]
      exact ⟨hblock, hold⟩
    · rw [if_neg hpb]
      exact ⟨hblock, hold⟩
  fresh := by
    intro q hq hne
    obtain ⟨p, hp, hblock, hold, -, -⟩ := Part.mem_close hq
    rw [hblock] at hne ⊢
    rw [hold]
    exact h.fresh p hp hne
  kept := by
    intro b' hlt hne
    rw [Function.block_withBlock, if_neg (h.ne_of_kept hb hlt hne)]
    exact h.kept b' hlt hne
  grown := by
    intro b' blk hblk
    rw [Part.map_block_close]
    rw [Function.block_withBlock] at hblk
    split at hblk
    · next heq => exact .inr (.inr (heq ▸ hb))
    · exact h.grown b' blk hblk
  part := by
    intro q hq
    obtain ⟨p, hp, hblock, hold, hinsts, hterm⟩ := Part.mem_close hq
    obtain ⟨name, hpart⟩ := h.part p hp
    refine ⟨name, ?_⟩
    rw [hblock, hold, hterm, hinsts, Function.block_withBlock]
    by_cases hpb : p.block = b
    · rw [if_pos hpb, if_pos hpb, hpart]
      rfl
    · rw [if_neg hpb, if_neg hpb, hpart]
  tail := by
    obtain ⟨p, hp, hpb⟩ := List.mem_map.mp hb
    have hne : join ≠ b := hpb ▸ (h.block_ne_join hc hp).symm
    rw [Function.block_withBlock, if_neg hne]
    exact h.tail
  site := h.site
  kinds := h.kinds
  renamed := h.renamed
  news := by
    intro id kind hkind
    refine (h.news id kind hkind).imp_right ?_
    rintro ⟨p, hp, hmem⟩
    refine ⟨_, List.mem_map_of_mem hp, ?_⟩
    split <;> exact hmem
  parents := h.parents
  given := by
    intro q hq entry hentry
    obtain ⟨p, hp, hblock, -, hinsts, -⟩ := Part.mem_close hq
    rw [hinsts] at hentry
    rw [hblock]
    exact h.given p hp entry hentry
  givenNodup := by
    intro q hq
    obtain ⟨p, hp, -, -, hinsts, -⟩ := Part.mem_close hq
    rw [hinsts]
    exact h.givenNodup p hp
  tokens := h.tokens

/-- The entry stays in front of the other side of the cut, as it is no new block. -/
theorem position_join_pos (h : Opened f c join parts now f₁) (hf : f.Closed) {pos : Nat}
    (hpos : f₁.layout.idxOf? join = some pos) : 0 < pos := by
  obtain ⟨hlt, hget, -⟩ := List.idxOf?_eq_some_iff.mp hpos
  rw [Nat.pos_iff_ne_zero]
  rintro rfl
  have hentry : f.entryBlock? = some join := by
    rw [← h.entry, Function.entryBlock?, List.head?_eq_getElem?, List.getElem?_eq_getElem hlt]
    simpa using hget
  have := hf.inArena join (Function.mem_layout_of_entryBlock? hentry)
  have := h.joinNew
  omega

/-- An empty part is put in right before the other side of the cut. -/
theorem addBefore (h : Opened f c join parts now f₁) (hf : f.Closed) (name : String) :
    Opened f c join (parts ++ [{ block := (f₁.addBlockBefore name join).2 }]) now
      (f₁.addBlockBefore name join).1 := by
  rw [Function.addBlockBefore_eq]
  dsimp only
  have hjoin : join ∈ f₁.layout := (h.layout join).mpr (.inr (.inl rfl))
  obtain ⟨pos, hpos⟩ := Option.isSome_iff_exists.mp (List.isSome_idxOf?.mpr hjoin)
  obtain ⟨hlt, -, -⟩ := List.idxOf?_eq_some_iff.mp hpos
  rw [hpos, Option.getD_some]
  have hpositive := h.position_join_pos hf hpos
  have hold : ∀ b : BlockId, b.index < f₁.blocks.size →
      (f₁.withNewBlock name pos).block b = f₁.block b := by
    intro b hb
    rw [Function.block_withNewBlock, if_neg hb.ne]
  have hlast : ∀ p ∈ parts ++ [{ block := ⟨f₁.blocks.size⟩ }],
      p ∈ parts ∨ p = { block := ⟨f₁.blocks.size⟩ } := by simp
  have hsize := h.size
  refine
    { name := h.name, params := h.params, entry := ?entry, joinNew := h.joinNew, size := ?size,
      sizeInsts := h.sizeInsts, layout := ?layout, layoutNodup := fun hdistinct => ?layoutNodup,
      nodup := ?nodup, head := ?head, fresh := ?fresh, kept := ?kept, grown := ?grown,
      part := ?part, tail := ?tail, site := h.site, kinds := h.kinds, renamed := h.renamed,
      news := ?news, parents := h.parents, given := ?given, givenNodup := ?givenNodup,
      tokens := h.tokens }
  case entry => rw [Function.entryBlock?_withNewBlock hpositive, h.entry]
  case size =>
    rw [Function.size_blocks_withNewBlock]
    omega
  case layout =>
    intro b
    rw [Function.mem_layout_withNewBlock hlt.le, h.layout]
    simp only [List.map_append, List.map_cons, List.map_nil, List.mem_append, List.mem_singleton]
    tauto
  case layoutNodup =>
    refine Function.nodup_layout_withNewBlock hlt.le (h.layoutNodup hdistinct) fun hmem => ?_
    exact absurd (h.inArena hf _ hmem) (lt_irrefl _)
  case nodup =>
    rw [List.map_append, List.nodup_append]
    refine ⟨h.nodup, by simp, ?_⟩
    intro b hb b' hb' heq
    obtain ⟨p, hp, rfl⟩ := List.mem_map.mp hb
    obtain rfl := List.mem_singleton.mp hb'
    have := h.index_lt_of_mem hp
    rw [heq] at this
    exact absurd this (lt_irrefl _)
  case head =>
    obtain ⟨p, hp, hblock⟩ := h.head
    exact ⟨p, List.mem_append_left _ hp, hblock⟩
  case fresh =>
    intro p hp hne
    obtain hp | rfl := hlast p hp
    · exact h.fresh p hp hne
    · refine ⟨hsize, ?_, rfl⟩
      rintro rfl
      exact absurd h.index_join_lt (lt_irrefl _)
  case kept =>
    intro b hlt' hne
    rw [hold b (by omega)]
    exact h.kept b hlt' hne
  case grown =>
    intro b blk hblk
    rw [List.map_append, List.mem_append]
    rw [Function.block_withNewBlock] at hblk
    split at hblk
    · next heq =>
      exact .inr (.inr (.inr (List.mem_singleton.mpr (congrArg BlockId.mk heq))))
    · exact (h.grown b blk hblk).imp_right (·.imp_right .inl)
  case part =>
    intro p hp
    obtain hp | rfl := hlast p hp
    · rw [hold _ (h.index_lt_of_mem hp)]
      exact h.part p hp
    · exact ⟨name, by rw [Function.block_withNewBlock, if_pos rfl]; rfl⟩
  case tail =>
    obtain ⟨tailName, htail⟩ := h.tail
    exact ⟨tailName, by rw [hold _ (Function.index_lt_of_block htail)]; exact htail⟩
  case news =>
    intro id kind hkind
    refine (h.news id kind hkind).imp_right ?_
    rintro ⟨p, hp, hmem⟩
    exact ⟨p, List.mem_append_left _ hp, hmem⟩
  case given =>
    intro p hp entry hentry
    obtain hp | rfl := hlast p hp
    · exact h.given p hp entry hentry
    · cases hentry
  case givenNodup =>
    intro p hp
    obtain hp | rfl := hlast p hp
    · exact h.givenNodup p hp
    · exact List.nodup_nil

/-- The instruction on the other side becomes something else. -/
theorem replace (h : Opened f c join parts now f₁) (hkind : f.kind c.site = .ok kind)
    (hphi : kind.isPhi = false) (new : InstKind) :
    Opened f c join parts new (f₁.withInst c.site fun i => { i with kind := new }) := by
  have hkinds : ∀ id, id ≠ c.site →
      (f₁.withInst c.site fun i => { i with kind := new }).kind id = f₁.kind id := by
    intro id hne
    rw [Function.kind, Function.inst_withInst, if_neg hne, Function.kind]
  have hblocks : ∀ id inst, f₁.inst id = .ok inst → ∃ inst₂,
      (f₁.withInst c.site fun i => { i with kind := new }).inst id = .ok inst₂ ∧
        inst₂.block = inst.block ∧ inst₂.split = inst.split ∧ (id ≠ c.site → inst₂ = inst) := by
    intro id inst hinst
    rw [Function.inst_withInst]
    by_cases hsite : id = c.site
    · rw [if_pos hsite, hinst]
      exact ⟨_, rfl, rfl, rfl, fun hne => absurd hsite hne⟩
    · rw [if_neg hsite, hinst]
      exact ⟨inst, rfl, rfl, rfl, fun _ => rfl⟩
  refine
    { name := h.name, params := h.params, entry := h.entry, joinNew := h.joinNew,
      size := h.size, sizeInsts := ?sizeInsts, layout := h.layout, layoutNodup := h.layoutNodup,
      nodup := h.nodup, head := h.head, fresh := h.fresh, kept := h.kept, grown := h.grown,
      part := h.part, tail := h.tail, site := ?site, kinds := ?kinds, renamed := ?renamed,
      news := ?news, parents := ?parents, given := ?given, givenNodup := h.givenNodup,
      tokens := ?tokens }
  case sizeInsts =>
    rw [Function.size_insts_withInst]
    exact h.sizeInsts
  case site =>
    obtain ⟨inst, hinst, -⟩ := Function.kind_eq_ok.mp h.site
    rw [Function.kind, Function.inst_withInst, if_pos rfl, hinst]
    rfl
  case kinds =>
    intro id k hne hk
    rw [hkinds id hne]
    exact h.kinds id k hne hk
  case renamed =>
    intro succ hsucc phis hphis id hid k hk
    have hne : id ≠ c.site := by
      rintro rfl
      obtain ⟨ty, incoming, hphi'⟩ := Function.kind_of_mem_phis hphis hid
      obtain rfl := Except.ok.inj (hkind.symm.trans hphi')
      cases hphi
    rw [hkinds id hne]
    exact h.renamed succ hsucc phis hphis id hid k hk
  case news =>
    intro id k hk
    by_cases hsite : id = c.site
    · exact .inl (hsite ▸ Function.index_lt_of_kind hkind)
    · rw [hkinds id hsite] at hk
      exact h.news id k hk
  case parents =>
    intro id inst hinst
    obtain ⟨inst₁, hinst₁, hparent, hsplit⟩ := h.parents id inst hinst
    obtain ⟨inst₂, hinst₂, hblock, hsplit₂, -⟩ := hblocks id inst₁ hinst₁
    exact ⟨inst₂, hinst₂, hblock.trans hparent, hsplit₂.trans hsplit⟩
  case given =>
    intro p hp entry hentry
    obtain ⟨hle, inst, hinst, hk, hparent⟩ := h.given p hp entry hentry
    have hne : entry.1 ≠ c.site := by
      intro heq
      have hlt := Function.index_lt_of_kind hkind
      rw [← heq] at hlt
      omega
    obtain ⟨inst₂, hinst₂, hblock, -, hsame⟩ := hblocks entry.1 inst hinst
    obtain rfl := hsame hne
    exact ⟨hle, inst₂, hinst₂, hk, hparent⟩
  case tokens =>
    intro i hi
    rw [Function.size_insts_withInst]
    exact h.tokens i hi

/-- A change that leaves blocks, kinds, the blocks of instructions and the marks of those from before
alone leaves parts alone. -/
theorem unaffected (h : Opened f c join parts now f₁) (hname : f₂.name = f₁.name)
    (hparams : f₂.params = f₁.params) (hlayout : f₂.layout = f₁.layout)
    (hblocks : f₂.blocks = f₁.blocks) (hsize : f₂.insts.size = f₁.insts.size)
    (hinst : ∀ id inst, f₁.inst id = .ok inst →
      ∃ inst₂, f₂.inst id = .ok inst₂ ∧ inst₂.kind = inst.kind ∧ inst₂.block = inst.block ∧
        (id.index < f.insts.size → inst₂.split = inst.split))
    (htokens : f₁.KeepsTokens f₂) : Opened f c join parts now f₂ := by
  have hblock : ∀ b, f₂.block b = f₁.block b := by
    intro b
    rw [Function.block, Function.block, hblocks]
  have hkind : ∀ id kind, f₁.kind id = .ok kind → f₂.kind id = .ok kind := by
    intro id kind hkind
    obtain ⟨inst, hi, rfl⟩ := Function.kind_eq_ok.mp hkind
    obtain ⟨inst₂, hi₂, hk, -⟩ := hinst id inst hi
    exact Function.kind_eq_ok.mpr ⟨inst₂, hi₂, hk⟩
  have hback : ∀ id kind, f₂.kind id = .ok kind → f₁.kind id = .ok kind := by
    intro id kind hk
    have hlt : id.index < f₁.insts.size := hsize ▸ Function.index_lt_of_kind hk
    have hk₁ : f₁.kind id = .ok f₁.insts[id.index].kind :=
      Function.kind_eq_ok.mpr ⟨_, Function.inst_eq_ok.mpr (Array.getElem?_eq_getElem hlt), rfl⟩
    obtain rfl := Except.ok.inj (hk.symm.trans (hkind id _ hk₁))
    exact hk₁
  refine
    { name := hname.trans h.name, params := hparams.trans h.params, entry := ?entry,
      joinNew := h.joinNew, size := ?size, sizeInsts := ?sizeInsts, layout := ?layout,
      layoutNodup := ?layoutNodup, nodup := h.nodup, head := h.head, fresh := h.fresh,
      kept := ?kept, grown := ?grown, part := ?part, tail := ?tail,
      site := hkind c.site now h.site, kinds := ?kinds, renamed := ?renamed, news := ?news,
      parents := ?parents, given := ?given, givenNodup := h.givenNodup, tokens := ?tokens }
  case entry =>
    rw [Function.entryBlock?, hlayout]
    exact h.entry
  case size =>
    rw [hblocks]
    exact h.size
  case sizeInsts =>
    rw [hsize]
    exact h.sizeInsts
  case layout =>
    rw [hlayout]
    exact h.layout
  case layoutNodup =>
    rw [hlayout]
    exact h.layoutNodup
  case kept =>
    intro b hlt hne
    rw [hblock]
    exact h.kept b hlt hne
  case grown =>
    intro b blk hblk
    exact h.grown b blk ((hblock b).symm.trans hblk)
  case part =>
    intro p hp
    rw [hblock]
    exact h.part p hp
  case tail =>
    rw [hblock]
    exact h.tail
  case kinds =>
    intro id kind hne hk
    exact (h.kinds id kind hne hk).imp (hkind id _) (And.imp_right (hkind id _))
  case renamed =>
    exact fun succ hsucc phis hphis id hid kind hk =>
      hkind id _ (h.renamed succ hsucc phis hphis id hid kind hk)
  case news => exact fun id kind hk => h.news id kind (hback id kind hk)
  case parents =>
    intro id inst hi
    obtain ⟨inst₁, hi₁, hparent, hsplit⟩ := h.parents id inst hi
    obtain ⟨inst₂, hi₂, -, hblock₂, hsplit₂⟩ := hinst id inst₁ hi₁
    exact ⟨inst₂, hi₂, hblock₂.trans hparent,
      (hsplit₂ (Function.index_lt_of_inst hi)).trans hsplit⟩
  case given =>
    intro p hp entry hentry
    obtain ⟨hle, inst, hi, hk, hparent⟩ := h.given p hp entry hentry
    obtain ⟨inst₂, hi₂, hk₂, hblock₂, -⟩ := hinst entry.1 inst hi
    exact ⟨hle, inst₂, hi₂, hk₂.trans hk, hblock₂.trans hparent⟩
  case tokens =>
    intro i hi
    obtain hold | hlt := htokens i hi
    · exact (h.tokens i hold).imp_right fun hlt => hsize ▸ hlt
    · exact .inr hlt

end Opened

end EdgeProbe
