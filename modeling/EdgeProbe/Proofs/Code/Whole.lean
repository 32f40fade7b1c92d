import EdgeProbe.Proofs.Code.Split

/-!
# Edits that can be made

A change of code faults when it comes to an index outside of the arena. In a function whose blocks
list instructions of the arena and lead to blocks of it, the changes are made, and leave it so.
-/

namespace EdgeProbe

namespace Function

variable {f f' : Function}

/-- What the blocks list and where they lead is in the arenas. -/
structure Whole (f : Function) : Prop where
  insts : ∀ b blk, f.block b = .ok blk → ∀ id ∈ blk.insts, id.index < f.insts.size
  successors : ∀ b blk, f.block b = .ok blk → ∀ s ∈ blk.term.successors, s.index < f.blocks.size

/-- The live blocks are in the arena too, and none is listed twice. -/
structure Framed (f : Function) : Prop where
  whole : f.Whole
  inArena : ∀ b ∈ f.layout, b.index < f.blocks.size
  nodup : f.layout.Nodup

theorem exists_block {b : BlockId} (h : b.index < f.blocks.size) : ∃ blk, f.block b = .ok blk :=
  ⟨_, block_eq_ok.mpr (Array.getElem?_eq_getElem h)⟩

theorem Whole.successors_lt (hf : f.Whole) {b target : BlockId} {succs : List BlockId}
    (hsuccs : f.successors b = .ok succs) (htarget : target ∈ succs) :
    target.index < f.blocks.size := by
  obtain ⟨blk, hblk, rfl⟩ := Checked.map_eq_ok.mp hsuccs
  exact hf.successors b blk hblk target htarget

theorem exists_inst {id : InstId} (h : id.index < f.insts.size) : ∃ inst, f.inst id = .ok inst :=
  ⟨_, inst_eq_ok.mpr (Array.getElem?_eq_getElem h)⟩

theorem exists_kind {id : InstId} (h : id.index < f.insts.size) : ∃ kind, f.kind id = .ok kind := by
  obtain ⟨inst, hinst⟩ := exists_inst h
  exact ⟨inst.kind, kind_eq_ok.mpr ⟨inst, hinst, rfl⟩⟩

/-- What leads a list is a part of it. -/
theorem mem_of_mem_leading {holds : InstKind → Bool} {ids front : List InstId}
    (h : f.leading holds ids = .ok front) {id : InstId} (hid : id ∈ front) : id ∈ ids := by
  obtain ⟨back, rfl, -, -⟩ := leading_eq_ok h
  exact List.mem_append_left back hid

/-- The first instruction that is as asked can be told, if there is one. -/
theorem exists_firstWith? (holds : InstKind → Bool) {ids : List InstId}
    (h : ∀ id ∈ ids, id.index < f.insts.size) : ∃ found, f.firstWith? holds ids = .ok found ∧
      (∀ id, found = some id → id.index < f.insts.size) ∧
      ∀ id ∈ ids, ∀ kind, f.kind id = .ok kind → holds kind = true → found.isSome = true := by
  induction ids with
  | nil => exact ⟨none, rfl, by simp, by simp⟩
  | cons first rest ih =>
    obtain ⟨hfirst, hrest⟩ := List.forall_mem_cons.mp h
    obtain ⟨kind, hkind⟩ := exists_kind hfirst
    by_cases hholds : holds kind = true
    · exact ⟨some first, by simp [firstWith?, hkind, hholds, bind, Except.bind, pure, Except.pure],
        fun id heq => Option.some.inj heq ▸ hfirst, fun _ _ _ _ _ => rfl⟩
    · obtain ⟨found, hfound, hlt, hsome⟩ := ih hrest
      refine ⟨found, by simp [firstWith?, hkind, hholds, hfound, bind, Except.bind], hlt,
        fun id hid kind' hkind' hholds' => ?_⟩
      obtain rfl | hid := List.mem_cons.mp hid
      · obtain rfl := Except.ok.inj (hkind.symm.trans hkind')
        exact absurd hholds' hholds
      · exact hsome id hid kind' hkind' hholds'

theorem Whole.exists_isLandingPad (hf : f.Whole) {b : BlockId} (hb : b.index < f.blocks.size) :
    ∃ leads, f.isLandingPad b = .ok leads := by
  obtain ⟨blk, hblk⟩ := exists_block hb
  obtain ⟨found, hfound, hlt, -⟩ := exists_firstWith? (!·.isPhi) (hf.insts b blk hblk)
  cases found with
  | none => exact ⟨false, by simp [isLandingPad, hblk, hfound, bind, Except.bind, pure, Except.pure]⟩
  | some id =>
    obtain ⟨kind, hkind⟩ := exists_kind (hlt id rfl)
    exact ⟨kind.isLandingPad,
      by simp [isLandingPad, hblk, hfound, hkind, bind, Except.bind, pure, Except.pure]⟩

theorem exists_foldlM_modifyInst (change : Inst → Inst) {ids : List InstId}
    (h : ∀ id ∈ ids, id.index < f.insts.size) :
    ∃ f', ids.foldlM (fun f id => f.modifyInst id change) f = .ok f' := by
  induction ids generalizing f with
  | nil => exact ⟨f, rfl⟩
  | cons id rest ih =>
    obtain ⟨hid, hrest⟩ := List.forall_mem_cons.mp h
    obtain ⟨f', hf'⟩ := ih (f := f.withInst id change) fun i hi => by simpa using hrest i hi
    exact ⟨f', by rw [List.foldlM_cons, modifyInst_eq_ok.mpr ⟨hid, rfl⟩]; exact hf'⟩

theorem SameFrame.whole (h : f.SameFrame f') (hf : f.Whole) : f'.Whole where
  insts := fun b blk hblk id hid => by
    rw [h.block_eq] at hblk
    exact h.size_eq ▸ hf.insts b blk hblk id hid
  successors := fun b blk hblk s hs => by
    rw [h.block_eq] at hblk
    rw [h.blocks_eq]
    exact hf.successors b blk hblk s hs

theorem Whole.withBlock (hf : f.Whole) {b : BlockId} {change : Block → Block}
    (hinsts : ∀ blk, f.block b = .ok blk → ∀ id ∈ (change blk).insts, id.index < f.insts.size)
    (hsuccs : ∀ blk, f.block b = .ok blk →
      ∀ s ∈ (change blk).term.successors, s.index < f.blocks.size) : (f.withBlock b change).Whole := by
  have hcases : ∀ c blk, (f.withBlock b change).block c = .ok blk →
      (∃ blk₀, f.block b = .ok blk₀ ∧ blk = change blk₀) ∨ f.block c = .ok blk := by
    intro c blk hblk
    rw [block_withBlock] at hblk
    split at hblk
    · next heq =>
      obtain ⟨blk₀, hblk₀, rfl⟩ := Checked.map_eq_ok.mp hblk
      exact .inl ⟨blk₀, heq ▸ hblk₀, rfl⟩
    · exact .inr hblk
  constructor
  · intro c blk hblk
    obtain ⟨blk₀, hblk₀, rfl⟩ | hblk := hcases c blk hblk
    · exact hinsts blk₀ hblk₀
    · exact hf.insts c blk hblk
  · intro c blk hblk s hs
    rw [size_blocks_withBlock]
    obtain ⟨blk₀, hblk₀, rfl⟩ | hblk := hcases c blk hblk
    · exact hsuccs blk₀ hblk₀ s hs
    · exact hf.successors c blk hblk s hs

theorem Whole.withNewBlock (hf : f.Whole) (name : String) (pos : Nat) :
    (f.withNewBlock name pos).Whole := by
  constructor
  · intro b blk hblk
    rw [block_withNewBlock] at hblk
    split at hblk
    · obtain rfl := Except.ok.inj hblk
      exact fun id hid => absurd hid List.not_mem_nil
    · exact hf.insts b blk hblk
  · intro b blk hblk s hs
    rw [size_blocks_withNewBlock]
    rw [block_withNewBlock] at hblk
    split at hblk
    · obtain rfl := Except.ok.inj hblk
      cases hs
    · exact (hf.successors b blk hblk s hs).trans (Nat.lt_succ_self _)

theorem Whole.exists_phis (hf : f.Whole) {b : BlockId} (hb : b.index < f.blocks.size) :
    ∃ phis, f.phis b = .ok phis ∧ ∀ id ∈ phis, id.index < f.insts.size := by
  obtain ⟨blk, hblk⟩ := exists_block hb
  obtain ⟨phis, hphis⟩ := Tidy.leading_eq_ok InstKind.isPhi fun id hid =>
    exists_kind (hf.insts b blk hblk id hid)
  exact ⟨phis, Checked.bind_eq_ok.mpr ⟨blk, hblk, hphis⟩, fun id hid =>
    hf.insts b blk hblk id (mem_of_mem_leading hphis hid)⟩

/-- Sources are renamed in the phis of any blocks. -/
theorem Whole.exists_replacePhiIncomingBlock (hf : f.Whole) {succs : List BlockId}
    (h : ∀ s ∈ succs, s.index < f.blocks.size) {source target : BlockId} (hne : source ≠ target) :
    ∃ f', succs.foldlM (fun f succ => f.replacePhiIncomingBlock succ source target) f = .ok f' ∧
      f.SameFrame f' := by
  induction succs generalizing f with
  | nil => exact ⟨f, rfl, .refl f⟩
  | cons succ rest ih =>
    obtain ⟨hsucc, hrest⟩ := List.forall_mem_cons.mp h
    obtain ⟨phis, hphis, hid⟩ := hf.exists_phis hsucc
    obtain ⟨f₁, hf₁⟩ := exists_foldlM_modifyInst (renameIn source target) hid
    have hstep : f.replacePhiIncomingBlock succ source target = .ok f₁ :=
      Checked.bind_eq_ok.mpr ⟨phis, hphis, hf₁⟩
    obtain ⟨hframe, -⟩ := foldlM_modifyInst hf₁ fun i => by
      simp [renameIn, InstKind.renameIncoming_renameIncoming hne]
    obtain ⟨f', hf', hframe'⟩ := ih (hframe.whole hf) fun s hs => by
      rw [hframe.blocks_eq]
      exact hrest s hs
    exact ⟨f', by rw [List.foldlM_cons, hstep]; exact hf', hframe.trans hframe'⟩

/-- A block of the layout can be split anywhere. -/
theorem Whole.exists_splitBlock (hf : f.Whole) {b : BlockId} (hb : b ∈ f.layout)
    {blk : Block} (hblk : f.block b = .ok blk) (pos : Nat) (name : String) :
    ∃ f' tail, f.splitBlock b pos name = .ok (f', tail) ∧ BlockSplit f b blk pos tail f' ∧
      f'.Whole := by
  have hlt := index_lt_of_block hblk
  have hne : b.index ≠ f.blocks.size := hlt.ne
  obtain ⟨place, hplace⟩ := Option.isSome_iff_exists.mp (List.isSome_idxOf?.mpr hb)
  have hnew := hf.withNewBlock name (place + 1)
  have hblkNew : (f.withNewBlock name (place + 1)).block b = .ok blk := by
    rw [block_withNewBlock, if_neg hne, hblk]
  obtain ⟨f₁, hf₁⟩ := exists_foldlM_modifyInst
    (f := f.withNewBlock name (place + 1)) (fun i => { i with block := some ⟨f.blocks.size⟩ })
    (show ∀ id ∈ blk.insts.drop pos, id.index < f.insts.size from
      fun id hid => hf.insts b blk hblk id (List.mem_of_mem_drop hid))
  obtain ⟨hframe₁, -⟩ := foldlM_modifyInst hf₁ fun _ => rfl
  have hwhole₁ := hframe₁.whole hnew
  have hsize₁ : f₁.blocks.size = f.blocks.size + 1 := by
    rw [hframe₁.blocks_eq, size_blocks_withNewBlock]
  have hinsts₁ : f₁.insts.size = f.insts.size := hframe₁.size_eq
  have hblk₁ : f₁.block b = .ok blk := (hframe₁.block_eq b).trans hblkNew
  set change₁ : Block → Block := fun b =>
    { b with insts := b.insts.take pos, term := .br ⟨f.blocks.size⟩ } with hchange₁
  set change₂ : Block → Block := fun t =>
    { t with insts := blk.insts.drop pos, term := blk.term } with hchange₂
  have hwhole₂ : (f₁.withBlock b change₁).Whole := by
    refine hwhole₁.withBlock (fun blk' hblk' id hid => ?_) fun blk' hblk' s hs => ?_
    · exact hwhole₁.insts b blk' hblk' id (List.mem_of_mem_take hid)
    · obtain rfl := List.mem_singleton.mp hs
      rw [hsize₁]
      exact Nat.lt_succ_self _
  have hwhole₃ : ((f₁.withBlock b change₁).withBlock ⟨f.blocks.size⟩ change₂).Whole := by
    refine hwhole₂.withBlock (fun _ _ id hid => ?_) fun _ _ s hs => ?_
    · exact hwhole₁.insts b blk hblk₁ id (List.mem_of_mem_drop hid)
    · rw [size_blocks_withBlock]
      exact hwhole₁.successors b blk hblk₁ s hs
  have htail : b ≠ ⟨f.blocks.size⟩ := fun heq => hne (congrArg BlockId.index heq)
  obtain ⟨f₄, hf₄, hframe₄⟩ := hwhole₃.exists_replacePhiIncomingBlock
    (fun s (hs : s ∈ blk.term.successors) => by
      rw [size_blocks_withBlock, size_blocks_withBlock]
      exact hwhole₁.successors b blk hblk₁ s hs) htail
  have hsplit : f.splitBlock b pos name = .ok (f₄, ⟨f.blocks.size⟩) := by
    rw [splitBlock, addBlock_eq]
    simp only [Option.bind_some, hplace, Option.map_some, Option.getD_some]
    refine Checked.bind_eq_ok.mpr ⟨blk, hblkNew, Checked.bind_eq_ok.mpr ⟨f₁, hf₁, ?_⟩⟩
    refine Checked.bind_eq_ok.mpr ⟨_, modifyBlock_eq_ok.mpr ⟨by omega, rfl⟩, ?_⟩
    refine Checked.bind_eq_ok.mpr ⟨_, modifyBlock_eq_ok.mpr ⟨by simp [hsize₁], rfl⟩, ?_⟩
    exact Checked.bind_eq_ok.mpr ⟨f₄, hf₄, rfl⟩
  exact ⟨f₄, _, hsplit, splitBlock_eq_ok hb hblk (hf.successors b blk hblk) hsplit, hframe₄.whole hwhole₃⟩

end Function

end EdgeProbe
