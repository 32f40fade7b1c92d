import EdgeProbe.Code.Builder
import EdgeProbe.Proofs.Code.Split
import EdgeProbe.Proofs.Code.Whole

/-!
# Who owns an instruction

Which block an instruction is in is recorded twice: the block lists it, and it names the block. A
function is well-owned when the two agree. Every step of editing leaves a well-owned function
well-owned and drops no live instruction: `Function.Retains` says so, and goes on from step to step.
The steps of editing, which come to a result when the indices they name are there, and those of
building are data. Main statements: `Function.retains_splitBlock`, `EditStep.exists_retains` and
`BuildStep.wellOwned_of_run`.
-/

namespace EdgeProbe

namespace Function

variable {f f₁ f' : Function} {b : BlockId} {blk : Block}

/-- Each instruction is listed at most once, over all blocks of the arena, and one that is listed
names the block that lists it. -/
structure WellOwned (f : Function) : Prop where
  once : (f.blocks.toList.flatMap Block.insts).Nodup
  owner : ∀ b blk, f.block b = .ok blk → ∀ id ∈ blk.insts,
    ∃ inst, f.inst id = .ok inst ∧ inst.block = some b

/-- A block of the layout lists the instruction. -/
def Live (f : Function) (id : InstId) : Prop :=
  ∃ b ∈ f.layout, ∃ blk, f.block b = .ok blk ∧ id ∈ blk.insts

theorem WellOwned.nodup (hf : f.WellOwned) (hblk : f.block b = .ok blk) : blk.insts.Nodup := by
  refine (List.nodup_flatMap.mp hf.once).1 blk ?_
  exact Array.mem_toList_iff.mpr (Array.mem_of_getElem? (block_eq_ok.mp hblk))

theorem WellOwned.unique (hf : f.WellOwned) {c : BlockId} {blk' : Block} {id : InstId}
    (hb : f.block b = .ok blk) (hid : id ∈ blk.insts) (hc : f.block c = .ok blk')
    (hid' : id ∈ blk'.insts) : b = c := by
  obtain ⟨inst, hinst, hblock⟩ := hf.owner b blk hb id hid
  obtain ⟨inst', hinst', hblock'⟩ := hf.owner c blk' hc id hid'
  obtain rfl := Except.ok.inj (hinst.symm.trans hinst')
  exact Option.some.inj (hblock.symm.trans hblock')

/-- Two blocks cannot list the same instruction, which would belong to both. -/
theorem wellOwned_of (hnodup : ∀ b blk, f.block b = .ok blk → blk.insts.Nodup)
    (howner : ∀ b blk, f.block b = .ok blk → ∀ id ∈ blk.insts,
      ∃ inst, f.inst id = .ok inst ∧ inst.block = some b) : f.WellOwned where
  once := by
    have hget : ∀ (i : Nat) (hi : i < f.blocks.toList.length),
        f.block ⟨i⟩ = .ok (f.blocks.toList[i]) := by
      intro i hi
      rw [block_eq_ok]
      simp
    refine List.nodup_flatMap.mpr ⟨fun blk hblk => ?_, ?_⟩
    · obtain ⟨i, hi, rfl⟩ := List.getElem_of_mem hblk
      exact hnodup ⟨i⟩ _ (hget i hi)
    · refine List.pairwise_iff_getElem.mpr fun i j hi hj hlt => ?_
      rintro id hid hid'
      obtain ⟨inst, hinst, hblock⟩ := howner ⟨i⟩ _ (hget i hi) id hid
      obtain ⟨inst', hinst', hblock'⟩ := howner ⟨j⟩ _ (hget j hj) id hid'
      obtain rfl := Except.ok.inj (hinst.symm.trans hinst')
      have heq := Option.some.inj (hblock.symm.trans hblock')
      exact absurd (BlockId.mk.inj heq) hlt.ne
  owner := howner

/-- Blocks that are empty list nothing. -/
theorem wellOwned_of_nil (h : ∀ b blk, f.block b = .ok blk → blk.insts = []) : f.WellOwned :=
  wellOwned_of (fun b blk hblk => h b blk hblk ▸ List.nodup_nil) fun b blk hblk _ hid =>
    absurd hid (h b blk hblk ▸ List.not_mem_nil)

/-- The later function is well-owned if the earlier one is, and lists all that is live there. -/
structure Retains (f f' : Function) : Prop where
  name : f'.name = f.name
  owned : f.WellOwned → f'.WellOwned
  live : ∀ id, f.Live id → f'.Live id

theorem Retains.refl (f : Function) : f.Retains f :=
  ⟨rfl, id, fun _ => id⟩

theorem Retains.trans (h : f.Retains f₁) (h' : f₁.Retains f') : f.Retains f' :=
  ⟨h'.name.trans h.name, h'.owned ∘ h.owned, fun id => h'.live id ∘ h.live id⟩

/-! ## Changes that move nothing -/

/-- Blocks list what they listed, and instructions name the blocks they named. -/
theorem Retains.of_lists (hname : f'.name = f.name) (hlayout : f'.layout = f.layout)
    (hlists : ∀ b, (f'.block b).map Block.insts = (f.block b).map Block.insts)
    (howners : ∀ id inst, f.inst id = .ok inst →
      ∃ inst', f'.inst id = .ok inst' ∧ inst'.block = inst.block) : f.Retains f' where
  name := hname
  owned hf := by
    have hback : ∀ b blk', f'.block b = .ok blk' →
        ∃ blk, f.block b = .ok blk ∧ blk.insts = blk'.insts := by
      intro b blk' hblk'
      exact Checked.map_eq_ok.mp ((hlists b).symm.trans (congrArg (Except.map Block.insts) hblk'))
    refine wellOwned_of (fun b blk' hblk' => ?_) fun b blk' hblk' id hid => ?_
    · obtain ⟨blk, hblk, heq⟩ := hback b blk' hblk'
      exact heq ▸ hf.nodup hblk
    · obtain ⟨blk, hblk, heq⟩ := hback b blk' hblk'
      obtain ⟨inst, hinst, hblock⟩ := hf.owner b blk hblk id (heq ▸ hid)
      obtain ⟨inst', hinst', hblock'⟩ := howners id inst hinst
      exact ⟨inst', hinst', hblock'.trans hblock⟩
  live id := by
    rintro ⟨b, hb, blk, hblk, hid⟩
    obtain ⟨blk', hblk', heq⟩ := Checked.map_eq_ok.mp
      ((hlists b).trans (congrArg (Except.map Block.insts) hblk))
    exact ⟨b, hlayout ▸ hb, blk', hblk', heq ▸ hid⟩

theorem retains_withAnnotations (f : Function) (annotations : Annotations) :
    f.Retains { f with annotations } :=
  .of_lists rfl rfl (fun _ => rfl) fun _ inst hinst => ⟨inst, hinst, rfl⟩

theorem retains_withBlock {change : Block → Block}
    (hinsts : ∀ blk, f.block b = .ok blk → (change blk).insts = blk.insts) :
    f.Retains (f.withBlock b change) := by
  refine .of_lists rfl rfl (fun c => ?_) fun _ inst hinst => ⟨inst, hinst, rfl⟩
  rw [block_withBlock]
  split
  · next heq =>
    subst heq
    cases hblk : f.block c with
    | ok blk => exact congrArg Except.ok (hinsts blk hblk)
    | error fault => rfl
  · rfl

theorem retains_withInst {id : InstId} {change : Inst → Inst}
    (hblock : ∀ inst, (change inst).block = inst.block) : f.Retains (f.withInst id change) := by
  refine .of_lists rfl rfl (fun _ => rfl) fun i inst hinst => ?_
  rw [inst_withInst, hinst]
  split
  · exact ⟨change inst, rfl, hblock inst⟩
  · exact ⟨inst, rfl, rfl⟩

theorem retains_modifyBlock {change : Block → Block} (hinsts : ∀ blk, (change blk).insts = blk.insts)
    (h : f.modifyBlock b change = .ok f') : f.Retains f' := by
  obtain ⟨-, rfl⟩ := modifyBlock_eq_ok.mp h
  exact retains_withBlock fun blk _ => hinsts blk

theorem retains_modifyInst {id : InstId} {change : Inst → Inst}
    (hblock : ∀ inst, (change inst).block = inst.block) (h : f.modifyInst id change = .ok f') :
    f.Retains f' := by
  obtain ⟨-, rfl⟩ := modifyInst_eq_ok.mp h
  exact retains_withInst hblock

theorem retains_replacePhiIncomingBlock {source target : BlockId}
    (h : f.replacePhiIncomingBlock b source target = .ok f') : f.Retains f' := by
  obtain ⟨phis, -, h⟩ := Checked.bind_eq_ok.mp h
  refine Checked.related_of_foldlM (r := Retains) .refl .trans (fun _ _ _ hphi => ?_) h
  exact retains_modifyInst (by exact fun _ => rfl) hphi

/-! ## New blocks and instructions -/

theorem retains_withNewBlock (name : String) {pos : Nat} (hpos : pos ≤ f.layout.length) :
    f.Retains (f.withNewBlock name pos) where
  name := rfl
  owned hf := by
    refine wellOwned_of (fun b blk hblk => ?_) fun b blk hblk id hid => ?_
    · rw [block_withNewBlock] at hblk
      split at hblk
      · obtain rfl := Except.ok.inj hblk
        exact List.nodup_nil
      · exact hf.nodup hblk
    · rw [block_withNewBlock] at hblk
      split at hblk
      · obtain rfl := Except.ok.inj hblk
        cases hid
      · exact hf.owner b blk hblk id hid
  live id := by
    rintro ⟨b, hb, blk, hblk, hid⟩
    refine ⟨b, (mem_layout_withNewBlock hpos).mpr (.inr hb), blk, ?_, hid⟩
    rwa [block_withNewBlock, if_neg (index_lt_of_block hblk).ne]

/-- A block right after another one goes within the layout. -/
theorem place_le (f : Function) (after : Option BlockId) :
    ((after.bind (f.layout.idxOf? ·)).map (· + 1)).getD f.layout.length ≤ f.layout.length := by
  cases hplace : after.bind (f.layout.idxOf? ·) with
  | none => exact le_rfl
  | some place =>
    obtain ⟨b, -, hplace⟩ := Option.bind_eq_some_iff.mp hplace
    obtain ⟨hlt, -, -⟩ := List.idxOf?_eq_some_iff.mp hplace
    exact hlt

theorem placeBefore_le (f : Function) (before : BlockId) :
    (f.layout.idxOf? before).getD f.layout.length ≤ f.layout.length := by
  cases hplace : f.layout.idxOf? before with
  | none => exact le_rfl
  | some place => exact (List.idxOf?_eq_some_iff.mp hplace).1.le

theorem retains_addBlock (f : Function) (name : String) (after : Option BlockId) :
    f.Retains (f.addBlock name after).1 :=
  retains_withNewBlock name (f.place_le after)

theorem retains_addBlockBefore (f : Function) (name : String) (before : BlockId) :
    f.Retains (f.addBlockBefore name before).1 :=
  retains_withNewBlock name (f.placeBefore_le before)

/-- The new instruction is listed nowhere else, since no block lists what is not there. -/
theorem retains_insertInst {pos : Nat} {kind : InstKind} {name : String} {loc : Option DebugLoc}
    {id : InstId} (h : f.insertInst b pos kind name loc = .ok (f', id)) : f.Retains f' := by
  obtain ⟨f₁, hf₁, h⟩ := Checked.bind_eq_ok.mp h
  obtain ⟨rfl, rfl⟩ := Prod.mk.inj (Checked.pure_eq_ok.mp h)
  obtain ⟨-, rfl⟩ := modifyBlock_eq_ok.mp hf₁
  have hinst : ∀ i inst, f.inst i = .ok inst →
      (f.withNewInst b { kind, name, loc, block := some b }).inst i = .ok inst := by
    intro i inst hi
    rw [inst_withNewInst_of_lt f b _ (index_lt_of_inst hi), hi]
  have hlists : ∀ blk : Block, (blk.insts.insertIdx (min pos blk.insts.length) ⟨f.insts.size⟩).Perm
      (⟨f.insts.size⟩ :: blk.insts) := fun blk => List.perm_insertIdx _ _ (min_le_right _ _)
  refine ⟨rfl, fun hf => wellOwned_of (fun c blk' hblk' => ?_) fun c blk' hblk' i hi => ?_, ?_⟩
  · rw [block_withBlock] at hblk'
    split at hblk'
    · obtain ⟨blk, hblk, rfl⟩ := Checked.map_eq_ok.mp hblk'
      refine (hlists blk).nodup_iff.mpr (List.nodup_cons.mpr ⟨fun hmem => ?_, hf.nodup hblk⟩)
      obtain ⟨inst, hi, -⟩ := hf.owner c blk hblk _ hmem
      exact absurd (index_lt_of_inst hi) (lt_irrefl _)
    · exact hf.nodup hblk'
  · rw [block_withBlock] at hblk'
    split at hblk'
    · next hc =>
      subst hc
      obtain ⟨blk, hblk, rfl⟩ := Checked.map_eq_ok.mp hblk'
      obtain rfl | hi := List.mem_cons.mp ((hlists blk).mem_iff.mp hi)
      · refine ⟨{ kind, name, loc, block := some c }, ?_, rfl⟩
        exact (inst_withNewInst f c _ _).trans (if_pos rfl)
      · obtain ⟨inst, hi, hblock⟩ := hf.owner c blk hblk i hi
        exact ⟨inst, hinst i inst hi, hblock⟩
    · obtain ⟨inst, hi, hblock⟩ := hf.owner c blk' hblk' i hi
      exact ⟨inst, hinst i inst hi, hblock⟩
  · rintro i ⟨c, hc, blk, hblk, hi⟩
    by_cases hcb : c = b
    · have hmem := (hlists blk).mem_iff.mpr (List.mem_cons_of_mem _ hi)
      refine ⟨c, hc, ⟨blk.name, _, blk.term⟩, ?_, hmem⟩
      rw [block_withBlock, if_pos hcb]
      exact Checked.map_eq_ok.mpr ⟨blk, hblk, rfl⟩
    · refine ⟨c, hc, blk, ?_, hi⟩
      rw [block_withBlock, if_neg hcb]
      exact hblk

theorem retains_pushInst {kind : InstKind} {name : String} {loc : Option DebugLoc} {id : InstId}
    (h : f.pushInst b kind name loc = .ok (f', id)) : f.Retains f' := by
  obtain ⟨_, -, h⟩ := Checked.bind_eq_ok.mp h
  exact retains_insertInst h

/-! ## Splitting -/

/-- The second half of a block moves to an empty one, with its instructions. -/
theorem retains_moved {tail : BlockId} {change change' : Block → Block} {pos : Nat}
    (hne : b ≠ tail) (hblk : f.block b = .ok blk) (htail : tail ∈ f.layout)
    (hempty : ∃ t, f.block tail = .ok t ∧ t.insts = [])
    (hframe : f.SameFrame f₁) (howned : ∀ i, f₁.inst i = if i ∈ blk.insts.drop pos then
      (f.inst i).map fun i => { i with block := some tail } else f.inst i)
    (hhead : (change blk).insts = blk.insts.take pos)
    (hrest : ∀ t, (change' t).insts = blk.insts.drop pos) :
    f.Retains ((f₁.withBlock b change).withBlock tail change') := by
  obtain ⟨t, ht, htnil⟩ := hempty
  have hat : ∀ c, ((f₁.withBlock b change).withBlock tail change').block c =
      if c = tail then (f.block c).map change' else if c = b then (f.block c).map change
        else f.block c := by
    intro c
    rw [block_withBlock, block_withBlock, hframe.block_eq]
    split
    · next hc => rw [if_neg (hc ▸ hne.symm)]
    · rfl
  have hmoved : ((f₁.withBlock b change).withBlock tail change').block tail = .ok (change' t) := by
    rw [hat, if_pos rfl, ht]
    rfl
  have hkept : ((f₁.withBlock b change).withBlock tail change').block b = .ok (change blk) := by
    rw [hat, if_neg hne, if_pos rfl, hblk]
    rfl
  refine ⟨hframe.name_eq, fun hf => ?_, ?_⟩
  · have hnodup := hf.nodup hblk
    refine wellOwned_of (fun c blk' hblk' => ?_) fun c blk' hblk' i hi => ?_
    · rw [hat] at hblk'
      split at hblk'
      · obtain ⟨t', -, rfl⟩ := Checked.map_eq_ok.mp hblk'
        exact hrest t' ▸ (List.drop_sublist _ _).nodup hnodup
      · split at hblk'
        · next hc =>
          subst hc
          rw [hblk] at hblk'
          obtain rfl := Except.ok.inj hblk'
          exact hhead ▸ (List.take_sublist _ _).nodup hnodup
        · exact hf.nodup hblk'
    · change ∃ inst, f₁.inst i = .ok inst ∧ _
      rw [howned i]
      rw [hat] at hblk'
      split at hblk'
      · next hc =>
        subst hc
        obtain ⟨t', -, rfl⟩ := Checked.map_eq_ok.mp hblk'
        rw [hrest t'] at hi
        obtain ⟨inst, hinst, -⟩ := hf.owner b blk hblk i (List.mem_of_mem_drop hi)
        exact ⟨{ inst with block := some c }, by rw [if_pos hi, hinst]; rfl, rfl⟩
      · split at hblk'
        · next hc =>
          -- What stays is not among what moves, for nothing is listed twice.
          subst hc
          rw [hblk] at hblk'
          obtain rfl := Except.ok.inj hblk'
          rw [hhead] at hi
          rw [← List.take_append_drop pos blk.insts] at hnodup
          rw [if_neg ((List.nodup_append.mp hnodup).2.2 i hi i · rfl)]
          exact hf.owner c blk hblk i (List.mem_of_mem_take hi)
        · next hc =>
          rw [if_neg fun hmem => hc (hf.unique hblk' hi hblk (List.mem_of_mem_drop hmem))]
          exact hf.owner c blk' hblk' i hi
  · rintro i ⟨c, hc, blk', hblk', hi⟩
    have hlayout : ((f₁.withBlock b change).withBlock tail change').layout = f.layout :=
      hframe.layout_eq
    by_cases hcb : c = b
    · subst hcb
      obtain rfl := Except.ok.inj (hblk.symm.trans hblk')
      rw [← List.take_append_drop pos blk.insts] at hi
      obtain hi | hi := List.mem_append.mp hi
      · exact ⟨c, hlayout ▸ hc, _, hkept, hhead ▸ hi⟩
      · exact ⟨tail, hlayout ▸ htail, _, hmoved, hrest t ▸ hi⟩
    · refine ⟨c, hlayout ▸ hc, blk', ?_, hi⟩
      have hct : c ≠ tail := by
        rintro rfl
        obtain rfl := Except.ok.inj (ht.symm.trans hblk')
        rw [htnil] at hi
        cases hi
      rw [hat, if_neg hct, if_neg hcb, hblk']

theorem retains_splitBlock {tail : BlockId} {pos : Nat} {name : String}
    (h : f.splitBlock b pos name = .ok (f', tail)) : f.Retains f' := by
  rw [splitBlock, addBlock_eq] at h
  set g := f.withNewBlock name
    ((((some b).bind (f.layout.idxOf? ·)).map (· + 1)).getD f.layout.length) with hg
  have hfg : f.Retains g := retains_withNewBlock name (f.place_le _)
  have hnew : g.block ⟨f.blocks.size⟩ = .ok ⟨name, [], .unreachable⟩ := by
    rw [hg, block_withNewBlock, if_pos rfl]
  obtain ⟨blk, hblk, h⟩ := Checked.bind_eq_ok.mp h
  obtain ⟨f₁, hf₁, h⟩ := Checked.bind_eq_ok.mp h
  obtain ⟨f₂, hf₂, h⟩ := Checked.bind_eq_ok.mp h
  obtain ⟨f₃, hf₃, h⟩ := Checked.bind_eq_ok.mp h
  obtain ⟨f₄, hf₄, h⟩ := Checked.bind_eq_ok.mp h
  obtain ⟨rfl, rfl⟩ := Prod.mk.inj (Checked.pure_eq_ok.mp h)
  obtain ⟨-, rfl⟩ := modifyBlock_eq_ok.mp hf₂
  obtain ⟨-, rfl⟩ := modifyBlock_eq_ok.mp hf₃
  have hrenamed : Retains _ f₄ :=
    Checked.related_of_foldlM (r := Retains) .refl .trans (fun _ _ _ => retains_replacePhiIncomingBlock) hf₄
  obtain ⟨hframe, howned⟩ := foldlM_modifyInst hf₁ fun _ => rfl
  refine hfg.trans (.trans ?_ hrenamed)
  by_cases hb : b = ⟨f.blocks.size⟩
  · -- The block that is split is the new one, so that nothing moves.
    subst hb
    obtain rfl := Except.ok.inj (hnew.symm.trans hblk)
    have hsame : g = f₁ := Checked.pure_eq_ok.mp
      ((congrArg (fun ids => ownInsts g _ ids) List.drop_nil.symm).trans hf₁)
    rw [← hsame]
    refine .trans (retains_withBlock fun blk hblk => ?_) (retains_withBlock fun blk hblk => ?_)
    · obtain rfl := Except.ok.inj (hnew.symm.trans hblk)
      exact List.take_nil
    · rw [block_withBlock, if_pos rfl, hnew] at hblk
      obtain rfl := Except.ok.inj hblk
      exact List.drop_nil.trans List.take_nil.symm
  · refine retains_moved hb hblk ?_ ⟨_, hnew, rfl⟩ hframe howned rfl fun _ => rfl
    exact (mem_layout_withNewBlock (f.place_le _)).mpr (.inl rfl)

end Function

namespace Function

variable {f f' : Function} {b : BlockId}

/-- The blocks that this one leads to are there. -/
def LeadsInside (f : Function) (b : BlockId) : Prop :=
  ∀ blk, f.block b = .ok blk → ∀ s ∈ blk.term.successors, s.index < f.blocks.size

theorem WellOwned.lt (hf : f.WellOwned) {blk : Block} (hblk : f.block b = .ok blk) {id : InstId}
    (hid : id ∈ blk.insts) : id.index < f.insts.size := by
  obtain ⟨inst, hinst, -⟩ := hf.owner b blk hblk id hid
  exact index_lt_of_inst hinst

/-- What a block lists can be looked at. -/
theorem WellOwned.exists_phis (hf : f.WellOwned) (hb : b.index < f.blocks.size) :
    ∃ phis, f.phis b = .ok phis ∧ ∀ id ∈ phis, id.index < f.insts.size := by
  obtain ⟨blk, hblk⟩ := exists_block hb
  obtain ⟨phis, hphis⟩ := Tidy.leading_eq_ok InstKind.isPhi fun id hid =>
    exists_kind (hf.lt hblk hid)
  exact ⟨phis, Checked.bind_eq_ok.mpr ⟨blk, hblk, hphis⟩, fun id hid =>
    hf.lt hblk (mem_of_mem_leading hphis hid)⟩

/-- Phis can be changed, one after another, by what leaves them phis of the same block. -/
theorem exists_foldlM_replacePhiIncomingBlock (hf : f.WellOwned) {source target : BlockId}
    (hne : source ≠ target) {succs : List BlockId} (h : ∀ s ∈ succs, s.index < f.blocks.size) :
    ∃ f', succs.foldlM (fun f succ => f.replacePhiIncomingBlock succ source target) f = .ok f' := by
  induction succs generalizing f with
  | nil => exact ⟨f, rfl⟩
  | cons succ rest ih =>
    obtain ⟨hsucc, hrest⟩ := List.forall_mem_cons.mp h
    obtain ⟨phis, hphis, hlt⟩ := hf.exists_phis hsucc
    obtain ⟨f₁, hf₁⟩ := exists_foldlM_modifyInst (renameIn source target) hlt
    have hstep : f.replacePhiIncomingBlock succ source target = .ok f₁ :=
      Checked.bind_eq_ok.mpr ⟨phis, hphis, hf₁⟩
    obtain ⟨hframe, -⟩ := foldlM_modifyInst hf₁ fun i => by
      simp [renameIn, InstKind.renameIncoming_renameIncoming hne]
    obtain ⟨f', hf'⟩ := ih ((retains_replacePhiIncomingBlock hstep).owned hf) fun s hs => by
      rw [hframe.blocks_eq]
      exact hrest s hs
    exact ⟨f', by rw [List.foldlM_cons, hstep]; exact hf'⟩

theorem WellOwned.exists_replacePhiIncomingBlock (hf : f.WellOwned) (hb : b.index < f.blocks.size)
    (source target : BlockId) : ∃ f', f.replacePhiIncomingBlock b source target = .ok f' := by
  obtain ⟨phis, hphis, hlt⟩ := hf.exists_phis hb
  obtain ⟨f', hf'⟩ := exists_foldlM_modifyInst (renameIn source target) hlt
  exact ⟨f', Checked.bind_eq_ok.mpr ⟨phis, hphis, hf'⟩⟩

theorem WellOwned.exists_splitBlock (hf : f.WellOwned) (hb : b.index < f.blocks.size)
    (hsuccs : f.LeadsInside b) (pos : Nat) (name : String) :
    ∃ f' tail, f.splitBlock b pos name = .ok (f', tail) := by
  obtain ⟨blk, hblk⟩ := exists_block hb
  rw [splitBlock, addBlock_eq]
  set place := (((some b).bind (f.layout.idxOf? ·)).map (· + 1)).getD f.layout.length
  have hplace : place ≤ f.layout.length := f.place_le _
  set tail : BlockId := ⟨f.blocks.size⟩
  have hne : b ≠ tail := fun heq => hb.ne (congrArg BlockId.index heq)
  set g := f.withNewBlock name place with hg
  have hgsize : g.blocks.size = f.blocks.size + 1 := size_blocks_withNewBlock f name place
  have hgowned : g.WellOwned := (retains_withNewBlock name hplace).owned hf
  have hblkg : g.block b = .ok blk := by rw [hg, block_withNewBlock, if_neg hb.ne, hblk]
  have hnew : g.block tail = .ok ⟨name, [], .unreachable⟩ := by
    rw [hg, block_withNewBlock, if_pos rfl]
  obtain ⟨f₁, hf₁⟩ := exists_foldlM_modifyInst (fun i => { i with block := some tail })
    (show ∀ id ∈ blk.insts.drop pos, id.index < g.insts.size from
      fun id hid => hgowned.lt hblkg (List.mem_of_mem_drop hid))
  obtain ⟨hframe, howned⟩ := foldlM_modifyInst hf₁ fun _ => rfl
  have hsize : f₁.blocks.size = f.blocks.size + 1 := by rw [hframe.blocks_eq, hgsize]
  set head : Block → Block := fun b =>
    { b with insts := b.insts.take pos, term := .br tail }
  set rest : Block → Block := fun t => { t with insts := blk.insts.drop pos, term := blk.term }
  have hmoved : ((f₁.withBlock b head).withBlock tail rest).WellOwned :=
    (retains_moved hne hblkg ((mem_layout_withNewBlock hplace).mpr (.inl rfl)) ⟨_, hnew, rfl⟩ hframe
      howned rfl fun _ => rfl).owned hgowned
  obtain ⟨f₄, hf₄⟩ := exists_foldlM_replacePhiIncomingBlock hmoved hne
    (show ∀ s ∈ blk.term.successors, s.index < _ from fun s hs => by
      rw [size_blocks_withBlock, size_blocks_withBlock, hsize]
      exact (hsuccs blk hblk s hs).trans (Nat.lt_succ_self _))
  refine ⟨f₄, tail, Checked.bind_eq_ok.mpr ⟨blk, hblkg, Checked.bind_eq_ok.mpr ⟨f₁, hf₁, ?_⟩⟩⟩
  refine Checked.bind_eq_ok.mpr ⟨_, modifyBlock_eq_ok.mpr ⟨by omega, rfl⟩, ?_⟩
  refine Checked.bind_eq_ok.mpr ⟨_, modifyBlock_eq_ok.mpr ⟨?_, rfl⟩, ?_⟩
  · rw [size_blocks_withBlock, hsize]
    exact Nat.lt_succ_self _
  · exact Checked.bind_eq_ok.mpr ⟨f₄, hf₄, rfl⟩

end Function

/-! ## Steps of editing -/

/-- A step of editing. -/
inductive EditStep where
  | addBlock (name : String) (after : Option BlockId)
  | addBlockBefore (name : String) (before : BlockId)
  | insertInst (block : BlockId) (pos : Nat) (kind : InstKind) (name : String)
    (loc : Option DebugLoc)
  | pushInst (block : BlockId) (kind : InstKind) (name : String) (loc : Option DebugLoc)
  | setTerminator (block : BlockId) (term : Terminator)
  | replaceKind (id : InstId) (kind : InstKind)
  | redirectSuccessor (block : BlockId) (index : Nat) (target : BlockId)
  | replacePhiIncomingBlock (block source target : BlockId)
  | splitBlock (block : BlockId) (pos : Nat) (name : String)

namespace EditStep

variable {f f' : Function}

/-- The function after the step. -/
def apply (f : Function) : EditStep → Checked Function
  | addBlock name after => .ok (f.addBlock name after).1
  | addBlockBefore name before => .ok (f.addBlockBefore name before).1
  | insertInst block pos kind name loc => (f.insertInst block pos kind name loc).map Prod.fst
  | pushInst block kind name loc => (f.pushInst block kind name loc).map Prod.fst
  | setTerminator block term => f.setTerminator block term
  | replaceKind id kind => f.replaceKind id kind
  | redirectSuccessor block index target => f.redirectSuccessor block index target
  | replacePhiIncomingBlock block source target => f.replacePhiIncomingBlock block source target
  | splitBlock block pos name => (f.splitBlock block pos name).map Prod.fst

/-- What the step works on is there. -/
def InRange (f : Function) : EditStep → Prop
  | addBlock _ _ | addBlockBefore _ _ => True
  | insertInst block _ _ _ _ | pushInst block _ _ _ | setTerminator block _
  | redirectSuccessor block _ _ | replacePhiIncomingBlock block _ _ =>
    block.index < f.blocks.size
  | replaceKind id _ => id.index < f.insts.size
  | splitBlock block _ _ => block.index < f.blocks.size ∧ f.LeadsInside block

/-- A step that comes to a result keeps the records of a function in agreement. -/
theorem retains {step : EditStep} (h : step.apply f = .ok f') : f.Retains f' := by
  cases step with
  | addBlock name after =>
    obtain rfl := Except.ok.inj h
    exact f.retains_addBlock name after
  | addBlockBefore name before =>
    obtain rfl := Except.ok.inj h
    exact f.retains_addBlockBefore name before
  | insertInst block pos kind name loc =>
    obtain ⟨⟨f₁, id⟩, hf₁, rfl⟩ := Checked.map_eq_ok.mp h
    exact Function.retains_insertInst hf₁
  | pushInst block kind name loc =>
    obtain ⟨⟨f₁, id⟩, hf₁, rfl⟩ := Checked.map_eq_ok.mp h
    exact Function.retains_pushInst hf₁
  | setTerminator block term => exact Function.retains_modifyBlock (by exact fun _ => rfl) h
  | replaceKind id kind => exact Function.retains_modifyInst (by exact fun _ => rfl) h
  | redirectSuccessor block index target =>
    exact Function.retains_modifyBlock (by exact fun _ => rfl) h
  | replacePhiIncomingBlock block source target =>
    exact Function.retains_replacePhiIncomingBlock h
  | splitBlock block pos name =>
    obtain ⟨⟨f₁, tail⟩, hf₁, rfl⟩ := Checked.map_eq_ok.mp h
    exact Function.retains_splitBlock hf₁

theorem exists_insertInst {b : BlockId} (hb : b.index < f.blocks.size) (pos : Nat)
    (kind : InstKind) (name : String) (loc : Option DebugLoc) :
    ∃ r, f.insertInst b pos kind name loc = .ok r :=
  ⟨_, Checked.bind_eq_ok.mpr ⟨_, Function.modifyBlock_eq_ok.mpr ⟨hb, rfl⟩, rfl⟩⟩

/-- A step within the arenas of a well-owned function comes to a result. -/
theorem exists_apply {step : EditStep} (hf : f.WellOwned) (hstep : step.InRange f) :
    ∃ f', step.apply f = .ok f' := by
  cases step with
  | addBlock name after => exact ⟨_, rfl⟩
  | addBlockBefore name before => exact ⟨_, rfl⟩
  | insertInst block pos kind name loc =>
    obtain ⟨r, hr⟩ := exists_insertInst hstep pos kind name loc
    exact ⟨r.1, Checked.map_eq_ok.mpr ⟨r, hr, rfl⟩⟩
  | pushInst block kind name loc =>
    obtain ⟨blk, hblk⟩ := Function.exists_block hstep
    obtain ⟨r, hr⟩ := exists_insertInst hstep blk.insts.length kind name loc
    exact ⟨r.1, Checked.map_eq_ok.mpr ⟨r, Checked.bind_eq_ok.mpr ⟨blk, hblk, hr⟩, rfl⟩⟩
  | setTerminator block term => exact ⟨_, Function.modifyBlock_eq_ok.mpr ⟨hstep, rfl⟩⟩
  | replaceKind id kind => exact ⟨_, Function.modifyInst_eq_ok.mpr ⟨hstep, rfl⟩⟩
  | redirectSuccessor block index target =>
    exact ⟨_, Function.modifyBlock_eq_ok.mpr ⟨hstep, rfl⟩⟩
  | replacePhiIncomingBlock block source target =>
    exact hf.exists_replacePhiIncomingBlock hstep source target
  | splitBlock block pos name =>
    obtain ⟨f', tail, hsplit⟩ := hf.exists_splitBlock hstep.1 hstep.2 pos name
    exact ⟨f', Checked.map_eq_ok.mpr ⟨(f', tail), hsplit, rfl⟩⟩

theorem exists_retains {step : EditStep} (hf : f.WellOwned) (hstep : step.InRange f) :
    ∃ f', step.apply f = .ok f' ∧ f.Retains f' := by
  obtain ⟨f', hf'⟩ := exists_apply hf hstep
  exact ⟨f', hf', retains hf'⟩

end EditStep

/-! ## Steps of building -/

/-- A step of building. -/
inductive BuildStep where
  | metadata (key value : String)
  | createBlock (name : String)
  | switchTo (block : BlockId)
  | setLoc (loc : Option DebugLoc)
  | push (kind : InstKind) (name : String)
  | terminate (term : Terminator)

namespace BuildStep

variable {b b' : FunctionBuilder}

def run : BuildStep → Build Unit
  | metadata key value => Build.metadata key value
  | createBlock name => do let _ ← Build.createBlock name
  | switchTo block => Build.switchTo block
  | setLoc loc => Build.setLoc loc
  | push kind name => do let _ ← Build.push kind name
  | terminate term => Build.terminate term

theorem current_eq_ok {block : BlockId} (h : Build.current b = .ok (block, b')) :
    b.current = some block ∧ b' = b := by
  unfold Build.current at h
  cases hcurrent : b.current with
  | none =>
    simp only [bind, StateT.bind, get, getThe, MonadStateOf.get, StateT.get, pure, Except.pure,
      Except.bind, hcurrent] at h
    cases h
  | some found =>
    simp only [bind, StateT.bind, get, getThe, MonadStateOf.get, StateT.get, pure, Except.pure,
      Except.bind, hcurrent] at h
    obtain ⟨rfl, rfl⟩ := Prod.mk.inj (Except.ok.inj h)
    exact ⟨rfl, rfl⟩

/-- A step of building changes the function by a step of editing, if at all. -/
theorem retains_of_run {step : BuildStep} (h : step.run b = .ok ((), b')) :
    b.function.Retains b'.function := by
  cases step with
  | metadata key value =>
    obtain rfl := (Prod.mk.inj (Except.ok.inj h)).2
    exact .of_lists rfl rfl (fun _ => rfl) fun _ inst hinst => ⟨inst, hinst, rfl⟩
  | createBlock name =>
    obtain rfl := (Prod.mk.inj (Except.ok.inj h)).2
    exact b.function.retains_addBlock name none
  | switchTo block =>
    obtain rfl := (Prod.mk.inj (Except.ok.inj h)).2
    exact .refl _
  | setLoc loc =>
    obtain rfl := (Prod.mk.inj (Except.ok.inj h)).2
    exact .refl _
  | push kind name =>
    obtain ⟨⟨value, b₁⟩, hb₁, h⟩ := Checked.bind_eq_ok.mp h
    obtain rfl := (Prod.mk.inj (Except.ok.inj h)).2
    obtain ⟨⟨block, b₂⟩, hcurrent, hpush⟩ := Checked.bind_eq_ok.mp hb₁
    obtain ⟨-, rfl⟩ := current_eq_ok hcurrent
    obtain ⟨⟨⟨f, id⟩, b₃⟩, hlift, hset⟩ := Checked.bind_eq_ok.mp hpush
    obtain ⟨⟨f', id'⟩, hf', hpair⟩ := Checked.bind_eq_ok.mp hlift
    obtain ⟨⟨rfl, rfl⟩, rfl⟩ : (f' = f ∧ id' = id) ∧ _ = b₃ := by
      simpa using Checked.pure_eq_ok.mp hpair
    obtain rfl := (Prod.mk.inj (Except.ok.inj hset)).2
    exact Function.retains_pushInst hf'
  | terminate term =>
    obtain ⟨⟨block, b₂⟩, hcurrent, hset⟩ := Checked.bind_eq_ok.mp h
    obtain ⟨-, rfl⟩ := current_eq_ok hcurrent
    obtain ⟨⟨f, b₃⟩, hlift, hset⟩ := Checked.bind_eq_ok.mp hset
    obtain ⟨f', hf', hpair⟩ := Checked.bind_eq_ok.mp hlift
    obtain ⟨rfl, rfl⟩ : f' = f ∧ _ = b₃ := by simpa using Checked.pure_eq_ok.mp hpair
    obtain rfl := (Prod.mk.inj (Except.ok.inj hset)).2
    exact Function.retains_modifyBlock (by exact fun _ => rfl) hf'

/-- A run of building makes a well-owned function. -/
theorem wellOwned_of_run {steps : List BuildStep} {name : String} {params : List Ty} {ret : Ty}
    {conv : CallConv} (h : steps.forM run (.start name params ret conv) = .ok ((), b)) :
    b.function.WellOwned := by
  suffices hsteps : ∀ (steps : List BuildStep) (b b' : FunctionBuilder),
      steps.forM run b = .ok ((), b') → b.function.Retains b'.function from
    (hsteps steps _ b h).owned (Function.wellOwned_of_nil fun _ _ hblk => by cases hblk)
  intro steps
  induction steps with
  | nil =>
    intro b b' h
    obtain rfl := (Prod.mk.inj (Except.ok.inj h)).2
    exact .refl _
  | cons step rest ih =>
    intro b b' h
    obtain ⟨⟨_, b₁⟩, hb₁, h⟩ := Checked.bind_eq_ok.mp h
    exact (retains_of_run hb₁).trans (ih b₁ b' h)

end BuildStep

end EdgeProbe
