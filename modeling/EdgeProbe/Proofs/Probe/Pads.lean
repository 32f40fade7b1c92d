import EdgeProbe.Proofs.Code.Rerouted
import EdgeProbe.Proofs.Validity.Sound

/-!
# Landing pads that have been split

What a function looks like once the edges into a landing pad have been led through copies of it, and
the pad itself has become a phi of what the copies yield. Main statement:
`Edit.splitLandingPad_does`.
-/

namespace EdgeProbe

namespace Function

/-- The edges of these blocks into a pad have been led through copies of it, in turn. Listed is what
each copy yields. -/
inductive Copied (pad : BlockId) :
    List BlockId → Function → List (Value × BlockId) → Function → Prop
  | nil {f : Function} : Copied pad [] f [] f
  | cons {f f₁ f' : Function} {pred : BlockId} {preds : List BlockId}
    {incoming : List (Value × BlockId)} (h : f.Rerouted pred 1 pad [.landingPad] f₁)
    (hrest : Copied pad preds f₁ incoming f') :
    Copied pad (pred :: preds) f ((.inst ⟨f.insts.size⟩, ⟨f.blocks.size⟩) :: incoming) f'

variable {f f' : Function} {pad pred : BlockId}

/-- A block that unwinds to a pad has one edge there. -/
theorem Unwinds.successors (h : f.Unwinds pred pad) :
    ∃ normal, f.successors pred = .ok [normal, pad] ∧ normal ≠ pad := by
  obtain ⟨blk, callee, args, normal, hblk, hterm, hne⟩ := h
  exact ⟨normal, by rw [successors_of_block hblk, hterm]; rfl, hne⟩

/-- A landing pad has been split. -/
def PadSplit (pad : BlockId) (f f' : Function) : Prop :=
  ∃ preds landing incoming f₁, f.predecessors pad = .ok preds ∧
    f.landingPadInst? pad = .ok (some landing) ∧ f.Copied pad preds incoming f₁ ∧
    f' = f₁.withInst landing fun i => { i with kind := .phi .ptr incoming }

theorem Detour.unwinds {block target : BlockId} {index : Nat} {kinds : List InstKind}
    (h : f.Detour block index target kinds f') (hne : pred ≠ block) (hpred : f.Unwinds pred pad) :
    f'.Unwinds pred pad := by
  obtain ⟨blk, callee, args, normal, hblk, hterm, hnormal⟩ := hpred
  exact ⟨blk, callee, args, normal, by rw [h.rest pred hne (index_lt_of_block hblk).ne, hblk],
    hterm, hnormal⟩

/-- A copy of the pad is put in before it and the invocation made to unwind there. -/
theorem detour_copy (name : String) {inst : Inst} (hkind : inst.kind = .landingPad)
    (hblock : inst.block = some ⟨f.blocks.size⟩) (hpred : f.Unwinds pred pad) :
    f.Detour pred 1 pad [.landingPad]
      ((((f.withNewBlock name ((f.layout.idxOf? pad).getD f.layout.length)).withNewInst
        ⟨f.blocks.size⟩ inst).withBlock ⟨f.blocks.size⟩ fun b => { b with term := .br pad }).withBlock
          pred fun b => { b with term := b.term.setUnwind ⟨f.blocks.size⟩ }) := by
  obtain ⟨blk, callee, args, normal, hblk, hterm, hnormal⟩ := hpred
  have hlt := index_lt_of_block hblk
  have hne : pred ≠ ⟨f.blocks.size⟩ := Detour.ne_new hlt
  refine ⟨⟨_, _, _, f.annotations, rfl⟩, rfl, rfl, by simp, by simp, ⟨name, ?_⟩,
    ⟨blk, hblk, by simp [hterm, Terminator.successors], ?_⟩, fun b hb hnew => ?_, fun k kind hk => ?_⟩
  · rw [block_withBlock, if_neg hne.symm, block_withBlock, if_pos rfl, block_withNewInst,
      if_pos rfl,
      block_withNewBlock, if_pos rfl]
    rfl
  · rw [block_withBlock, if_pos rfl, block_withBlock, if_neg hne, block_withNewInst, if_neg hne,
      block_withNewBlock, if_neg hlt.ne, hblk]
    simp [Except.map, hterm, Terminator.setUnwind, Terminator.setSuccessor]
  · have hnew' : b ≠ ⟨f.blocks.size⟩ := fun heq => hnew (congrArg BlockId.index heq)
    rw [block_withBlock, if_neg hb, block_withBlock, if_neg hnew', block_withNewInst, if_neg hnew',
      block_withNewBlock, if_neg hnew]
  · obtain ⟨rfl, rfl⟩ : k = 0 ∧ kind = .landingPad := by
      cases k with
      | zero => exact ⟨rfl, (Option.some.inj hk).symm⟩
      | succ k => cases hk
    refine ⟨inst, ?_, hkind, hblock⟩
    rw [inst_withBlock, inst_withBlock, inst_withNewInst]
    exact if_pos rfl

/-- A block that unwinds to another block still does when an edge into this one has been led
elsewhere. -/
theorem Detour.unwinds_of_ne {block target : BlockId} {index : Nat} {kinds : List InstKind}
    (h : f.Detour block index target kinds f') (hf : f.Whole) (hne : pad ≠ target)
    (hpred : f.Unwinds pred pad) : f'.Unwinds pred pad := by
  by_cases hblock : pred = block
  swap
  · exact h.unwinds hblock hpred
  subst hblock
  obtain ⟨blk, callee, args, normal, hblk, hterm, hnormal⟩ := hpred
  obtain ⟨blk₀, hblk₀, hindex, hblk'⟩ := h.source
  obtain rfl := Except.ok.inj (hblk.symm.trans hblk₀)
  have hpad : pad.index < f.blocks.size := hf.successors pred blk hblk pad
    (by simp [hterm, Terminator.successors])
  rw [hterm] at hindex hblk'
  rcases index with _ | _ | index
  · exact ⟨_, callee, args, ⟨f.blocks.size⟩, hblk', rfl, (ne_new hpad).symm⟩
  · exact absurd (Option.some.inj hindex) hne
  · cases hindex

/-- These landing pads can be split: only exceptional edges lead there. -/
structure Splittable (pads : List BlockId) (f : Function) : Prop extends f.Framed where
  live : ∀ pad ∈ pads, pad ∈ f.layout
  unwinds : ∀ pad ∈ pads, ∀ a ∈ f.layout, f.Edge a pad → f.Unwinds a pad

theorem Splittable.copied {pads preds : List BlockId} {incoming : List (Value × BlockId)}
    (hcopied : f.Copied pad preds incoming f') (hpad : pad ∉ pads)
    (hf : Splittable (pads) f) : Splittable pads f' := by
  induction hcopied with
  | nil => exact hf
  | cons h _ ih =>
    refine ih {
      toFramed := h.framed hf.toFramed
      live := fun other hother => h.mem_layout.mpr (.inr (hf.live other hother))
      unwinds := fun other hother a ha hedge => ?_ }
    have hne := ne_of_mem_of_not_mem hother hpad
    obtain ⟨-, rfl⟩ | ⟨-, rfl⟩ | hedge := h.edge_cases hedge
    · exact absurd rfl hne
    · exact absurd (hf.inArena _ (hf.live _ hother)) (lt_irrefl _)
    · obtain rfl | ha := h.mem_layout.mp ha
      · obtain ⟨succs, hsuccs, -⟩ := hedge
        obtain ⟨blk, hblk, -⟩ := Checked.map_eq_ok.mp hsuccs
        exact absurd (index_lt_of_block hblk) (lt_irrefl _)
      · exact h.unwinds_of_ne hf.whole hne (hf.unwinds other hother a ha hedge)

theorem Splittable.withInst {pads : List BlockId} {id : InstId} {change : Inst → Inst}
    (hf : Splittable pads f) : Splittable pads (f.withInst id change) where
  whole := SameFrame.whole ⟨_, rfl, size_insts_withInst f id change⟩ hf.whole
  nodup := hf.nodup
  inArena := hf.inArena
  live := hf.live
  unwinds := hf.unwinds

theorem WellFormed.unwinds {m : Module} (hf : f.WellFormed m) (hlive : pad ∈ f.layout)
    (hpad : f.isLandingPad pad = .ok true) : ∀ a ∈ f.layout, f.Edge a pad → f.Unwinds a pad := by
  intro a ha hedge
  obtain ⟨id, pos, hid, hkind⟩ := exists_landingPad hlive hpad
  obtain ⟨phis, preds, -, hpreds, -, -, hunwinds⟩ := hf.hasShape hid hkind
  exact hunwinds a ((mem_edgesInto hpreds).mpr ⟨ha, hedge⟩)

/-- The landing pads that several edges lead to, each once. -/
theorem sharedLandingPads_eq_ok {shared : List BlockId} (h : f.sharedLandingPads = .ok shared) :
    shared.Sublist f.layout ∧ ∀ pad ∈ f.layout, pad ∈ shared ↔ f.isLandingPad pad = .ok true ∧
      ∃ preds, f.predecessors pad = .ok preds ∧ 1 < preds.length := by
  obtain ⟨map, hmap, h⟩ := Checked.bind_eq_ok.mp h
  obtain ⟨hsub, hmem⟩ := Checked.filterM_eq_ok h
  have hasked : ∀ pad, (do if ← f.isLandingPad pad then
      return decide (1 < (map.getD pad []).length) else return false : Checked Bool) = .ok true ↔
      f.isLandingPad pad = .ok true ∧ 1 < (map.getD pad []).length := by
    intro pad
    rw [Checked.bind_eq_ok]
    constructor
    · rintro ⟨leads, hleads, h⟩
      cases leads with
      | true => exact ⟨hleads, by simpa using Checked.pure_eq_ok.mp h⟩
      | false => cases h
    · rintro ⟨hleads, hlt⟩
      exact ⟨true, hleads, Checked.pure_eq_ok.mpr (by simpa using hlt)⟩
  refine ⟨hsub, fun pad hpad => ?_⟩
  have hpreds := predecessors_eq_getD hmap pad
  constructor
  · intro hpass
    obtain ⟨hleads, hlt⟩ := (hasked pad).mp (Checked.mem_of_filterM h hpass).2
    exact ⟨hleads, _, hpreds, hlt⟩
  · rintro ⟨hleads, preds, hpreds', hlt⟩
    obtain rfl := Except.ok.inj (hpreds.symm.trans hpreds')
    exact hmem pad hpad ((hasked pad).mpr ⟨hleads, hlt⟩)

theorem WellFormed.splittable {m : Module} (hf : f.WellFormed m) {shared : List BlockId}
    (h : f.sharedLandingPads = .ok shared) : Splittable shared f where
  whole := hf.named.whole
  nodup := hf.nodup
  inArena := hf.closed.inArena
  live := fun _ hpad => (sharedLandingPads_eq_ok h).1.subset hpad
  unwinds := fun pad hpad => by
    obtain ⟨hsub, hiff⟩ := sharedLandingPads_eq_ok h
    have hlive := hsub.subset hpad
    exact hf.unwinds hlive ((hiff pad hlive).mp hpad).1

theorem Copied.sameHeader {preds : List BlockId} {incoming : List (Value × BlockId)}
    (h : f.Copied pad preds incoming f') : f.SameHeader f' := by
  induction h with
  | nil => exact .refl _
  | cons h _ ih => exact h.header.trans ih

theorem Copied.framed {preds : List BlockId} {incoming : List (Value × BlockId)}
    (h : f.Copied pad preds incoming f') (hf : f.Framed) : f'.Framed := by
  induction h with
  | nil => exact hf
  | cons h _ ih => exact ih (h.framed hf)

theorem Copied.closed {preds : List BlockId} {incoming : List (Value × BlockId)}
    (h : f.Copied pad preds incoming f') (hf : f.Closed) (hlive : ∀ pred ∈ preds, pred ∈ f.layout) :
    f'.Closed := by
  induction h with
  | nil => exact hf
  | cons h _ ih =>
    obtain ⟨hfirst, hrest⟩ := List.forall_mem_cons.mp hlive
    exact ih (h.closed hf hfirst) fun pred hpred => h.mem_layout.mpr (.inr (hrest pred hpred))

theorem Copied.kind_cases {preds : List BlockId} {incoming : List (Value × BlockId)}
    (h : f.Copied pad preds incoming f') {i : InstId} {kind : InstKind}
    (hkind : f'.kind i = .ok kind) (hnot : kind.isPhi = false) :
    f.kind i = .ok kind ∨ kind = .landingPad := by
  induction h with
  | nil => exact .inl hkind
  | cons h _ ih =>
    obtain hkind | hpad := ih hkind
    · exact (h.kind_cases hkind hnot).imp_right List.mem_singleton.mp
    · exact .inr hpad

theorem PadSplit.framed (h : PadSplit pad f f') (hf : f.Framed) : f'.Framed := by
  obtain ⟨preds, landing, incoming, f₁, -, -, hcopied, rfl⟩ := h
  have hf₁ := hcopied.framed hf
  exact ⟨SameFrame.whole ⟨_, rfl, size_insts_withInst f₁ landing _⟩ hf₁.whole, hf₁.inArena, hf₁.nodup⟩

theorem PadSplit.closed (h : PadSplit pad f f') (hf : f.Closed) : f'.Closed := by
  obtain ⟨preds, landing, incoming, f₁, hpreds, -, hcopied, rfl⟩ := h
  have hf₁ := hcopied.closed hf fun pred hpred => ((mem_edgesInto hpreds).mp hpred).1
  exact ⟨hf₁.inArena, hf₁.toLive⟩

/-- Splitting a landing pad adds phis and landing pads only. -/
theorem PadSplit.kind_cases (h : PadSplit pad f f') {i : InstId} {kind : InstKind}
    (hkind : f'.kind i = .ok kind) (hnot : kind.isPhi = false) :
    f.kind i = .ok kind ∨ kind = .landingPad := by
  obtain ⟨preds, landing, incoming, f₁, -, -, hcopied, rfl⟩ := h
  refine hcopied.kind_cases ?_ hnot
  obtain ⟨inst, hinst, rfl⟩ := kind_eq_ok.mp hkind
  rw [inst_withInst] at hinst
  split at hinst
  · obtain ⟨inst₁, -, rfl⟩ := Checked.map_eq_ok.mp hinst
    cases hnot
  · exact kind_eq_ok.mpr ⟨inst, hinst, rfl⟩

theorem PadSplit.sameHeader (h : PadSplit pad f f') : f.SameHeader f' := by
  obtain ⟨preds, landing, incoming, f₁, -, -, hcopied, rfl⟩ := h
  exact hcopied.sameHeader.trans ⟨f₁.blocks, f₁.layout, _, f₁.annotations, rfl⟩

/-- The edges into a landing pad come from different blocks. -/
theorem nodup_predecessors (hnodup : f.layout.Nodup)
    (hpad : ∀ a ∈ f.layout, f.Edge a pad → f.Unwinds a pad) {preds : List BlockId}
    (hpreds : f.predecessors pad = .ok preds) : preds.Nodup := by
  refine nodup_edgesInto hnodup (fun a ha succs hsuccs => ?_) hpreds
  by_cases hedge : pad ∈ succs
  · obtain ⟨normal, hsuccs', hne⟩ := (hpad a ha ⟨succs, hsuccs, hedge⟩).successors
    obtain rfl := Except.ok.inj (hsuccs.symm.trans hsuccs')
    rw [List.count_cons_of_ne hne]
    simp
  · rw [List.count_eq_zero.mpr hedge]
    exact Nat.zero_le _

end Function

namespace Edit

variable {f f' : Function} {pad : BlockId}

theorem does_mapM_cons {α β : Type} {g : α → Edit β} {a : α} {rest : List α} {results : List β} :
    ((a :: rest).mapM g).Does f results f' ↔
      ∃ b f₁ results', (g a).Does f b f₁ ∧ (rest.mapM g).Does f₁ results' f' ∧
        results = b :: results' := by
  rw [List.mapM_cons, does_bind]
  constructor
  · rintro ⟨b, f₁, hb, h⟩
    obtain ⟨results', f₂, hrest, h⟩ := does_bind.mp h
    obtain ⟨rfl, rfl⟩ := does_pure.mp h
    exact ⟨b, f₁, results', hb, hrest, rfl⟩
  · rintro ⟨b, f₁, results', hb, hrest, rfl⟩
    exact ⟨b, f₁, hb, does_bind.mpr ⟨results', f', hrest, does_pure.mpr ⟨rfl, rfl⟩⟩⟩

theorem copyPad_does (hf : f.Whole) {pred : BlockId} (hpred : f.Unwinds pred pad)
    {name valueName : String} {loc : Option DebugLoc} {n : Nat} {result : Value × BlockId}
    (h : (copyPad pad name valueName loc n pred).Does f result f') :
    f.Rerouted pred 1 pad [.landingPad] f' ∧
      result = (.inst ⟨f.insts.size⟩, ⟨f.blocks.size⟩) := by
  obtain ⟨blk, callee, args, normal, hblk, hterm, hnormal⟩ := hpred
  have hpadLt : pad.index < f.blocks.size := hf.successors pred blk hblk pad
    (by simp [hterm, Terminator.successors])
  -- The copy, and the edge to it.
  obtain ⟨copy, f₁, hadd, h⟩ := does_bind.mp h
  have hadd := does_apply.mp hadd
  rw [Function.addBlockBefore_eq] at hadd
  obtain ⟨rfl, rfl⟩ := Prod.mk.inj (Except.ok.inj hadd)
  obtain ⟨value, f₁, hpush, h⟩ := does_bind.mp h
  obtain ⟨rfl, rfl⟩ := Function.pushInst_eq_ok (does_apply.mp hpush)
  obtain ⟨u₁, f₂, hset, h⟩ := does_bind.mp h
  obtain ⟨-, rfl⟩ := Function.modifyBlock_eq_ok.mp (does_update.mp hset)
  obtain ⟨u₂, f₃, hunwind, h⟩ := does_bind.mp h
  obtain ⟨-, hf₃⟩ := Function.modifyBlock_eq_ok.mp (does_update.mp hunwind)
  have hdetour : f.Detour pred 1 pad [.landingPad] f₃ :=
    hf₃ ▸ Function.detour_copy _ rfl rfl ⟨blk, callee, args, normal, hblk, hterm, hnormal⟩
  have hinsts : ∀ i : InstId, i.index < f.insts.size → f₃.inst i = f.inst i := by
    intro i hi
    rw [hf₃, Function.inst_withBlock, Function.inst_withBlock]
    exact Function.inst_withNewInst_of_lt _ _ _ hi
  -- The phis of the pad.
  obtain ⟨u₃, f₄, hupdate, h⟩ := does_bind.mp h
  obtain ⟨rfl, rfl⟩ := does_pure.mp h
  obtain ⟨phis, hphis, hfold⟩ := Checked.bind_eq_ok.mp (does_update.mp hupdate)
  obtain ⟨blk₀, hblk₀, -, hsource⟩ := hdetour.source
  obtain rfl := Except.ok.inj (hblk.symm.trans hblk₀)
  refine ⟨Function.Detour.rerouted hf hdetour hinsts (Function.successors_of_block hsource) hphis ?_, rfl⟩
  have hkept : (blk.term.setSuccessor 1 ⟨f.blocks.size⟩).successors.contains pad = false := by
    have hpad : pad ≠ ⟨f.blocks.size⟩ := Function.Detour.ne_new hpadLt
    rw [Terminator.successors_setSuccessor, hterm]
    simp [Terminator.successors, hnormal.symm, hpad]
  rw [hkept]
  exact hfold

/-- Each predecessor of a pad gets its own copy. -/
theorem copyPads_does (hf : f.Whole) {name valueName : String} {loc : Option DebugLoc}
    {preds : List (BlockId × Nat)} (hnodup : (preds.map (·.1)).Nodup)
    (hpreds : ∀ pred ∈ preds, f.Unwinds pred.1 pad) {incoming : List (Value × BlockId)}
    (h : (preds.mapM fun (pred, n) => copyPad pad name valueName loc (n + 1) pred).Does f incoming
      f') : f.Copied pad (preds.map (·.1)) incoming f' := by
  induction preds generalizing f incoming with
  | nil =>
    obtain ⟨rfl, rfl⟩ := does_pure.mp h
    exact .nil
  | cons pred rest ih =>
    obtain ⟨hfirst, hrest⟩ := List.forall_mem_cons.mp hpreds
    obtain ⟨hnot, hnodup⟩ := List.nodup_cons.mp hnodup
    obtain ⟨result, f₁, results, hcopy, hlater, rfl⟩ := does_mapM_cons.mp h
    obtain ⟨hrerouted, rfl⟩ := copyPad_does hf hfirst hcopy
    refine .cons hrerouted (ih (hrerouted.whole hf) hnodup (fun p hp => ?_) hlater)
    exact hrerouted.unwinds (ne_of_mem_of_not_mem (List.mem_map_of_mem hp) hnot) (hrest p hp)

/-- What splitting a landing pad does. -/
theorem splitLandingPad_does {pads : List BlockId} (hf : Function.Splittable pads f)
    (hmem : pad ∈ pads) {u : Unit}
    (h : (splitLandingPad pad).Does f u f') : Function.PadSplit pad f f' := by
  obtain ⟨preds, f₁, hquery, h⟩ := does_bind.mp h
  obtain ⟨hpreds, rfl⟩ := does_query.mp hquery
  obtain ⟨unwound, f₁, hquery, h⟩ := does_bind.mp h
  obtain ⟨-, rfl⟩ := does_query.mp hquery
  obtain ⟨landing?, f₁, hquery, h⟩ := does_bind.mp h
  obtain ⟨hlanding, rfl⟩ := does_query.mp hquery
  split at h
  · obtain ⟨blk, f₁, hquery, h⟩ := does_bind.mp h
    obtain ⟨-, rfl⟩ := does_query.mp hquery
    obtain ⟨inst, f₁, hquery, h⟩ := does_bind.mp h
    obtain ⟨-, rfl⟩ := does_query.mp hquery
    obtain ⟨incoming, f₁, hcopies, h⟩ := does_bind.mp h
    obtain ⟨-, rfl⟩ := Function.modifyInst_eq_ok.mp (does_update.mp h)
    have hmap : preds.zipIdx.map (·.1) = preds := List.zipIdx_map_fst 0 preds
    refine ⟨preds, _, incoming, f₁, hpreds, hlanding, ?_, rfl⟩
    rw [← hmap]
    have hunwinds := hf.unwinds pad hmem
    refine copyPads_does hf.whole
      (hmap.symm ▸ Function.nodup_predecessors hf.nodup hunwinds hpreds) (fun p hp => ?_) hcopies
    have hpred : p.1 ∈ preds := hmap ▸ List.mem_map_of_mem hp
    obtain ⟨hlive, hedge⟩ := (Function.mem_edgesInto hpreds).mp hpred
    exact hunwinds p.1 hlive hedge
  · obtain ⟨g, f₁, -, h⟩ := does_bind.mp h
    exact absurd h not_does_throw

/-- Pads that can be split are split in turn. -/
theorem splitLandingPads_does {pads : List BlockId} (hnodup : pads.Nodup)
    (hf : Function.Splittable pads f) {u : Unit} (h : (pads.forM splitLandingPad).Does f u f') :
    InTurn Function.PadSplit pads f f' := by
  refine (h.inTurn.imp (fun pads f => pads.Nodup ∧ Function.Splittable pads f) ?_ ⟨hnodup, hf⟩).1
  rintro pad rest f f' ⟨hnodup, hf⟩ hstep
  have hsplit := splitLandingPad_does hf List.mem_cons_self hstep
  obtain ⟨hnot, hnodup⟩ := List.nodup_cons.mp hnodup
  have hrest : Function.Splittable rest f := {
    whole := hf.whole
    nodup := hf.nodup
    inArena := hf.inArena
    live := fun other hother => hf.live other (List.mem_cons_of_mem _ hother)
    unwinds := fun other hother => hf.unwinds other (List.mem_cons_of_mem _ hother) }
  refine ⟨hsplit, hnodup, ?_⟩
  obtain ⟨preds, landing, incoming, f₁, -, -, hcopied, rfl⟩ := hsplit
  exact (hrest.copied hcopied hnot).withInst

/-- What splitting the shared landing pads of a well-formed function does. -/
theorem splitSharedLandingPads_does {m : Module} (hf : f.WellFormed m) {count : Nat}
    (h : splitSharedLandingPads.Does f count f') :
    ∃ shared, f.sharedLandingPads = .ok shared ∧ count = shared.length ∧
      InTurn Function.PadSplit shared f f' := by
  obtain ⟨shared, f₁, hquery, h⟩ := does_bind.mp h
  obtain ⟨hshared, rfl⟩ := does_query.mp hquery
  obtain ⟨u, f₁, hsplit, h⟩ := does_bind.mp h
  obtain ⟨rfl, rfl⟩ := does_pure.mp h
  have hnodup := hf.nodup.sublist (Function.sharedLandingPads_eq_ok hshared).1
  exact ⟨shared, hshared, rfl, splitLandingPads_does hnodup (hf.splittable hshared) hsplit⟩

end Edit

end EdgeProbe
