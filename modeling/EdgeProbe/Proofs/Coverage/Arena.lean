import EdgeProbe.Proofs.Probe.Symbols
import EdgeProbe.Proofs.Probe.Placed

/-!
# What instrumenting adds to the code

Whatever a function is like, what instrumenting adds to its instructions are phis, landing pads and
the code of probes, which is added as a whole (`Function.Probed`). In classic mode the slots of
these probes lie below the power of two that they were drawn for. Main statement:
`Pass.Instrumentation.Valid.probed`.
-/

namespace EdgeProbe

namespace Function

variable {f f₁ f' : Function}

/-- The functions have the same instructions, but for their phis, and no block is lost. -/
structure SameWork (f f' : Function) : Prop where
  size : f'.insts.size = f.insts.size
  blocks : f.blocks.size ≤ f'.blocks.size
  kind_iff : ∀ i (kind : InstKind), kind.isPhi = false →
    (f'.kind i = .ok kind ↔ f.kind i = .ok kind)

theorem SameWork.refl (f : Function) : f.SameWork f :=
  ⟨rfl, le_rfl, fun _ _ _ => .rfl⟩

theorem SameWork.trans (h : f.SameWork f₁) (h' : f₁.SameWork f') : f.SameWork f' :=
  ⟨h'.size.trans h.size, h.blocks.trans h'.blocks, fun i kind hkind =>
    (h'.kind_iff i kind hkind).trans (h.kind_iff i kind hkind)⟩

theorem sameWork_modifyBlock {b : BlockId} {change : Block → Block}
    (h : f.modifyBlock b change = .ok f') : f.SameWork f' := by
  obtain ⟨-, rfl⟩ := modifyBlock_eq_ok.mp h
  exact ⟨rfl, (size_blocks_withBlock f b change).ge, fun _ _ _ => .rfl⟩

/-- Changes of phis are none of other instructions. -/
theorem sameWork_modifyInst {id : InstId} {change : InstKind → InstKind}
    (hphi : ∀ kind, (change kind).isPhi = kind.isPhi)
    (hother : ∀ kind, kind.isPhi = false → change kind = kind)
    (h : f.modifyInst id (fun i => { i with kind := change i.kind }) = .ok f') : f.SameWork f' := by
  obtain ⟨-, rfl⟩ := modifyInst_eq_ok.mp h
  refine ⟨size_insts_withInst f id _, le_rfl, fun i kind hkind => ?_⟩
  rw [kind_eq_ok, kind_eq_ok, inst_withInst]
  by_cases heq : i = id
  · rw [if_pos heq]
    constructor
    · rintro ⟨inst', hinst', rfl⟩
      obtain ⟨inst, hinst, rfl⟩ := Checked.map_eq_ok.mp hinst'
      have hold : inst.kind.isPhi = false := (hphi inst.kind).symm.trans hkind
      exact ⟨inst, hinst, (hother inst.kind hold).symm⟩
    · rintro ⟨inst, hinst, rfl⟩
      exact ⟨_, Checked.map_eq_ok.mpr ⟨inst, hinst, rfl⟩, hother inst.kind hkind⟩
  · rw [if_neg heq]

theorem sameWork_foldlM {ids : List InstId} {change : InstKind → InstKind}
    (hphi : ∀ kind, (change kind).isPhi = kind.isPhi)
    (hother : ∀ kind, kind.isPhi = false → change kind = kind)
    (h : ids.foldlM (fun f id => f.modifyInst id fun i => { i with kind := change i.kind }) f =
      .ok f') : f.SameWork f' := by
  induction ids generalizing f with
  | nil =>
    obtain rfl := Checked.pure_eq_ok.mp h
    exact .refl f
  | cons id rest ih =>
    rw [List.foldlM_cons] at h
    obtain ⟨f₁, hf₁, h⟩ := Checked.bind_eq_ok.mp h
    exact (sameWork_modifyInst hphi hother hf₁).trans (ih h)

theorem sameWork_copyPhiIncoming {block source copy : BlockId}
    (h : f.copyPhiIncoming block source copy = .ok f') : f.SameWork f' := by
  obtain ⟨phis, -, h⟩ := Checked.bind_eq_ok.mp h
  refine sameWork_foldlM (fun kind => ?_) (fun kind hkind => ?_) h
  · cases kind with
    | phi ty incoming =>
      unfold copyIncoming
      dsimp only
      split <;> rfl
    | _ => rfl
  · cases kind with
    | phi ty incoming => cases hkind
    | _ => rfl

theorem sameWork_replacePhiIncomingBlock {block source target : BlockId}
    (h : f.replacePhiIncomingBlock block source target = .ok f') : f.SameWork f' := by
  obtain ⟨phis, -, h⟩ := Checked.bind_eq_ok.mp h
  refine sameWork_foldlM (fun kind => ?_) (fun kind hkind => ?_) h
  · cases kind <;> rfl
  · cases kind with
    | phi ty incoming => cases hkind
    | _ => rfl

/-! ## Landing pads -/

/-- Besides phis, the second function has nothing but what the first one has and landing pads. -/
structure Padded (f f' : Function) : Prop where
  size : f.insts.size ≤ f'.insts.size
  kind_cases : ∀ i (kind : InstKind), f'.kind i = .ok kind → kind.isPhi = false →
    f.kind i = .ok kind ∨ kind = .landingPad

theorem Padded.refl (f : Function) : f.Padded f :=
  ⟨le_rfl, fun _ _ hkind _ => .inl hkind⟩

theorem Padded.trans (h : f.Padded f₁) (h' : f₁.Padded f') : f.Padded f' := by
  refine ⟨h.size.trans h'.size, fun i kind hkind hnot => ?_⟩
  obtain hold | hpad := h'.kind_cases i kind hkind hnot
  · exact h.kind_cases i kind hold hnot
  · exact .inr hpad

theorem SameWork.padded (h : f.SameWork f') : f.Padded f' :=
  ⟨h.size.ge, fun i kind hkind hnot => .inl ((h.kind_iff i kind hnot).mp hkind)⟩

theorem padded_pushInst {b : BlockId} {name : String} {loc : Option DebugLoc} {id : InstId}
    (h : f.pushInst b .landingPad name loc = .ok (f', id)) : f.Padded f' := by
  obtain ⟨-, rfl⟩ := pushInst_eq_ok h
  refine ⟨by rw [size_insts_withNewInst]; omega, fun i kind hkind _ => ?_⟩
  obtain ⟨inst, hinst, rfl⟩ := kind_eq_ok.mp hkind
  rw [inst_withNewInst] at hinst
  split at hinst
  · obtain rfl := Except.ok.inj hinst
    exact .inr rfl
  · exact .inl (kind_eq_ok.mpr ⟨inst, hinst, rfl⟩)

theorem padded_replaceKind {id : InstId} {ty : Ty} {incoming : List (Value × BlockId)}
    (h : f.replaceKind id (.phi ty incoming) = .ok f') : f.Padded f' := by
  obtain ⟨-, rfl⟩ := modifyInst_eq_ok.mp h
  refine ⟨(size_insts_withInst f id _).ge, fun i kind hkind hnot => ?_⟩
  obtain ⟨inst, hinst, rfl⟩ := kind_eq_ok.mp hkind
  rw [inst_withInst] at hinst
  split at hinst
  · obtain ⟨old, -, rfl⟩ := Checked.map_eq_ok.mp hinst
    cases hnot
  · exact .inl (kind_eq_ok.mpr ⟨inst, hinst, rfl⟩)

end Function

namespace Edit

variable {f f' : Function}

theorem copyPad_padded {pad pred : BlockId} {name valueName : String} {loc : Option DebugLoc}
    {n : Nat} {result : Value × BlockId}
    (h : (copyPad pad name valueName loc n pred).Does f result f') : f.Padded f' := by
  obtain ⟨copy, f₁, hadd, h⟩ := does_bind.mp h
  obtain ⟨rfl, rfl⟩ := Prod.mk.inj (Except.ok.inj (does_apply.mp hadd))
  obtain ⟨value, f₂, hpush, h⟩ := does_bind.mp h
  obtain ⟨u₁, f₃, hterm, h⟩ := does_bind.mp h
  obtain ⟨u₂, f₄, hunwind, h⟩ := does_bind.mp h
  obtain ⟨u₃, f₅, hphis, h⟩ := does_bind.mp h
  obtain ⟨-, rfl⟩ := does_pure.mp h
  have hnew : f.Padded (f.addBlockBefore (name ++ "." ++ toString n) pad).1 :=
    ⟨le_rfl, fun _ _ hkind _ => .inl hkind⟩
  exact hnew.trans ((Function.padded_pushInst (does_apply.mp hpush)).trans
    ((Function.sameWork_modifyBlock (does_update.mp hterm)).trans
      ((Function.sameWork_modifyBlock (does_update.mp hunwind)).trans
        (Function.sameWork_replacePhiIncomingBlock (does_update.mp hphis)))).padded)

theorem copyPads_padded {pad : BlockId} {name valueName : String} {loc : Option DebugLoc}
    {preds : List (BlockId × Nat)} {incoming : List (Value × BlockId)}
    (h : (preds.mapM fun (pred, n) => copyPad pad name valueName loc (n + 1) pred).Does f incoming
      f') : f.Padded f' := by
  induction preds generalizing f incoming with
  | nil =>
    obtain ⟨-, rfl⟩ := does_pure.mp h
    exact .refl f
  | cons entry rest ih =>
    obtain ⟨result, f₁, results, hcopy, hrest, rfl⟩ := does_mapM_cons.mp h
    exact (copyPad_padded hcopy).trans (ih hrest)

theorem splitLandingPad_padded {pad : BlockId} {u : Unit}
    (h : (splitLandingPad pad).Does f u f') : f.Padded f' := by
  obtain ⟨preds, f₁, hquery, h⟩ := does_bind.mp h
  obtain ⟨-, rfl⟩ := does_query.mp hquery
  obtain ⟨unwound, f₁, hquery, h⟩ := does_bind.mp h
  obtain ⟨-, rfl⟩ := does_query.mp hquery
  obtain ⟨landing?, f₁, hquery, h⟩ := does_bind.mp h
  obtain ⟨-, rfl⟩ := does_query.mp hquery
  split at h
  · obtain ⟨blk, f₁, hquery, h⟩ := does_bind.mp h
    obtain ⟨-, rfl⟩ := does_query.mp hquery
    obtain ⟨inst, f₁, hquery, h⟩ := does_bind.mp h
    obtain ⟨-, rfl⟩ := does_query.mp hquery
    obtain ⟨incoming, f₁, hcopies, h⟩ := does_bind.mp h
    exact (copyPads_padded hcopies).trans (Function.padded_replaceKind (does_update.mp h))
  · obtain ⟨g, f₁, -, h⟩ := does_bind.mp h
    exact absurd h not_does_throw

theorem splitSharedLandingPads_padded {count : Nat}
    (h : splitSharedLandingPads.Does f count f') : f.Padded f' := by
  obtain ⟨shared, f₁, hquery, h⟩ := does_bind.mp h
  obtain ⟨-, rfl⟩ := does_query.mp hquery
  obtain ⟨u, f₁, hloop, h⟩ := does_bind.mp h
  obtain ⟨-, rfl⟩ := does_pure.mp h
  exact hloop.forM f.Padded (fun pad _ f₁ f₂ hf₁ hsplit =>
    hf₁.trans (splitLandingPad_padded hsplit)) (.refl f)

end Edit

theorem Pass.PadsSplit.padded {f f' : Function} (h : PadsSplit f f') : f.Padded f' := by
  obtain ⟨-, rfl⟩ | ⟨-, count, h⟩ := h
  · exact .refl f'
  · exact Edit.splitSharedLandingPads_padded h

/-! ## Probes -/

namespace Function

variable {f f' : Function} {hooks : Hooks} {base bound : Nat}

/-- The code that counts at a slot begins at an instruction, and all of it is there. -/
def CountsAt (f : Function) (hooks : Hooks) (first slot : Nat) : Prop :=
  ∀ (k : Nat) kind, (hooks.countCode first slot)[k]? = some kind → f.kind ⟨first + k⟩ = .ok kind

/-- From an instruction on there are only phis, landing pads and the code of probes, each of which
is there as a whole and has a slot below the bound. -/
def Probed (hooks : Hooks) (base bound : Nat) (f : Function) : Prop :=
  ∀ i (kind : InstKind), f.kind i = .ok kind → base ≤ i.index → kind.isPhi = false →
    kind = .landingPad ∨ (∃ id, kind ∈ hooks.traceCode id) ∨
      ∃ first slot k, base ≤ first ∧ slot < bound ∧ f.CountsAt hooks first slot ∧
        (hooks.countCode first slot)[k]? = some kind ∧ i = ⟨first + k⟩

theorem Padded.probed (h : f.Padded f') (hooks : Hooks) (bound : Nat) :
    f'.Probed hooks f.insts.size bound := by
  intro i kind hkind hbase hnot
  obtain hold | hpad := h.kind_cases i kind hkind hnot
  · exact absurd (index_lt_of_kind hold) hbase.not_gt
  · exact .inl hpad

theorem CountsAt.of_work {first slot : Nat} (h : f.CountsAt hooks first slot)
    (hwork : f.SameWork f') : f'.CountsAt hooks first slot := fun k kind hk =>
  (hwork.kind_iff _ kind (Hooks.plain_of_mem_countCode (List.mem_of_getElem? hk)).1).mpr
    (h k kind hk)

theorem Probed.of_work (h : f.Probed hooks base bound) (hwork : f.SameWork f') :
    f'.Probed hooks base bound := by
  intro i kind hkind hbase hnot
  obtain hpad | htrace | ⟨first, slot, k, hfirst, hslot, hcounts, hk, rfl⟩ :=
    h i kind ((hwork.kind_iff i kind hnot).mp hkind) hbase hnot
  · exact .inl hpad
  · exact .inr (.inl htrace)
  · exact .inr (.inr ⟨first, slot, k, hfirst, hslot, hcounts.of_work hwork, hk, rfl⟩)

theorem CountsAt.withInsts {first slot : Nat} (h : f.CountsAt hooks first slot) (b : BlockId)
    (pos : Nat) (kinds : List InstKind) : (f.withInsts b pos kinds).CountsAt hooks first slot := by
  intro k kind hk
  have hold := h k kind hk
  rw [kind_withInsts_of_lt f b pos kinds (index_lt_of_kind hold), hold]

/-- The code that counts is there once a probe has been placed. -/
theorem countsAt_withProbe (f : Function) (hooks : Hooks) (b : BlockId) (pos id slot : Nat) :
    (f.withInsts b pos (hooks.probeCode f.insts.size id slot)).CountsAt hooks
      (f.insts.size + (hooks.traceCode id).length) slot := by
  intro k kind hk
  rw [Nat.add_assoc]
  refine kind_withInsts_new ?_
  rw [Hooks.probeCode, List.getElem?_append_right (Nat.le_add_right _ _), Nat.add_sub_cancel_left,
    hk]

/-- One more probe is placed. -/
theorem Probed.withProbe (h : f.Probed hooks base bound) (hbase : base ≤ f.insts.size) (b : BlockId)
    (pos id : Nat) {slot : Nat} (hslot : slot < bound) :
    (f.withInsts b pos (hooks.probeCode f.insts.size id slot)).Probed hooks base bound := by
  intro i kind hkind hindex hnot
  obtain hold | ⟨k, hk, rfl⟩ := kind_withInsts_cases hkind
  · obtain hpad | htrace | ⟨first, slot', k, hfirst, hslot', hcounts, hk, rfl⟩ :=
      h i kind hold hindex hnot
    · exact .inl hpad
    · exact .inr (.inl htrace)
    · exact .inr (.inr ⟨first, slot', k, hfirst, hslot', hcounts.withInsts b pos _, hk, rfl⟩)
  · rw [Hooks.probeCode] at hk
    obtain hlead | hcount := Nat.lt_or_ge k (hooks.traceCode id).length
    · rw [List.getElem?_append_left hlead] at hk
      exact .inr (.inl ⟨id, List.mem_of_getElem? hk⟩)
    · rw [List.getElem?_append_right hcount] at hk
      refine .inr (.inr ⟨f.insts.size + (hooks.traceCode id).length, slot, _,
        hbase.trans (Nat.le_add_right _ _), hslot, f.countsAt_withProbe hooks b pos id slot, hk, ?_⟩)
      congr 1
      omega

end Function

namespace Edit

variable {f f' : Function} {hooks : Hooks} {base bound id slot : Nat}

/-- The code of a probe is put in, and no other code is changed but phis. -/
def Probing (hooks : Hooks) (id slot : Nat) (f f' : Function) : Prop :=
  ∃ f₁ b pos, f.SameWork f₁ ∧ f' = f₁.withInsts b pos (hooks.probeCode f₁.insts.size id slot)

theorem Probing.probed (h : Probing hooks id slot f f') (hbase : base ≤ f.insts.size)
    (hf : f.Probed hooks base bound) (hslot : slot < bound) :
    base ≤ f'.insts.size ∧ f'.Probed hooks base bound := by
  obtain ⟨f₁, b, pos, hwork, rfl⟩ := h
  rw [← hwork.size] at hbase
  refine ⟨?_, (hf.of_work hwork).withProbe hbase b pos id hslot⟩
  rw [Function.size_insts_withInsts]
  exact hbase.trans (Nat.le_add_right _ _)

theorem placeProbe_probing {b : BlockId} {blk : Block} {pos : Nat} {u : Unit}
    (hblk : f.block b = .ok blk) (hpos : pos ≤ blk.insts.length)
    (h : (placeProbe hooks b pos id slot).Does f u f') : Probing hooks id slot f f' := by
  obtain ⟨-, rfl⟩ := h.unique (placeProbe_does hblk hpos id slot)
  exact ⟨f, b, pos, .refl f, rfl⟩

theorem Probing.of_work {f₁ : Function} (h : Probing hooks id slot f₁ f') (hwork : f.SameWork f₁) :
    Probing hooks id slot f f' := by
  obtain ⟨f₂, b, pos, hwork', rfl⟩ := h
  exact ⟨f₂, b, pos, hwork.trans hwork', rfl⟩

theorem probeEntry_probing {u : Unit} (h : (probeEntry hooks id slot).Does f u f') :
    f' = f ∨ Probing hooks id slot f f' := by
  have hplaced : f.Placed hooks id slot (.entry ⟨0⟩) f' := probeEntry_does h
  cases hplaced with
  | bodiless => exact .inl rfl
  | entry hentry hpos => exact .inr ⟨f, _, _, .refl f, rfl⟩

theorem probeTarget_probing {target : BlockId} {u : Unit}
    (h : (probeTarget hooks target id slot).Does f u f') : Probing hooks id slot f f' := by
  obtain ⟨name, pos, -, -, rfl⟩ := probeTarget_does h
  refine ⟨f.withBlock target fun b => { b with name }, target, pos, ⟨rfl, ?_, fun _ _ _ => .rfl⟩, rfl⟩
  exact (Function.size_blocks_withBlock f target _).ge

theorem probeEdge_probing {block target : BlockId} {index : Nat} {u : Unit}
    (h : (probeEdge hooks block index target id slot).Does f u f') :
    Probing hooks id slot f f' := by
  obtain ⟨probe, f₁, hadd, h⟩ := does_bind.mp h
  have hnew : f.SameWork f₁ ∧ probe.index < f₁.blocks.size := by
    obtain ⟨rfl, rfl⟩ := Prod.mk.inj (Except.ok.inj (does_apply.mp hadd))
    refine ⟨⟨rfl, ?_, fun _ _ _ => .rfl⟩, ?_⟩
    · exact (Nat.le_succ _).trans (Array.size_push _).ge
    · exact (Nat.lt_succ_self _).trans_eq (Array.size_push _).symm
  clear hadd
  obtain ⟨u₁, f₂, hterm, h⟩ := does_bind.mp h
  have hwork₂ := Function.sameWork_modifyBlock (does_update.mp hterm)
  obtain ⟨u₂, f₃, hredirect, h⟩ := does_bind.mp h
  have hwork₃ := Function.sameWork_modifyBlock (does_update.mp hredirect)
  obtain ⟨succs, f₃, hquery, h⟩ := does_bind.mp h
  obtain ⟨-, rfl⟩ := does_query.mp hquery
  have hend : ∀ f₄, f₃.SameWork f₄ → (placeProbe hooks probe 0 id slot).Does f₄ u f' →
      Probing hooks id slot f f' := by
    intro f₄ hwork₄ h
    have hwork := hwork₂.trans (hwork₃.trans hwork₄)
    obtain ⟨blk, hblk⟩ := Function.exists_block (hnew.2.trans_le hwork.blocks)
    exact (placeProbe_probing hblk (Nat.zero_le _) h).of_work (hnew.1.trans hwork)
  dsimp only at h
  split at h
  · obtain ⟨u₃, f₄, hphis, h⟩ := does_bind.mp h
    exact hend f₄ (Function.sameWork_copyPhiIncoming (does_update.mp hphis)) h
  · obtain ⟨u₃, f₄, hphis, h⟩ := does_bind.mp h
    exact hend f₄ (Function.sameWork_replacePhiIncomingBlock (does_update.mp hphis)) h

theorem placePlanned_probing {planned : PlannedProbe} {u : Unit}
    (h : (placePlanned hooks planned).Does f u f') :
    f' = f ∨ Probing hooks planned.id planned.slot f f' := by
  obtain ⟨site, id, slot⟩ := planned
  cases site with
  | entry function => exact probeEntry_probing h
  | edge function block index =>
    obtain ⟨succs, f₁, hquery, h⟩ := does_bind.mp h
    obtain ⟨-, rfl⟩ := does_query.mp hquery
    split at h
    · obtain ⟨-, rfl⟩ := does_pure.mp h
      exact .inl rfl
    · obtain ⟨sole, f₁, hquery, h⟩ := does_bind.mp h
      obtain ⟨-, rfl⟩ := does_query.mp hquery
      split at h
      · exact .inr (probeTarget_probing h)
      · exact .inr (probeEdge_probing h)

/-- Probes are placed one after another. -/
theorem placeAll_probed {plan : List PlannedProbe} (hslots : ∀ planned ∈ plan, planned.slot < bound)
    (h : InTurn (fun planned f f' => (placePlanned hooks planned).Does f () f') plan f f')
    (hbase : base ≤ f.insts.size) (hf : f.Probed hooks base bound) :
    f'.Probed hooks base bound := by
  refine (h.keeps (fun f => base ≤ f.insts.size ∧ f.Probed hooks base bound)
    (fun planned hplanned f₁ f₂ hf₁ hstep => ?_) ⟨hbase, hf⟩).2
  obtain rfl | hprobing := placePlanned_probing hstep
  · exact hf₁
  · exact hprobing.probed hf₁.1 hf₁.2 (hslots planned hplanned)

end Edit

/-! ## The whole pass -/

/-- Numbers of so many bits are drawn. -/
theorem Random.below_lt {bits : Nat} (h : bits ≤ 32) (word : UInt32) : below bits word < 2 ^ bits := by
  have hword : word.toNat < 2 ^ bits * 2 ^ (32 - bits) := by
    rw [← Nat.pow_add, Nat.add_sub_cancel' h]
    exact word.toNat_lt
  rw [below, Nat.shiftRight_eq_div_pow]
  exact Nat.div_lt_of_lt_mul (by rwa [Nat.mul_comm])

/-- How many instructions a function has, whether they are listed or not. -/
def Module.instCount (m : Module) (id : FuncId) : Nat :=
  (m.functions[id.index]?.map fun f => f.insts.size).getD 0

namespace Config

variable {config : Config} {size : Nat}

theorem mapSize_bounds (h : config.mapSize = .ok size) : 0 < size ∧ size < 2 ^ 32 := by
  have hsize : config.mapSize? = .ok size := by
    unfold mapSize at h
    split at h
    · next heq => exact heq.trans (congrArg Except.ok (Except.ok.inj h))
    · cases h
  unfold mapSize? largestMapSizeKib at hsize
  dsimp only at hsize
  split at hsize
  · cases hsize
  · split at hsize
    · obtain rfl := Except.ok.inj hsize
      decide
    · split at hsize
      · obtain rfl := Except.ok.inj hsize
        decide
      · obtain rfl := Except.ok.inj hsize
        omega

end Config

namespace Pass.Instrumentation

variable {config : Config} {drawn : UInt64} {m m' : Module} {report : InstrumentReport}
  {i : Instrumentation config drawn m report m'} {id : FuncId} {f f' : Function}

/-- In classic mode a slot is below the largest power of two within the map. -/
theorem Valid.slot_lt (hi : i.Valid) (hclassic : config.denseIds = false) {planned : PlannedProbe}
    (h : planned ∈ i.plan) : planned.slot < 2 ^ Nat.log2 i.mapSize := by
  obtain ⟨n, -, -, hslot⟩ := mem_planProbes.mp h
  rw [hslot, hclassic, if_neg Bool.false_ne_true]
  obtain ⟨hpos, hlt⟩ := Config.mapSize_bounds hi.mapSize
  exact Random.below_lt (Nat.lt_succ_iff.mp ((Nat.log2_lt hpos.ne').mpr (hlt.trans (by decide)))) _

/-- What is in a function but was not is the work of probes. -/
theorem Valid.probed (hi : i.Valid) (hsymbols : m.WithoutSymbols) (hclassic : config.denseIds = false)
    (hid : m'.function id = .ok f') :
    f'.Probed i.hooks (m.instCount id) (2 ^ Nat.log2 i.mapSize) := by
  have hnone : f'.insts = #[] → f'.Probed i.hooks (m.instCount id) (2 ^ Nat.log2 i.mapSize) := by
    intro hinsts j kind hkind
    have hlt := Function.index_lt_of_kind hkind
    simp [hinsts] at hlt
  obtain ⟨f, hf, hf'⟩ | rfl | ⟨name, value, rfl⟩ := hi.function_cases hsymbols hid
  · obtain ⟨f₀, hf₀, hsplit⟩ := hi.split.exists_function hf
    have hdeclared := Module.function_withHooks hf config
    rw [hi.declared] at hdeclared
    obtain ⟨f₁, hf₁, hturns⟩ := hi.placed.functions id f hdeclared
    obtain rfl := Except.ok.inj (hf'.symm.trans hf₁)
    have hcount : m.instCount id = f₀.insts.size := by
      rw [Module.instCount, Module.function_eq_ok.mp hf₀]
      rfl
    rw [hcount]
    exact Edit.placeAll_probed (fun planned hplanned =>
      hi.slot_lt hclassic (List.mem_of_mem_filter hplanned)) hturns hsplit.padded.size
      (hsplit.padded.probed _ _)
  · exact hnone rfl
  · exact hnone rfl

end Pass.Instrumentation

end EdgeProbe
