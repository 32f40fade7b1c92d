import EdgeProbe.Proofs.Validity.Pads

/-!
# Invocations with landing pads of their own

Splitting the shared landing pads of an accepted function comes to an end, and each of its landing
pads is entered from one block afterwards. A function that is sound and whose entry no edge leads to
stays so. Main statements: `Edit.exists_splitSharedLandingPads`, `Edit.exists_splitSound` and
`Pass.exists_splitAllPads`.
-/

namespace EdgeProbe

namespace Function

variable {m : Module} {f f' : Function} {block target pad b : BlockId} {index : Nat}
  {kinds : List InstKind} {rest : List BlockId}

/-! ## Blocks entered from one place -/

/-- No live edge leads to the entry. -/
def Rooted (f : Function) : Prop :=
  ∀ e, f.entryBlock? = some e → ∀ a ∈ f.layout, ¬f.Edge a e

/-- All live edges into the block come from one block. -/
def SoleSource (f : Function) (b : BlockId) : Prop :=
  ∀ a ∈ f.layout, ∀ a' ∈ f.layout, f.Edge a b → f.Edge a' b → a = a'

/-- Each landing pad but these is entered from one block. -/
def PadsSole (f : Function) (rest : List BlockId) : Prop :=
  ∀ id b k, f.Listed id b k → f.kind id = .ok .landingPad → b ∈ rest ∨ f.SoleSource b

/-- A landing pad that all edges enter from one block has one predecessor. -/
theorem Landed.predecessors_eq (hf : f.Landed fun _ => False) {id : InstId} {k : Nat}
    (hid : f.Listed id b k) (hkind : f.kind id = .ok .landingPad) (hsole : f.SoleSource b) :
    ∃ a ∈ f.layout, f.predecessors b = .ok [a] ∧ f.Edge a b := by
  obtain ⟨⟨a, ha, hedge⟩, hunwinds⟩ := hf.padEdges id b k hid hkind not_false
  obtain ⟨preds, hpreds⟩ := exists_edgesInto b hf.closed.inArena
  have hnodup := nodup_predecessors hf.layout hunwinds hpreds
  have honly : ∀ a' ∈ preds, a' = a := fun a' ha' =>
    have hmem := (mem_edgesInto hpreds).mp ha'
    hsole a' hmem.1 a ha hmem.2 hedge
  have hmem : a ∈ preds := (mem_edgesInto hpreds).mpr ⟨ha, hedge⟩
  have hperm : preds.Perm [a] := (List.perm_ext_iff_of_nodup hnodup (List.nodup_singleton a)).mpr
    fun a' => ⟨fun ha' => List.mem_singleton.mpr (honly a' ha'),
      fun ha' => List.mem_singleton.mp ha' ▸ hmem⟩
  exact ⟨a, ha, List.perm_singleton.mp hperm ▸ hpreds, hedge⟩

section

variable (h : f.Rerouted block index target kinds f') (hf : f.Whole) (hclosed : f.Closed)
  (hlive : block ∈ f.layout)
include h hf hlive

omit hf in
theorem Rooted.ne_entry (hroot : f.Rooted) : f.entryBlock? ≠ some target :=
  fun he => hroot target he block hlive h.edge_source

include hclosed

theorem Rerouted.rooted (hroot : f.Rooted) : f'.Rooted := by
  intro e he' a ha hedge
  have hne := hroot.ne_entry h hlive
  have he := h.entryBlock?_eq hlive hne he'
  obtain ⟨-, rfl⟩ | ⟨-, rfl⟩ | hold := h.edge_cases hedge
  · exact hne he
  · exact Detour.ne_new_of_live hclosed (mem_layout_of_entryBlock? he) rfl
  · obtain rfl | ha := h.mem_layout.mp ha
    · exact (Detour.ne_new_of_edge hf hold).1 rfl
    · exact hroot e he a ha hold

/-- The pads are those from before, of which only the target gets more ways in, and the new block. -/
theorem Rerouted.padsSole (hpads : f.PadsSole rest)
    (htarget : ∀ id k, f.Listed id target k → f.kind id = .ok .landingPad → target ∈ rest) :
    f'.PadsSole rest := by
  have hlayout : ∀ {a b}, a ∈ f'.layout → f.Edge a b → a ∈ f.layout := fun ha hold =>
    (h.mem_layout.mp ha).resolve_left (Detour.ne_new_of_edge hf hold).1
  intro id b k hid hkind
  obtain ⟨rfl, -⟩ | hid₀ := h.listed_cases hid
  · refine .inr fun a ha a' ha' hedge hedge' => ?_
    have honly : ∀ {a}, f'.Edge a ⟨f.blocks.size⟩ → a = block := by
      intro a hedge
      obtain ⟨-, heq⟩ | ⟨rfl, -⟩ | hold := h.edge_cases hedge
      · exact absurd heq.symm (Detour.ne_new_of_edge hf h.edge_source).2
      · rfl
      · exact absurd rfl (Detour.ne_new_of_edge hf hold).2
    rw [honly hedge, honly hedge']
  have hkind₀ : f.kind id = .ok .landingPad := by
    obtain ⟨-, blk, hblk, hpos⟩ := hid₀
    exact h.kind_of_lt (hf.insts b blk hblk id (List.mem_of_getElem? hpos)) hkind rfl
  by_cases hb : b = target
  · subst hb
    exact .inl (htarget id k hid₀ hkind₀)
  refine (hpads id b k hid₀ hkind₀).imp_right fun hsole a ha a' ha' hedge hedge' => ?_
  have hold : ∀ {a}, f'.Edge a b → f.Edge a b := by
    intro a hedge
    obtain ⟨-, heq⟩ | ⟨-, rfl⟩ | hold := h.edge_cases hedge
    · exact absurd heq hb
    · exact absurd rfl (Detour.ne_new_of_live hclosed hid₀.1)
    · exact hold
  exact hsole a (hlayout ha (hold hedge)) a' (hlayout ha' (hold hedge')) (hold hedge) (hold hedge')

end

/-! ## Splitting one pad -/

theorem Copied.rooted {preds : List BlockId} {incoming : List (Value × BlockId)}
    (h : f.Copied pad preds incoming f') (hf : f.Whole) (hclosed : f.Closed)
    (hlive : ∀ pred ∈ preds, pred ∈ f.layout) (hroot : f.Rooted) : f'.Rooted := by
  induction h with
  | nil => exact hroot
  | cons h _ ih =>
    obtain ⟨hfirst, hrest⟩ := List.forall_mem_cons.mp hlive
    exact ih (h.whole hf) (h.closed hclosed hfirst) (fun p hp => h.mem_layout.mpr (.inr (hrest p hp)))
      (h.rooted hf hclosed hfirst hroot)

theorem Copied.padsSole {preds : List BlockId} {incoming : List (Value × BlockId)}
    (h : f.Copied pad preds incoming f') (hf : f.Whole) (hclosed : f.Closed)
    (hlive : ∀ pred ∈ preds, pred ∈ f.layout) (hpads : f.PadsSole rest) (hmem : pad ∈ rest) :
    f'.PadsSole rest := by
  induction h with
  | nil => exact hpads
  | cons h _ ih =>
    obtain ⟨hfirst, hrest⟩ := List.forall_mem_cons.mp hlive
    exact ih (h.whole hf) (h.closed hclosed hfirst) (fun p hp => h.mem_layout.mpr (.inr (hrest p hp)))
      (h.padsSole hf hclosed hfirst hpads fun _ _ _ _ => hmem)

/-- These landing pads may still be shared. -/
structure Dividing (f : Function) (rest : List BlockId) : Prop where
  landed : f.Landed fun _ => False
  nodup : rest.Nodup
  pads : ∀ pad ∈ rest, f.Lands pad
  sole : f.PadsSole rest

/-- Besides, the function is sound and no edge leads to its entry. -/
structure Splitting (m : Module) (f : Function) (rest : List BlockId) : Prop
    extends f.Dividing rest where
  sound : f.Sound m fun _ => False
  rooted : f.Rooted

namespace Dividing

variable (hf : f.Dividing (pad :: rest))
include hf

theorem live : pad ∈ f.layout := by
  obtain ⟨id, k, hid, -⟩ := hf.pads pad List.mem_cons_self
  exact hid.1

theorem splittable : Splittable (pad :: rest) f where
  whole := hf.landed.whole
  inArena := hf.landed.closed.inArena
  nodup := hf.landed.layout
  live := fun p hp => by
    obtain ⟨id, k, hid, -⟩ := hf.pads p hp
    exact hid.1
  unwinds := fun p hp => by
    obtain ⟨id, k, hid, hkind⟩ := hf.pads p hp
    exact (hf.landed.padEdges id p k hid hkind not_false).2

/-- Once a pad has been split there is one less to split. -/
theorem padSplit (h : PadSplit pad f f') : f'.Dividing rest := by
  have hlanded := h.landed hf.landed hf.live
  obtain ⟨preds, landing, incoming, f₁, hpreds, hlanding, hcopied, rfl⟩ := h
  obtain ⟨⟨k, hid⟩, hkind⟩ := listed_of_landingPadInst? hf.live hlanding
  have hlive : ∀ pred ∈ preds, pred ∈ f.layout := fun pred hpred => ((mem_edgesInto hpreds).mp hpred).1
  have hkept : ∀ {id}, f.kind id = .ok .landingPad → f₁.kind id = .ok .landingPad := by
    intro id hkind
    obtain ⟨inst, hinst, hsame⟩ := kind_eq_ok.mp hkind
    exact kind_eq_ok.mpr ⟨inst, hcopied.inst_eq hinst (by rw [hsame]; rfl), hsame⟩
  refine ⟨hlanded, (List.nodup_cons.mp hf.nodup).2, fun p hp => ?_, fun id b k' hid' hkind' => ?_⟩
  · obtain ⟨id, k', hid', hkind'⟩ := hf.pads p (List.mem_cons_of_mem _ hp)
    refine ⟨id, k', hcopied.listed_old hid', (kind_withPadPhi_of_ne ?_).trans (hkept hkind')⟩
    rintro rfl
    obtain ⟨inst, hinst, hblock⟩ := hf.landed.home id pad k hid
    obtain ⟨inst', hinst', hblock'⟩ := hf.landed.home id p k' hid'
    obtain rfl := Except.ok.inj (hinst.symm.trans hinst')
    obtain rfl := Option.some.inj (hblock.symm.trans hblock')
    exact (List.nodup_cons.mp hf.nodup).1 hp
  · obtain ⟨-, heq⟩ | ⟨hne, hold⟩ := kind_withPadPhi_cases (hkept hkind) hkind'
    · cases heq
    have hd := hf.landed.divertible hid hkind hpreds
    have hf₁ : f₁.Landed (· = pad) := hcopied.landed hf.landed.exempting hd
    obtain hmem | hsole := hcopied.padsSole hf.landed.whole hf.landed.closed hlive hf.sole
      List.mem_cons_self id b k' hid' hold
    · refine .inl ((List.mem_cons.mp hmem).resolve_left ?_)
      rintro rfl
      exact hne (hf₁.landingPad_unique hid' hold (hcopied.listed_old hid) (hkept hkind))
    · exact .inr hsole

end Dividing

theorem Splitting.ne_entry (hf : f.Splitting m (pad :: rest)) : f.entryBlock? ≠ some pad := by
  obtain ⟨id, k, hid, hkind⟩ := hf.pads pad List.mem_cons_self
  obtain ⟨⟨a, ha, hedge⟩, -⟩ := hf.landed.padEdges id pad k hid hkind not_false
  exact fun he => hf.rooted pad he a ha hedge

theorem Splitting.padSplit (hf : f.Splitting m (pad :: rest)) (h : PadSplit pad f f') :
    f'.Splitting m rest where
  toDividing := hf.toDividing.padSplit h
  sound := h.sound hf.sound hf.toDividing.live hf.ne_entry
  rooted := by
    obtain ⟨preds, landing, incoming, f₁, hpreds, -, hcopied, rfl⟩ := h
    exact hcopied.rooted hf.landed.whole hf.landed.closed
      (fun pred hpred => ((mem_edgesInto hpreds).mp hpred).1) hf.rooted

/-- Of the landing pads of a function, those are shared that several blocks lead to. -/
theorem Landed.dividing (hf : f.Landed fun _ => False) {shared : List BlockId}
    (hshared : f.sharedLandingPads = .ok shared) : f.Dividing shared := by
  obtain ⟨hsub, hiff⟩ := sharedLandingPads_eq_ok hshared
  refine ⟨hf, hf.layout.sublist hsub, fun pad hpad => ?_, fun id b k hid hkind => ?_⟩
  · exact exists_landingPad (hsub.subset hpad) ((hiff pad (hsub.subset hpad)).mp hpad).1
  · obtain ⟨preds, hpreds⟩ := exists_edgesInto b hf.closed.inArena
    by_cases hlt : 1 < preds.length
    · have hpad := isLandingPad_of_lead hid hkind (hf.padsLead id b k hid hkind)
      exact .inl ((hiff b hid.1).mpr ⟨hpad, preds, hpreds, hlt⟩)
    · refine .inr fun a ha a' ha' hedge hedge' => ?_
      have hmem := (mem_edgesInto hpreds).mpr ⟨ha, hedge⟩
      have hmem' := (mem_edgesInto hpreds).mpr ⟨ha', hedge'⟩
      obtain ⟨only, rfl⟩ := List.length_eq_one_iff.mp
        (Nat.le_antisymm (Nat.not_lt.mp hlt) (List.length_pos_of_mem hmem))
      rw [List.mem_singleton.mp hmem, List.mem_singleton.mp hmem']

/-- The shared landing pads can be told. -/
theorem Whole.exists_sharedLandingPads (hf : f.Whole) (hclosed : f.Closed) :
    ∃ shared, f.sharedLandingPads = .ok shared := by
  obtain ⟨map, hmap⟩ := hclosed.predecessorMap_eq_ok
  obtain ⟨shared, hshared⟩ := Checked.exists_filterM (p := fun id => do
      if ← f.isLandingPad id then return decide (1 < (map.getD id []).length) else return false)
    fun pad hpad => by
      obtain ⟨leads, hleads⟩ := hf.exists_isLandingPad (hclosed.inArena pad hpad)
      cases leads with
      | true => exact ⟨_, by rw [hleads]; rfl⟩
      | false => exact ⟨false, by rw [hleads]; rfl⟩
  exact ⟨shared, Checked.bind_eq_ok.mpr ⟨map, hmap, hshared⟩⟩

theorem allUnwind_eq_true {preds : List BlockId} (h : ∀ pred ∈ preds, f.Unwinds pred pad) :
    f.allUnwind pad preds = .ok true := by
  induction preds with
  | nil => rfl
  | cons pred rest ih =>
    obtain ⟨⟨blk, callee, args, normal, hblk, hterm, -⟩, hrest⟩ := List.forall_mem_cons.mp h
    have hfirst : f.unwindsTo pad pred = .ok true := by
      simp [unwindsTo, hblk, hterm, bind, Except.bind, pure, Except.pure]
    simp [allUnwind, hfirst, ih hrest, bind, Except.bind]

/-- The landing pad of a block can be told. -/
theorem Whole.exists_landingPadInst? (hf : f.Whole) {id : InstId} {k : Nat}
    (hid : f.Listed id pad k) (hkind : f.kind id = .ok .landingPad) :
    ∃ landing, f.landingPadInst? pad = .ok (some landing) ∧ landing.index < f.insts.size := by
  obtain ⟨-, blk, hblk, hpos⟩ := hid
  obtain ⟨found, hfound, hlt, hsome⟩ := exists_firstWith? InstKind.isLandingPad (hf.insts pad blk hblk)
  obtain ⟨landing, rfl⟩ :=
    Option.isSome_iff_exists.mp (hsome id (List.mem_of_getElem? hpos) _ hkind rfl)
  exact ⟨landing, Checked.bind_eq_ok.mpr ⟨blk, hblk, hfound⟩, hlt landing rfl⟩

end Function

namespace Edit

variable {m : Module} {f : Function} {pad : BlockId}

/-! ## Splitting comes to an end -/

theorem exists_copyPad (hf : f.Whole) {pred : BlockId} (hpred : f.Unwinds pred pad)
    (name valueName : String) (loc : Option DebugLoc) (n : Nat) :
    ∃ result f', (copyPad pad name valueName loc n pred).Does f result f' := by
  obtain ⟨normal, hsuccs, -⟩ := hpred.successors
  have hpad : pad.index < f.blocks.size := hf.successors_lt hsuccs (by simp)
  let inst : Inst := { kind := .landingPad, name := valueName, loc, block := some ⟨f.blocks.size⟩ }
  have hdetour := Function.detour_copy (name ++ "." ++ toString n)
    (show inst.kind = .landingPad from rfl) rfl hpred
  have hlt := hdetour.index_lt
  have hpads : ∀ s ∈ [pad], s.index < f.blocks.size + 1 := fun s hs => by
    rw [List.mem_singleton.mp hs]
    exact hpad.trans (Nat.lt_succ_self _)
  obtain ⟨f', hf', -⟩ := (hdetour.whole hf).exists_replacePhiIncomingBlock
    (hdetour.size.symm ▸ hpads) (Function.Detour.ne_new hlt)
  obtain ⟨f₁, hf₁, hrest⟩ := Checked.bind_eq_ok.mp hf'
  obtain rfl := Checked.pure_eq_ok.mp hrest
  refine ⟨(.inst ⟨f.insts.size⟩, ⟨f.blocks.size⟩), f₁, ?_⟩
  refine does_bind.mpr ⟨_, _, does_apply.mpr
    (congrArg Except.ok (Function.addBlockBefore_eq (name ++ "." ++ toString n) pad)), ?_⟩
  refine does_bind.mpr ⟨_, _, does_apply.mpr (Function.pushInst_eq (by simp) _ _ _), ?_⟩
  refine does_bind.mpr ⟨(), _, does_update.mpr (Function.modifyBlock_eq_ok.mpr ⟨by simp, rfl⟩), ?_⟩
  refine does_bind.mpr ⟨(), _, does_update.mpr
    (Function.modifyBlock_eq_ok.mpr ⟨by simp; omega, rfl⟩), ?_⟩
  exact does_bind.mpr ⟨(), f₁, does_update.mpr hf₁, does_pure.mpr ⟨rfl, rfl⟩⟩

theorem exists_copyPads (hf : f.Whole) {preds : List (BlockId × Nat)}
    (hd : f.Divertible pad (preds.map (·.1))) (name valueName : String) (loc : Option DebugLoc) :
    ∃ incoming f', (preds.mapM fun (pred, n) => copyPad pad name valueName loc (n + 1) pred).Does f
      incoming f' := by
  induction preds generalizing f with
  | nil => exact ⟨[], f, does_pure.mpr ⟨rfl, rfl⟩⟩
  | cons pred rest ih =>
    have hfirst := hd.unwinds pred.1 List.mem_cons_self
    obtain ⟨result, f₁, hcopy⟩ := exists_copyPad hf hfirst name valueName loc (pred.2 + 1)
    obtain ⟨hrerouted, -⟩ := copyPad_does hf hfirst hcopy
    obtain ⟨results, f', hrest⟩ := ih (hrerouted.whole hf) (hd.rerouted hrerouted)
    exact ⟨_, f', does_mapM_cons.mpr ⟨result, f₁, results, hcopy, hrest, rfl⟩⟩

theorem exists_splitLandingPad {rest : List BlockId} (hf : f.Dividing (pad :: rest)) :
    ∃ f', (splitLandingPad pad).Does f () f' := by
  obtain ⟨id, k, hid, hkind⟩ := hf.pads pad List.mem_cons_self
  have hwhole := hf.landed.whole
  obtain ⟨preds, hpreds⟩ := Function.exists_edgesInto pad hf.landed.closed.inArena
  have hd := hf.landed.divertible hid hkind hpreds
  obtain ⟨landing, hlanding, hlt⟩ := hwhole.exists_landingPadInst? hid hkind
  obtain ⟨blk, hblk⟩ := Function.exists_block (hf.landed.closed.inArena pad hid.1)
  obtain ⟨inst, hinst⟩ := Function.exists_inst hlt
  have hmap : preds.zipIdx.map (·.1) = preds := List.zipIdx_map_fst 0 preds
  obtain ⟨incoming, f₁, hcopies⟩ := exists_copyPads hwhole (hmap.symm ▸ hd) blk.name inst.name inst.loc
  have hcopied := copyPads_does hwhole (hmap.symm ▸ hd.nodup)
    (fun p hp => hd.unwinds p.1 (hmap ▸ List.mem_map_of_mem hp)) hcopies
  refine ⟨f₁.withInst landing fun i => { i with kind := .phi .ptr incoming }, ?_⟩
  refine does_bind.mpr ⟨preds, f, does_query.mpr ⟨hpreds, rfl⟩, ?_⟩
  refine does_bind.mpr ⟨true, f, does_query.mpr ⟨Function.allUnwind_eq_true hd.unwinds, rfl⟩, ?_⟩
  refine does_bind.mpr ⟨some landing, f, does_query.mpr ⟨hlanding, rfl⟩, ?_⟩
  refine does_bind.mpr ⟨blk, f, does_query.mpr ⟨hblk, rfl⟩, ?_⟩
  refine does_bind.mpr ⟨inst, f, does_query.mpr ⟨hinst, rfl⟩, ?_⟩
  refine does_bind.mpr ⟨incoming, f₁, hcopies, does_update.mpr (Function.modifyInst_eq_ok.mpr ⟨?_, rfl⟩)⟩
  exact hlt.trans_le hcopied.size_insts

/-- The landing pads that are left are split in turn. -/
theorem exists_splitLandingPads {pads : List BlockId} (hf : f.Dividing pads) :
    ∃ f', (pads.forM splitLandingPad).Does f () f' ∧ f'.Dividing [] ∧
      InTurn Function.PadSplit pads f f' := by
  induction pads generalizing f with
  | nil => exact ⟨f, does_pure.mpr ⟨rfl, rfl⟩, hf, .nil⟩
  | cons pad rest ih =>
    obtain ⟨f₁, hsplit⟩ := exists_splitLandingPad hf
    have hpad := splitLandingPad_does hf.splittable List.mem_cons_self hsplit
    obtain ⟨f', hrest, hf', hturns⟩ := ih (hf.padSplit hpad)
    exact ⟨f', does_forM.mpr ⟨f₁, hsplit, hrest⟩, hf', .cons hpad hturns⟩

/-- The shared landing pads of a function can be split, after which none is shared. -/
theorem exists_splitSharedLandingPads (hf : f.Landed fun _ => False) :
    ∃ shared f', f.sharedLandingPads = .ok shared ∧
      splitSharedLandingPads.Does f shared.length f' ∧ f'.Dividing [] ∧
        InTurn Function.PadSplit shared f f' := by
  obtain ⟨shared, hshared⟩ := hf.whole.exists_sharedLandingPads hf.closed
  obtain ⟨f', hsplit, hf', hturns⟩ := exists_splitLandingPads (hf.dividing hshared)
  refine ⟨shared, f', hshared, does_bind.mpr ⟨shared, f, does_query.mpr ⟨hshared, rfl⟩, ?_⟩, hf',
    hturns⟩
  exact does_bind.mpr ⟨(), f', hsplit, does_pure.mpr ⟨rfl, rfl⟩⟩

/-- When the function is sound and no edge leads to its entry, this is so afterwards too. -/
theorem exists_splitSound (hs : f.Sound m fun _ => False) (hroot : f.Rooted) :
    ∃ count f', splitSharedLandingPads.Does f count f' ∧ f'.Splitting m [] ∧ f.SameHeader f' := by
  obtain ⟨shared, f', hshared, hdoes, -, hturns⟩ := exists_splitSharedLandingPads hs.landed
  have hf : f.Splitting m shared := ⟨hs.landed.dividing hshared, hs, hroot⟩
  have hkeeps : ∀ {pads f f'}, InTurn Function.PadSplit pads f f' → f.Splitting m pads →
      f'.Splitting m [] ∧ f.SameHeader f' := by
    intro pads f f' hturns hf
    induction hturns with
    | nil => exact ⟨hf, .refl _⟩
    | cons hpad _ ih =>
      obtain ⟨hf', hheader⟩ := ih (hf.padSplit hpad)
      exact ⟨hf', hpad.sameHeader.trans hheader⟩
  exact ⟨shared.length, f', hdoes, hkeeps hturns hf⟩

end Edit

/-- The landing pads of functions that have a body are as in an accepted one. -/
def Module.Landed (m : Module) : Prop :=
  ∀ id f, m.function id = .ok f → f.isDeclaration = true ∨ f.Landed fun _ => False

namespace Pass

variable {s : PassState}

/-- The landing pads of a function can be split. -/
theorem exists_splitPads {id : FuncId} {f : Function} (hid : s.module.function id = .ok f)
    (hf : f.isDeclaration = true ∨ f.Landed fun _ => False) :
    ∃ f' s', (splitPads id).Does s () s' ∧ s'.module = s.module.setFunction id f' ∧
      (f'.isDeclaration = true ∨ f'.Landed fun _ => False) := by
  cases hbody : f.isDeclaration with
  | true =>
    refine ⟨f, s, does_bind.mpr ⟨f, s, does_query.mpr ⟨hid, rfl⟩, ?_⟩,
      (Module.setFunction_self hid).symm, hf⟩
    rw [if_pos hbody]
    exact does_pure.mpr ⟨rfl, rfl⟩
  | false =>
    obtain ⟨shared, f', -, hsplit, hf', -⟩ :=
      Edit.exists_splitSharedLandingPads (hf.resolve_left (by simp [hbody]))
    have hin : (inFunction id Edit.splitSharedLandingPads).Does s shared.length
        { s with module := s.module.setFunction id f' } :=
      does_inFunction.mpr ⟨f, f', hid, hsplit, rfl⟩
    obtain ⟨s', hrest, hs'⟩ : ∃ s', (if 0 < shared.length then
        debug ("Split " ++ toString shared.length ++ " shared landing pad(s) in " ++ f.name)
          else pure () : Pass Unit).Does { s with module := s.module.setFunction id f' } () s' ∧
        s'.module = s.module.setFunction id f' := by
      split
      · exact ⟨_, rfl, rfl⟩
      · exact ⟨_, does_pure.mpr ⟨rfl, rfl⟩, rfl⟩
    refine ⟨f', s', does_bind.mpr ⟨f, s, does_query.mpr ⟨hid, rfl⟩, ?_⟩, hs', .inr hf'.landed⟩
    rw [if_neg (by simp [hbody])]
    exact does_bind.mpr ⟨_, _, hin, hrest⟩

/-- So can those of all functions. -/
theorem exists_splitAllPads (hm : s.module.Landed) :
    ∃ s', (s.module.functionIds.forM splitPads).Does s () s' := by
  have hstep : ∀ id ∈ s.module.functionIds, ∀ t : PassState,
      t.module.functions.size = s.module.functions.size ∧ t.module.Landed →
      ∃ t', (splitPads id).Does t () t' ∧
        t'.module.functions.size = s.module.functions.size ∧ t'.module.Landed := by
    rintro id hid t ⟨hsize, hlanded⟩
    obtain ⟨f, hf⟩ := Module.exists_function (hsize ▸ Module.mem_functionIds.mp hid)
    obtain ⟨f', t', hdoes, ht', hf'⟩ := exists_splitPads hf (hlanded id f hf)
    refine ⟨t', hdoes, ?_, fun i g hg => ?_⟩
    · rw [ht', ← hsize]
      simp [Module.setFunction]
    · rw [ht', Module.function_setFunction (Module.index_lt_of_function hf)] at hg
      split at hg
      · exact Except.ok.inj hg ▸ hf'
      · exact hlanded i g hg
  obtain ⟨s', hdoes, -⟩ := exists_forM (fun t => t.module.functions.size = s.module.functions.size ∧
    t.module.Landed) hstep ⟨rfl, hm⟩
  exact ⟨s', hdoes⟩

end Pass

end EdgeProbe
