import EdgeProbe.Probe.Instrument
import EdgeProbe.Proofs.Code.Body
import EdgeProbe.Proofs.Code.Inserted
import EdgeProbe.Proofs.Code.Whole
import EdgeProbe.Proofs.Flow.Path

/-!
# Edges led through a new block

What a function looks like once one of its edges has been led through a new block right before its
target: that block branches to the target, whose phis now name it. Probes on edges and copies of
landing pads come about like this.
-/

namespace EdgeProbe

namespace Terminator

@[simp] theorem successors_setSuccessor (term : Terminator) (index : Nat) (target : BlockId) :
    (term.setSuccessor index target).successors = term.successors.set index target := by
  cases term with
  | switch value default cases =>
    cases index with
    | zero => rfl
    | succ k =>
      simp only [setSuccessor, successors, List.set_cons_succ, List.cons.injEq, true_and]
      apply List.ext_getElem?
      intro i
      rw [List.getElem?_map, List.getElem?_modify, List.getElem?_set, List.getElem?_map]
      by_cases hi : k = i
      · subst hi
        cases hget : cases[k]? with
        | none => simp [List.getElem?_eq_none_iff.mp hget]
        | some case => simp [(List.getElem?_eq_some_iff.mp hget).1]
      · simp [hi]
  | br _ | condBr _ _ _ | invoke _ _ _ _ => rcases index with _ | _ | index <;> rfl
  | ret _ | resume _ | unreachable => rfl

@[simp] theorem operands_setSuccessor (term : Terminator) (index : Nat) (target : BlockId) :
    (term.setSuccessor index target).operands = term.operands := by
  cases term <;> rcases index with _ | _ | index <;> rfl

end Terminator

namespace InstKind

/-- What a phi holds once an edge from `source` has been led through `copy`. Other edges of `source`
may still lead to the block of the phi. -/
def retarget (kept : Bool) (source copy : BlockId) (kind : InstKind) : InstKind :=
  if kept then Function.copyIncoming source copy kind else kind.renameIncoming source copy

@[simp] theorem isPhi_copyIncoming (source copy : BlockId) (kind : InstKind) :
    (Function.copyIncoming source copy kind).isPhi = kind.isPhi := by
  cases kind with
  | phi ty incoming =>
    simp only [Function.copyIncoming]
    split <;> rfl
  | _ => rfl

@[simp] theorem isPhi_retarget (kept : Bool) (source copy : BlockId) (kind : InstKind) :
    (kind.retarget kept source copy).isPhi = kind.isPhi := by
  unfold retarget
  split <;> simp

/-- The entries of a phi once an edge from `source` has been led through `copy`. -/
def retargetIncoming (kept : Bool) (source copy : BlockId) (incoming : List (Value × BlockId)) :
    List (Value × BlockId) :=
  if kept then
    match incoming.find? fun entry => entry.2 == source with
    | some entry => incoming ++ [(entry.1, copy)]
    | none => incoming
  else
    incoming.map fun entry => if entry.2 == source then (entry.1, copy) else entry

section

variable {kept : Bool} {source copy : BlockId} {incoming : List (Value × BlockId)}

theorem retarget_phi (kept : Bool) (source copy : BlockId) (ty : Ty)
    (incoming : List (Value × BlockId)) : (phi ty incoming).retarget kept source copy =
      .phi ty (retargetIncoming kept source copy incoming) := by
  unfold retarget retargetIncoming
  split
  · rw [Function.copyIncoming]
    cases incoming.find? fun entry => entry.2 == source <;> rfl
  · rfl

/-- An entry is a copy of the one for the source, or was there before. -/
theorem mem_retargetIncoming {entry : Value × BlockId}
    (h : entry ∈ retargetIncoming kept source copy incoming) :
    entry.2 = copy ∧ (entry.1, source) ∈ incoming ∨
      entry ∈ incoming ∧ (kept = true ∨ entry.2 ≠ source) := by
  unfold retargetIncoming at h
  split at h
  · next hkept =>
    split at h
    · next found hfound =>
      obtain h | h := List.mem_append.mp h
      · exact .inr ⟨h, .inl hkept⟩
      · obtain rfl := List.mem_singleton.mp h
        have hsource : found.2 = source := by simpa using List.find?_some hfound
        exact .inl ⟨rfl, hsource ▸ List.mem_of_find?_eq_some hfound⟩
    · exact .inr ⟨h, .inl hkept⟩
  · obtain ⟨entry₀, hmem, rfl⟩ := List.mem_map.mp h
    by_cases hsource : entry₀.2 = source
    · rw [if_pos (beq_iff_eq.mpr hsource)]
      exact .inl ⟨rfl, hsource ▸ hmem⟩
    · rw [if_neg (by simpa using hsource)]
      exact .inr ⟨hmem, .inr hsource⟩

theorem mem_values_retargetIncoming {value : Value}
    (h : value ∈ (retargetIncoming kept source copy incoming).map (·.1)) :
    value ∈ incoming.map (·.1) := by
  obtain ⟨entry, hentry, rfl⟩ := List.mem_map.mp h
  obtain ⟨-, hold⟩ | ⟨hold, -⟩ := mem_retargetIncoming hentry
  · exact List.mem_map.mpr ⟨_, hold, rfl⟩
  · exact List.mem_map_of_mem hold

theorem mem_retargetIncoming_of_mem {entry : Value × BlockId} (h : entry ∈ incoming)
    (hkept : kept = true ∨ entry.2 ≠ source) : entry ∈ retargetIncoming kept source copy incoming := by
  unfold retargetIncoming
  split
  · split
    · exact List.mem_append_left _ h
    · exact h
  · next hnot =>
    refine List.mem_map.mpr ⟨entry, h, if_neg ?_⟩
    simpa using hkept.resolve_left hnot

theorem exists_mem_retargetIncoming {value : Value} (h : (value, source) ∈ incoming) :
    ∃ value', (value', copy) ∈ retargetIncoming kept source copy incoming := by
  unfold retargetIncoming
  split
  · obtain ⟨found, hfound⟩ : ∃ found, incoming.find? (fun entry => entry.2 == source) = some found :=
      Option.isSome_iff_exists.mp (List.find?_isSome.mpr ⟨_, h, by simp⟩)
    rw [hfound]
    exact ⟨found.1, by simp⟩
  · exact ⟨value, List.mem_map.mpr ⟨_, h, by simp⟩⟩

theorem nodup_retargetIncoming (hnodup : (incoming.map (·.2)).Nodup)
    (hcopy : copy ∉ incoming.map (·.2)) :
    ((retargetIncoming kept source copy incoming).map (·.2)).Nodup := by
  unfold retargetIncoming
  split
  · split
    · rw [List.map_append, List.nodup_append]
      refine ⟨hnodup, List.nodup_singleton _, fun a ha b hb => ?_⟩
      obtain rfl := List.mem_singleton.mp hb
      exact ne_of_mem_of_not_mem ha hcopy
    · exact hnodup
  · have hmap : (incoming.map fun entry => if entry.2 == source then (entry.1, copy) else entry).map
        (·.2) = (incoming.map (·.2)).map fun b => if b == source then copy else b := by
      rw [List.map_map, List.map_map]
      refine List.map_congr_left fun entry _ => ?_
      simp only [Function.comp_apply]
      split <;> rfl
    rw [hmap]
    refine hnodup.map_on fun a ha b hb heq => ?_
    have hacopy := ne_of_mem_of_not_mem ha hcopy
    have hbcopy := ne_of_mem_of_not_mem hb hcopy
    by_cases hasource : a = source <;> by_cases hbsource : b = source <;>
      simp [hasource, hbsource, hacopy, hbcopy.symm] at heq ⊢
    exact heq

end

end InstKind

namespace Function

variable {f f' : Function}

theorem SameFrame.sameHeader (h : f.SameFrame f') : f.SameHeader f' := by
  obtain ⟨insts, rfl, -⟩ := h
  exact ⟨f.blocks, f.layout, insts, f.annotations, rfl⟩

/-- A change made to several instructions changes no other ones, and these in nothing but their
kinds. -/
theorem foldlM_modifyInst_kinds {ids : List InstId} {change : InstKind → InstKind}
    (hphi : ∀ kind, (change kind).isPhi = kind.isPhi)
    (h : ids.foldlM (fun f id => f.modifyInst id fun i => { i with kind := change i.kind }) f =
      .ok f') :
    f.SameFrame f' ∧ (∀ i ∉ ids, f'.inst i = f.inst i) ∧
      (∀ i inst, f.inst i = .ok inst → ∃ kind, f'.inst i = .ok { inst with kind } ∧
        kind.isPhi = inst.kind.isPhi) ∧
      (ids.Nodup → ∀ i ∈ ids, ∀ kind, f.kind i = .ok kind → f'.kind i = .ok (change kind)) := by
  induction ids generalizing f with
  | nil =>
    obtain rfl := Checked.pure_eq_ok.mp h
    exact ⟨.refl f, fun _ _ => rfl, fun i inst hinst => ⟨inst.kind, hinst, rfl⟩, by simp⟩
  | cons id rest ih =>
    rw [List.foldlM_cons, Checked.bind_eq_ok] at h
    obtain ⟨f₁, hf₁, hrest⟩ := h
    obtain ⟨-, rfl⟩ := modifyInst_eq_ok.mp hf₁
    obtain ⟨hframe, hother, hkinds, hchanged⟩ := ih hrest
    refine ⟨SameFrame.trans ⟨_, rfl, size_insts_withInst f id _⟩ hframe, ?_, ?_, ?_⟩
    · intro i hi
      rw [List.mem_cons, not_or] at hi
      rw [hother i hi.2, inst_withInst, if_neg hi.1]
    · intro i inst hinst
      by_cases heq : i = id
      · obtain ⟨kind, hkind, hsame⟩ := hkinds i { inst with kind := change inst.kind }
          (by rw [inst_withInst, if_pos heq, hinst]; rfl)
        exact ⟨kind, hkind, hsame.trans (hphi inst.kind)⟩
      · exact hkinds i inst (by rw [inst_withInst, if_neg heq, hinst])
    · intro hnodup i hi kind hkind
      obtain ⟨hnot, hnodup⟩ := List.nodup_cons.mp hnodup
      obtain ⟨inst, hinst, rfl⟩ := kind_eq_ok.mp hkind
      obtain rfl | hi := List.mem_cons.mp hi
      · refine kind_eq_ok.mpr ⟨{ inst with kind := change inst.kind }, ?_, rfl⟩
        rw [hother i hnot, inst_withInst, if_pos rfl, hinst]
        rfl
      · refine hchanged hnodup i hi inst.kind (kind_eq_ok.mpr ⟨inst, ?_, rfl⟩)
        rw [inst_withInst, if_neg (ne_of_mem_of_not_mem hi hnot), hinst]

/-- An edge leads through a new block that lists these instructions. -/
structure Detour (f : Function) (block : BlockId) (index : Nat) (target : BlockId)
    (kinds : List InstKind) (f' : Function) : Prop where
  header : f.SameHeader f'
  annotations : f'.annotations = f.annotations
  layout : f'.layout =
    f.layout.insertIdx ((f.layout.idxOf? target).getD f.layout.length) ⟨f.blocks.size⟩
  size : f'.blocks.size = f.blocks.size + 1
  sizeInsts : f'.insts.size = f.insts.size + kinds.length
  new : ∃ name, f'.block ⟨f.blocks.size⟩ = .ok ⟨name, f.nextIds kinds.length, .br target⟩
  source : ∃ blk, f.block block = .ok blk ∧ blk.term.successors[index]? = some target ∧
    f'.block block = .ok { blk with term := blk.term.setSuccessor index ⟨f.blocks.size⟩ }
  rest : ∀ b : BlockId, b ≠ block → b.index ≠ f.blocks.size → f'.block b = f.block b
  added : ∀ (k : Nat) kind, kinds[k]? = some kind → ∃ inst, f'.inst ⟨f.insts.size + k⟩ = .ok inst ∧
    inst.kind = kind ∧ inst.block = some ⟨f.blocks.size⟩

/-- An edge has been led through a new block, which the phis of the target know. -/
structure Rerouted (f : Function) (block : BlockId) (index : Nat) (target : BlockId)
    (kinds : List InstKind) (f' : Function) : Prop
    extends f.Detour block index target kinds f' where
  insts : ∀ i inst, f.inst i = .ok inst → ∃ kind, f'.inst i = .ok { inst with kind } ∧
    kind.isPhi = inst.kind.isPhi ∧ (kind = inst.kind ∨ f.PhiOf [target] i)
  phis : ∀ blk phis, f.block block = .ok blk → f.phis target = .ok phis → phis.Nodup →
    ∀ i ∈ phis, ∀ kind, f.kind i = .ok kind → f'.kind i = .ok (kind.retarget
      ((blk.term.successors.set index ⟨f.blocks.size⟩).contains target) block ⟨f.blocks.size⟩)

namespace Detour

variable {block target b c : BlockId} {index : Nat} {kinds : List InstKind}
  (h : f.Detour block index target kinds f')
include h

theorem index_lt : block.index < f.blocks.size := by
  obtain ⟨blk, hblk, -⟩ := h.source
  exact index_lt_of_block hblk

omit h in
theorem place_le : (f.layout.idxOf? target).getD f.layout.length ≤ f.layout.length := by
  cases hplace : f.layout.idxOf? target with
  | none => exact le_rfl
  | some place =>
    obtain ⟨hlt, -, -⟩ := List.idxOf?_eq_some_iff.mp hplace
    exact hlt.le

theorem mem_layout : b ∈ f'.layout ↔ b = ⟨f.blocks.size⟩ ∨ b ∈ f.layout := by
  rw [h.layout, List.mem_insertIdx place_le]

omit h in
theorem ne_new (hb : b.index < f.blocks.size) : b ≠ ⟨f.blocks.size⟩ := by
  rintro rfl
  exact lt_irrefl _ hb

/-- A block from before lists what it did. -/
theorem block_of_old {blk : Block} (hblk : f.block b = .ok blk) :
    ∃ term, f'.block b = .ok { blk with term } ∧ (b ≠ block → term = blk.term) := by
  by_cases hb : b = block
  · subst hb
    obtain ⟨blk₀, hblk₀, -, hblk'⟩ := h.source
    obtain rfl := Except.ok.inj (hblk.symm.trans hblk₀)
    exact ⟨_, hblk', fun hne => absurd rfl hne⟩
  · refine ⟨blk.term, ?_, fun _ => rfl⟩
    rw [h.rest b hb (index_lt_of_block hblk).ne, hblk]

/-- A block is the new one or one from before, whose terminator is changed at most at the edge. -/
theorem block_cases {blk' : Block} (hblk' : f'.block b = .ok blk') :
    b = ⟨f.blocks.size⟩ ∧ blk'.insts = f.nextIds kinds.length ∧ blk'.term = .br target ∨
      ∃ blk, f.block b = .ok blk ∧ blk'.insts = blk.insts ∧
        (blk'.term = blk.term ∨
          b = block ∧ blk'.term = blk.term.setSuccessor index ⟨f.blocks.size⟩) := by
  by_cases hnew : b = ⟨f.blocks.size⟩
  · obtain ⟨name, hblk⟩ := h.new
    rw [hnew, hblk] at hblk'
    obtain rfl := Except.ok.inj hblk'
    exact .inl ⟨hnew, rfl, rfl⟩
  right
  by_cases hb : b = block
  · subst hb
    obtain ⟨blk, hblk, -, hblk₁⟩ := h.source
    obtain rfl := Except.ok.inj (hblk₁.symm.trans hblk')
    exact ⟨blk, hblk, rfl, .inr ⟨rfl, rfl⟩⟩
  · rw [h.rest b hb fun heq => hnew (congrArg BlockId.mk heq)] at hblk'
    exact ⟨blk', hblk', rfl, .inl rfl⟩

/-- A block that is not the target stays the entry. -/
theorem entryBlock? (he : f.entryBlock? = some b) (hne : target ≠ b) : f'.entryBlock? = some b := by
  obtain ⟨rest, hlayout⟩ := List.head?_eq_some_iff.mp he
  rw [Function.entryBlock?, h.layout, hlayout]
  have hpos : 0 < ((b :: rest).idxOf? target).getD (b :: rest).length := by
    cases hplace : (b :: rest).idxOf? target with
    | none => exact Nat.succ_pos _
    | some place =>
      obtain ⟨hlt, heq, -⟩ := List.idxOf?_eq_some_iff.mp hplace
      refine Nat.pos_of_ne_zero fun hzero => ?_
      simp only [Option.getD_some] at hzero
      subst hzero
      exact hne heq.symm
  obtain ⟨n, hn⟩ := Nat.exists_eq_succ_of_ne_zero hpos.ne'
  rw [hn]
  rfl

theorem successors_new : f'.successors ⟨f.blocks.size⟩ = .ok [target] := by
  obtain ⟨name, hnew⟩ := h.new
  exact successors_of_block hnew

theorem successors_source : ∃ succs, f.successors block = .ok succs ∧ succs[index]? = some target ∧
    f'.successors block = .ok (succs.set index ⟨f.blocks.size⟩) := by
  obtain ⟨blk, hblk, hindex, hblk'⟩ := h.source
  exact ⟨_, successors_of_block hblk, hindex, by simp [successors_of_block hblk']⟩

theorem successors_rest (hb : b ≠ block) (hlt : b.index ≠ f.blocks.size) :
    f'.successors b = f.successors b := by
  rw [successors, successors, h.rest b hb hlt]

/-- An edge is the new one, into the new block, or one from before. -/
theorem edge_cases (hedge : f'.Edge b c) : b = ⟨f.blocks.size⟩ ∧ c = target ∨
    b = block ∧ c = ⟨f.blocks.size⟩ ∨ f.Edge b c := by
  obtain ⟨succs', hsuccs', hc⟩ := hedge
  by_cases hnew : b = ⟨f.blocks.size⟩
  · rw [hnew, h.successors_new] at hsuccs'
    obtain rfl := Except.ok.inj hsuccs'
    exact .inl ⟨hnew, List.mem_singleton.mp hc⟩
  right
  by_cases hblock : b = block
  · subst hblock
    obtain ⟨succs, hsuccs, -, hset⟩ := h.successors_source
    obtain rfl := Except.ok.inj (hset.symm.trans hsuccs')
    obtain hc | rfl := List.mem_or_eq_of_mem_set hc
    · exact .inr ⟨succs, hsuccs, hc⟩
    · exact .inl ⟨rfl, rfl⟩
  · rw [h.successors_rest hblock fun heq => hnew (congrArg BlockId.mk heq)] at hsuccs'
    exact .inr ⟨succs', hsuccs', hc⟩

/-- Edges into other blocks than the two are as they were. -/
theorem count_successors {succs : List BlockId} (hb : b.index < f.blocks.size)
    (hsuccs : f.successors b = .ok succs) (hc : c ≠ target) (hnew : c ≠ ⟨f.blocks.size⟩) :
    ∃ succs', f'.successors b = .ok succs' ∧ succs'.count c = succs.count c := by
  by_cases hblock : b = block
  · subst hblock
    obtain ⟨succs₀, hsuccs₀, hindex, hset⟩ := h.successors_source
    obtain rfl := Except.ok.inj (hsuccs.symm.trans hsuccs₀)
    refine ⟨_, hset, ?_⟩
    obtain ⟨hlt, hget⟩ := List.getElem?_eq_some_iff.mp hindex
    rw [List.count_set hlt, hget]
    simp [hc.symm, hnew.symm]
  · exact ⟨succs, by rw [h.successors_rest hblock hb.ne, hsuccs], rfl⟩

theorem predecessors_of_ne (hf : ∀ b ∈ f.layout, b.index < f.blocks.size)
    {preds : List BlockId} (hpreds : f.predecessors c = .ok preds) (hc : c ≠ target)
    (hnew : c ≠ ⟨f.blocks.size⟩) : f'.predecessors c = .ok preds := by
  have hkept : f'.edgesInto c f.layout = .ok preds :=
    edgesInto_congr (fun b hb succs hsuccs => h.count_successors (hf b hb) hsuccs hc hnew) hpreds
  have hplace : (f.layout.idxOf? target).getD f.layout.length ≤ f.layout.length := place_le
  rw [predecessors, h.layout]
  generalize (f.layout.idxOf? target).getD f.layout.length = place at hplace
  have hsplit : f.layout.insertIdx place ⟨f.blocks.size⟩ =
      f.layout.take place ++ ⟨f.blocks.size⟩ :: f.layout.drop place := by
    have := insertIdx_length_append (f.layout.take place) (f.layout.drop place) ⟨f.blocks.size⟩
    rwa [List.take_append_drop, List.length_take_of_le hplace] at this
  rw [← List.take_append_drop place f.layout] at hkept
  rw [hsplit]
  obtain ⟨front, back, hfront, hback, rfl⟩ := edgesInto_append_eq_ok hkept
  have hcount : [target].count c = 0 := List.count_eq_zero.mpr (by simpa using hc)
  have hmore := edgesInto_cons h.successors_new hback
  rw [hcount] at hmore
  exact edgesInto_append hfront hmore

theorem whole (hf : f.Whole) : f'.Whole where
  insts := fun b blk' hblk' id hid => by
    rw [h.sizeInsts]
    obtain ⟨-, hinsts, -⟩ | ⟨blk, hblk, hinsts, -⟩ := h.block_cases hblk'
    · exact (mem_nextIds.mp (hinsts ▸ hid)).2
    · exact (hf.insts b blk hblk id (hinsts ▸ hid)).trans_le (Nat.le_add_right _ _)
  successors := fun b blk' hblk' s hs => by
    rw [h.size]
    obtain ⟨blk₀, hblk₀, hindex, -⟩ := h.source
    have htarget := hf.successors block blk₀ hblk₀ target (List.mem_of_getElem? hindex)
    obtain ⟨-, -, hterm⟩ | ⟨blk, hblk, -, hterm | ⟨-, hterm⟩⟩ := h.block_cases hblk'
    · rw [hterm] at hs
      obtain rfl := List.mem_singleton.mp hs
      exact htarget.trans (Nat.lt_succ_self _)
    · rw [hterm] at hs
      exact (hf.successors b blk hblk s hs).trans (Nat.lt_succ_self _)
    · rw [hterm, Terminator.successors_setSuccessor] at hs
      obtain hs | rfl := List.mem_or_eq_of_mem_set hs
      · exact (hf.successors b blk hblk s hs).trans (Nat.lt_succ_self _)
      · exact Nat.lt_succ_self _

theorem inArena (hf : ∀ b ∈ f.layout, b.index < f.blocks.size) :
    ∀ b ∈ f'.layout, b.index < f'.blocks.size := by
  intro b hb
  rw [h.size]
  obtain rfl | hb := h.mem_layout.mp hb
  · exact Nat.lt_succ_self _
  · exact (hf b hb).trans (Nat.lt_succ_self _)

theorem nodup_layout (hf : ∀ b ∈ f.layout, b.index < f.blocks.size) (hnodup : f.layout.Nodup) :
    f'.layout.Nodup := by
  rw [h.layout]
  refine (List.perm_insertIdx _ _ place_le).nodup_iff.mpr (List.nodup_cons.mpr ⟨fun hmem => ?_, hnodup⟩)
  exact lt_irrefl _ (hf _ hmem)

theorem framed (hf : f.Framed) : f'.Framed :=
  ⟨h.whole hf.whole, h.inArena hf.inArena, h.nodup_layout hf.inArena hf.nodup⟩

/-- An edge out of a live block may lead through a new one. -/
theorem closed (hf : f.Closed) (hlive : block ∈ f.layout) : f'.Closed where
  inArena := h.inArena hf.inArena
  toLive := by
    intro a ha b hedge
    rw [h.mem_layout] at ha ⊢
    obtain ⟨succs, hsuccs, hindex, -⟩ := h.successors_source
    obtain ⟨-, rfl⟩ | ⟨-, rfl⟩ | hedge := h.edge_cases hedge
    · exact .inr (hf.toLive block hlive _ ⟨succs, hsuccs, List.mem_of_getElem? hindex⟩)
    · exact .inl rfl
    · obtain rfl | ha := ha
      · obtain ⟨succs, hsuccs, -⟩ := hedge
        obtain ⟨blk, hblk, -⟩ := Checked.map_eq_ok.mp hsuccs
        exact absurd (index_lt_of_block hblk) (lt_irrefl _)
      · exact .inr (hf.toLive a ha b hedge)

omit h in
/-- The phis of the target are told. -/
theorem rerouted (hf : f.Whole) {f₁ : Function} (h₁ : f.Detour block index target kinds f₁)
    (hinsts : ∀ i : InstId, i.index < f.insts.size → f₁.inst i = f.inst i) {succs : List BlockId}
    (hsuccs : f₁.successors block = .ok succs) {phis : List InstId}
    (hphis : f₁.phis target = .ok phis)
    (hfold : phis.foldlM (fun g id => g.modifyInst id fun i => { i with
      kind := i.kind.retarget (succs.contains target) block ⟨f.blocks.size⟩ }) f₁ = .ok f') :
    f.Rerouted block index target kinds f' := by
  obtain ⟨hframe, hother, hkinds, hchanged⟩ := foldlM_modifyInst_kinds
    (fun kind => kind.isPhi_retarget (succs.contains target) block ⟨f.blocks.size⟩) hfold
  -- The phis of the target are the same ones as before.
  obtain ⟨blk₁, hblk₁, hlead₁⟩ := phis_eq_ok hphis
  obtain ⟨blk, hblk, hindex, hsource⟩ := h₁.source
  have htarget : target.index < f.blocks.size :=
    hf.successors block blk hblk target (List.mem_of_getElem? hindex)
  obtain ⟨blkT, hblkT⟩ := exists_block htarget
  have hlisted : blk₁.insts = blkT.insts := by
    obtain ⟨term, hblkT', -⟩ := h₁.block_of_old hblkT
    rw [Except.ok.inj (hblk₁.symm.trans hblkT')]
  have hlt : ∀ i ∈ phis, i.index < f.insts.size := fun i hi =>
    hf.insts target blkT hblkT i (hlisted ▸ mem_of_mem_leading hlead₁ hi)
  have hphis₀ : f.phis target = .ok phis := by
    refine Checked.bind_eq_ok.mpr ⟨blkT, hblkT, hlisted ▸ leading_congr (fun i hi kind hkind => ?_) hlead₁⟩
    refine ⟨kind, ?_, rfl⟩
    rw [Function.kind, ← hinsts i (hf.insts target blkT hblkT i (hlisted ▸ hi))]
    exact hkind
  exact {
    header := h₁.header.trans hframe.sameHeader
    annotations := hframe.annotations_eq.trans h₁.annotations
    layout := hframe.layout_eq.trans h₁.layout
    size := by rw [hframe.blocks_eq, h₁.size]
    sizeInsts := hframe.size_eq.trans h₁.sizeInsts
    new := by simpa only [hframe.block_eq] using h₁.new
    source := ⟨blk, hblk, hindex, by rw [hframe.block_eq, hsource]⟩
    rest := fun b hb hne => by rw [hframe.block_eq, h₁.rest b hb hne]
    added := fun k kind hk => by
      have hnot : (⟨f.insts.size + k⟩ : InstId) ∉ phis := fun hi => by
        have := hlt _ hi
        dsimp only at this
        omega
      rw [hother _ hnot]
      exact h₁.added k kind hk
    insts := fun i inst hinst => by
      have hinst₁ := (hinsts i (index_lt_of_inst hinst)).trans hinst
      by_cases hi : i ∈ phis
      · obtain ⟨kind, hkind, hphi⟩ := hkinds i inst hinst₁
        exact ⟨kind, hkind, hphi, .inr ⟨target, List.mem_singleton_self _, phis, hphis₀, hi⟩⟩
      · exact ⟨inst.kind, (hother i hi).trans hinst₁, rfl, .inl rfl⟩
    phis := fun blk' phis' hblk' hphis' hnodup i hi kind hkind => by
      obtain rfl := Except.ok.inj (hblk.symm.trans hblk')
      obtain rfl := Except.ok.inj (hphis₀.symm.trans hphis')
      have hsuccs' : succs = blk.term.successors.set index ⟨f.blocks.size⟩ := by
        rw [successors_of_block hsource] at hsuccs
        rw [← Except.ok.inj hsuccs, Terminator.successors_setSuccessor]
      rw [← hsuccs']
      refine hchanged hnodup i hi kind ?_
      rw [Function.kind, hinsts i (index_lt_of_kind hkind)]
      exact hkind }

end Detour

/-- What is no phi is as it was. -/
theorem Rerouted.inst_eq {block target : BlockId} {index : Nat} {kinds : List InstKind}
    (h : f.Rerouted block index target kinds f') {i : InstId} {inst : Inst}
    (hinst : f.inst i = .ok inst) (hnot : inst.kind.isPhi = false) : f'.inst i = .ok inst := by
  obtain ⟨kind, hinst', -, rfl | ⟨_, -, phis, hphis, hmem⟩⟩ := h.insts i inst hinst
  · exact hinst'
  · obtain ⟨ty, incoming, hkind⟩ := kind_of_mem_phis hphis hmem
    obtain ⟨inst₁, hinst₁, hkind₁⟩ := kind_eq_ok.mp hkind
    obtain rfl := Except.ok.inj (hinst.symm.trans hinst₁)
    rw [hkind₁] at hnot
    cases hnot

theorem Rerouted.kind_of_lt {block target : BlockId} {index : Nat} {kinds : List InstKind}
    (h : f.Rerouted block index target kinds f') {i : InstId} (hlt : i.index < f.insts.size)
    {kind : InstKind} (hkind : f'.kind i = .ok kind) (hnot : kind.isPhi = false) :
    f.kind i = .ok kind := by
  obtain ⟨inst', hinst', rfl⟩ := kind_eq_ok.mp hkind
  obtain ⟨inst, hinst⟩ := exists_inst hlt
  obtain ⟨kind, hinst₁, hphi, -⟩ := h.insts i inst hinst
  obtain rfl := Except.ok.inj (hinst'.symm.trans hinst₁)
  have hkept := h.inst_eq hinst (hphi.symm.trans hnot)
  exact kind_eq_ok.mpr ⟨inst, hinst, by rw [Except.ok.inj (hinst'.symm.trans hkept)]⟩

/-- What is no phi was there before or is one of the instructions of the new block. -/
theorem Rerouted.kind_cases {block target : BlockId} {index : Nat} {kinds : List InstKind}
    (h : f.Rerouted block index target kinds f') {i : InstId} {kind : InstKind}
    (hkind : f'.kind i = .ok kind) (hnot : kind.isPhi = false) :
    f.kind i = .ok kind ∨ kind ∈ kinds := by
  obtain hlt | hle := Nat.lt_or_ge i.index f.insts.size
  · exact .inl (h.kind_of_lt hlt hkind hnot)
  · obtain ⟨inst', hinst', rfl⟩ := kind_eq_ok.mp hkind
    obtain ⟨k, hk⟩ := Nat.exists_eq_add_of_le hle
    obtain rfl : i = ⟨f.insts.size + k⟩ := congrArg InstId.mk hk
    have hlt := index_lt_of_inst hinst'
    rw [h.sizeInsts] at hlt
    have hget := List.getElem?_eq_getElem (show k < kinds.length by dsimp only at hlt; omega)
    obtain ⟨inst, hinst, hsame, -⟩ := h.added k _ hget
    obtain rfl := Except.ok.inj (hinst'.symm.trans hinst)
    exact .inr (hsame ▸ List.mem_of_getElem? hget)

/-- The block that is put in on an edge. -/
theorem block_new_withBlock {block : BlockId} (hlt : block.index < f.blocks.size) (name : String)
    (place : Nat) (target : BlockId) (change : Block → Block) :
    (((f.withNewBlock name place).withBlock ⟨f.blocks.size⟩ fun b =>
      { b with term := .br target }).withBlock block change).block ⟨f.blocks.size⟩ =
        .ok ⟨name, [], .br target⟩ := by
  rw [block_withBlock, if_neg (Detour.ne_new hlt).symm, block_withBlock, if_pos rfl,
    block_withNewBlock, if_pos rfl]
  rfl

/-- An empty block is put in before the target and the edge led there. -/
theorem detour_withBlock {block target : BlockId} {index : Nat} {blk : Block} (name : String)
    (hblk : f.block block = .ok blk) (hindex : blk.term.successors[index]? = some target) :
    f.Detour block index target []
      (((f.withNewBlock name ((f.layout.idxOf? target).getD f.layout.length)).withBlock
        ⟨f.blocks.size⟩ fun b => { b with term := .br target }).withBlock block fun b =>
          { b with term := b.term.setSuccessor index ⟨f.blocks.size⟩ }) := by
  have hlt := index_lt_of_block hblk
  have hne : block ≠ ⟨f.blocks.size⟩ := Detour.ne_new hlt
  refine ⟨⟨_, _, f.insts, f.annotations, rfl⟩, rfl, rfl, by simp, rfl,
    ⟨name, block_new_withBlock hlt name _ target _⟩, ⟨blk, hblk, hindex, ?_⟩, fun b hb hnew => ?_,
    by simp⟩
  · rw [block_withBlock, if_pos rfl, block_withBlock, if_neg hne, block_withNewBlock,
      if_neg hlt.ne, hblk]
    rfl
  · have hnew' : b ≠ ⟨f.blocks.size⟩ := fun heq => hnew (congrArg BlockId.index heq)
    rw [block_withBlock, if_neg hb, block_withBlock, if_neg hnew', block_withNewBlock, if_neg hnew]

/-- Instructions are put into the new block. -/
theorem Rerouted.withInsts {block target : BlockId} {index : Nat}
    (h : f.Rerouted block index target [] f') (kinds : List InstKind) :
    f.Rerouted block index target kinds (f'.withInsts ⟨f.blocks.size⟩ 0 kinds) := by
  obtain ⟨name, hnew⟩ := h.new
  obtain ⟨blk, hblk, hindex, hblk'⟩ := h.source
  have hlt := index_lt_of_block hblk
  have hsize : f'.insts.size = f.insts.size := h.sizeInsts
  have hold : ∀ i inst, f.inst i = .ok inst → i.index < f'.insts.size := fun i inst hinst =>
    hsize ▸ index_lt_of_inst hinst
  exact {
    header := h.header.trans ⟨_, f'.layout, _, f'.annotations, rfl⟩
    annotations := h.annotations
    layout := h.layout
    size := by rw [size_blocks_withInsts, h.size]
    sizeInsts := by rw [size_insts_withInsts, hsize]
    new := ⟨name, by
      rw [block_withInsts, if_pos rfl, hnew]
      simp [Except.map, nextIds, hsize]⟩
    source := ⟨blk, hblk, hindex, by
      rw [block_withInsts, if_neg (Detour.ne_new hlt), hblk']⟩
    rest := fun b hb hne => by
      have hnew : b ≠ ⟨f.blocks.size⟩ := fun heq => hne (congrArg BlockId.index heq)
      rw [block_withInsts, if_neg hnew, h.rest b hb hne]
    added := fun k kind hk =>
      ⟨_, hsize ▸ inst_withInsts_new.mpr ⟨kind, hk, rfl⟩, rfl, rfl⟩
    insts := fun i inst hinst => by
      rw [inst_withInsts_of_lt _ _ _ _ (hold i inst hinst)]
      exact h.insts i inst hinst
    phis := fun blk phis hblk hphis hnodup i hi kind hkind => by
      rw [kind_withInsts_of_lt _ _ _ _ (hsize ▸ index_lt_of_kind hkind)]
      exact h.phis blk phis hblk hphis hnodup i hi kind hkind }

end Function

end EdgeProbe
