import EdgeProbe.Proofs.Code.Changes
import EdgeProbe.Proofs.Validity.Landed
import EdgeProbe.Proofs.Validity.Relocated

/-!
# Edges that may lead through a new block

A function stays sound when an edge is led through a new block, if that block is empty and the target
no landing pad, or if that block is the copy of a landing pad that is being taken apart. Main
statement: `Function.Sound.rerouted`.
-/

namespace EdgeProbe

namespace Terminator

@[simp] theorem knowsTerminator_setSuccessor (m : Module) (f : Function) (term : Terminator)
    (index : Nat) (target : BlockId) :
    m.knowsTerminator f (term.setSuccessor index target) = m.knowsTerminator f term := by
  unfold Module.knowsTerminator
  rw [operands_setSuccessor]
  cases term <;> rcases index with _ | _ | index <;> rfl

theorem setSuccessor_eq_condBr {term : Terminator} {index : Nat} {target onTrue onFalse : BlockId}
    {cond : Value} (h : term.setSuccessor index target = .condBr cond onTrue onFalse) :
    ∃ onTrue₀ onFalse₀, term = .condBr cond onTrue₀ onFalse₀ := by
  cases term with
  | condBr cond₀ onTrue₀ onFalse₀ =>
    rcases index with _ | _ | index <;> cases h <;> exact ⟨_, _, rfl⟩
  | _ => rcases index with _ | _ | index <;> cases h

end Terminator

namespace Function

variable {m : Module} {exempt : BlockId → Prop} {f f' : Function} {block target b c : BlockId}
  {index pos : Nat} {kinds : List InstKind} {kind : InstKind} {id : InstId} {kept : Bool}

/-- An edge has been led through a new block, in a function whose phis are known where they stand.
The source may have another edge to the target, so that it stays a source there. -/
structure Told (f : Function) (block : BlockId) (index : Nat) (target : BlockId)
    (kinds : List InstKind) (kept : Bool) (f' : Function) : Prop
    extends f.Rerouted block index target kinds f' where
  kept_iff : kept = true ↔ f'.Edge block target
  told : ∀ id pos ty incoming, f.Listed id target pos → f.kind id = .ok (.phi ty incoming) →
    f'.kind id = .ok (.phi ty (InstKind.retargetIncoming kept block ⟨f.blocks.size⟩ incoming))
  others : ∀ id kind, f.kind id = .ok kind → (∀ pos, f.Listed id target pos → kind.isPhi = false) →
    f'.kind id = .ok kind

theorem Tidy.nodup_phis (hf : f.Tidy) (hb : b ∈ f.layout) {phis : List InstId}
    (hphis : f.phis b = .ok phis) : phis.Nodup := by
  obtain ⟨blk, hblk, hlead⟩ := Function.phis_eq_ok hphis
  obtain ⟨back, hinsts, -, -⟩ := Function.leading_eq_ok hlead
  have hnodup := hf.nodup b hb blk hblk
  rw [hinsts] at hnodup
  exact hnodup.sublist (List.sublist_append_left _ _)

theorem listed_of_mem_phis (hb : b ∈ f.layout) {phis : List InstId} (hphis : f.phis b = .ok phis)
    (hid : id ∈ phis) : ∃ pos, f.Listed id b pos := by
  obtain ⟨blk, hblk, hlead⟩ := Function.phis_eq_ok hphis
  obtain ⟨pos, hpos⟩ := List.mem_iff_getElem?.mp (mem_of_mem_leading hlead hid)
  exact ⟨pos, hb, blk, hblk, hpos⟩

theorem Rerouted.exists_told (h : f.Rerouted block index target kinds f') (hf : f.Tidy)
    (hlive : block ∈ f.layout) : ∃ kept, f.Told block index target kinds kept f' := by
  obtain ⟨blk, hblk, hindex, hblk'⟩ := h.source
  have htarget : target ∈ f.layout := hf.closed.toLive block hlive target h.edge_source
  obtain ⟨-, phis, -, hphis⟩ := hf.phis_eq_ok htarget
  have hnodup := hf.nodup_phis htarget hphis
  have hsuccs' := successors_of_block hblk'
  rw [Terminator.successors_setSuccessor] at hsuccs'
  refine ⟨(blk.term.successors.set index ⟨f.blocks.size⟩).contains target, h, ?_,
    fun id pos ty incoming hid hkind => ?_, fun id kind hkind hrest => ?_⟩
  · rw [List.contains_iff_mem, edge_iff hsuccs']
  · rw [h.phis blk phis hblk hphis hnodup id (hf.mem_phis hid hkind hphis) _ hkind,
      InstKind.retarget_phi]
  · obtain ⟨inst, hinst, rfl⟩ := kind_eq_ok.mp hkind
    obtain ⟨kind, hinst', hphi, rfl | ⟨t, ht, phis', hphis', hmem⟩⟩ := h.insts id inst hinst
    · exact kind_eq_ok.mpr ⟨_, hinst', rfl⟩
    · obtain rfl := List.mem_singleton.mp ht
      obtain ⟨pos, hpos⟩ := listed_of_mem_phis htarget hphis' hmem
      exact kind_eq_ok.mpr ⟨inst, h.inst_eq hinst (hrest pos hpos), rfl⟩

namespace Told

variable (h : f.Told block index target kinds kept f')
include h

/-- Whatever its kind, an instruction of the arena is what it was or is a phi of the target. -/
theorem kind_of_old (hkind : f.kind id = .ok kind) : f'.kind id = .ok kind ∨
    ∃ pos ty incoming, f.Listed id target pos ∧ kind = .phi ty incoming ∧
      f'.kind id = .ok (.phi ty (InstKind.retargetIncoming kept block ⟨f.blocks.size⟩ incoming)) := by
  by_cases hphi : ∃ pos, f.Listed id target pos ∧ kind.isPhi = true
  · obtain ⟨pos, hid, hphi⟩ := hphi
    cases kind with
    | phi ty incoming => exact .inr ⟨pos, ty, incoming, hid, rfl, h.told id pos ty incoming hid hkind⟩
    | _ => cases hphi
  · refine .inl (h.others id kind hkind fun pos hid => ?_)
    rw [Bool.eq_false_iff]
    exact fun hphi' => hphi ⟨pos, hid, hphi'⟩

theorem typesKept : f.TypesKept f' := by
  have hparams : f'.params = f.params := by
    obtain ⟨blocks, layout, insts, annotations, rfl⟩ := h.header
    rfl
  refine .of_kinds hparams fun id kind hkind => (h.kind_of_old hkind).imp_right ?_
  rintro ⟨pos, ty, incoming, -, rfl, hkind'⟩
  refine ⟨ty, _, fun depth ty' hty => ?_, hkind'⟩
  rw [valueTypeWithin_of_fixedType? hkind rfl] at hty
  exact (Except.ok.inj hty).symm

theorem valueType {value : Value} {ty : Ty} (hty : f.valueType value = .ok ty) :
    f'.valueType value = .ok ty :=
  h.typesKept.valueType (by rw [h.sizeInsts]; exact Nat.le_add_right _ _) hty

theorem grows (m : Module) : m.Grows f m f' := by
  refine ⟨le_rfl, le_rfl, ?_, ?_, ?_⟩
  · obtain ⟨blocks, layout, insts, annotations, rfl⟩ := h.header
    rfl
  · rw [h.sizeInsts]
    exact Nat.le_add_right _ _
  · rw [h.size]
    exact Nat.le_succ _

variable (hf : f.Tidy)
include hf

/-- A listed instruction stands in the new block, or is what it was, or is a phi of the target. -/
theorem listed_cases (hid : f'.Listed id b pos) (hkind : f'.kind id = .ok kind) :
    b = ⟨f.blocks.size⟩ ∧ kinds[pos]? = some kind ∨
      f.Listed id b pos ∧ f.kind id = .ok kind ∧ (b = target → kind.isPhi = false) ∨
        b = target ∧ ∃ ty incoming, f.Listed id target pos ∧ f.kind id = .ok (.phi ty incoming) ∧
          kind = .phi ty (InstKind.retargetIncoming kept block ⟨f.blocks.size⟩ incoming) := by
  obtain ⟨rfl, hlt, rfl⟩ | hold := h.toDetour.listed_cases hid
  · obtain ⟨inst, hinst, hsame, -⟩ := h.added pos _ (List.getElem?_eq_getElem hlt)
    obtain rfl := Except.ok.inj (hkind.symm.trans (kind_eq_ok.mpr ⟨inst, hinst, hsame⟩))
    exact .inl ⟨rfl, List.getElem?_eq_getElem hlt⟩
  right
  obtain ⟨kind₀, hkind₀⟩ := hf.exists_kind hold
  by_cases hphi : b = target ∧ kind₀.isPhi = true
  · obtain ⟨rfl, hphi⟩ := hphi
    cases kind₀ with
    | phi ty incoming =>
      have htold := h.told id pos ty incoming hold hkind₀
      obtain rfl := Except.ok.inj (hkind.symm.trans htold)
      exact .inr ⟨rfl, ty, incoming, hold, hkind₀, rfl⟩
    | _ => cases hphi
  · have hkept := h.others id kind₀ hkind₀ fun pos' hpos' => by
      obtain ⟨rfl, -⟩ := hf.listed_unique hold hpos'
      simpa using hphi
    obtain rfl := Except.ok.inj (hkind.symm.trans hkept)
    exact .inl ⟨hold, hkind₀, fun hb => by simpa [hb] using hphi⟩

end Told

section Relocating

variable (h : f.Detour block index target kinds f') (hf : f.Whole) (hclosed : f.Closed)
  (hlive : block ∈ f.layout) (hentry : f.entryBlock? ≠ some target)
include h

namespace Detour

theorem entryBlock?_eq (hlive : block ∈ f.layout) (hentry : f.entryBlock? ≠ some target)
    {e : BlockId} (he : f'.entryBlock? = some e) : f.entryBlock? = some e := by
  cases hfirst : f.entryBlock? with
  | none =>
    have hnil : f.layout = [] := List.head?_eq_none_iff.mp hfirst
    exact absurd hlive (by simp [hnil])
  | some e₀ =>
    have he₀ := h.entryBlock? hfirst fun heq => hentry (heq ▸ hfirst)
    exact he₀.symm.trans he

include hf hclosed hlive hentry

/-- The new block is entered from the source only. -/
theorem onEveryPath_new : f'.OnEveryPath block ⟨f.blocks.size⟩ := by
  refine onEveryPath_of_sole (fun he => ?_) fun x hedge => ?_
  · have hlayout := mem_layout_of_entryBlock? (h.entryBlock?_eq hlive hentry he)
    exact ne_new_of_live hclosed hlayout rfl
  · obtain ⟨-, heq⟩ | ⟨hx, -⟩ | hold := h.edge_cases hedge
    · exact absurd heq.symm (ne_new_of_edge hf h.edge_source).2
    · exact hx
    · exact absurd rfl (ne_new_of_edge hf hold).2

/-- Paths through the new block are paths along the edge. In between, the new block stands for the
source. -/
theorem relocates : f.Relocates f' (fun b => if b = ⟨f.blocks.size⟩ then block else b)
    fun b k => (b, k) where
  projects := {
    entry := by
      intro e he
      have he := h.entryBlock?_eq hlive hentry he
      rw [if_neg (ne_new_of_live hclosed (mem_layout_of_entryBlock? he)), he]
    edge := by
      intro a _ b hedge
      obtain ⟨rfl, rfl⟩ | ⟨rfl, rfl⟩ | hold := h.edge_cases hedge
      · rw [if_pos rfl, if_neg (ne_new_of_edge hf h.edge_source).2]
        exact .inr h.edge_source
      · exact .inl (by simp)
      · obtain ⟨ha, hb⟩ := ne_new_of_edge hf hold
        rw [if_neg ha, if_neg hb]
        exact .inr hold }
  listed := fun _ _ _ hid => h.listed_old hid
  origin_place := fun _ b _ hid => if_neg (ne_new_of_live hclosed hid.1)
  passes := by
    intro id b pos _ b' trail path _ x hx hxb
    split at hxb
    · next hnew =>
      subst hxb hnew
      exact (h.onEveryPath_new hf hclosed hlive hentry).mem path hx
    · exact hxb ▸ hx

/-- What precedes a place of an old block still does, and what precedes the end of the source
precedes any place of the new block. -/
theorem precedes {used : InstId} {pos : Option Nat} (hb : b ∈ f.layout)
    (hused : f.Precedes used b pos) : f'.Precedes used b pos :=
  (h.relocates hf hclosed hlive hentry).precedes (h.closed hclosed hlive)
    (if_neg (ne_new_of_live hclosed hb)) hused fun _ _ hlt => .inl ⟨rfl, hlt⟩

theorem precedes_new {used : InstId} {pos : Option Nat} (hused : f.Precedes used block none) :
    f'.Precedes used ⟨f.blocks.size⟩ pos :=
  (h.relocates hf hclosed hlive hentry).precedes (h.closed hclosed hlive) (if_pos rfl) hused
    fun _ _ _ => .inr ⟨ne_new_of_live hclosed hlive, h.onEveryPath_new hf hclosed hlive hentry⟩

end Detour

end Relocating

section

variable (hs : f.Sound m exempt) (h : f.Told block index target kinds kept f')
  (hlive : block ∈ f.layout) (hdiverts : Diverts exempt f block target kinds)
include hs h hdiverts

/-- Of the phis of the function, those of the target have been told and no other one is touched. -/
theorem Told.phi_cases {ty : Ty} {incoming : List (Value × BlockId)} (hid : f'.Listed id b pos)
    (hkind : f'.kind id = .ok (.phi ty incoming)) :
    b ≠ target ∧ f.Listed id b pos ∧ f.kind id = .ok (.phi ty incoming) ∨
      b = target ∧ ∃ incoming₀, f.Listed id target pos ∧ f.kind id = .ok (.phi ty incoming₀) ∧
        incoming = InstKind.retargetIncoming kept block ⟨f.blocks.size⟩ incoming₀ := by
  obtain ⟨rfl, hadded⟩ | ⟨hold, hkind₀, hne⟩ | ⟨rfl, ty₀, incoming₀, hold, hkind₀, heq⟩ :=
    h.listed_cases hs.tidy hid hkind
  · cases (hdiverts.eq_landingPad hadded).2
  · refine .inl ⟨fun hb => ?_, hold, hkind₀⟩
    cases hne hb
  · obtain ⟨rfl, rfl⟩ := InstKind.phi.inj heq
    exact .inr ⟨rfl, incoming₀, hold, hkind₀, rfl⟩

/-- What is no phi is what it was where it was, or a landing pad that leads the new block. -/
theorem Told.plain_cases (hid : f'.Listed id b pos) (hkind : f'.kind id = .ok kind)
    (hnot : kind.isPhi = false) : f.Listed id b pos ∧ f.kind id = .ok kind ∨
      b = ⟨f.blocks.size⟩ ∧ pos = 0 ∧ kind = .landingPad ∧ f.Unwinds block target := by
  obtain ⟨rfl, hadded⟩ | ⟨hold, hkind₀, -⟩ | ⟨rfl, ty₀, incoming₀, -, -, rfl⟩ :=
    h.listed_cases hs.tidy hid hkind
  · cases hdiverts with
    | plain => cases hadded
    | pad hunwinds =>
      obtain ⟨rfl, rfl⟩ : pos = 0 ∧ kind = .landingPad := by
        cases pos with
        | zero => exact ⟨rfl, (Option.some.inj hadded).symm⟩
        | succ pos => cases hadded
      exact .inr ⟨rfl, rfl, rfl, hunwinds⟩
  · exact .inl ⟨hold, hkind₀⟩
  · cases hnot

include hlive

theorem Told.tidy : f'.Tidy where
  closed := h.closed hs.tidy.closed hlive
  home := (hs.landed.rerouted h.toRerouted hlive hdiverts).home
  nodup := by
    intro b hb blk' hblk'
    obtain ⟨-, hinsts, -⟩ | ⟨blk, hblk, hinsts, -⟩ := h.block_cases hblk'
    · exact hinsts ▸ nodup_nextIds f _
    · obtain rfl | hb := h.mem_layout.mp hb
      · exact absurd (index_lt_of_block hblk) (lt_irrefl _)
      · exact hinsts ▸ hs.tidy.nodup b hb blk hblk
  operands := by
    intro id b pos kind hid hkind value hvalue
    rw [h.sizeInsts]
    obtain ⟨-, hadded⟩ | ⟨hold, hkind₀, -⟩ | ⟨rfl, ty, incoming, hold, hkind₀, rfl⟩ :=
      h.listed_cases hs.tidy hid hkind
    · rw [(hdiverts.eq_landingPad hadded).2] at hvalue
      cases hvalue
    · exact (hs.tidy.operands id b pos kind hold hkind₀ value hvalue).mono (Nat.le_add_right _ _)
    · exact (hs.tidy.operands id _ pos _ hold hkind₀ value
        (InstKind.mem_values_retargetIncoming hvalue)).mono (Nat.le_add_right _ _)
  termOperands := by
    intro b hb blk' hblk' value hvalue
    rw [h.sizeInsts]
    obtain hnone | ⟨blk, hblk, hsame⟩ := h.operands_cases hblk'
    · rw [hnone] at hvalue
      cases hvalue
    · obtain rfl | hb := h.mem_layout.mp hb
      · exact absurd (index_lt_of_block hblk) (lt_irrefl _)
      · exact (hs.tidy.termOperands b hb blk hblk value (hsame ▸ hvalue)).mono (Nat.le_add_right _ _)
  sources := by
    intro id b pos ty incoming hid hkind entry hentry
    rw [h.size]
    obtain ⟨-, hold, hkind₀⟩ | ⟨rfl, incoming₀, hold, hkind₀, rfl⟩ := h.phi_cases hs hdiverts hid hkind
    · exact (hs.tidy.sources id b pos ty incoming hold hkind₀ entry hentry).trans (Nat.lt_succ_self _)
    · obtain ⟨hnew, -⟩ | ⟨hentry₀, -⟩ := InstKind.mem_retargetIncoming hentry
      · rw [hnew]
        exact Nat.lt_succ_self _
      · exact (hs.tidy.sources id b pos ty incoming₀ hold hkind₀ entry hentry₀).trans (Nat.lt_succ_self _)
  phisLead := by
    intro id b pos ty incoming hid hkind before hbefore id' hid'
    obtain ⟨hold, hold'⟩ := h.listed_before hs.tidy.closed hdiverts hid hbefore hid'
    obtain ⟨-, -, hkind₀⟩ | ⟨-, _, -, hkind₀, -⟩ := h.phi_cases hs hdiverts hid hkind
    all_goals
      obtain ⟨ty', incoming', hphi⟩ := hs.tidy.phisLead id b pos _ _ hold hkind₀ before hbefore id' hold'
      exact h.exists_phi hphi
  entries := by
    intro id b pos ty incoming hid hkind source hsource hedge
    obtain ⟨hne, hold, hkind₀⟩ | ⟨rfl, incoming₀, hold, hkind₀, rfl⟩ :=
      h.phi_cases hs hdiverts hid hkind
    · obtain ⟨-, heq⟩ | ⟨-, rfl⟩ | hedge₀ := h.edge_cases hedge
      · exact absurd heq hne
      · exact absurd rfl (Detour.ne_new_of_live hs.tidy.closed hold.1)
      · obtain rfl | hsource := h.mem_layout.mp hsource
        · exact absurd rfl (Detour.ne_new_of_edge hs.named.whole hedge₀).1
        · exact hs.tidy.entries id b pos ty incoming hold hkind₀ source hsource hedge₀
    · obtain ⟨rfl, -⟩ | ⟨-, hnew⟩ | hedge₀ := h.edge_cases hedge
      · obtain ⟨value, hvalue⟩ :=
          hs.tidy.entries id b pos ty incoming₀ hold hkind₀ block hlive h.edge_source
        exact InstKind.exists_mem_retargetIncoming hvalue
      · exact absurd hnew (Detour.ne_new_of_live hs.tidy.closed hold.1)
      · obtain rfl | hsource := h.mem_layout.mp hsource
        · exact absurd rfl (Detour.ne_new_of_edge hs.named.whole hedge₀).1
        obtain ⟨value, hvalue⟩ := hs.tidy.entries id b pos ty incoming₀ hold hkind₀ source hsource hedge₀
        refine ⟨value, InstKind.mem_retargetIncoming_of_mem hvalue ?_⟩
        by_cases hblock : source = block
        · exact .inl (h.kept_iff.mpr (hblock ▸ hedge))
        · exact .inr hblock

omit hlive in
theorem Told.named : f'.Named m where
  insts := (h.whole hs.named.whole).insts
  successors := (h.whole hs.named.whole).successors
  terminators := by
    intro b blk' hblk'
    obtain ⟨-, -, hterm⟩ | ⟨blk, hblk, -, hterm⟩ := h.block_cases hblk'
    · rw [hterm]
      rfl
    · have hold := (h.grows m).knowsTerminator (hs.named.terminators b blk hblk)
      obtain hterm | ⟨-, hterm⟩ := hterm <;> rw [hterm]
      · exact hold
      · rwa [Terminator.knowsTerminator_setSuccessor]
  kinds := by
    intro id kind hkind
    obtain hlt | hle := Nat.lt_or_ge id.index f.insts.size
    · obtain ⟨inst, hinst⟩ := exists_inst hlt
      have hkind₀ : f.kind id = .ok inst.kind := kind_eq_ok.mpr ⟨inst, hinst, rfl⟩
      have hknown := (h.grows m).knowsKind (hs.named.kinds id _ hkind₀)
      obtain hkept | ⟨pos, ty, incoming, -, hphi, htold⟩ := h.kind_of_old hkind₀
      · exact Except.ok.inj (hkept.symm.trans hkind) ▸ hknown
      obtain rfl := Except.ok.inj (htold.symm.trans hkind)
      rw [hphi, Module.knowsKind, Bool.and_eq_true, List.all_eq_true] at hknown
      rw [Module.knowsKind, Bool.and_eq_true, List.all_eq_true]
      refine ⟨fun value hvalue => hknown.1 value (InstKind.mem_values_retargetIncoming hvalue),
        List.all_eq_true.mpr fun entry hentry => ?_⟩
      obtain ⟨hnew, -⟩ | ⟨hentry₀, -⟩ := InstKind.mem_retargetIncoming hentry
      · rw [hnew, hasBlock, h.size]
        exact decide_eq_true (Nat.lt_succ_self _)
      · exact List.all_eq_true.mp hknown.2 entry hentry₀
    · obtain ⟨k, hk⟩ := Nat.exists_eq_add_of_le hle
      obtain rfl : id = ⟨f.insts.size + k⟩ := congrArg InstId.mk hk
      have hlt := index_lt_of_kind hkind
      rw [h.sizeInsts] at hlt
      have hadded := List.getElem?_eq_getElem (show k < kinds.length by dsimp only at hlt; omega)
      obtain ⟨inst, hinst, hsame, -⟩ := h.added k _ hadded
      rw [(hdiverts.eq_landingPad hadded).2] at hsame
      obtain rfl := Except.ok.inj (hkind.symm.trans (kind_eq_ok.mpr ⟨inst, hinst, hsame⟩))
      rfl
  tokens := by
    intro id hid
    rw [h.annotations] at hid
    rw [h.sizeInsts]
    exact (hs.named.tokens id hid).trans_le (Nat.le_add_right _ _)

/-- An edge of a function that is sound may lead through a new block. -/
theorem Sound.rerouted (hentry : f.entryBlock? ≠ some target) : f'.Sound m exempt where
  tidy := h.tidy hs hlive hdiverts
  named := h.named hs hdiverts
  layout := h.nodup_layout hs.tidy.closed.inArena hs.layout
  unwind := (hs.landed.rerouted h.toRerouted hlive hdiverts).unwind
  sources := by
    intro id b pos ty incoming hid hkind
    obtain ⟨hne, hold, hkind₀⟩ | ⟨rfl, incoming₀, hold, hkind₀, rfl⟩ :=
      h.phi_cases hs hdiverts hid hkind
    · obtain ⟨hnodup, hsources⟩ := hs.sources id b pos ty incoming hold hkind₀
      refine ⟨hnodup, fun source hsource => ?_⟩
      obtain ⟨hlayout, hedge⟩ := hsources source hsource
      exact ⟨h.mem_layout.mpr (.inr hlayout),
        h.edge_of_old hs.named.whole hedge (.inr (.inl hne))⟩
    · obtain ⟨hnodup, hsources⟩ := hs.sources id b pos ty incoming₀ hold hkind₀
      refine ⟨InstKind.nodup_retargetIncoming hnodup fun hnew => ?_, fun source hsource => ?_⟩
      · exact Detour.ne_new_of_live hs.tidy.closed (hsources _ hnew).1 rfl
      obtain ⟨entry, hentry, rfl⟩ := List.mem_map.mp hsource
      obtain ⟨hnew, -⟩ | ⟨hentry₀, hkept⟩ := InstKind.mem_retargetIncoming hentry
      · rw [hnew]
        exact ⟨h.mem_layout.mpr (.inl rfl), h.edge_new⟩
      · obtain ⟨hlayout, hedge⟩ := hsources _ (List.mem_map_of_mem hentry₀)
        refine ⟨h.mem_layout.mpr (.inr hlayout), h.edge_of_old hs.named.whole hedge ?_⟩
        obtain hkept | hne := hkept
        · exact .inr (.inr (h.kept_iff.mp hkept))
        · exact .inl hne
  padsLead := (hs.landed.rerouted h.toRerouted hlive hdiverts).padsLead
  padEdges := (hs.landed.rerouted h.toRerouted hlive hdiverts).padEdges
  paired := by
    intro id b pos kind lhs rhs hid hkind hpair
    have hnot : kind.isPhi = false := by cases kind <;> first | rfl | cases hpair
    obtain ⟨hold, hkind₀⟩ | ⟨-, -, rfl, -⟩ := h.plain_cases hs hdiverts hid hkind hnot
    · obtain ⟨ty, hl, hr⟩ := hs.paired id b pos kind lhs rhs hold hkind₀ hpair
      exact ⟨ty, h.valueType hl, h.valueType hr⟩
    · cases hpair
  arity := by
    intro id b pos callee args ret hid hkind
    obtain ⟨hold, hkind₀⟩ | ⟨-, -, heq, -⟩ := h.plain_cases hs hdiverts hid hkind rfl
    · exact hs.arity id b pos callee args ret hold hkind₀
    · cases heq
  conditions := by
    intro b hb blk' hblk' cond onTrue onFalse hterm
    have hold : ∀ blk, f.block b = .ok blk → ∀ onTrue onFalse, blk.term = .condBr cond onTrue onFalse →
        f'.valueType cond = .ok .i1 := by
      intro blk hblk onTrue onFalse hterm
      obtain rfl | hb := h.mem_layout.mp hb
      · exact absurd rfl (Detour.ne_new (index_lt_of_block hblk))
      · exact h.valueType (hs.conditions b hb blk hblk cond onTrue onFalse hterm)
    obtain ⟨-, -, hnew⟩ | ⟨blk, hblk, -, hsame | ⟨rfl, hset⟩⟩ := h.block_cases hblk'
    · cases hnew.symm.trans hterm
    · exact hold blk hblk onTrue onFalse (hsame ▸ hterm)
    · obtain ⟨onTrue₀, onFalse₀, hterm₀⟩ :=
        Terminator.setSuccessor_eq_condBr (hset.symm.trans hterm)
      exact hold blk hblk onTrue₀ onFalse₀ hterm₀
  phiUses := by
    intro id b pos ty incoming hid hkind used source hmem
    have hold : ∀ pos ty incoming, f.Listed id b pos → f.kind id = .ok (.phi ty incoming) →
        (.inst used, source) ∈ incoming → f'.Precedes used source none := by
      intro pos ty incoming hid hkind hmem
      have hlayout := ((hs.sources id b pos ty incoming hid hkind).2 source
        (List.mem_map_of_mem hmem)).1
      exact h.precedes hs.named.whole hs.tidy.closed hlive hentry hlayout
        (hs.phiUses id b pos ty incoming hid hkind used source hmem)
    obtain ⟨-, hid₀, hkind₀⟩ | ⟨rfl, incoming₀, hid₀, hkind₀, rfl⟩ :=
      h.phi_cases hs hdiverts hid hkind
    · exact hold pos ty incoming hid₀ hkind₀ hmem
    obtain ⟨hnew, hmem₀⟩ | ⟨hmem₀, -⟩ := InstKind.mem_retargetIncoming hmem
    · obtain rfl : source = ⟨f.blocks.size⟩ := hnew
      exact h.precedes_new hs.named.whole hs.tidy.closed hlive hentry
        (hs.phiUses id b pos ty incoming₀ hid₀ hkind₀ used block hmem₀)
    · exact hold pos ty incoming₀ hid₀ hkind₀ hmem₀
  uses := by
    intro id b pos kind hid hkind hphi used hused
    obtain ⟨hold, hkind₀⟩ | ⟨-, -, rfl, -⟩ := h.plain_cases hs hdiverts hid hkind hphi
    · exact h.precedes hs.named.whole hs.tidy.closed hlive hentry hold.1
        (hs.uses id b pos kind hold hkind₀ hphi used hused)
    · cases hused
  termUses := by
    intro b hb blk' hblk' used hused
    obtain hnone | ⟨blk, hblk, hsame⟩ := h.operands_cases hblk'
    · rw [hnone] at hused
      cases hused
    · obtain rfl | hb := h.mem_layout.mp hb
      · exact absurd rfl (Detour.ne_new (index_lt_of_block hblk))
      · exact h.precedes hs.named.whole hs.tidy.closed hlive hentry hb
          (hs.termUses b hb blk hblk used (hsame ▸ hused))

end

end Function

end EdgeProbe
