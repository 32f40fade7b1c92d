import EdgeProbe.Proofs.Probe.Pads

/-!
# Where landing pads stand

What is known of the landing pads of an accepted function, whatever it computes and whether or not
it lists an instruction twice: invocations unwind to them, they lead their blocks, and only
exceptional edges lead there. An edge that is led through a new block keeps this. Main statement:
`Function.Landed.rerouted`.
-/

namespace EdgeProbe

namespace Terminator

/-- An invocation with another successor is one of the same callee. -/
theorem setSuccessor_eq_invoke {term : Terminator} {index : Nat} {target normal unwind : BlockId}
    {callee : Callee} {args : List Value}
    (h : term.setSuccessor index target = .invoke callee args normal unwind) :
    ∃ normal₀ unwind₀, term = .invoke callee args normal₀ unwind₀ ∧
      (unwind = unwind₀ ∨ index = 1 ∧ unwind = target) := by
  cases term with
  | invoke callee₀ args₀ normal₀ unwind₀ =>
    rcases index with _ | _ | index <;> cases h
    · exact ⟨_, _, rfl, .inl rfl⟩
    · exact ⟨_, _, rfl, .inr ⟨rfl, rfl⟩⟩
    · exact ⟨_, _, rfl, .inl rfl⟩
  | _ => rcases index with _ | _ | index <;> cases h

end Terminator

namespace Function

variable {m : Module} {exempt : BlockId → Prop} {f f' : Function} {block target b c : BlockId}
  {index pos : Nat} {kinds : List InstKind} {kind : InstKind} {id : InstId}

/-- The block lists a landing pad. -/
def Lands (f : Function) (b : BlockId) : Prop :=
  ∃ id pos, f.Listed id b pos ∧ f.kind id = .ok .landingPad

/-- What is known of the landing pads of an accepted function, but for the edges into some blocks. -/
structure Landed (exempt : BlockId → Prop) (f : Function) : Prop where
  whole : f.Whole
  closed : f.Closed
  layout : f.layout.Nodup
  home : ∀ id b pos, f.Listed id b pos → ∃ inst, f.inst id = .ok inst ∧ inst.block = some b
  unwind : ∀ b ∈ f.layout, ∀ blk, f.block b = .ok blk → ∀ callee args normal unwind,
    blk.term = .invoke callee args normal unwind → f.Lands unwind
  padsLead : ∀ id b pos, f.Listed id b pos → f.kind id = .ok .landingPad →
    ∀ before < pos, ∀ id', f.Listed id' b before → ∃ ty incoming, f.kind id' = .ok (.phi ty incoming)
  padEdges : ∀ id b pos, f.Listed id b pos → f.kind id = .ok .landingPad → ¬exempt b →
    (∃ a ∈ f.layout, f.Edge a b) ∧ ∀ a ∈ f.layout, f.Edge a b → f.Unwinds a b

theorem Sound.landed (hs : f.Sound m exempt) : f.Landed exempt where
  whole := hs.named.whole
  closed := hs.tidy.closed
  layout := hs.layout
  home := hs.tidy.home
  unwind := hs.unwind
  padsLead := hs.padsLead
  padEdges := hs.padEdges

/-- Unlike soundness this does not take that no instruction is listed twice. -/
theorem WellFormed.landed (hf : f.WellFormed m) : f.Landed exempt where
  whole := hf.named.whole
  closed := hf.closed
  layout := hf.nodup
  home := hf.home
  unwind := hf.unwindLands
  padsLead := hf.padsLead
  padEdges := fun _ _ _ hid hkind _ => hf.padEdges hid hkind

/-- A block has one landing pad. -/
theorem Landed.landingPad_unique (hf : f.Landed exempt) {id' : InstId} {k k' : Nat}
    (hid : f.Listed id b k) (hkind : f.kind id = .ok .landingPad)
    (hid' : f.Listed id' b k') (hkind' : f.kind id' = .ok .landingPad) : id = id' := by
  have hlead : ∀ {id id' k k'}, f.Listed id b k → f.kind id = .ok .landingPad →
      f.Listed id' b k' → f.kind id' = .ok .landingPad → ¬k < k' := by
    intro id id' k k' hid hkind hid' hkind' hlt
    obtain ⟨ty, incoming, hphi⟩ := hf.padsLead id' b k' hid' hkind' k hlt id hid
    cases hkind.symm.trans hphi
  obtain rfl : k = k' :=
    Nat.le_antisymm (Nat.not_lt.mp (hlead hid' hkind' hid hkind))
      (Nat.not_lt.mp (hlead hid hkind hid' hkind'))
  obtain ⟨-, blk, hblk, hpos⟩ := hid
  obtain ⟨-, blk', hblk', hpos'⟩ := hid'
  obtain rfl := Except.ok.inj (hblk.symm.trans hblk')
  exact Option.some.inj (hpos.symm.trans hpos')

/-! ## Edges led through a new block -/

/-- These instructions may stand ahead of the target: none ahead of a block without a landing pad, a
landing pad ahead of one that is taken apart, where only unwinding leads. -/
inductive Diverts (exempt : BlockId → Prop) (f : Function) (block target : BlockId) :
    List InstKind → Prop
  | plain (hplain : ∀ id pos, f.Listed id target pos → f.kind id ≠ .ok .landingPad) :
    Diverts exempt f block target []
  | pad (hunwinds : f.Unwinds block target) (hexempt : exempt target) :
    Diverts exempt f block target [.landingPad]

theorem Diverts.eq_landingPad (h : Diverts exempt f block target kinds) (hk : kinds[pos]? = some kind) :
    pos = 0 ∧ kind = .landingPad := by
  cases h with
  | plain => cases hk
  | pad =>
    cases pos with
    | zero => exact ⟨rfl, (Option.some.inj hk).symm⟩
    | succ pos => cases hk

namespace Detour

variable (h : f.Detour block index target kinds f')
include h

theorem edge_new : f'.Edge ⟨f.blocks.size⟩ target :=
  ⟨[target], h.successors_new, List.mem_singleton_self _⟩

theorem edge_into_new : f'.Edge block ⟨f.blocks.size⟩ := by
  obtain ⟨succs, -, hindex, hset⟩ := h.successors_source
  exact ⟨_, hset, List.mem_set (List.getElem?_eq_some_iff.mp hindex).1 _⟩

theorem edge_source : f.Edge block target := by
  obtain ⟨succs, hsuccs, hindex, -⟩ := h.successors_source
  exact ⟨succs, hsuccs, List.mem_of_getElem? hindex⟩

/-- An edge from before is there unless it was the one. -/
theorem edge_of_old (hf : f.Whole) (hedge : f.Edge b c)
    (hkept : b ≠ block ∨ c ≠ target ∨ f'.Edge block target) : f'.Edge b c := by
  obtain ⟨succs, hsuccs, hc⟩ := hedge
  obtain ⟨blk, hblk, -⟩ := Checked.map_eq_ok.mp hsuccs
  by_cases hb : b = block
  · subst hb
    by_cases hct : c = target
    · subst hct
      exact (hkept.resolve_left fun hne => hne rfl).resolve_left fun hne => hne rfl
    · have hne : c ≠ ⟨f.blocks.size⟩ := ne_new (hf.successors_lt hsuccs hc)
      obtain ⟨succs', hsuccs', hcount⟩ := h.count_successors (index_lt_of_block hblk) hsuccs hct hne
      refine ⟨succs', hsuccs', List.count_pos_iff.mp ?_⟩
      rw [hcount]
      exact List.count_pos_iff.mpr hc
  · exact ⟨succs, by rw [h.successors_rest hb (index_lt_of_block hblk).ne, hsuccs], hc⟩

theorem listed_old (hid : f.Listed id b pos) : f'.Listed id b pos := by
  obtain ⟨hb, blk, hblk, hpos⟩ := hid
  obtain ⟨term, hblk', -⟩ := h.block_of_old hblk
  exact ⟨h.mem_layout.mpr (.inr hb), _, hblk', hpos⟩

/-- What a block ends with reads what it did. -/
theorem operands_cases {blk' : Block} (hblk' : f'.block b = .ok blk') :
    blk'.term.operands = [] ∨ ∃ blk, f.block b = .ok blk ∧ blk'.term.operands = blk.term.operands := by
  obtain ⟨-, -, hterm⟩ | ⟨blk, hblk, -, hterm | ⟨-, hterm⟩⟩ := h.block_cases hblk'
  · exact .inl (by rw [hterm]; rfl)
  · exact .inr ⟨blk, hblk, by rw [hterm]⟩
  · exact .inr ⟨blk, hblk, by rw [hterm, Terminator.operands_setSuccessor]⟩

/-- What is listed was listed, or stands in the new block. -/
theorem listed_cases (hid : f'.Listed id b pos) :
    b = ⟨f.blocks.size⟩ ∧ pos < kinds.length ∧ id = ⟨f.insts.size + pos⟩ ∨ f.Listed id b pos := by
  obtain ⟨hb, blk', hblk', hpos⟩ := hid
  obtain ⟨rfl, hinsts, -⟩ | ⟨blk, hblk, hinsts, -⟩ := h.block_cases hblk'
  · rw [hinsts] at hpos
    exact .inl ⟨rfl, getElem?_nextIds.mp hpos⟩
  · refine .inr ⟨(h.mem_layout.mp hb).resolve_left ?_, blk, hblk, hinsts ▸ hpos⟩
    rintro rfl
    exact absurd (index_lt_of_block hblk) (lt_irrefl _)

omit h in
theorem ne_new_of_live (hclosed : f.Closed) (hb : b ∈ f.layout) : b ≠ ⟨f.blocks.size⟩ :=
  ne_new (hclosed.inArena b hb)

omit h in
theorem ne_new_of_edge (hf : f.Whole) (hedge : f.Edge b c) :
    b ≠ ⟨f.blocks.size⟩ ∧ c ≠ ⟨f.blocks.size⟩ := by
  obtain ⟨succs, hsuccs, hc⟩ := hedge
  obtain ⟨blk, hblk, -⟩ := Checked.map_eq_ok.mp hsuccs
  exact ⟨ne_new (index_lt_of_block hblk), ne_new (hf.successors_lt hsuccs hc)⟩

/-- The copy of a pad is where the source unwinds to. -/
theorem unwinds_new (hf : f.Whole) (hunwinds : f.Unwinds block target) :
    f'.Unwinds block ⟨f.blocks.size⟩ := by
  obtain ⟨blk, callee, args, normal, hblk, hterm, hnormal⟩ := hunwinds
  obtain ⟨blk₀, hblk₀, hindex, hblk'⟩ := h.source
  obtain rfl := Except.ok.inj (hblk.symm.trans hblk₀)
  have hlt : normal.index < f.blocks.size := hf.successors block blk hblk normal
    (by simp [hterm, Terminator.successors])
  rw [hterm] at hindex hblk'
  rcases index with _ | _ | index
  · exact absurd (Option.some.inj hindex) hnormal
  · exact ⟨_, callee, args, normal, hblk', rfl, ne_new hlt⟩
  · cases hindex

end Detour

namespace Rerouted

variable (h : f.Rerouted block index target kinds f')
include h

/-- What is no phi was listed where it is, or is one of the instructions of the new block. -/
theorem listed_plain (hf : f.Whole) (hid : f'.Listed id b pos) (hkind : f'.kind id = .ok kind)
    (hnot : kind.isPhi = false) : f.Listed id b pos ∧ f.kind id = .ok kind ∨
      b = ⟨f.blocks.size⟩ ∧ kinds[pos]? = some kind := by
  obtain ⟨rfl, hlt, rfl⟩ | hold := h.toDetour.listed_cases hid
  · obtain ⟨inst, hinst, hsame, -⟩ := h.added pos _ (List.getElem?_eq_getElem hlt)
    obtain rfl := Except.ok.inj (hkind.symm.trans (kind_eq_ok.mpr ⟨inst, hinst, hsame⟩))
    exact .inr ⟨rfl, List.getElem?_eq_getElem hlt⟩
  · obtain ⟨hb, blk, hblk, hpos⟩ := hold
    have hlt := hf.insts b blk hblk id (List.mem_of_getElem? hpos)
    exact .inl ⟨⟨hb, blk, hblk, hpos⟩, h.kind_of_lt hlt hkind hnot⟩

theorem kind_of_not_phi (hkind : f.kind id = .ok kind) (hnot : kind.isPhi = false) :
    f'.kind id = .ok kind := by
  obtain ⟨inst, hinst, rfl⟩ := kind_eq_ok.mp hkind
  exact kind_eq_ok.mpr ⟨inst, h.inst_eq hinst hnot, rfl⟩

/-- A phi stays a phi. -/
theorem exists_phi {ty : Ty} {incoming : List (Value × BlockId)}
    (hkind : f.kind id = .ok (.phi ty incoming)) :
    ∃ ty' incoming', f'.kind id = .ok (.phi ty' incoming') := by
  obtain ⟨inst, hinst, hsame⟩ := kind_eq_ok.mp hkind
  obtain ⟨kind', hinst', hphi, -⟩ := h.insts id inst hinst
  rw [hsame] at hphi
  cases kind' with
  | phi ty' incoming' => exact ⟨ty', incoming', kind_eq_ok.mpr ⟨_, hinst', rfl⟩⟩
  | _ => cases hphi

theorem lands_old (hb : f.Lands b) : f'.Lands b := by
  obtain ⟨id, pos, hid, hkind⟩ := hb
  exact ⟨id, pos, h.listed_old hid, h.kind_of_not_phi hkind rfl⟩

/-- What stands before something else in a block that is not new did so. -/
theorem listed_before (hclosed : f.Closed) (hdiverts : Diverts exempt f block target kinds)
    {id' : InstId} {before : Nat} (hid : f'.Listed id b pos) (hbefore : before < pos)
    (hid' : f'.Listed id' b before) : f.Listed id b pos ∧ f.Listed id' b before := by
  obtain ⟨rfl, hlt, -⟩ | hold' := h.toDetour.listed_cases hid'
  · obtain ⟨-, hlt', -⟩ | hold := h.toDetour.listed_cases hid
    · obtain ⟨hzero, -⟩ := hdiverts.eq_landingPad (List.getElem?_eq_getElem hlt')
      omega
    · exact absurd rfl (Detour.ne_new_of_live hclosed hold.1)
  · obtain ⟨rfl, -⟩ | hold := h.toDetour.listed_cases hid
    · exact absurd rfl (Detour.ne_new_of_live hclosed hold'.1)
    · exact ⟨hold, hold'⟩

end Rerouted

/-- Landing pads stand where they may when an edge is led through a new block. -/
theorem Landed.rerouted (hf : f.Landed exempt) (h : f.Rerouted block index target kinds f')
    (hlive : block ∈ f.layout) (hdiverts : Diverts exempt f block target kinds) :
    f'.Landed exempt where
  whole := h.whole hf.whole
  closed := h.closed hf.closed hlive
  layout := h.nodup_layout hf.closed.inArena hf.layout
  home := by
    intro id b pos hid
    obtain ⟨rfl, hlt, rfl⟩ | hold := h.toDetour.listed_cases hid
    · obtain ⟨inst, hinst, -, hblock⟩ := h.added pos _ (List.getElem?_eq_getElem hlt)
      exact ⟨inst, hinst, hblock⟩
    · obtain ⟨inst, hinst, hblock⟩ := hf.home id b pos hold
      obtain ⟨kind, hinst', -⟩ := h.insts id inst hinst
      exact ⟨_, hinst', hblock⟩
  unwind := by
    intro b hb blk' hblk' callee args normal unwind hterm
    have hold : ∀ blk, f.block b = .ok blk → ∀ normal, blk.term = .invoke callee args normal unwind →
        f'.Lands unwind := by
      intro blk hblk normal hterm
      obtain rfl | hb := h.mem_layout.mp hb
      · exact absurd rfl (Detour.ne_new (index_lt_of_block hblk))
      exact h.lands_old (hf.unwind b hb blk hblk callee args normal unwind hterm)
    obtain ⟨-, -, hnew⟩ | ⟨blk, hblk, -, hsame | ⟨rfl, hset⟩⟩ := h.block_cases hblk'
    · cases hnew.symm.trans hterm
    · exact hold blk hblk normal (hsame ▸ hterm)
    obtain ⟨normal₀, unwind₀, hterm₀, rfl | ⟨rfl, rfl⟩⟩ :=
      Terminator.setSuccessor_eq_invoke (hset.symm.trans hterm)
    · exact hold blk hblk normal₀ hterm₀
    -- The invocation unwinds to the new block now, and to the target before.
    obtain ⟨blk₀, hblk₀, hindex, -⟩ := h.source
    obtain rfl := Except.ok.inj (hblk.symm.trans hblk₀)
    obtain rfl : unwind₀ = target := by simpa [hterm₀, Terminator.successors] using hindex
    obtain ⟨id, pos, hid, hkind⟩ := hf.unwind b hlive blk hblk callee args normal₀ unwind₀ hterm₀
    cases hdiverts with
    | plain hplain => exact absurd hkind (hplain id pos hid)
    | pad =>
      obtain ⟨inst, hinst, hsame, -⟩ := h.added 0 _ rfl
      refine ⟨_, 0, ⟨h.mem_layout.mpr (.inl rfl), _, h.new.choose_spec, ?_⟩,
        kind_eq_ok.mpr ⟨inst, hinst, hsame⟩⟩
      exact getElem?_nextIds.mpr ⟨Nat.one_pos, rfl⟩
  padsLead := by
    intro id b pos hid hkind before hbefore id' hid'
    obtain ⟨-, hold'⟩ := h.listed_before hf.closed hdiverts hid hbefore hid'
    obtain ⟨hold, hkind₀⟩ | ⟨-, hadded⟩ := h.listed_plain hf.whole hid hkind rfl
    · obtain ⟨ty, incoming, hphi⟩ := hf.padsLead id b pos hold hkind₀ before hbefore id' hold'
      exact h.exists_phi hphi
    · obtain ⟨rfl, -⟩ := hdiverts.eq_landingPad hadded
      exact absurd hbefore (Nat.not_lt_zero _)
  padEdges := by
    intro id b pos hid hkind hexempt
    obtain ⟨hold, hkind₀⟩ | ⟨rfl, hadded⟩ := h.listed_plain hf.whole hid hkind rfl
    · have hne : b ≠ target := by
        rintro rfl
        cases hdiverts with
        | plain hplain => exact hplain id pos hold hkind₀
        | pad _ hexempt' => exact hexempt hexempt'
      obtain ⟨⟨a, ha, hedge⟩, hall⟩ := hf.padEdges id b pos hold hkind₀ hexempt
      refine ⟨⟨a, h.mem_layout.mpr (.inr ha),
        h.edge_of_old hf.whole hedge (.inr (.inl hne))⟩, fun a ha hedge => ?_⟩
      obtain ⟨-, heq⟩ | ⟨-, rfl⟩ | hedge₀ := h.edge_cases hedge
      · exact absurd heq hne
      · exact absurd rfl (Detour.ne_new_of_live hf.closed hold.1)
      · obtain rfl | ha := h.mem_layout.mp ha
        · exact absurd rfl (Detour.ne_new_of_edge hf.whole hedge₀).1
        · exact h.unwinds_of_ne hf.whole hne (hall a ha hedge₀)
    · cases hdiverts with
      | plain => cases hadded
      | pad hunwinds =>
        refine ⟨⟨block, h.mem_layout.mpr (.inr hlive), h.edge_into_new⟩, fun a ha hedge => ?_⟩
        obtain ⟨-, heq⟩ | ⟨rfl, -⟩ | hedge₀ := h.edge_cases hedge
        · exact absurd heq.symm (Detour.ne_new_of_edge hf.whole h.edge_source).2
        · exact h.unwinds_new hf.whole hunwinds
        · exact absurd rfl (Detour.ne_new_of_edge hf.whole hedge₀).2

end Function

end EdgeProbe
