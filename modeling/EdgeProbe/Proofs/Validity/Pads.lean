import EdgeProbe.Proofs.Validity.Passes
import EdgeProbe.Proofs.Validity.Rerouted

/-!
# Landing pads that may be split

A landing pad can be taken apart wherever only exceptional edges lead there. Each copy keeps the
function sound but for the edges into the pad, and once all of these lead through copies, a phi of
what the copies yield may take the place of the pad. Main statements: `Function.PadSplit.sound` and
`Edit.exists_splitSharedLandingPads`.
-/

namespace EdgeProbe

namespace Function

variable {m : Module} {f f' : Function} {pad pred b : BlockId} {preds : List BlockId}
  {incoming : List (Value × BlockId)} {kinds : List InstKind} {landing : InstId} {k : Nat}

/-! ## Copies of a pad -/

/-- These blocks unwind to a pad, and can be made to unwind to copies of it. -/
structure Divertible (f : Function) (pad : BlockId) (preds : List BlockId) : Prop where
  nodup : preds.Nodup
  live : ∀ pred ∈ preds, pred ∈ f.layout
  unwinds : ∀ pred ∈ preds, f.Unwinds pred pad

theorem Divertible.rerouted {f₁ : Function} (hd : f.Divertible pad (pred :: preds))
    (h : f.Rerouted pred 1 pad kinds f₁) : f₁.Divertible pad preds where
  nodup := (List.nodup_cons.mp hd.nodup).2
  live := fun p hp => h.mem_layout.mpr (.inr (hd.live p (List.mem_cons_of_mem _ hp)))
  unwinds := fun p hp => h.unwinds (ne_of_mem_of_not_mem hp (List.nodup_cons.mp hd.nodup).1)
    (hd.unwinds p (List.mem_cons_of_mem _ hp))

/-- The values come from blocks of one instruction each that branch to the pad. -/
structure PadCopies (f : Function) (pad : BlockId) (incoming : List (Value × BlockId)) : Prop where
  nodup : (incoming.map (·.2)).Nodup
  live : ∀ entry ∈ incoming, entry.2 ∈ f.layout
  blocks : ∀ entry ∈ incoming, ∃ id name, entry.1 = .inst id ∧
    f.block entry.2 = .ok ⟨name, [id], .br pad⟩

theorem PadCopies.listed (hc : f.PadCopies pad incoming) {entry : Value × BlockId}
    (hentry : entry ∈ incoming) : ∃ id, entry.1 = .inst id ∧ f.Listed id entry.2 0 := by
  obtain ⟨id, name, hvalue, hblk⟩ := hc.blocks entry hentry
  exact ⟨id, hvalue, hc.live entry hentry, _, hblk, rfl⟩

theorem PadCopies.edge (hc : f.PadCopies pad incoming) (hb : b ∈ incoming.map (·.2)) :
    b ∈ f.layout ∧ f.Edge b pad := by
  obtain ⟨entry, hentry, rfl⟩ := List.mem_map.mp hb
  obtain ⟨id, name, -, hblk⟩ := hc.blocks entry hentry
  exact ⟨hc.live entry hentry, _, successors_of_block hblk, List.mem_singleton_self _⟩

theorem PadCopies.not_invoke (hc : f.PadCopies pad incoming) (hb : b ∈ incoming.map (·.2))
    {blk : Block} (hblk : f.block b = .ok blk) {callee : Callee} {args : List Value}
    {normal unwind : BlockId} : blk.term ≠ .invoke callee args normal unwind := by
  obtain ⟨entry, hentry, rfl⟩ := List.mem_map.mp hb
  obtain ⟨id, name, -, hblk'⟩ := hc.blocks entry hentry
  obtain rfl := Except.ok.inj (hblk.symm.trans hblk')
  exact nofun

namespace Copied

theorem mem_layout (h : f.Copied pad preds incoming f') (hb : b ∈ f.layout) : b ∈ f'.layout := by
  induction h with
  | nil => exact hb
  | cons h _ ih => exact ih (h.mem_layout.mpr (.inr hb))

theorem layout_cases (h : f.Copied pad preds incoming f') (hb : b ∈ f'.layout) :
    b ∈ incoming.map (·.2) ∨ b ∈ f.layout := by
  induction h with
  | nil => exact .inr hb
  | cons h _ ih =>
    obtain hcopy | hlive := ih hb
    · exact .inl (List.mem_cons_of_mem _ hcopy)
    · obtain rfl | hold := h.mem_layout.mp hlive
      · exact .inl List.mem_cons_self
      · exact .inr hold

theorem listed_old (h : f.Copied pad preds incoming f') {id : InstId} {pos : Nat}
    (hid : f.Listed id b pos) : f'.Listed id b pos := by
  induction h with
  | nil => exact hid
  | cons h _ ih => exact ih (h.listed_old hid)

/-- Only the blocks whose edges are led elsewhere change. -/
theorem block_eq (h : f.Copied pad preds incoming f') (hb : b.index < f.blocks.size)
    (hnot : b ∉ preds) : f'.block b = f.block b := by
  induction h with
  | nil => rfl
  | cons h _ ih =>
    obtain ⟨hne, hnot⟩ := not_or.mp (mt List.mem_cons.mpr hnot)
    rw [ih (by rw [h.size]; exact hb.trans (Nat.lt_succ_self _)) hnot, h.rest _ hne hb.ne]

/-- The copies are new blocks. -/
theorem le_of_mem (h : f.Copied pad preds incoming f') (hb : b ∈ incoming.map (·.2)) :
    f.blocks.size ≤ b.index := by
  induction h with
  | nil => cases hb
  | cons h _ ih =>
    obtain rfl | hb := List.mem_cons.mp hb
    · exact le_rfl
    · have hle := ih hb
      rw [h.size] at hle
      exact (Nat.le_succ _).trans hle

theorem size_insts (h : f.Copied pad preds incoming f') : f.insts.size ≤ f'.insts.size := by
  induction h with
  | nil => exact le_rfl
  | cons h _ ih => exact (h.sizeInsts ▸ Nat.le_add_right _ _ : _ ≤ _).trans ih

theorem inst_eq (h : f.Copied pad preds incoming f') {id : InstId} {inst : Inst}
    (hinst : f.inst id = .ok inst) (hnot : inst.kind.isPhi = false) : f'.inst id = .ok inst := by
  induction h with
  | nil => exact hinst
  | cons h _ ih => exact ih (h.inst_eq hinst hnot)

theorem padCopies (h : f.Copied pad preds incoming f') (hf : f.Closed)
    (hd : f.Divertible pad preds) : f'.PadCopies pad incoming := by
  induction h with
  | nil => exact ⟨List.nodup_nil, by simp, by simp⟩
  | @cons f f₁ f' pred preds incoming h hrest ih =>
    have hf₁ := h.closed hf (hd.live pred List.mem_cons_self)
    have hc := ih hf₁ (hd.rerouted h)
    obtain ⟨name, hnew⟩ := h.new
    have hlt : f.blocks.size < f₁.blocks.size := h.size ▸ Nat.lt_succ_self _
    have hnot : (⟨f.blocks.size⟩ : BlockId) ∉ preds := fun hmem =>
      lt_irrefl _ (hf.inArena _ (hd.live _ (List.mem_cons_of_mem _ hmem)))
    refine ⟨List.nodup_cons.mpr ⟨fun hmem => ?_, hc.nodup⟩, List.forall_mem_cons.mpr ⟨?_, hc.live⟩,
      List.forall_mem_cons.mpr ⟨⟨_, name, rfl, ?_⟩, hc.blocks⟩⟩
    · exact absurd (hrest.le_of_mem hmem) (Nat.not_le.mpr hlt)
    · exact hrest.mem_layout (h.mem_layout.mpr (.inl rfl))
    · exact (hrest.block_eq hlt hnot).trans hnew

/-- Into the pad lead the edges of the copies and of the blocks that are left. -/
theorem edge_cases (h : f.Copied pad preds incoming f') (hf : f.Whole)
    (hd : f.Divertible pad preds) (hedge : f'.Edge b pad) :
    b ∈ incoming.map (·.2) ∨ f.Edge b pad ∧ b ∉ preds := by
  induction h with
  | nil => exact .inr ⟨hedge, List.not_mem_nil⟩
  | @cons f f₁ f' pred preds incoming h hrest ih =>
    obtain hcopy | ⟨hedge₁, hnot⟩ := ih (h.whole hf) (hd.rerouted h) hedge
    · exact .inl (List.mem_cons_of_mem _ hcopy)
    have hunwinds := hd.unwinds pred List.mem_cons_self
    obtain ⟨rfl, -⟩ | ⟨-, heq⟩ | hold := h.edge_cases hedge₁
    · exact .inl List.mem_cons_self
    · exact absurd heq (Detour.ne_new_of_edge hf h.edge_source).2
    · refine .inr ⟨hold, fun hmem => ?_⟩
      obtain rfl | hmem := List.mem_cons.mp hmem
      · -- The source has no other edge to the pad.
        obtain ⟨normal, hsuccs, hne⟩ := hunwinds.successors
        obtain ⟨succs, hsuccs', -, hset⟩ := h.successors_source
        obtain rfl := Except.ok.inj (hsuccs.symm.trans hsuccs')
        obtain ⟨succs₁, hsuccs₁, hmem⟩ := hedge₁
        obtain rfl := Except.ok.inj (hset.symm.trans hsuccs₁)
        have hpad := (Detour.ne_new_of_edge hf h.edge_source).2
        simp [hne.symm, hpad] at hmem
      · exact hnot hmem

/-- Copies of a pad keep what is known of other landing pads. -/
theorem landed (h : f.Copied pad preds incoming f') (hf : f.Landed (· = pad))
    (hd : f.Divertible pad preds) : f'.Landed (· = pad) := by
  induction h with
  | nil => exact hf
  | cons h _ ih =>
    have hdiverts : Diverts (· = pad) _ _ _ _ := .pad (hd.unwinds _ List.mem_cons_self) rfl
    exact ih (hf.rerouted h (hd.live _ List.mem_cons_self) hdiverts) (hd.rerouted h)

/-- Copies of a pad keep a function sound but for the edges into the pad. -/
theorem sound (h : f.Copied pad preds incoming f') (hs : f.Sound m (· = pad))
    (hd : f.Divertible pad preds) (hentry : f.entryBlock? ≠ some pad) : f'.Sound m (· = pad) := by
  induction h with
  | nil => exact hs
  | cons h _ ih =>
    have hlive := hd.live _ List.mem_cons_self
    obtain ⟨kept, htold⟩ := h.exists_told hs.tidy hlive
    have hdiverts : Diverts (· = pad) _ _ _ _ := .pad (hd.unwinds _ List.mem_cons_self) rfl
    refine ih (hs.rerouted htold hlive hdiverts hentry) (hd.rerouted h) fun hpad => ?_
    exact hentry (h.entryBlock?_eq hlive hentry hpad)

end Copied

/-! ## The phi of the copies -/

/-- The function with a phi in the place of a landing pad. -/
def withPadPhi (f : Function) (landing : InstId) (incoming : List (Value × BlockId)) : Function :=
  f.withInst landing fun i => { i with kind := .phi .ptr incoming }

section

variable (hkind : f.kind landing = .ok .landingPad)
include hkind

theorem kind_withPadPhi_self : (f.withPadPhi landing incoming).kind landing =
    .ok (.phi .ptr incoming) := by
  obtain ⟨inst, hinst, -⟩ := kind_eq_ok.mp hkind
  exact kind_eq_ok.mpr ⟨_, by rw [withPadPhi, inst_withInst, if_pos rfl, hinst]; rfl, rfl⟩

omit hkind in
theorem kind_withPadPhi_of_ne {id : InstId} (hne : id ≠ landing) :
    (f.withPadPhi landing incoming).kind id = f.kind id := by
  rw [kind, kind, withPadPhi, inst_withInst, if_neg hne]

/-- What was a landing pad is the phi now, and everything else is what it was. -/
theorem kind_withPadPhi_cases {id : InstId} {kind : InstKind}
    (h : (f.withPadPhi landing incoming).kind id = .ok kind) :
    id = landing ∧ kind = .phi .ptr incoming ∨ id ≠ landing ∧ f.kind id = .ok kind := by
  by_cases hid : id = landing
  · subst hid
    exact .inl ⟨rfl, Except.ok.inj (h.symm.trans (kind_withPadPhi_self hkind))⟩
  · exact .inr ⟨hid, (kind_withPadPhi_of_ne hid).symm.trans h⟩

theorem exists_phi_withPadPhi {id : InstId} {ty : Ty} {entries : List (Value × BlockId)}
    (h : f.kind id = .ok (.phi ty entries)) :
    ∃ ty' entries', (f.withPadPhi landing incoming).kind id = .ok (.phi ty' entries') := by
  refine ⟨ty, entries, ?_⟩
  rw [kind_withPadPhi_of_ne, h]
  rintro rfl
  cases hkind.symm.trans h

theorem typesKept_withPadPhi : f.TypesKept (f.withPadPhi landing incoming) := by
  refine .of_kinds rfl fun id kind h => ?_
  by_cases hid : id = landing
  · subst hid
    refine .inr ⟨.ptr, incoming, fun depth ty hty => ?_, kind_withPadPhi_self hkind⟩
    rw [valueTypeWithin_of_fixedType? hkind rfl] at hty
    exact (Except.ok.inj hty).symm
  · exact .inl ((kind_withPadPhi_of_ne hid).trans h)

theorem valueType_withPadPhi {value : Value} {ty : Ty} (hty : f.valueType value = .ok ty) :
    (f.withPadPhi landing incoming).valueType value = .ok ty :=
  (typesKept_withPadPhi hkind).valueType (size_insts_withInst f landing _).ge hty

end

/-- A landing pad that only copies of it lead to may become the phi of what they yield: the block has
no landing pad any more. -/
theorem Landed.withPadPhi (hf : f.Landed (· = pad)) (hid : f.Listed landing pad k)
    (hkind : f.kind landing = .ok .landingPad) (hc : f.PadCopies pad incoming)
    (hsources : ∀ b ∈ f.layout, f.Edge b pad → b ∈ incoming.map (·.2)) :
    (f.withPadPhi landing incoming).Landed fun _ => False where
  whole := SameFrame.whole ⟨_, rfl, size_insts_withInst f landing _⟩ hf.whole
  closed := ⟨hf.closed.inArena, hf.closed.toLive⟩
  layout := hf.layout
  home := by
    intro id b pos hlisted
    obtain ⟨inst, hinst, hblock⟩ := hf.home id b pos hlisted
    rw [Function.withPadPhi, inst_withInst, hinst]
    split
    · exact ⟨_, rfl, hblock⟩
    · exact ⟨inst, rfl, hblock⟩
  unwind := by
    intro b hb blk hblk callee args normal unwind hterm
    obtain ⟨id, pos, hlisted, hpad⟩ := hf.unwind b hb blk hblk callee args normal unwind hterm
    refine ⟨id, pos, hlisted, (kind_withPadPhi_of_ne ?_).trans hpad⟩
    rintro rfl
    obtain ⟨inst, hinst, hblock⟩ := hf.home id pad k hid
    obtain ⟨inst', hinst', hblock'⟩ := hf.home id unwind pos hlisted
    obtain rfl := Except.ok.inj (hinst.symm.trans hinst')
    obtain rfl := Option.some.inj (hblock.symm.trans hblock')
    have hedge : f.Edge b pad := ⟨_, successors_of_block hblk, by simp [hterm, Terminator.successors]⟩
    exact hc.not_invoke (hsources b hb hedge) hblk hterm
  padsLead := by
    intro id b pos hlisted h before hbefore id' hlisted'
    obtain ⟨-, heq⟩ | ⟨-, hold⟩ := kind_withPadPhi_cases hkind h
    · cases heq
    obtain ⟨ty, entries, hphi⟩ := hf.padsLead id b pos hlisted hold before hbefore id' hlisted'
    exact exists_phi_withPadPhi hkind hphi
  padEdges := by
    intro id b pos hlisted h _
    obtain ⟨-, heq⟩ | ⟨hne, hold⟩ := kind_withPadPhi_cases hkind h
    · cases heq
    refine hf.padEdges id b pos hlisted hold ?_
    rintro rfl
    exact hne (hf.landingPad_unique hlisted hold hid hkind)

section

variable (hs : f.Sound m (· = pad)) (hid : f.Listed landing pad k)
  (hkind : f.kind landing = .ok .landingPad) (hc : f.PadCopies pad incoming)
  (hsources : ∀ b ∈ f.layout, f.Edge b pad → b ∈ incoming.map (·.2))
include hs hid hkind hc hsources

theorem Sound.tidy_withPadPhi : (f.withPadPhi landing incoming).Tidy where
  closed := ⟨hs.tidy.closed.inArena, hs.tidy.closed.toLive⟩
  home := (hs.landed.withPadPhi hid hkind hc hsources).home
  nodup := hs.tidy.nodup
  operands := by
    intro id b pos kind hlisted h value hvalue
    rw [withPadPhi, size_insts_withInst]
    obtain ⟨rfl, rfl⟩ | ⟨-, hold⟩ := kind_withPadPhi_cases hkind h
    · obtain ⟨entry, hentry, rfl⟩ := List.mem_map.mp hvalue
      obtain ⟨used, heq, hused⟩ := hc.listed hentry
      obtain ⟨inst, hinst, -⟩ := hs.tidy.home used _ _ hused
      rw [heq]
      exact index_lt_of_inst hinst
    · exact hs.tidy.operands id b pos kind hlisted hold value hvalue
  termOperands := by
    rw [withPadPhi, size_insts_withInst]
    exact hs.tidy.termOperands
  sources := by
    intro id b pos ty entries hlisted h entry hentry
    obtain ⟨rfl, heq⟩ | ⟨-, hold⟩ := kind_withPadPhi_cases hkind h
    · obtain ⟨rfl, rfl⟩ := InstKind.phi.inj heq
      exact hs.tidy.closed.inArena _ (hc.live entry hentry)
    · exact hs.tidy.sources id b pos ty entries hlisted hold entry hentry
  phisLead := by
    intro id b pos ty entries hlisted h before hbefore id' hlisted'
    have hold : ∃ ty entries, f.kind id' = .ok (.phi ty entries) := by
      obtain ⟨rfl, -⟩ | ⟨-, hold⟩ := kind_withPadPhi_cases hkind h
      · exact hs.padsLead id b pos hlisted hkind before hbefore id' hlisted'
      · exact hs.tidy.phisLead id b pos ty entries hlisted hold before hbefore id' hlisted'
    obtain ⟨ty', entries', hphi⟩ := hold
    exact exists_phi_withPadPhi hkind hphi
  entries := by
    intro id b pos ty entries hlisted h source hsource hedge
    obtain ⟨rfl, heq⟩ | ⟨-, hold⟩ := kind_withPadPhi_cases hkind h
    · obtain ⟨rfl, rfl⟩ := InstKind.phi.inj heq
      obtain ⟨rfl, -⟩ := hs.tidy.listed_unique hid hlisted
      obtain ⟨entry, hentry, rfl⟩ := List.mem_map.mp (hsources source hsource hedge)
      exact ⟨entry.1, hentry⟩
    · exact hs.tidy.entries id b pos ty entries hlisted hold source hsource hedge

omit hid hsources in
theorem Sound.named_withPadPhi : (f.withPadPhi landing incoming).Named m := by
  have hgrows : m.Grows f m (f.withPadPhi landing incoming) :=
    ⟨le_rfl, le_rfl, rfl, (size_insts_withInst f landing _).ge, le_rfl⟩
  have hsize : (f.withPadPhi landing incoming).insts.size = f.insts.size :=
    size_insts_withInst f landing _
  refine ⟨fun b blk hblk id hid => ?_, hs.named.successors,
    fun b blk hblk => hgrows.knowsTerminator (hs.named.terminators b blk hblk),
    fun id kind h => ?_, fun id hid => hsize ▸ hs.named.tokens id hid⟩
  · exact hsize ▸ hs.named.insts b blk hblk id hid
  obtain ⟨rfl, rfl⟩ | ⟨-, hold⟩ := kind_withPadPhi_cases hkind h
  · rw [Module.knowsKind, Bool.and_eq_true, List.all_eq_true]
    refine ⟨fun value hvalue => ?_, List.all_eq_true.mpr fun entry hentry => ?_⟩
    · obtain ⟨entry, hentry, rfl⟩ := List.mem_map.mp hvalue
      obtain ⟨used, heq, hused⟩ := hc.listed hentry
      obtain ⟨inst, hinst, -⟩ := hs.tidy.home used _ _ hused
      rw [heq, Module.knowsValue, hasInst, hsize]
      exact decide_eq_true (index_lt_of_inst hinst)
    · exact decide_eq_true (hs.tidy.closed.inArena _ (hc.live entry hentry))
  · exact hgrows.knowsKind (hs.named.kinds id kind hold)

/-- A landing pad that only copies of it lead to may become the phi of what they yield. -/
theorem Sound.withPadPhi : (f.withPadPhi landing incoming).Sound m fun _ => False := by
  have hprecedes : ∀ {used b pos}, f.Precedes used b pos →
      (f.withPadPhi landing incoming).Precedes used b pos :=
    Precedes.mono (f := f) (f.withPadPhi landing incoming) (fun _ he => he)
      (fun _ _ hedge => hedge) fun _ _ _ hid => hid
  have hplain : ∀ {id kind}, (f.withPadPhi landing incoming).kind id = .ok kind →
      kind.isPhi = false → id ≠ landing ∧ f.kind id = .ok kind := by
    intro id kind h hnot
    obtain ⟨-, rfl⟩ | hold := kind_withPadPhi_cases hkind h
    · cases hnot
    · exact hold
  exact {
    tidy := hs.tidy_withPadPhi hid hkind hc hsources
    named := hs.named_withPadPhi hkind hc
    layout := hs.layout
    unwind := (hs.landed.withPadPhi hid hkind hc hsources).unwind
    sources := by
      intro id b pos ty entries hlisted h
      obtain ⟨rfl, heq⟩ | ⟨-, hold⟩ := kind_withPadPhi_cases hkind h
      · obtain ⟨rfl, rfl⟩ := InstKind.phi.inj heq
        obtain ⟨rfl, -⟩ := hs.tidy.listed_unique hid hlisted
        exact ⟨hc.nodup, fun source hsource => hc.edge hsource⟩
      · exact hs.sources id b pos ty entries hlisted hold
    padsLead := (hs.landed.withPadPhi hid hkind hc hsources).padsLead
    padEdges := (hs.landed.withPadPhi hid hkind hc hsources).padEdges
    paired := by
      intro id b pos kind lhs rhs hlisted h hpair
      have hnot : kind.isPhi = false := by cases kind <;> first | rfl | cases hpair
      obtain ⟨ty, hl, hr⟩ := hs.paired id b pos kind lhs rhs hlisted (hplain h hnot).2 hpair
      exact ⟨ty, valueType_withPadPhi hkind hl, valueType_withPadPhi hkind hr⟩
    arity := fun id b pos target args ret hlisted h =>
      hs.arity id b pos target args ret hlisted (hplain h rfl).2
    conditions := fun b hb blk hblk cond onTrue onFalse hterm =>
      valueType_withPadPhi hkind (hs.conditions b hb blk hblk cond onTrue onFalse hterm)
    phiUses := by
      intro id b pos ty entries hlisted h used source hmem
      obtain ⟨rfl, heq⟩ | ⟨-, hold⟩ := kind_withPadPhi_cases hkind h
      · obtain ⟨rfl, rfl⟩ := InstKind.phi.inj heq
        obtain ⟨id, heq, hused⟩ := hc.listed hmem
        obtain rfl : used = id := Value.inst.inj heq
        exact hprecedes ⟨source, 0, hused, fun _ => .inl ⟨rfl, by simp⟩⟩
      · exact hprecedes (hs.phiUses id b pos ty entries hlisted hold used source hmem)
    uses := fun id b pos kind hlisted h hnot used hused =>
      hprecedes (hs.uses id b pos kind hlisted (hplain h hnot).2 hnot used hused)
    termUses := fun b hb blk hblk used hused => hprecedes (hs.termUses b hb blk hblk used hused) }

end

/-! ## Pads that have been split -/

theorem firstWith?_eq_some {holds : InstKind → Bool} {ids : List InstId} {id : InstId}
    (h : f.firstWith? holds ids = .ok (some id)) :
    id ∈ ids ∧ ∃ kind, f.kind id = .ok kind ∧ holds kind = true := by
  induction ids with
  | nil => cases h
  | cons first rest ih =>
    rw [firstWith?] at h
    obtain ⟨kind, hkind, h⟩ := Checked.bind_eq_ok.mp h
    split at h
    · next hholds =>
      obtain rfl := Option.some.inj (Except.ok.inj h)
      exact ⟨List.mem_cons_self, kind, hkind, hholds⟩
    · obtain ⟨hmem, hfound⟩ := ih h
      exact ⟨List.mem_cons_of_mem _ hmem, hfound⟩

/-- The landing pad of a block that lives is one of its instructions. -/
theorem listed_of_landingPadInst? (hlive : pad ∈ f.layout)
    (h : f.landingPadInst? pad = .ok (some landing)) :
    (∃ k, f.Listed landing pad k) ∧ f.kind landing = .ok .landingPad := by
  obtain ⟨blk, hblk, h⟩ := Checked.bind_eq_ok.mp h
  obtain ⟨hmem, kind, hkind, hholds⟩ := firstWith?_eq_some h
  obtain ⟨k, hk⟩ := List.mem_iff_getElem?.mp hmem
  refine ⟨⟨k, hlive, blk, hblk, hk⟩, ?_⟩
  cases kind with
  | landingPad => exact hkind
  | _ => cases hholds

theorem Sound.exempting {exempt : BlockId → Prop} (hs : f.Sound m fun _ => False) :
    f.Sound m exempt :=
  { hs with padEdges := fun id b pos hid hkind _ => hs.padEdges id b pos hid hkind not_false }

theorem Landed.exempting {exempt : BlockId → Prop} (hf : f.Landed fun _ => False) :
    f.Landed exempt :=
  { hf with padEdges := fun id b pos hid hkind _ => hf.padEdges id b pos hid hkind not_false }

theorem Landed.divertible (hf : f.Landed fun _ => False) (hid : f.Listed landing pad k)
    (hkind : f.kind landing = .ok .landingPad) (hpreds : f.predecessors pad = .ok preds) :
    f.Divertible pad preds := by
  obtain ⟨-, hunwinds⟩ := hf.padEdges landing pad k hid hkind not_false
  refine ⟨nodup_predecessors hf.layout hunwinds hpreds, fun pred hpred => ?_, fun pred hpred => ?_⟩
  · exact ((mem_edgesInto hpreds).mp hpred).1
  · obtain ⟨hlive, hedge⟩ := (mem_edgesInto hpreds).mp hpred
    exact hunwinds pred hlive hedge

/-- All edges that are left into a pad come from copies of it. -/
theorem Copied.mem_copies (h : f.Copied pad preds incoming f') (hf : f.Whole)
    (hd : f.Divertible pad preds) (hpreds : f.predecessors pad = .ok preds) (hb : b ∈ f'.layout)
    (hedge : f'.Edge b pad) : b ∈ incoming.map (·.2) := by
  obtain hcopy | ⟨hold, hnot⟩ := h.edge_cases hf hd hedge
  · exact hcopy
  · refine (h.layout_cases hb).resolve_right fun hlive => ?_
    exact hnot ((mem_edgesInto hpreds).mpr ⟨hlive, hold⟩)

/-- Landing pads stand where they may when one of them has been split. -/
theorem PadSplit.landed (h : PadSplit pad f f') (hf : f.Landed fun _ => False)
    (hlive : pad ∈ f.layout) : f'.Landed fun _ => False := by
  obtain ⟨preds, landing, incoming, f₁, hpreds, hlanding, hcopied, rfl⟩ := h
  obtain ⟨⟨k, hid⟩, hkind⟩ := listed_of_landingPadInst? hlive hlanding
  have hd := hf.divertible hid hkind hpreds
  have hkind₁ : f₁.kind landing = .ok .landingPad := by
    obtain ⟨inst, hinst, hsame⟩ := kind_eq_ok.mp hkind
    exact kind_eq_ok.mpr ⟨inst, hcopied.inst_eq hinst (by rw [hsame]; rfl), hsame⟩
  exact (hcopied.landed hf.exempting hd).withPadPhi (hcopied.listed_old hid) hkind₁
    (hcopied.padCopies hf.closed hd) fun _ => hcopied.mem_copies hf.whole hd hpreds

/-- A function is still sound when a landing pad has been split. -/
theorem PadSplit.sound (h : PadSplit pad f f') (hs : f.Sound m fun _ => False)
    (hlive : pad ∈ f.layout) (hentry : f.entryBlock? ≠ some pad) :
    f'.Sound m fun _ => False := by
  obtain ⟨preds, landing, incoming, f₁, hpreds, hlanding, hcopied, rfl⟩ := h
  obtain ⟨⟨k, hid⟩, hkind⟩ := listed_of_landingPadInst? hlive hlanding
  have hd := hs.landed.divertible hid hkind hpreds
  have hs₁ : f₁.Sound m (· = pad) := hcopied.sound hs.exempting hd hentry
  have hkind₁ : f₁.kind landing = .ok .landingPad := by
    obtain ⟨inst, hinst, hsame⟩ := kind_eq_ok.mp hkind
    exact kind_eq_ok.mpr ⟨inst, hcopied.inst_eq hinst (by rw [hsame]; rfl), hsame⟩
  exact hs₁.withPadPhi (hcopied.listed_old hid) hkind₁ (hcopied.padCopies hs.tidy.closed hd)
    fun _ => hcopied.mem_copies hs.named.whole hd hpreds

end Function

end EdgeProbe
