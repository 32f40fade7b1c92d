import EdgeProbe.Proofs.Machine.Weaving

/-!
# The ways through an instrumented function

A run enters neither landing pads nor what only they lead to. Splitting landing pads does not change
any other block but for where it unwinds to (`Function.SameWays`), and placing probes weaves their code
into those blocks and onto the edges in between. Main statements: `Function.SameWays.woven` and
`Function.Instrumented.woven`.
-/

namespace EdgeProbe

namespace Function

variable {m : Module} {f f₁ f' : Function} {pad pred a b : BlockId} {rest : List BlockId}

/-- The blocks that runs may enter are the same in both functions, but for where they unwind to. -/
structure SameWays (f f' : Function) : Prop where
  header : f.SameHeader f'
  entry : ∀ e, f.entryBlock? = some e → f'.entryBlock? = some e
  size : f.insts.size ≤ f'.insts.size
  types : f.TypesKept f'
  trodden : ∀ b, f.Trodden b → f'.Trodden b
  blocks : ∀ b blk, f.Trodden b → f.block b = .ok blk →
    ∃ term, blk.term.LeadsThrough (fun _ => none) term ∧ f'.block b = .ok { blk with term }
  kinds : ∀ id b pos kind, f.Trodden b → f.Listed id b pos → f.kind id = .ok kind →
    f'.kind id = .ok kind

end Function

theorem Terminator.leadsThrough_refl (term : Terminator) :
    term.LeadsThrough (fun _ => none) term := by
  cases term with
  | invoke callee args normal unwind => exact .inr ⟨callee, args, normal, unwind, unwind, rfl, rfl⟩
  | _ => exact .inl ⟨rfl, (redirect_none _).symm⟩

/-- What happens to edges afterwards happens to them in the end. -/
theorem Terminator.LeadsThrough.trans {through : Nat → Option BlockId} {term term₁ term' : Terminator}
    (h : term.LeadsThrough (fun _ => none) term₁) (h' : term₁.LeadsThrough through term') :
    term.LeadsThrough through term' := by
  obtain ⟨hcalls, rfl⟩ | ⟨callee, args, normal, unwind, unwind₁, rfl, rfl⟩ := h
  · rwa [Terminator.redirect_none] at h'
  · obtain ⟨hcalls, -⟩ | ⟨callee', args', normal', unwind', unwind'', heq, rfl⟩ := h'
    · cases hcalls
    · obtain ⟨rfl, rfl, rfl, rfl⟩ := Terminator.invoke.inj heq
      exact .inr ⟨callee, args, normal, unwind, unwind'', rfl, rfl⟩

namespace Function

variable {m : Module} {f f₁ f' : Function} {pad pred a b : BlockId} {rest : List BlockId}

theorem SameWays.refl (f : Function) : f.SameWays f where
  header := .refl f
  entry := fun _ he => he
  size := le_rfl
  types := .refl f
  trodden := fun _ hb => hb
  blocks := fun _ blk _ hblk => ⟨blk.term, blk.term.leadsThrough_refl, hblk⟩
  kinds := fun _ _ _ _ _ _ hkind => hkind

theorem SameWays.listed (h : f.SameWays f') (hb : f.Trodden b) {id : InstId} {pos : Nat}
    (hid : f.Listed id b pos) : f'.Listed id b pos := by
  obtain ⟨-, blk, hblk, hpos⟩ := hid
  obtain ⟨term, -, hblk'⟩ := h.blocks b blk hb hblk
  exact ⟨(h.trodden b hb).1, _, hblk', hpos⟩

theorem SameWays.trans (h : f.SameWays f₁) (h' : f₁.SameWays f') : f.SameWays f' where
  header := h.header.trans h'.header
  entry := fun e he => h'.entry e (h.entry e he)
  size := h.size.trans h'.size
  types := h.types.trans h'.types
  trodden := fun b hb => h'.trodden b (h.trodden b hb)
  blocks := fun b blk hb hblk => by
    obtain ⟨term₁, hterm₁, hblk₁⟩ := h.blocks b blk hb hblk
    obtain ⟨term, hterm, hblk'⟩ := h'.blocks b _ (h.trodden b hb) hblk₁
    exact ⟨term, hterm₁.trans hterm, hblk'⟩
  kinds := fun id b pos kind hb hid hkind =>
    h'.kinds id b pos kind (h.trodden b hb) (h.listed hb hid) (h.kinds id b pos kind hb hid hkind)

/-- An invocation is made to unwind to a copy of a landing pad. -/
theorem Rerouted.sameWays (h : f.Rerouted pred 1 pad [.landingPad] f₁) (hs : f.Sound m (· = pad))
    (hlive : pred ∈ f.layout) (hunwinds : f.Unwinds pred pad) (hpad : f.Lands pad)
    (hentry : f.entryBlock? ≠ some pad) : f.SameWays f₁ := by
  obtain ⟨kept, htold⟩ := h.exists_told hs.tidy hlive
  refine ⟨h.header, fun e he => h.entryBlock? he fun heq => hentry (heq ▸ he),
    h.sizeInsts ▸ Nat.le_add_right _ _, htold.typesKept, fun b hb => ?_, fun b blk hb hblk => ?_,
    fun id b pos kind hb hid hkind => ?_⟩
  · refine ⟨h.mem_layout.mpr (.inr hb.1), fun ⟨id, pos, hid, hkind⟩ => ?_⟩
    obtain ⟨hid, hkind⟩ | ⟨hnew, -⟩ := h.listed_plain hs.named.whole hid hkind rfl
    · exact hb.2 ⟨id, pos, hid, hkind⟩
    · exact Detour.ne_new_of_live hs.tidy.closed hb.1 hnew
  · by_cases hpred : b = pred
    · subst hpred
      obtain ⟨blk₀, callee, args, normal, hblk₀, hterm, -⟩ := hunwinds
      obtain rfl := Except.ok.inj (hblk.symm.trans hblk₀)
      obtain ⟨blk₁, hblk₁, -, hblk'⟩ := h.source
      obtain rfl := Except.ok.inj (hblk.symm.trans hblk₁)
      refine ⟨_, .inr ⟨callee, args, normal, pad, ⟨f.blocks.size⟩, hterm, ?_⟩, hblk'⟩
      rw [hterm]
      rfl
    · exact ⟨blk.term, blk.term.leadsThrough_refl,
        (h.rest b hpred (index_lt_of_block hblk).ne).trans hblk⟩
  · refine htold.others id kind hkind fun pos' hid' => ?_
    obtain ⟨rfl, -⟩ := hs.tidy.listed_unique hid hid'
    exact absurd hpad hb.2

/-- So are several ones. -/
theorem Copied.sameWays {preds : List BlockId} {incoming : List (Value × BlockId)}
    (h : f.Copied pad preds incoming f') (hs : f.Sound m (· = pad)) (hd : f.Divertible pad preds)
    (hpad : f.Lands pad) (hentry : f.entryBlock? ≠ some pad) : f.SameWays f' := by
  induction h with
  | nil => exact .refl _
  | cons h _ ih =>
    have hlive := hd.live _ List.mem_cons_self
    have hunwinds := hd.unwinds _ List.mem_cons_self
    obtain ⟨kept, htold⟩ := h.exists_told hs.tidy hlive
    refine (h.sameWays hs hlive hunwinds hpad hentry).trans (ih
      (hs.rerouted htold hlive (.pad hunwinds rfl) hentry) (hd.rerouted h) (h.lands_old hpad) ?_)
    exact fun he => hentry (h.entryBlock?_eq hlive hentry he)

/-- The landing pad becomes a phi. -/
theorem sameWays_withPadPhi (htidy : f.Tidy) {landing : InstId} {k : Nat}
    (hid : f.Listed landing pad k) (hkind : f.kind landing = .ok .landingPad)
    (incoming : List (Value × BlockId)) : f.SameWays (f.withPadPhi landing incoming) where
  header := ⟨f.blocks, f.layout, _, f.annotations, rfl⟩
  entry := fun _ he => he
  size := (size_insts_withInst f landing _).ge
  types := typesKept_withPadPhi hkind
  trodden := fun b hb => by
    refine ⟨hb.1, fun ⟨id, pos, hid', hkind'⟩ => hb.2 ⟨id, pos, hid', ?_⟩⟩
    obtain ⟨-, heq⟩ | ⟨-, hold⟩ := kind_withPadPhi_cases hkind hkind'
    · cases heq
    · exact hold
  blocks := fun _ blk _ hblk => ⟨blk.term, blk.term.leadsThrough_refl, hblk⟩
  kinds := fun id b pos kind hb hid' hkind' => by
    refine (kind_withPadPhi_of_ne ?_).trans hkind'
    rintro rfl
    obtain ⟨rfl, -⟩ := htidy.listed_unique hid hid'
    exact hb.2 ⟨id, k, hid, hkind⟩

/-- A landing pad is split. -/
theorem PadSplit.sameWays (h : PadSplit pad f f') (hf : f.Splitting m (pad :: rest)) :
    f.SameWays f' := by
  have hentry := hf.ne_entry
  obtain ⟨preds, landing, incoming, f₁, hpreds, hlanding, hcopied, rfl⟩ := h
  obtain ⟨⟨k, hid⟩, hkind⟩ := listed_of_landingPadInst? hf.toDividing.live hlanding
  have hd := hf.landed.divertible hid hkind hpreds
  have hs₁ := hcopied.sound hf.sound.exempting hd hentry
  have hkind₁ : f₁.kind landing = .ok .landingPad := by
    obtain ⟨inst, hinst, hsame⟩ := kind_eq_ok.mp hkind
    exact kind_eq_ok.mpr ⟨inst, hcopied.inst_eq hinst (by rw [hsame]; rfl), hsame⟩
  exact (hcopied.sameWays hf.sound.exempting hd ⟨landing, k, hid, hkind⟩ hentry).trans
    (sameWays_withPadPhi hs₁.tidy (hcopied.listed_old hid) hkind₁ incoming)

/-- Landing pads are split in turn. -/
theorem Splitting.sameWays {pads : List BlockId} (hf : f.Splitting m pads)
    (h : Edit.InTurn PadSplit pads f f') : f.SameWays f' := by
  induction h with
  | nil => exact .refl _
  | cons hsplit _ ih => exact (hsplit.sameWays hf).trans (ih (hf.padSplit hsplit))

/-- The shared landing pads of a sound function are split. -/
theorem Sound.sameWays (hs : f.Sound m fun _ => False) (hroot : f.Rooted) {count : Nat}
    (h : Edit.splitSharedLandingPads.Does f count f') : f.SameWays f' := by
  obtain ⟨shared, f₁, hshared, hdoes, -, hturns⟩ := Edit.exists_splitSharedLandingPads hs.landed
  obtain ⟨-, rfl⟩ := h.unique hdoes
  exact Splitting.sameWays ⟨hs.landed.dividing hshared, hs, hroot⟩ hturns

/-! ## Blocks that runs enter -/

section

variable {through : BlockId → Nat → Option BlockId} {harmless : List InstId → Prop} {k : Nat}

/-- No run starts with a landing pad. -/
theorem Sound.trodden_entry (hs : f.Sound m fun _ => False) (hroot : f.Rooted)
    (hb : f.entryBlock? = some b) : f.Trodden b := by
  refine ⟨mem_layout_of_entryBlock? hb, fun ⟨id, pos, hid, hkind⟩ => ?_⟩
  obtain ⟨⟨a, ha, hedge⟩, -⟩ := hs.padEdges id b pos hid hkind not_false
  exact hroot b hb a ha hedge

/-- None comes to one. -/
theorem Sound.trodden_onward (hs : f.Sound m fun _ => False) (ha : f.Trodden a)
    (hk : f.Passable a k b) : f.Trodden b := by
  obtain ⟨blk, hblk, hb, hcalls⟩ := hk
  have hedge : f.Edge a b := ⟨_, successors_of_block hblk, List.mem_of_getElem? hb⟩
  refine ⟨hs.tidy.closed.toLive a ha.1 b hedge, fun ⟨id, pos, hid, hkind⟩ => ?_⟩
  obtain ⟨-, hunwinds⟩ := hs.padEdges id b pos hid hkind not_false
  obtain ⟨blk', callee, args, normal, hblk', hterm, hne⟩ := hunwinds a ha.1 hedge
  obtain rfl := Except.ok.inj (hblk.symm.trans hblk')
  rw [hterm] at hb hcalls
  rw [hcalls rfl] at hb
  exact hne (Option.some.inj hb)

/-- Runs may take the same edges. -/
theorem SameWays.passable (h : f.SameWays f') (ha : f.Trodden a) (hk : f.Passable a k b) :
    f'.Passable a k b := by
  obtain ⟨blk, hblk, hb, hcalls⟩ := hk
  obtain ⟨term, hterm, hblk'⟩ := h.blocks a blk ha hblk
  refine ⟨_, hblk', ?_⟩
  obtain ⟨-, rfl⟩ | ⟨callee, args, normal, unwind, unwind', hinvoke, rfl⟩ := hterm
  · rw [Terminator.redirect_none]
    exact ⟨hb, hcalls⟩
  · rw [hinvoke] at hb hcalls
    obtain rfl := hcalls rfl
    exact ⟨hb, fun _ => rfl⟩

/-- Phis take there what they took. -/
theorem SameWays.wovenPhi (h : f.SameWays f₁) (htidy : f.Tidy) {phis : List InstId} {blk : Block}
    (hb : f.Trodden b) (hblk : f.block b = .ok blk) (hphis : f.phis b = .ok phis) {phi : InstId}
    (hphi : phi ∈ phis) (h' : f₁.WovenPhi f' through b phi) : f.WovenPhi f' through b phi := by
  obtain ⟨ty, incoming, hkind⟩ := kind_of_mem_phis hphis hphi
  obtain ⟨rest, hinsts, -⟩ := htidy.insts_eq_append hb.1 hblk hphis
  obtain ⟨pos, hpos⟩ := List.mem_iff_getElem?.mp
    (show phi ∈ blk.insts by rw [hinsts]; exact List.mem_append_left _ hphi)
  have hid : f.Listed phi b pos := ⟨hb.1, blk, hblk, hpos⟩
  obtain ⟨ty₁, incoming₁, incoming', hkind₁, hkind', -, htakes⟩ := h'
  have hsame := hkind₁.symm.trans (h.kinds phi b pos _ hb hid hkind)
  obtain ⟨rfl, rfl⟩ := InstKind.phi.inj (Except.ok.inj hsame)
  refine ⟨ty₁, incoming₁, incoming', hkind, hkind', fun entry hentry => ?_, fun a k ha hk =>
    htakes a k (h.trodden a ha) (h.passable ha hk)⟩
  exact htidy.operands phi b pos _ hid hkind entry.1 (List.mem_map_of_mem hentry)

/-- Code is woven into a function if it is woven into one with the same ways. -/
theorem SameWays.woven (h : f.SameWays f₁) (hs : f.Sound m fun _ => False) (hroot : f.Rooted)
    (h' : f₁.Woven f' through harmless) : f.Woven f' through harmless where
  name := h'.name.trans h.header.name
  types := fun value ty hty => h'.types value ty (h.types.valueType h.size hty)
  entry := fun e he => h'.entry e (h.entry e he)
  start := fun b hb => hs.trodden_entry hroot hb
  onward := fun a k b ha hk => hs.trodden_onward ha hk
  blocks := fun b hb => by
    obtain ⟨blk, phis, hblk, hphis⟩ := hs.tidy.phis_eq_ok hb.1
    obtain ⟨rest, hinsts, -⟩ := hs.tidy.insts_eq_append hb.1 hblk hphis
    obtain ⟨term₁, hterm₁, hblk₁⟩ := h.blocks b blk hb hblk
    have hlisted : ∀ i ∈ blk.insts, ∃ pos, f.Listed i b pos := fun i hi => by
      obtain ⟨pos, hpos⟩ := List.mem_iff_getElem?.mp hi
      exact ⟨pos, hb.1, blk, hblk, hpos⟩
    obtain ⟨blk₁, phis₁, hwb⟩ := h'.blocks b (h.trodden b hb)
    obtain rfl := Except.ok.inj (hblk₁.symm.trans hwb.block)
    -- What leads the block is the same, as its instructions are.
    have hphis₁ : f₁.phis b = .ok phis := by
      obtain ⟨blk', hblk', hlead⟩ := Function.phis_eq_ok hphis
      obtain rfl := Except.ok.inj (hblk.symm.trans hblk')
      refine Checked.bind_eq_ok.mpr ⟨_, hblk₁, leading_congr (fun i hi kind hkind => ?_) hlead⟩
      obtain ⟨pos, hid⟩ := hlisted i hi
      exact ⟨kind, h.kinds i b pos kind hb hid hkind, rfl⟩
    obtain rfl := Except.ok.inj (hphis₁.symm.trans hwb.leading)
    obtain ⟨name, code, term, hcode, hterm, hblock'⟩ := hwb.block'
    refine ⟨blk, phis, hblk, hphis, hwb.leading', ⟨name, code, term, hcode, hterm₁.trans hterm, hblock'⟩,
      fun phi hphi => h.wovenPhi hs.tidy hb hblk hphis hphi (hwb.phi phi hphi), fun i hi kind hkind => ?_,
      hs.tidy.termOperands b hb.1 blk hblk⟩
    obtain ⟨pos, hid⟩ := hlisted i (List.mem_of_mem_drop hi)
    exact ⟨(hwb.insts i hi kind (h.kinds i b pos kind hb hid hkind)).1,
      hs.tidy.operands i b pos kind hid hkind⟩
  between := fun a k b c ha hk hc => h'.between a k b c (h.trodden a ha) (h.passable ha hk) hc

end

/-! ## Probes -/

section

variable {hooks : Hooks} {stands : List Stand} {harmless : List InstId → Prop} {blk : Block}
  {phis : List InstId} {k : Nat} {c : BlockId}

/-- In a block that is no landing pad, code goes where its phis end. -/
theorem Tidy.firstInsertionPoint_eq (htidy : f.Tidy) (hb : f.Trodden b) (hblk : f.block b = .ok blk)
    (hphis : f.phis b = .ok phis) : f.firstInsertionPoint b = .ok phis.length := by
  obtain ⟨rest, hinsts, hrest⟩ := htidy.insts_eq_append hb.1 hblk hphis
  refine Checked.bind_eq_ok.mpr ⟨blk, hblk, Checked.bind_eq_ok.mpr ⟨phis, ?_, rfl⟩⟩
  rw [hinsts]
  refine leading_append (fun i hi => ?_) fun i hi => ?_
  · obtain ⟨ty, incoming, hkind⟩ := kind_of_mem_phis hphis hi
    exact ⟨_, hkind, rfl⟩
  · obtain ⟨kind, hkind, hphi⟩ := hrest i hi
    refine ⟨kind, hkind, ?_⟩
    rw [hphi, Bool.false_or, Bool.eq_false_iff]
    intro hpad
    obtain ⟨pos, hpos⟩ := List.mem_iff_getElem?.mp
      (show i ∈ blk.insts by rw [hinsts]; exact List.mem_append_right _ hi)
    cases kind with
    | landingPad => exact hb.2 ⟨i, pos, ⟨hb.1, blk, hblk, hpos⟩, hkind⟩
    | _ => cases hpad

namespace Instrumented

variable (h : f.Instrumented hooks stands f') (hs : f.Sound m fun _ => False)
include h

/-- The code of probes comes right after the phis, and an edge that has a probe of its own leads
through that. -/
theorem wovenBlock (htidy : f.Tidy) (hkept : f.PhisKept (Stand.through stands) f')
    (hcode : harmless (Stand.idsIn hooks stands b)) (hb : f.Trodden b) :
    ∃ blk phis, f.WovenBlock f' (Stand.through stands) harmless b blk phis := by
  obtain ⟨blk, phis, hblk, hphis⟩ := htidy.phis_eq_ok hb.1
  obtain ⟨rest, hinsts, hrest⟩ := htidy.insts_eq_append hb.1 hblk hphis
  have hlisted : ∀ i ∈ blk.insts, ∃ pos, f.Listed i b pos := fun i hi => by
    obtain ⟨pos, hpos⟩ := List.mem_iff_getElem?.mp hi
    exact ⟨pos, hb.1, blk, hblk, hpos⟩
  have hdrop : blk.insts.drop phis.length = rest := by rw [hinsts, List.drop_left]
  obtain ⟨name, hblk'⟩ := h.old b blk _ hblk (htidy.firstInsertionPoint_eq hb hblk hphis)
  have htake : blk.insts.take phis.length = phis := by rw [hinsts, List.take_left]
  rw [htake, List.append_assoc] at hblk'
  refine ⟨blk, phis, hblk, hphis, ?_, ⟨name, _, _, hcode, ?_, hblk'⟩, fun phi hphi => ?_,
    fun i hi kind hkind => ?_, htidy.termOperands b hb.1 blk hblk⟩
  · refine phis_of_block hblk' rfl (fun i hi => ?_) fun i hi => ?_
    · obtain ⟨ty, incoming, hkind⟩ := kind_of_mem_phis hphis hi
      obtain ⟨kind', hkind', hphi, -⟩ := h.leads_congr hkind
      exact ⟨kind', hkind', hphi⟩
    · rw [hdrop, List.mem_append] at hi
      obtain hi | hi := hi
      · obtain ⟨kind, hkind, hphi, -⟩ := h.kind_of_mem_idsIn hi
        exact ⟨kind, hkind, hphi⟩
      · obtain ⟨kind, hkind, hphi⟩ := hrest i hi
        exact ⟨kind, h.kind_eq hkind hphi, hphi⟩
  · cases hterm : blk.term with
    | invoke callee args normal unwind =>
      exact .inr ⟨callee, args, normal, unwind, _, rfl, rfl⟩
    | _ => exact .inl ⟨rfl, rfl⟩
  · obtain ⟨ty, incoming, hkind⟩ := kind_of_mem_phis hphis hphi
    obtain ⟨pos, hid⟩ := hlisted phi (by rw [hinsts]; exact List.mem_append_left _ hphi)
    obtain ⟨incoming', hkind', htakes⟩ := hkept phi b pos ty incoming hid hkind
    refine ⟨ty, incoming, incoming', hkind, hkind', fun entry hentry => ?_, fun a k ha hk => ?_⟩
    · exact htidy.operands phi b pos _ hid hkind entry.1 (List.mem_map_of_mem hentry)
    · obtain ⟨blk₁, hblk₁, hk, -⟩ := hk
      exact htakes a ha.1 _ k (successors_of_block hblk₁) hk
  · rw [hdrop] at hi
    obtain ⟨kind', hkind', hphi⟩ := hrest i hi
    obtain rfl := Except.ok.inj (hkind.symm.trans hkind')
    obtain ⟨pos, hid⟩ := hlisted i (by rw [hinsts]; exact List.mem_append_right _ hi)
    exact ⟨h.kind_eq hkind hphi, htidy.operands i b pos kind hid hkind⟩

/-- The block of a probe lists nothing else, and leads to where the edge led. -/
theorem between (hpass : f.Passable a k b) (hthrough : Stand.through stands a k = some c) :
    ∃ s ∈ stands, ∃ name, f'.phis c = .ok [] ∧ f'.block c = .ok ⟨name, s.ids hooks, .br b⟩ := by
  obtain ⟨s, hs, hedge, rfl⟩ := Stand.exists_of_through hthrough
  obtain ⟨blk, hblk, hb, -⟩ := hpass
  obtain ⟨-, name, succs, target, hsuccs, hk, hblk'⟩ := h.new s hs a k hedge
  obtain rfl := Except.ok.inj ((successors_of_block hblk).symm.trans hsuccs)
  obtain rfl := Option.some.inj (hb.symm.trans hk)
  refine ⟨s, hs, name, phis_of_block hblk' rfl (by simp) fun i hi => ?_, hblk'⟩
  obtain ⟨kind, hkind, hphi, -⟩ := h.kind_of_mem_idsIn (Stand.mem_idsIn.mpr ⟨s, hs, rfl, hi⟩)
  exact ⟨kind, hkind, hphi⟩

include hs

/-- The code of probes is woven into the function. -/
theorem woven (hroot : f.Rooted) (hkept : f.PhisKept (Stand.through stands) f')
    (htypes : f.TypesKept f') (hentry : f'.entryBlock? = f.entryBlock?)
    (hcode : ∀ b, harmless (Stand.idsIn hooks stands b)) (hown : ∀ s ∈ stands, harmless (s.ids hooks)) :
    f.Woven f' (Stand.through stands) harmless where
  name := h.header.name
  types := fun _ _ => htypes.valueType h.sizeInsts
  entry := fun e he => hentry.trans he
  start := fun b hb => hs.trodden_entry hroot hb
  onward := fun a k b ha hk => hs.trodden_onward ha hk
  blocks := fun b hb => h.wovenBlock hs.tidy hkept (hcode b) hb
  between := fun a k b c _ hk hc => by
    obtain ⟨s, hmem, name, hphis, hblk⟩ := h.between hk hc
    exact ⟨name, s.ids hooks, hown s hmem, hphis, hblk⟩

end Instrumented

end

end Function

end EdgeProbe
