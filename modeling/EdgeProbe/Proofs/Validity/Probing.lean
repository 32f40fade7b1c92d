import EdgeProbe.Proofs.Probe.Correspondence
import EdgeProbe.Proofs.Validity.OwnPads

/-!
# Modules that may be instrumented

A probe goes in behind the phis and the landing pad of a block or into a new block on an edge to no
landing pad, and neither makes a sound function unsound (`Function.Splitting.placedAll`). So a module
is still accepted once its landing pads have been split and once it has been instrumented. Main
statement: `Module.Accepted.accepted_instrumented`.
-/

namespace EdgeProbe

namespace Function

variable {m : Module} {f f' : Function} {b c : BlockId} {blk : Block} {pos : Nat}
  {kinds : List InstKind}

/-! ## Names -/

/-- The function with another name for a block. -/
def withName (f : Function) (b : BlockId) (name : String) : Function :=
  f.withBlock b fun b => { b with name }

section

variable {name : String}

theorem block_withName (h : (f.withName b name).block c = .ok blk) :
    ∃ blk₀, f.block c = .ok blk₀ ∧ blk.insts = blk₀.insts ∧ blk.term = blk₀.term := by
  rw [withName, block_withBlock] at h
  split at h
  · obtain ⟨blk₀, hblk₀, rfl⟩ := Checked.map_eq_ok.mp h
    exact ⟨blk₀, hblk₀, rfl, rfl⟩
  · exact ⟨blk, h, rfl, rfl⟩

theorem exists_block_withName (h : f.block c = .ok blk) : ∃ blk',
    (f.withName b name).block c = .ok blk' ∧ blk'.insts = blk.insts ∧ blk'.term = blk.term := by
  rw [withName, block_withBlock, h]
  split
  · exact ⟨_, rfl, rfl, rfl⟩
  · exact ⟨blk, rfl, rfl, rfl⟩

theorem listed_withName {id : InstId} {k : Nat} :
    (f.withName b name).Listed id c k ↔ f.Listed id c k := by
  constructor
  · rintro ⟨hc, blk, hblk, hpos⟩
    obtain ⟨blk₀, hblk₀, hinsts, -⟩ := block_withName hblk
    exact ⟨hc, blk₀, hblk₀, hinsts ▸ hpos⟩
  · rintro ⟨hc, blk, hblk, hpos⟩
    obtain ⟨blk', hblk', hinsts, -⟩ := exists_block_withName (b := b) hblk
    exact ⟨hc, blk', hblk', hinsts ▸ hpos⟩

theorem edge_withName {a : BlockId} : (f.withName b name).Edge a c ↔ f.Edge a c := by
  constructor
  · rintro ⟨succs, hsuccs, hc⟩
    obtain ⟨blk, hblk, rfl⟩ := Checked.map_eq_ok.mp hsuccs
    obtain ⟨blk₀, hblk₀, -, hterm⟩ := block_withName hblk
    exact ⟨_, successors_of_block hblk₀, hterm ▸ hc⟩
  · rintro ⟨succs, hsuccs, hc⟩
    obtain ⟨blk, hblk, rfl⟩ := Checked.map_eq_ok.mp hsuccs
    obtain ⟨blk', hblk', -, hterm⟩ := exists_block_withName (b := b) hblk
    exact ⟨_, successors_of_block hblk', hterm ▸ hc⟩

theorem grows_withName (m : Module) : m.Grows f m (f.withName b name) :=
  ⟨le_rfl, le_rfl, rfl, le_rfl, (size_blocks_withBlock f b _).ge⟩

theorem valueType_withName {value : Value} {ty : Ty} (h : f.valueType value = .ok ty) :
    (f.withName b name).valueType value = .ok ty := by
  have htypes : f.TypesKept (f.withName b name) := .of_kinds rfl fun _ _ hkind => .inl hkind
  exact htypes.valueType le_rfl h

theorem Precedes.withName {used : InstId} {k : Option Nat} (h : f.Precedes used c k) :
    (f.withName b name).Precedes used c k :=
  Precedes.mono (f := f) (f.withName b name) (fun _ he => he) (fun _ _ => edge_withName.mp)
    (fun _ _ _ => listed_withName.mpr) h

theorem Tidy.withName (hf : f.Tidy) : (f.withName b name).Tidy where
  closed := {
    inArena := fun c hc => (hf.closed.inArena c hc).trans_le (size_blocks_withBlock f b _).ge
    toLive := fun a ha c hedge => hf.closed.toLive a ha c (edge_withName.mp hedge) }
  home := fun id c k hid => hf.home id c k (listed_withName.mp hid)
  nodup := by
    intro c hc blk hblk
    obtain ⟨blk₀, hblk₀, hinsts, -⟩ := block_withName hblk
    exact hinsts ▸ hf.nodup c hc blk₀ hblk₀
  operands := fun id c k kind hid => hf.operands id c k kind (listed_withName.mp hid)
  termOperands := by
    intro c hc blk hblk value hvalue
    obtain ⟨blk₀, hblk₀, -, hterm⟩ := block_withName hblk
    exact hf.termOperands c hc blk₀ hblk₀ value (hterm ▸ hvalue)
  sources := fun id c k ty incoming hid hkind entry hentry =>
    (hf.sources id c k ty incoming (listed_withName.mp hid) hkind entry hentry).trans_le
      (size_blocks_withBlock f b _).ge
  phisLead := fun id c k ty incoming hid hkind before hbefore id' hid' =>
    hf.phisLead id c k ty incoming (listed_withName.mp hid) hkind before hbefore id'
      (listed_withName.mp hid')
  entries := fun id c k ty incoming hid hkind source hsource hedge =>
    hf.entries id c k ty incoming (listed_withName.mp hid) hkind source hsource
      (edge_withName.mp hedge)

theorem Sound.withName {exempt : BlockId → Prop} (hs : f.Sound m exempt) :
    (f.withName b name).Sound m exempt where
  tidy := hs.tidy.withName
  named := {
    insts := fun c blk hblk id hid => by
      obtain ⟨blk₀, hblk₀, hinsts, -⟩ := block_withName hblk
      exact hs.named.insts c blk₀ hblk₀ id (hinsts ▸ hid)
    successors := fun c blk hblk s hs' => by
      obtain ⟨blk₀, hblk₀, -, hterm⟩ := block_withName hblk
      exact (hs.named.successors c blk₀ hblk₀ s (hterm ▸ hs')).trans_le (size_blocks_withBlock f b _).ge
    terminators := fun c blk hblk => by
      obtain ⟨blk₀, hblk₀, -, hterm⟩ := block_withName hblk
      exact hterm ▸ (grows_withName m).knowsTerminator (hs.named.terminators c blk₀ hblk₀)
    kinds := fun id kind hkind => (grows_withName m).knowsKind (hs.named.kinds id kind hkind)
    tokens := hs.named.tokens }
  layout := hs.layout
  unwind := by
    intro c hc blk hblk callee args normal unwind hterm
    obtain ⟨blk₀, hblk₀, -, hsame⟩ := block_withName hblk
    obtain ⟨id, k, hid, hkind⟩ := hs.unwind c hc blk₀ hblk₀ callee args normal unwind (hsame ▸ hterm)
    exact ⟨id, k, listed_withName.mpr hid, hkind⟩
  sources := by
    intro id c k ty incoming hid hkind
    obtain ⟨hnodup, hsources⟩ := hs.sources id c k ty incoming (listed_withName.mp hid) hkind
    exact ⟨hnodup, fun source hsource =>
      ⟨(hsources source hsource).1, edge_withName.mpr (hsources source hsource).2⟩⟩
  padsLead := fun id c k hid hkind before hbefore id' hid' =>
    hs.padsLead id c k (listed_withName.mp hid) hkind before hbefore id' (listed_withName.mp hid')
  padEdges := by
    intro id c k hid hkind hexempt
    obtain ⟨⟨a, ha, hedge⟩, hunwinds⟩ := hs.padEdges id c k (listed_withName.mp hid) hkind hexempt
    refine ⟨⟨a, ha, edge_withName.mpr hedge⟩, fun a ha hedge => ?_⟩
    obtain ⟨blk, callee, args, normal, hblk, hterm, hne⟩ := hunwinds a ha (edge_withName.mp hedge)
    obtain ⟨blk', hblk', -, hterm'⟩ := exists_block_withName (b := b) hblk
    exact ⟨blk', callee, args, normal, hblk', hterm'.trans hterm, hne⟩
  paired := by
    intro id c k kind lhs rhs hid hkind hpair
    obtain ⟨ty, hl, hr⟩ := hs.paired id c k kind lhs rhs (listed_withName.mp hid) hkind hpair
    exact ⟨ty, valueType_withName hl, valueType_withName hr⟩
  arity := fun id c k target args ret hid => hs.arity id c k target args ret (listed_withName.mp hid)
  conditions := by
    intro c hc blk hblk cond onTrue onFalse hterm
    obtain ⟨blk₀, hblk₀, -, hsame⟩ := block_withName hblk
    exact valueType_withName (hs.conditions c hc blk₀ hblk₀ cond onTrue onFalse (hsame ▸ hterm))
  phiUses := fun id c k ty incoming hid hkind used source hmem =>
    (hs.phiUses id c k ty incoming (listed_withName.mp hid) hkind used source hmem).withName
  uses := fun id c k kind hid hkind hnot used hused =>
    (hs.uses id c k kind (listed_withName.mp hid) hkind hnot used hused).withName
  termUses := by
    intro c hc blk hblk used hused
    obtain ⟨blk₀, hblk₀, -, hterm⟩ := block_withName hblk
    exact (hs.termUses c hc blk₀ hblk₀ used (hterm ▸ hused)).withName

theorem Splitting.withName (hf : f.Splitting m []) : (f.withName b name).Splitting m [] where
  landed := hf.sound.withName.landed
  sound := hf.sound.withName
  rooted := fun e he a ha hedge => hf.rooted e he a ha (edge_withName.mp hedge)
  nodup := hf.nodup
  pads := nofun
  sole := fun id c k hid hkind => (hf.sole id c k (listed_withName.mp hid) hkind).imp_right
    fun hsole a ha a' ha' hedge hedge' =>
      hsole a ha a' ha' (edge_withName.mp hedge) (edge_withName.mp hedge')

end

/-! ## Probes -/

theorem Splitting.withInsts (hf : f.Splitting m []) (hblk : f.block b = .ok blk)
    (hpos : pos ≤ blk.insts.length) (hhosts : f.Hosts m b pos kinds) :
    (f.withInsts b pos kinds).Splitting m [] where
  landed := (hf.sound.withInsts hblk hpos hhosts).landed
  sound := hf.sound.withInsts hblk hpos hhosts
  rooted := fun e he a ha hedge => hf.rooted e he a ha ((edge_withInsts f b pos kinds).mp hedge)
  nodup := hf.nodup
  pads := nofun
  sole := fun id c k hid hkind => by
    obtain ⟨hid₀, hkind₀, -⟩ :=
      hhosts.listed_lead hblk hpos hf.sound.tidy hid hkind (.inr rfl)
    exact (hf.sole id c k hid₀ hkind₀).imp_right fun hsole a ha a' ha' hedge hedge' =>
      hsole a ha a' ha' ((edge_withInsts f b pos kinds).mp hedge)
        ((edge_withInsts f b pos kinds).mp hedge')

/-- From the first insertion point on, a block has neither phis nor a landing pad. -/
theorem Sound.behind (hs : f.Sound m fun _ => False) (hpos : f.firstInsertionPoint b = .ok pos)
    {id : InstId} {k : Nat} {kind : InstKind} (hid : f.Listed id b k) (hkind : f.kind id = .ok kind)
    (hle : pos ≤ k) : kind.isPhi = false ∧ kind.isLandingPad = false := by
  obtain ⟨blk, hblk, -, hlead⟩ := firstInsertionPoint_eq_ok hpos
  obtain ⟨first, hfirst, kind₀, hkind₀, hplain⟩ : ∃ first, f.Listed first b pos ∧
      ∃ kind, f.kind first = .ok kind ∧ kind.isPhi = false ∧ kind.isLandingPad = false := by
    obtain ⟨hb, blk', hblk', hk⟩ := hid
    obtain rfl := Except.ok.inj (hblk.symm.trans hblk')
    obtain ⟨hlt, -⟩ := List.getElem?_eq_some_iff.mp hk
    have hget : blk.insts[pos]? = some blk.insts[pos] := List.getElem?_eq_getElem (by omega)
    obtain ⟨back, hinsts, -, hstops⟩ := leading_eq_ok hlead
    obtain rfl : back = blk.insts.drop pos :=
      List.append_cancel_left (hinsts.symm.trans (List.take_append_drop pos blk.insts).symm)
    obtain ⟨kind, hkind, hnot⟩ := hstops _ (by rw [List.head?_drop, hget]; rfl)
    exact ⟨_, ⟨hb, blk, hblk, hget⟩, kind, hkind, by simpa using hnot⟩
  obtain rfl | hlt := hle.eq_or_lt
  · obtain ⟨-, blk₁, hblk₁, hk⟩ := hid
    obtain ⟨-, blk₂, hblk₂, hk'⟩ := hfirst
    obtain rfl := Except.ok.inj (hblk₁.symm.trans hblk₂)
    obtain rfl := Option.some.inj (hk.symm.trans hk')
    exact Except.ok.inj (hkind₀.symm.trans hkind) ▸ hplain
  -- Neither a phi nor a landing pad stands behind what is no phi.
  refine ⟨hs.tidy.not_phi_after hfirst hkind₀ hplain.1 hid hkind hlt, ?_⟩
  cases kind with
  | landingPad =>
    obtain ⟨ty, incoming, hphi⟩ := hs.padsLead id b k hid hkind pos hlt first hfirst
    obtain rfl := Except.ok.inj (hkind₀.symm.trans hphi)
    cases hplain.1
  | _ => rfl

section

variable {hooks : Hooks} (hdeclared : hooks.Declared m) (hf : f.Splitting m [])
include hdeclared hf

theorem Splitting.probed (hpos : f.firstInsertionPoint b = .ok pos) (id slot : Nat) :
    (f.withInsts b pos (hooks.probeCode f.insts.size id slot)).Splitting m [] := by
  obtain ⟨blk, hblk, hle, -⟩ := firstInsertionPoint_eq_ok hpos
  exact hf.withInsts hblk hle (hdeclared.hosts fun _ _ _ hid hkind hle =>
    hf.sound.behind hpos hid hkind hle)

omit hdeclared in
/-- A block that is entered from elsewhere too is no landing pad. -/
theorem Splitting.not_pad {block target : BlockId} (hlive : block ∈ f.layout)
    (hedge : f.Edge block target) (hsole : f.singlePredecessor? target ≠ .ok (some block))
    {id : InstId} {k : Nat} (hid : f.Listed id target k) : f.kind id ≠ .ok .landingPad := by
  intro hkind
  have hone := (hf.sole id target k hid hkind).resolve_left List.not_mem_nil
  obtain ⟨a, ha, hpreds, haedge⟩ := hf.landed.predecessors_eq hid hkind hone
  obtain rfl := hone a ha block hlive haedge hedge
  exact hsole ((singlePredecessor?_eq_some hpreds).mpr rfl)

omit hdeclared in
theorem Splitting.rerouted {block target : BlockId} {index : Nat}
    (h : f.Rerouted block index target [] f') (hlive : block ∈ f.layout)
    (hplain : ∀ id k, f.Listed id target k → f.kind id ≠ .ok .landingPad) :
    f'.Splitting m [] := by
  have hwhole := hf.sound.named.whole
  have hclosed := hf.sound.tidy.closed
  obtain ⟨kept, htold⟩ := h.exists_told hf.sound.tidy hlive
  refine ⟨⟨hf.landed.rerouted h hlive (.plain hplain), hf.nodup, nofun, ?_⟩,
    hf.sound.rerouted htold hlive (.plain hplain) (hf.rooted.ne_entry h hlive),
    h.rooted hwhole hclosed hlive hf.rooted⟩
  exact h.padsSole hwhole hclosed hlive hf.sole fun id k hid hkind => absurd hkind (hplain id k hid)

/-- What placing a probe at the entry or at a live edge makes of a function is sound. -/
theorem Splitting.placed {id slot : Nat} {site : ProbeSite} (h : f.Placed hooks id slot site f')
    (hlive : ∀ function block index, site = .edge function block index → block ∈ f.layout) :
    f'.Splitting m [] := by
  cases h with
  | bodiless | missing => exact hf
  | entry hentry hpos => exact hf.probed hdeclared hpos id slot
  | @target function block target index pos succs hsuccs hindex hsole hpos name _ =>
    have hpos' : (f.withName target name).firstInsertionPoint target = .ok pos := by
      rw [Function.withName, firstInsertionPoint_withBlock]
      · exact hpos
      · exact fun _ => rfl
    exact Splitting.probed (f := f.withName target name) hdeclared hf.withName hpos' id slot
  | @edge function block target index f₁ hsole h _ =>
    have hblock := hlive function block index rfl
    have hf₁ := hf.rerouted h hblock fun _ _ => hf.not_pad hblock h.edge_source hsole
    obtain ⟨name, hnew⟩ := h.new
    have hsize : f₁.insts.size = f.insts.size := h.sizeInsts
    rw [← hsize]
    refine hf₁.withInsts hnew (Nat.zero_le _) (hdeclared.hosts fun id k kind hid hkind _ => ?_)
    -- The new block is still empty.
    obtain ⟨-, blk, hblk, hk⟩ := hid
    obtain rfl := Except.ok.inj (hnew.symm.trans hblk)
    cases hk

theorem Splitting.placedAll {plan : List PlannedProbe}
    (h : Edit.InTurn (fun planned f f' => f.Placed hooks planned.id planned.slot planned.site f')
      plan f f')
    (hlive : ∀ planned ∈ plan, ∀ function block index,
      planned.site = .edge function block index → block ∈ f.layout) : f'.Splitting m [] := by
  refine (h.keeps (fun f₁ => f₁.Splitting m [] ∧ ∀ b ∈ f.layout, b ∈ f₁.layout) ?_
    ⟨hf, fun _ hb => hb⟩).1
  rintro planned hplanned f₁ f₂ ⟨hf₁, hlayout⟩ hstep
  refine ⟨hf₁.placed hdeclared hstep fun function block index hsite => ?_,
    fun b hb => hstep.mem_layout (hlayout b hb)⟩
  exact hlayout block (hlive planned hplanned function block index hsite)

end

theorem local_returning (m : Module) (name : String) (value : Nat) :
    (returning name value).Local m where
  layout := List.nodup_singleton _
  names := rfl
  once := by
    rintro ids ⟨⟩
    exact List.nodup_nil
  blocks := by
    intro b hb
    obtain rfl := List.mem_singleton.mp hb
    exact ⟨⟨"entry", [], .ret (some (.ofWord 32 (UInt64.ofNat value)))⟩, rfl, List.nodup_nil,
      by simp [Terminator.successors], by simp [Terminator.operands, Value.ofWord], nofun, nofun⟩
  insts := by
    rintro id b pos ⟨hb, blk, hblk, hpos⟩
    obtain rfl := List.mem_singleton.mp hb
    obtain rfl := Except.ok.inj hblk
    cases hpos

theorem Splitting.grown {m' : Module} {rest : List BlockId} (hf : f.Splitting m rest)
    (hgrows : m.Grows f m' f) (harity : ∀ id g, m.function id = .ok g →
      ∃ g', m'.function id = .ok g' ∧ g'.params.length = g.params.length) : f.Splitting m' rest :=
  { hf with sound := hf.sound.grown hgrows harity }

/-- Each landing pad has exactly one predecessor. -/
def PadsApart (f : Function) : Prop :=
  ∀ pad ∈ f.layout, f.isLandingPad pad = .ok true → ∃ pred, f.predecessors pad = .ok [pred]

theorem Splitting.padsApart (hf : f.Splitting m []) : f.PadsApart := by
  intro pad hlive hpad
  obtain ⟨id, k, hid, hkind⟩ := exists_landingPad hlive hpad
  have hsole := (hf.sole id pad k hid hkind).resolve_left List.not_mem_nil
  obtain ⟨pred, -, hpreds, -⟩ := hf.landed.predecessors_eq hid hkind hsole
  exact ⟨pred, hpreds⟩

end Function

end EdgeProbe

namespace EdgeProbe

namespace Module

variable {m m' : Module} {id : FuncId} {f f' : Function}

/-- No edge leads to the entry of a function. -/
def Rooted (m : Module) : Prop :=
  ∀ id f, m.function id = .ok f → f.Rooted

/-! ## Splitting landing pads -/

/-- Where functions become others of the same parameters, callers find what they did. -/
theorem EachBecomes.exists_params {by' : FuncId → Function → Function → Prop}
    (h : m.EachBecomes by' m') (hparams : ∀ id f f', m.function id = .ok f →
      m'.function id = .ok f' → by' id f f' → f'.params = f.params) (id : FuncId) (g : Function)
    (hg : m.function id = .ok g) :
    ∃ g', m'.function id = .ok g' ∧ g'.params.length = g.params.length := by
  obtain ⟨g', hg', hby⟩ := h.functions id g hg
  exact ⟨g', hg', by rw [hparams id g g' hg hg' hby]⟩

theorem Sound.splits (hm : m.Sound) (hroot : m.Rooted) (hid : m.function id = .ok f)
    (hbody : f.isDeclaration = false) :
    ∃ count f', Edit.splitSharedLandingPads.Does f count f' ∧ f'.Splitting m [] ∧ f.SameHeader f' :=
  Edit.exists_splitSound (hm id f hid hbody) (hroot id f hid)

/-- A function whose landing pads have been split takes the place of what it was. -/
theorem Sound.setSplit (hm : m.Sound) (hroot : m.Rooted) (hid : m.function id = .ok f)
    (hparams : f'.params = f.params) (hf' : f'.Splitting m []) :
    (m.setFunction id f').Sound ∧ (m.setFunction id f').Rooted := by
  refine ⟨hm.setFunction hid hparams fun _ => hf'.sound, fun i g hi => ?_⟩
  rw [function_setFunction (index_lt_of_function hid)] at hi
  split at hi
  · exact Except.ok.inj hi ▸ hf'.rooted
  · exact hroot i g hi

end Module

namespace Module

variable {m m' : Module} {id : FuncId} {f f' : Function}

/-- What the functions are once the landing pads of all have been split. -/
theorem Sound.splitting (hm : m.Sound) (hroot : m.Rooted)
    (h : m.EachBecomes (fun _ => Pass.PadsSplit) m') (hid : m'.function id = .ok f')
    (hbody : f'.isDeclaration = false) : f'.Splitting m' [] := by
  have hsplit : ∀ {id f f'}, m.function id = .ok f → Pass.PadsSplit f f' →
      f.isDeclaration = true ∧ f' = f ∨ f'.Splitting m [] ∧ f.SameHeader f' := by
    intro id f f' hid hsplit
    refine hsplit.imp_right ?_
    rintro ⟨hbody, count, hdoes⟩
    obtain ⟨count₁, f₁, hdoes₁, hf₁, hheader⟩ := hm.splits hroot hid hbody
    obtain ⟨-, rfl⟩ := hdoes.unique hdoes₁
    exact ⟨hf₁, hheader⟩
  obtain ⟨f, hid₀, hpads⟩ := h.exists_function hid
  obtain ⟨hdecl, rfl⟩ | ⟨hf', -⟩ := hsplit hid₀ hpads
  · cases hbody.symm.trans hdecl
  refine hf'.grown ⟨(congrArg Array.size h.globals).ge, h.size.ge, rfl, le_rfl, le_rfl⟩
    (h.exists_params fun id g g' hg _ hpads => ?_)
  obtain ⟨-, rfl⟩ | ⟨-, hheader⟩ := hsplit hg hpads
  · rfl
  · exact hheader.params

/-- The landing pads of all functions can be split. -/
theorem Sound.exists_splitAllPads {s : PassState} (hm : s.module.Sound) (hroot : s.module.Rooted) :
    ∃ s', (s.module.functionIds.forM Pass.splitPads).Does s () s' ∧ s'.module.Sound := by
  obtain ⟨s', hdoes⟩ := Pass.exists_splitAllPads (s := s) fun id f hid => by
    cases hbody : f.isDeclaration with
    | true => exact .inl rfl
    | false => exact .inr (hm id f hid hbody).landed
  exact ⟨s', hdoes, fun id f' hid hbody =>
    (hm.splitting hroot (Pass.splitAllPads_does hdoes) hid hbody).sound⟩

end Module

namespace Pass.Instrumentation

variable {config : Config} {drawn : UInt64} {m m' : Module} {report : InstrumentReport}
  {i : Instrumentation config drawn m report m'} {id : FuncId} {f f' : Function}

theorem Valid.declared_hooks (hi : i.Valid) (hsymbols : m.WithoutSymbols) :
    i.hooks.Declared i.declared := by
  obtain ⟨hdeclared, hhooks⟩ := hi.declared_eq hsymbols
  rw [hdeclared, hhooks]
  refine ⟨?_, fun previous hprevious => ?_, fun trace htrace => ?_⟩
  · unfold Module.hookGlobals
    split <;> simp
  · cases hdense : config.denseIds with
    | true => simp [hdense] at hprevious
    | false =>
      obtain rfl : (⟨i.split.globals.size + 1⟩ : GlobalId) = previous := by
        simpa [hdense] using hprevious
      simp [Module.hookGlobals, hdense]
  · cases htraces : config.tracesIds with
    | false => simp [htraces] at htrace
    | true =>
      obtain rfl : (⟨i.split.functions.size⟩ : FuncId) = trace := by simpa [htraces] using htrace
      refine ⟨.declare Symbol.traceHook [.i32] .void, ?_, rfl⟩
      simp [Module.function_eq_ok, Module.hookFunctions, htraces]

/-- Before any probe is placed, the functions with a body are those whose landing pads were split. -/
theorem Valid.splitting_declared (hi : i.Valid) (hm : m.Accepted) (honce : m.ListsOnce)
    (hroot : m.Rooted) (hsymbols : m.WithoutSymbols) (hid : i.declared.function id = .ok f)
    (hbody : f.isDeclaration = false) :
    i.split.function id = .ok f ∧ f.Splitting i.declared [] := by
  have hdeclared := (hi.declared_eq hsymbols).1
  have hsplit : i.split.function id = .ok f := by
    rw [hdeclared, Module.function_eq_ok, Array.getElem?_append] at hid
    split at hid
    · exact Module.function_eq_ok.mpr hid
    · have hmem := Array.mem_of_getElem? hid
      unfold Module.hookFunctions at hmem
      split at hmem
      · obtain rfl := Array.mem_singleton.mp hmem
        cases hbody
      · simp at hmem
  have hf := (hm.sound honce).splitting hroot hi.split hsplit hbody
  refine ⟨hsplit, hf.grown ⟨?_, ?_, rfl, le_rfl, le_rfl⟩ fun i' g hg => ⟨g, ?_, rfl⟩⟩
  · simp [hdeclared]
  · simp [hdeclared]
  · have h := Module.function_withHooks hg config
    rwa [hi.declared] at h

/-- What functions are once their probes have been placed. -/
theorem Valid.splitting_placed (hi : i.Valid) (hm : m.Accepted) (honce : m.ListsOnce)
    (hroot : m.Rooted) (hsymbols : m.WithoutSymbols) (hid : i.declared.function id = .ok f)
    (hid' : i.placed.function id = .ok f') (hbody : f.isDeclaration = false) :
    f'.Splitting i.declared [] := by
  obtain ⟨f₁, hid₁, hturns⟩ := hi.placed.functions id f hid
  obtain rfl := Except.ok.inj (hid'.symm.trans hid₁)
  obtain ⟨hsplit, hf⟩ := hi.splitting_declared hm honce hroot hsymbols hid hbody
  refine hf.placedAll (hi.declared_hooks hsymbols)
    (Edit.placeAll_inTurn hf.sound.named.whole hturns) fun planned hplanned function block index hsite => ?_
  obtain ⟨hmem, hfunction⟩ := List.mem_filter.mp hplanned
  have hplace := hi.isSite hmem
  rw [hsite] at hplace hfunction
  obtain rfl : function = id := beq_iff_eq.mp hfunction
  exact hplace.live hsplit

/-- The functions of an instrumented module are sound. -/
theorem Valid.sound (hi : i.Valid) (hm : m.Accepted) (honce : m.ListsOnce) (hroot : m.Rooted)
    (hsymbols : m.WithoutSymbols) : m'.Sound := by
  intro id f' hid' hbody
  obtain ⟨f, hsplit, hplaced⟩ | rfl | ⟨name, value, rfl⟩ := hi.function_cases hsymbols hid'
  · have hdeclared := Module.function_withHooks hsplit config
    rw [hi.declared] at hdeclared
    have hbody₀ : f.isDeclaration = false := by
      obtain rfl | ⟨hbody₀, -⟩ := hi.placed_cases hm hdeclared hplaced
      · exact hbody
      · exact hbody₀
    have hf' := hi.splitting_placed hm honce hroot hsymbols hdeclared hplaced hbody₀
    have hresult := hi.result_eq hsymbols
    have hparams := hi.placed.exists_params fun id g g' hg hg' _ => by
      obtain rfl | ⟨-, -, stands, h⟩ := hi.placed_cases hm hg hg'
      · rfl
      · exact h.header.params
    refine hf'.sound.grown ⟨?_, ?_, rfl, le_rfl, le_rfl⟩ fun i' g hg => ?_
    · have hsize : m'.globals.size = i.placed.globals.size := congrArg (·.globals.size) hresult
      rw [hsize, hi.placed.globals]
    · have hsize : m'.functions.size = i.placed.functions.size + 1 + 1 :=
        (congrArg (·.functions.size) hresult).trans (by simp [Module.addFunction])
      rw [hsize, hi.placed.size]
      omega
    · obtain ⟨g', hg', hlength⟩ := hparams i' g hg
      exact ⟨g', hi.function_eq hsymbols hg', hlength⟩
  · cases hbody
  · exact (Function.local_returning m' name value).sound

end Pass.Instrumentation

namespace Module

/-- Splitting landing pads and instrumenting keep a module valid, in which nothing is named like what
probes refer to and no edge leads to an entry. -/
theorem Accepted.accepted_instrumented {m : Module} (hm : m.Accepted) (honce : m.ListsOnce)
    (hsymbols : m.WithoutSymbols) (hroot : m.Rooted) :
    (∀ id f, m.function id = .ok f → f.isDeclaration = false → ∃ count f',
      Edit.splitSharedLandingPads.Does f count f' ∧ f'.PadsApart ∧ (m.setFunction id f').Accepted) ∧
    (∃ s, (m.functionIds.forM Pass.splitPads).runOn m = .ok (.ok (), s) ∧ s.module.Accepted ∧
      ∀ id f', s.module.function id = .ok f' → f'.PadsApart) ∧
    ∀ config drawn report s, (Pass.instrumentEdges config drawn).runOn m = .ok (.ok report, s) →
      s.module.Accepted := by
  have hsound := hm.sound honce
  refine ⟨fun id f hid hbody => ?_, ?_, fun config drawn report s h => ?_⟩
  · obtain ⟨count, f', hdoes, hf', hheader⟩ := hsound.splits hroot hid hbody
    exact ⟨count, f', hdoes, hf'.padsApart, (hsound.setSplit hroot hid hheader.params hf').1.accepted⟩
  · obtain ⟨s, hdoes, hs⟩ := Sound.exists_splitAllPads (s := { module := m }) hsound hroot
    refine ⟨s, hdoes, hs.accepted, fun id f' hid' => ?_⟩
    cases hbody : f'.isDeclaration with
    | true =>
      intro pad hpad
      rw [List.isEmpty_iff.mp hbody] at hpad
      cases hpad
    | false => exact (hsound.splitting hroot (Pass.splitAllPads_does hdoes) hid' hbody).padsApart
  · obtain ⟨i, hi⟩ := Pass.instrumentEdges_does (s := { module := m }) h
    exact (hi.sound hm honce hroot hsymbols).accepted

end Module

/-- Two invocations that unwind to one block. -/
def Function.sharing : Function where
  name := "sharing"
  params := []
  ret := .void
  insts := #[{ kind := .landingPad, block := some ⟨3⟩ }]
  blocks := #[⟨"first", [], .invoke (.direct ⟨0⟩) [] ⟨1⟩ ⟨3⟩⟩,
    ⟨"second", [], .invoke (.direct ⟨0⟩) [] ⟨2⟩ ⟨3⟩⟩, ⟨"done", [], .ret none⟩,
    ⟨"pad", [⟨0⟩], .resume (.inst ⟨0⟩)⟩]
  layout := [⟨0⟩, ⟨1⟩, ⟨2⟩, ⟨3⟩]

def Module.sharing : Module where
  name := "sharing"
  functions := #[.declare "may_throw" [] .void, .sharing]

namespace Function

/-- The instructions and the terminator of each block. -/
theorem block_sharing {b : BlockId} {blk : Block} (h : sharing.block b = .ok blk) :
    (b.index < 2 ∧ blk.insts = [] ∧ blk.term = .invoke (.direct ⟨0⟩) [] ⟨b.index + 1⟩ ⟨3⟩) ∨
      b = ⟨2⟩ ∧ blk.insts = [] ∧ blk.term = .ret none ∨
      b = ⟨3⟩ ∧ blk.insts = [⟨0⟩] ∧ blk.term = .resume (.inst ⟨0⟩) := by
  obtain ⟨index⟩ := b
  match index, h with
  | 0, h | 1, h | 2, h | 3, h =>
    obtain rfl := Except.ok.inj h
    simp [sharing]

theorem listed_sharing {id : InstId} {b : BlockId} {k : Nat} :
    sharing.Listed id b k ↔ b = ⟨3⟩ ∧ id = ⟨0⟩ ∧ k = 0 := by
  constructor
  · rintro ⟨hb, blk, hblk, hk⟩
    obtain ⟨-, hinsts, -⟩ | ⟨-, hinsts, -⟩ | ⟨rfl, hinsts, -⟩ := block_sharing hblk
    · simp [hinsts] at hk
    · simp [hinsts] at hk
    · rw [hinsts, List.getElem?_singleton] at hk
      split at hk
      · next hzero => exact ⟨rfl, (Option.some.inj hk).symm, hzero⟩
      · cases hk
  · rintro ⟨rfl, rfl, rfl⟩
    exact ⟨by decide, _, rfl, rfl⟩

theorem kind_sharing {id : InstId} {b : BlockId} {k : Nat} {kind : InstKind}
    (hid : sharing.Listed id b k) (hkind : sharing.kind id = .ok kind) : kind = .landingPad := by
  obtain ⟨-, rfl, -⟩ := listed_sharing.mp hid
  exact (Except.ok.inj hkind).symm

theorem edge_sharing {a b : BlockId} :
    sharing.Edge a b ↔ a.index < 2 ∧ (b = ⟨a.index + 1⟩ ∨ b = ⟨3⟩) := by
  constructor
  · rintro ⟨succs, hsuccs, hb⟩
    obtain ⟨blk, hblk, rfl⟩ := Checked.map_eq_ok.mp hsuccs
    obtain ⟨ha, -, hterm⟩ | ⟨-, -, hterm⟩ | ⟨-, -, hterm⟩ := block_sharing hblk
    · exact ⟨ha, by simpa [hterm, Terminator.successors] using hb⟩
    · simp [hterm, Terminator.successors] at hb
    · simp [hterm, Terminator.successors] at hb
  · rintro ⟨ha, hb⟩
    obtain ⟨index⟩ := a
    obtain rfl | rfl : index = 0 ∨ index = 1 := by
      simp only at ha
      omega
    all_goals
      refine ⟨_, rfl, ?_⟩
      simpa [sharing, Terminator.successors] using hb

theorem sound_sharing : sharing.Sound .sharing fun _ => False where
  tidy := {
    closed := {
      inArena := by decide
      toLive := fun a ha b hb => by
        obtain ⟨hlt, rfl | rfl⟩ := edge_sharing.mp hb
        · obtain ⟨index⟩ := a
          obtain rfl | rfl : index = 0 ∨ index = 1 := by
            simp only at hlt
            omega
          all_goals decide
        · decide }
    home := fun id b k hid => by
      obtain ⟨rfl, rfl, -⟩ := listed_sharing.mp hid
      exact ⟨_, rfl, rfl⟩
    nodup := fun b hb blk hblk => by
      obtain ⟨-, hinsts, -⟩ | ⟨-, hinsts, -⟩ | ⟨-, hinsts, -⟩ := block_sharing hblk <;> simp [hinsts]
    operands := fun id b k kind hid hkind value hvalue => by
      obtain rfl := kind_sharing hid hkind
      cases hvalue
    termOperands := fun b hb blk hblk value hvalue => by
      obtain ⟨-, -, hterm⟩ | ⟨-, -, hterm⟩ | ⟨-, -, hterm⟩ := block_sharing hblk
      · simp [hterm, Terminator.operands, Callee.operands] at hvalue
      · simp [hterm, Terminator.operands] at hvalue
      · obtain rfl : value = .inst ⟨0⟩ := by simpa [hterm, Terminator.operands] using hvalue
        exact Nat.one_pos
    sources := fun id b k ty incoming hid hkind => by cases kind_sharing hid hkind
    phisLead := fun id b k ty incoming hid hkind => by cases kind_sharing hid hkind
    entries := fun id b k ty incoming hid hkind => by cases kind_sharing hid hkind }
  named := named_of_checkNames (by decide +kernel)
  layout := by decide
  unwind := fun b hb blk hblk callee args normal unwind hinvoke => by
    obtain ⟨-, -, hterm⟩ | ⟨-, -, hterm⟩ | ⟨-, -, hterm⟩ := block_sharing hblk
    · obtain ⟨-, -, -, rfl⟩ := Terminator.invoke.inj (hterm.symm.trans hinvoke)
      exact ⟨⟨0⟩, 0, listed_sharing.mpr ⟨rfl, rfl, rfl⟩, rfl⟩
    · cases hterm.symm.trans hinvoke
    · cases hterm.symm.trans hinvoke
  sources := fun id b k ty incoming hid hkind => by cases kind_sharing hid hkind
  padsLead := fun id b k hid hkind before hlt => by
    obtain ⟨-, -, rfl⟩ := listed_sharing.mp hid
    cases hlt
  padEdges := fun id b k hid hkind _ => by
    obtain ⟨rfl, -, -⟩ := listed_sharing.mp hid
    refine ⟨⟨⟨0⟩, by decide, edge_sharing.mpr ⟨by decide, .inr rfl⟩⟩, fun a ha hedge => ?_⟩
    obtain ⟨index⟩ := a
    obtain rfl | rfl : index = 0 ∨ index = 1 := by
      have hlt : index < 2 := (edge_sharing.mp hedge).1
      omega
    all_goals exact ⟨_, _, _, _, rfl, rfl, by decide⟩
  paired := fun id b k kind lhs rhs hid hkind hpaired => by
    obtain rfl := kind_sharing hid hkind
    cases hpaired
  arity := fun id b k target args ret hid hkind => by cases kind_sharing hid hkind
  conditions := fun b hb blk hblk cond onTrue onFalse hcond => by
    obtain ⟨-, -, hterm⟩ | ⟨-, -, hterm⟩ | ⟨-, -, hterm⟩ := block_sharing hblk <;>
      cases hterm.symm.trans hcond
  phiUses := fun id b k ty incoming hid hkind => by cases kind_sharing hid hkind
  uses := fun id b k kind hid hkind _ used hused => by
    obtain rfl := kind_sharing hid hkind
    cases hused
  termUses := fun b hb blk hblk used hused => by
    obtain ⟨-, -, hterm⟩ | ⟨-, -, hterm⟩ | ⟨rfl, -, hterm⟩ := block_sharing hblk
    · simp [hterm, Terminator.operands, Callee.operands] at hused
    · simp [hterm, Terminator.operands] at hused
    · obtain rfl : used = ⟨0⟩ := by simpa [hterm, Terminator.operands] using hused
      exact ⟨⟨3⟩, 0, listed_sharing.mpr ⟨rfl, rfl, rfl⟩, fun _ => .inl ⟨rfl, by simp⟩⟩

end Function

namespace Module

theorem function_sharing {id : FuncId} {f : Function} (h : Module.sharing.function id = .ok f) :
    f = .declare "may_throw" [] .void ∨ f = .sharing := by
  obtain ⟨index⟩ := id
  match index, h with
  | 0, h => exact .inl (Except.ok.inj h).symm
  | 1, h => exact .inr (Except.ok.inj h).symm

theorem accepted_sharing : sharing.Accepted := by
  refine Sound.accepted fun id f hid hbody => ?_
  obtain rfl | rfl := function_sharing hid
  · cases hbody
  · exact Function.sound_sharing

theorem listsOnce_sharing : sharing.ListsOnce := by
  intro id f hid ids hids
  obtain rfl | rfl := function_sharing hid
  all_goals
    obtain rfl := Except.ok.inj hids
    decide

theorem rooted_sharing : sharing.Rooted := by
  intro id f hid
  obtain rfl | rfl := function_sharing hid
  · exact fun e he => by cases he
  · intro e he a ha hedge
    obtain rfl : (⟨0⟩ : BlockId) = e := Option.some.inj he
    obtain ⟨-, heq | heq⟩ := Function.edge_sharing.mp hedge <;> cases heq

/-- Two invocations that unwind to one block can be told apart and probed. -/
theorem sharing_instrumented : (∃ count f', Edit.splitSharedLandingPads.Does .sharing count f' ∧
      f'.PadsApart ∧ (sharing.setFunction ⟨1⟩ f').Accepted) ∧
    ∃ report s, (Pass.instrumentEdges (.coverage .all) 0).runOn sharing = .ok (.ok report, s) ∧
      s.module.Accepted := by
  obtain ⟨hsplit, -, hprobed⟩ := Accepted.accepted_instrumented accepted_sharing listsOnce_sharing
    ⟨by decide, by decide⟩ rooted_sharing
  obtain ⟨report, s, h⟩ := Pass.exists_of_completes (show Pass.completes
    ((Pass.instrumentEdges (.coverage .all) 0).runOn sharing) = true by decide +kernel)
  exact ⟨hsplit ⟨1⟩ .sharing rfl rfl, report, s, h, hprobed _ _ _ _ h⟩

end Module

end EdgeProbe
