import EdgeProbe.Proofs.Probe.Passes
import EdgeProbe.Proofs.Probe.Placed
import EdgeProbe.Proofs.Probe.Sites
import EdgeProbe.Proofs.Validity.Local

/-!
# Where execution starts

New blocks are put in right before the target of an edge, which is in front of everything else if
that is the entry. A probe in the target itself is none of these, so a function keeps its entry if
at most one edge leads there. Main statement: `Module.Accepted.entry_instrumented`.
-/

namespace EdgeProbe

namespace Function

variable {f f' : Function} {entry : BlockId}

/-- At most one edge leads to the entry of a function. -/
structure Anchored (entry : BlockId) (f : Function) : Prop where
  whole : f.Whole
  inArena : ∀ b ∈ f.layout, b.index < f.blocks.size
  starts : f.entryBlock? = some entry
  single : ∃ preds, f.predecessors entry = .ok preds ∧ preds.length ≤ 1

/-- Leading an edge to another block elsewhere does not change the entry. -/
theorem Anchored.rerouted {block target : BlockId} {index : Nat} {kinds : List InstKind}
    (hf : f.Anchored entry) (h : f.Rerouted block index target kinds f') (hne : target ≠ entry) :
    f'.Anchored entry where
  whole := h.whole hf.whole
  inArena := h.inArena hf.inArena
  starts := h.entryBlock? hf.starts hne
  single := by
    obtain ⟨preds, hpreds, hone⟩ := hf.single
    have hlt := hf.inArena entry (mem_layout_of_entryBlock? hf.starts)
    exact ⟨preds, h.predecessors_of_ne hf.inArena hpreds hne.symm (Detour.ne_new hlt), hone⟩

theorem Anchored.withInsts (hf : f.Anchored entry) (b : BlockId) (pos : Nat)
    (kinds : List InstKind) : (f.withInsts b pos kinds).Anchored entry where
  whole := hf.whole.withInsts b pos kinds
  inArena := by simpa using hf.inArena
  starts := hf.starts
  single := by
    obtain ⟨preds, hpreds, hone⟩ := hf.single
    refine ⟨preds, edgesInto_congr (fun c _ succs hsuccs => ⟨succs, ?_, rfl⟩) hpreds, hone⟩
    rw [successors_withInsts, hsuccs]

theorem Anchored.withName (hf : f.Anchored entry) (b : BlockId) (name : String) :
    (f.withBlock b fun b => { b with name }).Anchored entry where
  whole := hf.whole.withName b name
  inArena := by simpa using hf.inArena
  starts := hf.starts
  single := by
    obtain ⟨preds, hpreds, hone⟩ := hf.single
    refine ⟨preds, edgesInto_congr (fun c _ succs hsuccs => ⟨succs, ?_, rfl⟩) hpreds, hone⟩
    rw [successors, block_withBlock]
    split
    · rw [← hsuccs, successors]
      cases f.block c <;> rfl
    · exact hsuccs

theorem Anchored.withInst (hf : f.Anchored entry) (id : InstId) (change : Inst → Inst) :
    (f.withInst id change).Anchored entry where
  whole := SameFrame.whole ⟨_, rfl, size_insts_withInst f id change⟩ hf.whole
  inArena := hf.inArena
  starts := hf.starts
  single := by
    obtain ⟨preds, hpreds, hone⟩ := hf.single
    exact ⟨preds, edgesInto_congr (f := f) (fun c _ succs hsuccs => ⟨succs, hsuccs, rfl⟩) hpreds, hone⟩

theorem Anchored.copied {pad : BlockId} {preds : List BlockId} {incoming : List (Value × BlockId)}
    (h : f.Copied pad preds incoming f') (hne : pad ≠ entry) (hf : f.Anchored entry) :
    f'.Anchored entry := by
  induction h with
  | nil => exact hf
  | cons h _ ih => exact ih (hf.rerouted h hne)

theorem Anchored.padSplit {pad : BlockId} (h : PadSplit pad f f') (hne : pad ≠ entry)
    (hf : f.Anchored entry) : f'.Anchored entry := by
  obtain ⟨preds, landing, incoming, f₁, -, -, hcopied, rfl⟩ := h
  exact (hf.copied hcopied hne).withInst _ _

/-- A probe on a live edge is put into the entry or away from it. -/
theorem Anchored.placed {hooks : Hooks} {id slot : Nat} {site : ProbeSite}
    (h : f.Placed hooks id slot site f')
    (hlive : ∀ function block index, site = .edge function block index → block ∈ f.layout)
    (hf : f.Anchored entry) : f'.Anchored entry := by
  cases h with
  | bodiless | missing => exact hf
  | entry => exact hf.withInsts _ _ _
  | target => exact (hf.withName _ _).withInsts _ _ _
  | @edge function block target index f₁ hsole h _ =>
    refine (hf.rerouted h ?_).withInsts _ _ _
    rintro rfl
    -- The only edge into the entry is this one.
    obtain ⟨preds, hpreds, hone⟩ := hf.single
    obtain ⟨succs, hsuccs, hindex, -⟩ := h.successors_source
    have hmem : block ∈ preds := (mem_edgesInto hpreds).mpr
      ⟨hlive _ _ _ rfl, succs, hsuccs, List.mem_of_getElem? hindex⟩
    obtain ⟨pred, rfl⟩ := List.length_eq_one_iff.mp
      (Nat.le_antisymm hone (List.length_pos_of_mem hmem))
    obtain rfl := List.mem_singleton.mp hmem
    exact hsole ((singlePredecessor?_eq_some hpreds).mpr rfl)

/-- Splitting landing pads does not change the entry. -/
theorem Anchored.padsSplit {m : Module} (hwf : f.WellFormed m) (h : Pass.PadsSplit f f')
    (hf : f.Anchored entry) : f'.Anchored entry := by
  obtain ⟨-, rfl⟩ | ⟨-, count, h⟩ := h
  · exact hf
  obtain ⟨shared, hshared, -, hturns⟩ := Edit.splitSharedLandingPads_does hwf h
  refine hturns.keeps (Anchored entry) (fun pad hpad f₁ f₂ hf₁ hsplit => hf₁.padSplit hsplit ?_) hf
  rintro rfl
  obtain ⟨hsub, hiff⟩ := sharedLandingPads_eq_ok hshared
  obtain ⟨-, preds, hpreds, hlt⟩ := (hiff pad (hsub.subset hpad)).mp hpad
  obtain ⟨preds', hpreds', hone⟩ := hf.single
  obtain rfl := Except.ok.inj (hpreds.symm.trans hpreds')
  omega

/-- Neither does placing probes on live edges. -/
theorem Anchored.placedAll {hooks : Hooks} {plan : List PlannedProbe}
    (h : Edit.InTurn (fun planned f f' => (Edit.placePlanned hooks planned).Does f () f') plan f f')
    (hlive : ∀ planned ∈ plan, ∀ function block index,
      planned.site = .edge function block index → block ∈ f.layout)
    (hf : f.Anchored entry) : f'.Anchored entry := by
  have hplaced := Edit.placeAll_inTurn hf.whole h
  refine (hplaced.keeps (fun f₁ => f₁.Anchored entry ∧ ∀ b ∈ f.layout, b ∈ f₁.layout) ?_
    ⟨hf, fun _ hb => hb⟩).1
  rintro planned hplanned f₁ f₂ ⟨hf₁, hlayout⟩ hstep
  refine ⟨hf₁.placed hstep fun function block index hsite => ?_,
    fun b hb => hstep.mem_layout (hlayout b hb)⟩
  exact hlayout block (hlive planned hplanned function block index hsite)

end Function

namespace Pass.Instrumentation

variable {config : Config} {drawn : UInt64} {m m' : Module} {report : InstrumentReport}
  {i : Instrumentation config drawn m report m'}

/-- A function to whose entry at most one edge leads keeps it, unless it is an accessor. -/
theorem Valid.anchored (hi : i.Valid) {id : FuncId} {f : Function} {entry : BlockId}
    (hid : m.function id = .ok f) (hwf : f.WellFormed m) (hf : f.Anchored entry)
    (harea : f.name ≠ Symbol.areaSize) (hcount : f.name ≠ Symbol.blockCount) :
    ∃ f', m'.function id = .ok f' ∧ f'.entryBlock? = some entry := by
  obtain ⟨f₁, hid₁, hsplit⟩ := hi.split.functions id f hid
  have hf₁ := hf.padsSplit hwf hsplit
  have hid₂ := Module.function_withHooks hid₁ config
  rw [hi.declared] at hid₂
  obtain ⟨f₂, hid₃, hturns⟩ := hi.placed.functions id f₁ hid₂
  have hlive : ∀ planned ∈ i.plan.filter fun planned => planned.site.function == id,
      ∀ function block index, planned.site = .edge function block index → block ∈ f₁.layout := by
    intro planned hplanned function block index hsite
    obtain ⟨hmem, hfunction⟩ := List.mem_filter.mp hplanned
    obtain ⟨n, hget, -⟩ := mem_planProbes.mp hmem
    have hplace := (Module.mem_probeSites hi.sites).mp (List.mem_of_getElem? hget)
    rw [hsite] at hplace hfunction
    obtain rfl : function = id := beq_iff_eq.mp hfunction
    exact hplace.live hid₁
  have hf₂ := hf₁.placedAll hturns hlive
  have hname : f₂.name = f.name :=
    ((Edit.placeAll_inTurn hf₁.whole hturns).keeps (fun f' => f'.name = f₁.name)
      (fun planned _ f' f'' hf' hplaced => hplaced.sameHeader.name.trans hf') rfl).trans
        (hsplit.name hwf)
  refine ⟨f₂, ?_, hf₂.starts⟩
  rw [hi.accessors]
  exact Module.function_withAccessor (Module.function_withAccessor hid₃ (hname ▸ harea) _)
    (hname ▸ hcount) _

end Pass.Instrumentation

namespace Module

variable {m : Module}

/-- Instrumenting does not move the entry of a function to which at most one edge leads. -/
theorem Accepted.entry_instrumented (hm : m.Accepted) {config : Config} {drawn : UInt64}
    {report : InstrumentReport} {s : PassState}
    (h : (Pass.instrumentEdges config drawn).runOn m = .ok (.ok report, s)) {id : FuncId}
    {f : Function} {entry : BlockId} (hid : m.function id = .ok f)
    (hentry : f.entryBlock? = some entry) (harea : f.name ≠ Symbol.areaSize)
    (hcount : f.name ≠ Symbol.blockCount) {preds : List BlockId}
    (hpreds : f.predecessors entry = .ok preds) (hone : preds.length ≤ 1) :
    ∃ f', s.module.function id = .ok f' ∧ f'.entryBlock? = some entry := by
  obtain ⟨i, hi⟩ := Pass.instrumentEdges_does (s := { module := m }) h
  have hbody : f.isDeclaration = false := by
    cases hlayout : f.layout with
    | nil => simp [Function.entryBlock?, hlayout] at hentry
    | cons first rest => simp [Function.isDeclaration, hlayout]
  have hwf := hm.wellFormed hid hbody
  exact hi.anchored hid hwf ⟨hwf.named.whole, hwf.closed.inArena, hentry, preds, hpreds, hone⟩ harea
    hcount

/-- A function that asks again and again whether it is to go on, and then where. -/
def circle (back : BlockId) : Function where
  name := "circle"
  params := [.i1]
  ret := .void
  blocks := #[⟨"entry", [], .condBr (.arg 0) ⟨0⟩ ⟨1⟩⟩, ⟨"again", [], .condBr (.arg 0) back ⟨2⟩⟩,
    ⟨"done", [], .ret none⟩]
  layout := [⟨0⟩, ⟨1⟩, ⟨2⟩]

/-- The module of that function. -/
def circling (back : BlockId) : Module where
  name := "circling"
  functions := #[circle back]

theorem circling_entry_instrumented : (circling ⟨1⟩).Accepted ∧ ∃ report s f,
    (Pass.instrumentEdges (.coverage .all) 0).runOn (circling ⟨1⟩) = .ok (.ok report, s) ∧
      s.module.function ⟨0⟩ = .ok f ∧ f.entryBlock? = some ⟨0⟩ := by
  have hm := accepted_of_isLocal (show (circling ⟨1⟩).isLocal = true by decide +kernel)
  obtain ⟨report, s, h⟩ := Pass.exists_of_completes (show Pass.completes
    ((Pass.instrumentEdges (.coverage .all) 0).runOn (circling ⟨1⟩)) = true by decide +kernel)
  have hid : (circling ⟨1⟩).function ⟨0⟩ = .ok (circle ⟨1⟩) := rfl
  have hpreds : (circle ⟨1⟩).predecessors ⟨0⟩ = .ok [⟨0⟩] := by decide +kernel
  obtain ⟨f, hf, hentry⟩ := hm.entry_instrumented h hid rfl (by decide +kernel) (by decide +kernel)
    hpreds (by decide)
  exact ⟨hm, report, s, f, h, hf, hentry⟩

/-- When two edges lead to the entry, the block of the probe on the first of them comes to stand in
front of it, and is where execution starts. -/
theorem entry_circling_moved : (circling ⟨0⟩).Accepted ∧
    (circle ⟨0⟩).entryBlock? = some ⟨0⟩ ∧ ∃ report s f,
      (Pass.instrumentEdges (.coverage .all) 0).runOn (circling ⟨0⟩) = .ok (.ok report, s) ∧
        s.module.function ⟨0⟩ = .ok f ∧ f.name = "circle" ∧ f.entryBlock? = some ⟨3⟩ := by
  have hm := accepted_of_isLocal (show (circling ⟨0⟩).isLocal = true by decide +kernel)
  have hmoved : ((Pass.completed? ((Pass.instrumentEdges (.coverage .all) 0).runOn
      (circling ⟨0⟩))).bind fun (_, s) => s.module.functions[0]?).map
        (fun f => (f.name, f.entryBlock?)) = some ("circle", some ⟨3⟩) := by decide +kernel
  obtain ⟨f, hf, hmoved⟩ := Option.map_eq_some_iff.mp hmoved
  obtain ⟨⟨report, s⟩, h, hget⟩ := Option.bind_eq_some_iff.mp hf
  obtain ⟨hname, hentry⟩ := Prod.mk.inj hmoved
  exact ⟨hm, rfl, report, s, f, Pass.completed?_eq_some h, function_eq_ok.mpr hget, hname, hentry⟩

end Module

end EdgeProbe
