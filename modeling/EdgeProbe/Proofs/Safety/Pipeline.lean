import EdgeProbe.Pipeline
import EdgeProbe.Proofs.Safety.Instrumenting
import EdgeProbe.Proofs.Safety.Verified
import EdgeProbe.Proofs.Validity.Local

/-!
# Runs come to an answer

An accepted module whose chains of operands end, and which does not ask integers without bits for
their sign, is sturdy, and stays so from stage to stage. If there is room besides for the chains that
comparisons are taken apart into, a run comes to no fault: it is done, or it says why not. Main
statement: `Module.Accepted.run_answers`. Of an integer without bits the last bit is asked for all the
same, and the room for a chain is set aside whatever its length, so both conditions are there for a
reason: `Module.runs_fault`.
-/

namespace EdgeProbe

open Checked

variable {m : Module} {f : Function} {id : FuncId}

/-! ## What to begin with -/

namespace Module

/-- No type is followed back to where it was looked for, and no address. -/
def EndsChains (m : Module) : Prop :=
  ∀ id f, m.function id = .ok f → f.isDeclaration = false →
    f.Acyclic InstKind.typeOperand? ∧ f.Acyclic InstKind.addressBase?

/-- No comparison asks integers without bits for their sign. -/
def ComparesBits (m : Module) : Prop :=
  ∀ id f, m.function id = .ok f → f.isDeclaration = false →
    ∀ i kind, f.kind i = .ok kind → f.ReadsBits kind

theorem Accepted.sturdy (hm : m.Accepted) (hends : m.EndsChains) (hbits : m.ComparesBits) :
    m.Sturdy := by
  intro id f hf
  cases hbody : f.isDeclaration with
  | true => exact .inl rfl
  | false =>
    have hwell := hm.wellFormed hf hbody
    have hnamed := hwell.named
    obtain ⟨htypes, haddresses⟩ := hends id f hf hbody
    have hoperand : ∀ i kind operand, f.kind i = .ok kind → .inst operand ∈ kind.operands →
        operand.index < f.insts.size := fun i kind operand hkind hmem =>
      of_decide_eq_true (Function.knowsValue_of_knowsKind (hnamed.kinds i kind hkind) hmem)
    refine .inr {
      layout := hwell.closed.inArena
      whole := hnamed.whole
      owned := fun b hb blk hblk i hi inst b' hinst hb' => ?_
      kinds := hnamed.kinds
      types := fun i hi => htypes.ends (fun j kind operand hkind hnext =>
        hoperand j kind operand hkind (InstKind.mem_operands_of_typeOperand? hnext)) hi
      addresses := fun i hi => haddresses.ends (fun j kind operand hkind hnext =>
        hoperand j kind operand hkind (InstKind.mem_operands_of_addressBase? hnext)) hi
      signs := hbits id f hf hbody }
    obtain ⟨pos, hpos⟩ := List.mem_iff_getElem?.mp hi
    obtain ⟨inst', hinst', hhome⟩ := hwell.home i b pos ⟨hb, blk, hblk, hpos⟩
    obtain rfl := Except.ok.inj (hinst'.symm.trans hinst)
    obtain rfl := Option.some.inj (hhome.symm.trans hb')
    exact hwell.closed.inArena _ hb

/-! ## Checks -/

theorem Sturdy.verify_settles (hm : m.Sturdy) : Settles m.verify fun _ => True := by
  have hall : ∀ f ∈ m.functions.toList, f.isDeclaration = true ∨ f.Sturdy m := by
    intro f hf
    obtain ⟨index, hlt, rfl⟩ := List.mem_iff_getElem.mp hf
    exact hm ⟨index⟩ _ (function_eq_ok.mpr (by simp))
  obtain ⟨verdict, hverdict, -⟩ := verifyFunctions_verdict (m := m) fun f hf hbody =>
    Function.verifyFunction_settles fun _ => ((hall f hf).resolve_left (by simp [hbody])).types
  exact ⟨verdict, hverdict, fun _ _ => trivial⟩

end Module

/-! ## Runs -/

namespace Pipeline

variable {s : PassState} {α : Type} {config : Config}

/-- Where a pass is refused makes no difference to whether it faults. -/
theorem settled_runPass {place : Place} {pass : Pass α} {post : α → PassState → Prop}
    (h : Pass.settled.Safe pass s post) : Pass.settled.Safe (runPass place pass) s post := by
  obtain ⟨r, t, hrun, hpost⟩ := h
  refine ⟨r.mapError fun cause => ⟨place, cause⟩, t, Checked.map_eq_ok.mpr ⟨_, hrun, ?_⟩, ?_⟩
  · cases r <;> rfl
  · intro a ha
    cases r with
    | ok b => exact hpost a (congrArg _ (Except.ok.inj ha))
    | error cause => cases ha

/-- A check changes nothing. -/
theorem settled_check (hs : s.module.Sturdy) (stage : Stage) :
    Pass.settled.Safe (check stage) s fun _ t => t = s := by
  obtain ⟨verdict, hverdict, -⟩ := hs.verify_settles
  refine settled_runPass (Pass.asked_bind hs hverdict ?_)
  cases verdict with
  | ok u => exact Course.safe_pure hs rfl
  | error cause => exact Course.safe_throw cause

/-- A stage and the check after it. -/
theorem settled_stage {stage : Stage} {pass : Pass α} {q : α → PassState → Prop} {β : Type}
    {k : α → Pipeline β} (h : Pass.settled.Safe pass s q) (hk : ∀ a (t : PassState),
      t.module.Sturdy → q a t → Pass.settled.Safe (k a) t fun _ _ => True) :
    Pass.settled.Safe (do
      let a ← runPass (.within stage) pass
      check stage
      k a : Pipeline β) s fun _ _ => True := by
  refine .bind (settled_runPass h) fun a s₁ hs₁ _ ha => .bind (settled_check hs₁ stage) ?_
  rintro _ _ - - rfl
  exact hk a _ hs₁ ha

theorem settled_run (config : Config) (drawn : UInt64) (hs : s.module.Sturdy)
    (hfit : s.module.LengthsFit config.limits) :
    Pass.settled.Safe (run config drawn) s fun _ _ => True := by
  have hsettings : Pass.settled.Safe (checkSettings config) s fun _ t => t = s := by
    unfold checkSettings
    cases config.mapSize with
    | ok size => exact Course.safe_pure hs rfl
    | error cause => exact Course.safe_throw cause
  -- What follows the selections.
  have hrest : ∀ (harvest : HarvestStats) (selects : Nat) (s₁ : PassState), s₁.module.Sturdy →
      s.module.Onward s₁.module → Pass.settled.Safe (do
        let compares ← runPass (.within .compares) (Pass.splitCompares config)
        check .compares
        let strings ← runPass (.within .strings) (Pass.splitStrings config)
        check .strings
        let report ← runPass (.within .edges) (Pass.instrumentEdges config drawn)
        check .edges
        let name := (← get).module.name
        runPass .settings (Pass.report (doneRecord name report.dictionary report.buildId))
        return {
          mapSize := report.areaSize
          blockCount := report.blockCount
          buildId := report.buildId
          buildType := config.buildType
          dictType := config.dictType
          counter := config.counter
          dictionary := report.dictionary
          sourceMap := report.sourceMap
          stats := { harvest, selects, compares, strings, probes := report.probes } }
        : Pipeline BuildArtifacts) s₁ fun _ _ => True := by
    intro harvest selects s₁ hs₁ hst₁
    refine settled_stage (Pass.safe_splitCompares hs₁ config).onward.settled
      fun compares s₂ hs₂ hst₂ => ?_
    have hfit₂ := (hst₁.trans hst₂).fits _ hfit
    refine settled_stage (Pass.safe_splitStrings hs₂ config hfit₂).settled fun strings s₃ hs₃ _ => ?_
    refine settled_stage (Pass.settled_instrumentEdges hs₃ config drawn) fun report s₄ hs₄ _ => ?_
    refine .bind (Course.safe_get hs₄) fun last s₅ hs₅ _ _ => ?_
    refine .bind (settled_runPass (Pass.safe_report hs₅ _).settled) fun _ s₆ hs₆ _ _ => ?_
    exact Course.safe_pure hs₆ trivial
  refine .bind (settled_runPass hsettings) ?_
  rintro _ _ - - rfl
  refine .bind (settled_check hs .input) ?_
  rintro _ _ - - rfl
  refine settled_stage (Pass.safe_harvest hs config).onward.settled fun harvest s₁ hs₁ hst₁ => ?_
  refine .bind (q := fun _ t => s₁.module.Onward t.module) ?_ fun selects s₂ hs₂ _ hst₂ =>
    hrest harvest selects s₂ hs₂ (hst₁.trans hst₂)
  unfold lowerSelects
  split
  · exact Course.safe_pure hs₁ (.refl _)
  · refine .bind (settled_runPass (Pass.safe_lowerSelects hs₁).onward.settled)
      fun count s₂ hs₂ _ hst₂ => .bind (settled_check hs₂ .selects) ?_
    rintro _ _ - - rfl
    exact Course.safe_pure hs₂ hst₂

end Pipeline

/-- A run on an accepted module is done or refused, whatever the settings and the seed. -/
theorem Module.Accepted.run_answers (hm : m.Accepted) (hends : m.EndsChains)
    (hbits : m.ComparesBits) (config : Config) (hfit : m.LengthsFit config.limits)
    (drawn : UInt64) :
    ∃ result s, Pipeline.run config drawn { module := m } = .ok (result, s) := by
  obtain ⟨result, s, hrun, -⟩ := Pipeline.settled_run (s := { module := m }) config drawn
    (hm.sturdy hends hbits) hfit
  exact ⟨result, s, hrun⟩

/-! ### Comparisons of signs, and one of many bytes -/

/-- Chooses between a sum and a number, and compares what it has chosen from. -/
def Function.weighing : Function where
  name := "weigh"
  params := [.int 16, .int 16]
  ret := .i1
  blocks := #[⟨"entry", [⟨0⟩, ⟨1⟩, ⟨2⟩, ⟨3⟩], .ret (some (.inst ⟨3⟩))⟩]
  layout := [⟨0⟩]
  insts := #[
    { kind := .icmp .sge (.arg 0) (.arg 1), block := some ⟨0⟩ },
    { kind := .binary .add (.arg 0) (.arg 1), block := some ⟨0⟩ },
    { kind := .select (.inst ⟨0⟩) (.inst ⟨1⟩) (.arg 1), block := some ⟨0⟩ },
    { kind := .icmp .slt (.arg 1) (.inst ⟨2⟩), block := some ⟨0⟩ }]

/-- Compares two integers without bits. -/
def Function.signless : Function where
  name := "above"
  params := [.int 0, .int 0]
  ret := .i1
  blocks := #[⟨"entry", [⟨0⟩], .ret (some (.inst ⟨0⟩))⟩]
  layout := [⟨0⟩]
  insts := #[{ kind := .icmp .sgt (.arg 0) (.arg 1), block := some ⟨0⟩ }]

/-- Compares as many bytes as a word can count. -/
def Function.boundless : Function where
  name := "match"
  params := [.ptr, .ptr]
  ret := .i32
  blocks := #[⟨"entry", [⟨0⟩], .ret (some (.inst ⟨0⟩))⟩]
  layout := [⟨0⟩]
  insts := #[{
    kind := .call (.direct ⟨0⟩) [.arg 0, .arg 1, .const (.int 64 0xffffffffffffffff)] .i32
    block := some ⟨0⟩ }]

/-- Settings under which a comparison of any length is taken apart. -/
def Config.unlimited : Config :=
  { Config.fuzzing .normal .all with limits := { maxUnrollLen := 0xffffffffffffffff } }

namespace Module

def weighing : Module where
  name := "weighing"
  functions := #[.weighing]

def signless : Module where
  name := "signless"
  functions := #[.signless]

def boundless : Module where
  name := "boundless"
  functions := #[.declare "memcmp" [.ptr, .ptr, .int 64] .i32, .boundless]

theorem endsChains_of_descending (h : ∀ f ∈ m.functions, ∀ entry ∈ f.insts.toList.zipIdx,
    ∀ operand ∈ (InstKind.typeOperand? entry.1.kind).toList ++
      (InstKind.addressBase? entry.1.kind).toList,
    ∀ i ∈ operand.inst?, i.index < entry.2) : m.EndsChains := by
  intro id f hf _
  have hf := Array.mem_of_getElem? (function_eq_ok.mp hf)
  refine ⟨Function.acyclic_of_descending fun entry hentry i hi => ?_,
    Function.acyclic_of_descending fun entry hentry i hi => ?_⟩
  · obtain ⟨operand, hoperand, hi⟩ := Option.bind_eq_some_iff.mp hi
    exact h f hf entry hentry operand
      (List.mem_append_left _ (Option.mem_toList.mpr hoperand)) i hi
  · obtain ⟨operand, hoperand, hi⟩ := Option.bind_eq_some_iff.mp hi
    exact h f hf entry hentry operand
      (List.mem_append_right _ (Option.mem_toList.mpr hoperand)) i hi

theorem comparesBits_of_types (h : ∀ f ∈ m.functions, ∀ inst ∈ f.insts,
    ∀ compared ∈ inst.kind.comparison?, compared.1.isSigned = true →
    ∃ ty ∈ (f.valueType compared.2.1).toOption, ty ≠ .int 0) : m.ComparesBits := by
  rintro id f hf - i kind hkind pred lhs rhs rfl hsigned ⟨depth, hzero⟩
  obtain ⟨inst, hinst, hkind⟩ := Function.kind_eq_ok.mp hkind
  have hmem := Array.mem_of_getElem? (Function.inst_eq_ok.mp hinst)
  obtain ⟨ty, hty, hne⟩ := h f (Array.mem_of_getElem? (function_eq_ok.mp hf)) inst hmem
    (pred, lhs, rhs) (by rw [hkind]; rfl) hsigned
  cases hvalue : f.valueType lhs with
  | error fault => simp [hvalue, Except.toOption] at hty
  | ok ty' =>
    obtain rfl : ty' = ty := by simpa [hvalue, Except.toOption] using hty
    exact hne (Function.valueTypeWithin_unique hvalue hzero)

/-- Limits under which each chain has room make no demands on a module. -/
theorem lengthsFit_of_limits {limits : Limits}
    (h : limits.maxUnrollLen * Edit.entrySize < addressBound) (m : Module) :
    m.LengthsFit limits := by
  have hreserves : ∀ len, limits.Reserves len := fun len hle =>
    (Nat.mul_le_mul_right _ hle).trans_lt h
  exact ⟨fun _ _ _ _ _ _ len _ => hreserves len, fun _ _ _ _ len _ => hreserves len⟩

theorem weighing_run_answers : weighing.Accepted ∧ weighing.EndsChains ∧ weighing.ComparesBits ∧
    weighing.LengthsFit {} ∧
    ∃ result s, Pipeline.run (.fuzzing .normal .all) 0 { module := weighing } = .ok (result, s) := by
  have haccepted : weighing.Accepted := accepted_of_isLocal (by decide +kernel)
  have hends : weighing.EndsChains := endsChains_of_descending (by decide)
  have hbits : weighing.ComparesBits := comparesBits_of_types (by decide +kernel)
  have hfit : weighing.LengthsFit {} := lengthsFit_of_limits (by decide) weighing
  exact ⟨haccepted, hends, hbits, hfit, haccepted.run_answers hends hbits _ hfit 0⟩

end Module

/-! ### Faults -/

namespace Pipeline

variable {s s₁ : PassState} {α β : Type} {place : Place} {pass : Pass β} {k : β → Pipeline α}

theorem runPass_bind_of_does {b : β} (h : pass.Does s b s₁) :
    (runPass place pass >>= k) s = k b s₁ :=
  Course.bind_of_ok (Checked.map_eq_ok.mpr ⟨_, h, rfl⟩)

theorem runPass_bind_of_fault {fault : Fault} (h : pass s = .error fault) :
    (runPass place pass >>= k) s = .error fault := by
  refine Course.bind_of_fault ?_
  change (pass s).map _ = _
  rw [h]
  rfl

theorem check_bind_of_accepted {stage : Stage} {k : Unit → Pipeline α} (h : s.module.Accepted) :
    (check stage >>= k) s = k () s :=
  runPass_bind_of_does (Pass.does_bind.mpr ⟨.ok (), s, Pass.does_query.mpr ⟨h, rfl⟩, rfl⟩)

end Pipeline

/-- Harvests and lowers the selections, and says whether both modules are accepted by a check that
can be computed. -/
def Pass.lowering (config : Config) : Pass Bool := do
  let _ ← Pass.harvest config
  let harvested := (← get).module.isLocal
  let _ ← Pass.lowerSelects
  return harvested && (← get).module.isLocal

/-- What the first stages of a run have done. -/
structure Pipeline.Lowered (config : Config) (m : Module) (harvest : HarvestStats) (selects : Nat)
    (s₁ s₂ : PassState) : Prop where
  harvests : (Pass.harvest config).Does { module := m } harvest s₁
  harvested : s₁.module.Accepted
  lowers : Pass.lowerSelects.Does s₁ selects s₂
  lowered : s₂.module.Accepted

theorem Pipeline.exists_lowered {config : Config} {s₂ : PassState}
    (h : (Pass.lowering config).Does { module := m } true s₂) :
    ∃ harvest selects s₁, Lowered config m harvest selects s₁ s₂ := by
  obtain ⟨harvest, s₁, hharvest, hdoes⟩ := Pass.does_bind.mp h
  obtain ⟨_, _, hget, hdoes⟩ := Pass.does_bind.mp hdoes
  obtain ⟨rfl, rfl⟩ := Pass.does_get.mp hget
  obtain ⟨selects, s₂, hselects, hdoes⟩ := Pass.does_bind.mp hdoes
  obtain ⟨_, _, hget, hdoes⟩ := Pass.does_bind.mp hdoes
  obtain ⟨rfl, rfl⟩ := Pass.does_get.mp hget
  obtain ⟨hlocal, rfl⟩ := Pass.does_pure.mp hdoes
  obtain ⟨hharvested, hlowered⟩ := Bool.and_eq_true_iff.mp hlocal
  exact ⟨harvest, selects, s₁, hharvest, Module.accepted_of_isLocal hharvested, hselects,
    Module.accepted_of_isLocal hlowered⟩

/-- A run goes on from what its first stages have done. -/
theorem Pipeline.Lowered.run_eq {config : Config} {harvest : HarvestStats} {selects : Nat}
    {s₁ s₂ : PassState} {fault : Fault} {drawn : UInt64} (h : Lowered config m harvest selects s₁ s₂)
    (hm : m.Accepted) (hsettings : (checkSettings config).Does { module := m } () { module := m })
    (hconvert : (config.convert == .none) = false)
    (hrest : ∀ k : CompareStats → StringStats → Pipeline BuildArtifacts, (do
      let compares ← runPass (.within .compares) (Pass.splitCompares config)
      check .compares
      let strings ← runPass (.within .strings) (Pass.splitStrings config)
      k compares strings : Pipeline BuildArtifacts) s₂ = .error fault) :
    run config drawn { module := m } = .error fault := by
  rw [run, runPass_bind_of_does hsettings, check_bind_of_accepted hm,
    runPass_bind_of_does h.harvests, check_bind_of_accepted h.harvested, lowerSelects,
    if_neg (by simp [hconvert])]
  simp only [bind_assoc, pure_bind]
  rw [runPass_bind_of_does h.lowers, check_bind_of_accepted h.lowered]
  exact hrest _

namespace Module

/-- The last bit of an integer is asked for that has none. -/
theorem run_signless (drawn : UInt64) :
    Pipeline.run (.fuzzing .normal .all) drawn { module := signless } = .error .noSignBit := by
  have hlowering : (Pass.completed? ((Pass.lowering (.fuzzing .normal .all)).runOn signless)).map
      (·.1) = some true := by decide +kernel
  have hfault : ((do
      let _ ← Pass.lowering (.fuzzing .normal .all)
      Pass.splitCompares (.fuzzing .normal .all) : Pass CompareStats).runOn signless).fault? =
      some .noSignBit := by decide +kernel
  obtain ⟨⟨_, s₂⟩, hcompleted, rfl⟩ := Option.map_eq_some_iff.mp hlowering
  have hlowers := Pass.does_of_completed hcompleted
  obtain ⟨harvest, selects, s₁, hlowered⟩ := Pipeline.exists_lowered hlowers
  rw [Pass.runOn, Course.bind_of_ok hlowers] at hfault
  exact hlowered.run_eq (accepted_of_isLocal (by decide +kernel)) rfl rfl fun k =>
    Pipeline.runPass_bind_of_fault (Checked.eq_error_of_fault? hfault)

/-- Room for a chain of as many blocks as a word can count is more than there is. -/
theorem run_boundless (drawn : UInt64) :
    Pipeline.run .unlimited drawn { module := boundless } =
      .error (.outOfMemory (0xffffffffffffffff * Edit.entrySize)) := by
  have hcompares : (Pass.completed? ((do
      let lowered ← Pass.lowering .unlimited
      let _ ← Pass.splitCompares .unlimited
      return lowered && (← get).module.isLocal : Pass Bool).runOn boundless)).map (·.1) =
      some true := by decide +kernel
  have hfault : ((do
      let _ ← Pass.lowering .unlimited
      let _ ← Pass.splitCompares .unlimited
      Pass.splitStrings .unlimited : Pass StringStats).runOn boundless).fault? =
      some (.outOfMemory (0xffffffffffffffff * Edit.entrySize)) := by decide +kernel
  obtain ⟨⟨_, s₃⟩, hcompleted, rfl⟩ := Option.map_eq_some_iff.mp hcompares
  obtain ⟨kept, s₂, hlowers, hdoes⟩ := Pass.does_bind.mp (Pass.does_of_completed hcompleted)
  obtain ⟨compares, s₃, hcompares, hdoes⟩ := Pass.does_bind.mp hdoes
  obtain ⟨_, _, hget, hdoes⟩ := Pass.does_bind.mp hdoes
  obtain ⟨rfl, rfl⟩ := Pass.does_get.mp hget
  obtain ⟨hlocal, rfl⟩ := Pass.does_pure.mp hdoes
  obtain ⟨rfl, hcompared⟩ := Bool.and_eq_true_iff.mp hlocal
  obtain ⟨harvest, selects, s₁, hlowered⟩ := Pipeline.exists_lowered hlowers
  rw [Pass.runOn, Course.bind_of_ok hlowers, Course.bind_of_ok hcompares] at hfault
  refine hlowered.run_eq (accepted_of_isLocal (by decide +kernel)) rfl rfl fun k => ?_
  rw [Pipeline.runPass_bind_of_does hcompares,
    Pipeline.check_bind_of_accepted (accepted_of_isLocal hcompared)]
  exact Pipeline.runPass_bind_of_fault (Checked.eq_error_of_fault? hfault)

/-- Both modules are accepted, and nothing in them comes back to itself. One compares integers without
bits by their sign, the other one more bytes than a chain has room for. -/
theorem runs_fault :
    (signless.Accepted ∧ signless.EndsChains ∧ signless.LengthsFit {} ∧
      Pipeline.run (.fuzzing .normal .all) 0 { module := signless } = .error .noSignBit) ∧
    (boundless.Accepted ∧ boundless.EndsChains ∧ boundless.ComparesBits ∧
      Pipeline.run .unlimited 0 { module := boundless } =
        .error (.outOfMemory (0xffffffffffffffff * Edit.entrySize))) := by
  have hsignless : signless.Accepted := accepted_of_isLocal (by decide +kernel)
  have hboundless : boundless.Accepted := accepted_of_isLocal (by decide +kernel)
  refine ⟨⟨hsignless, endsChains_of_descending (by decide), ?_, run_signless 0⟩, hboundless,
    endsChains_of_descending (by decide), comparesBits_of_types (by decide), run_boundless 0⟩
  exact lengthsFit_of_limits (by decide) signless

end Module

end EdgeProbe
