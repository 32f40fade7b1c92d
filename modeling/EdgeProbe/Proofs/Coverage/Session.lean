import EdgeProbe.Proofs.Coverage.Classic
import EdgeProbe.Proofs.Probe.Entry

/-!
# Runs of a module with classic probes

A machine with a coverage map may run functions of an instrumented module one after another, and its
memory may be worked on in between. As long as neither the program nor that work writes one of the
two words that probes rely on, the index of every probe in every run is below the size of the map.
Main statement: `Module.WithoutSymbols.counts_inside`.
-/

namespace EdgeProbe

/-- The index of a classic probe is the third value after the address of the map. -/
theorem Hooks.offset_countCode {hooks : Hooks} {previous : GlobalId} {first slot : Nat}
    {base offset : Value} (hprevious : hooks.previous = some previous)
    (h : .gep base offset ∈ hooks.countCode first slot) : offset = .inst ⟨first + 3⟩ := by
  rw [countCode, hprevious] at h
  simp only [List.mem_cons, reduceCtorEq, InstKind.gep.injEq, List.not_mem_nil, or_false,
    false_or] at h
  exact h.2

namespace Machine

/-- The words that classic probes rely on are left alone. -/
def SparesWords (m : Machine) (before after : Memory) : Prop :=
  (∀ addr, m.globalAddr? Symbol.areaPointer = some addr → before.SameAt addr 8 after) ∧
    ∀ addr, m.globalAddr? Symbol.previousLocation = some addr → before.SameAt addr 4 after

/-- What has become of a machine before it gets a coverage map, but for its words. -/
structure SetUp (fresh before : Machine) : Prop where
  module : before.world.module = fresh.world.module
  globals : before.world.globals = fresh.world.globals
  words : fresh.SparesWords fresh.store.memory before.store.memory

/-- In the run that a call starts the program leaves the words of probes alone. -/
structure CallSpares (m : Machine) (program : FuncId → InstId → Prop) (name : String)
    (args : List UInt64) : Prop where
  moments : ∀ moment, m.world.Occurs name args m.store moment →
    m.world.ProgramKeeps m.SparesWords program moment
  /-- The call may be one of a function without a body. -/
  declared : ∀ id f, m.world.module.findFunction? name = some id →
    m.world.module.function id = .ok f → f.entryBlock? = none →
      (m.world.callDeclared f args).Leaves (m.SparesWords m.store.memory) m.store

/-- What comes of a machine when functions are called and memory is worked on, one after another,
such that the words of probes are left alone but for the probes themselves. -/
inductive Session (program : FuncId → InstId → Prop) (start : Machine) : Machine → Prop
  | start : Session program start start
  | register {m : Machine} (h : Session program start m) (name : String) (handler : Handler) :
    Session program start (m.register name handler)
  | setStepBudget {m : Machine} (h : Session program start m) (steps : Nat) :
    Session program start (m.setStepBudget steps)
  | clearTrace {m : Machine} (h : Session program start m) : Session program start m.clearTrace
  | resetCoverage {m : Machine} (h : Session program start m) :
    Session program start m.resetCoverage
  | access {m : Machine} {α : Type} (h : Session program start m) (work : Access α)
    (hspares : m.SparesWords m.store.memory (m.access work).2.store.memory) :
    Session program start (m.access work).2
  | call {m : Machine} (h : Session program start m) {name : String} {args : List UInt64}
    (hspares : m.CallSpares program name args) : Session program start (m.call name args).2

/-- Each probe that is executed in the run that a call starts has an index below the size. -/
def CountsInside (m : Machine) (program : FuncId → InstId → Prop) (size : Nat) (name : String)
    (args : List UInt64) : Prop :=
  ∀ moment block i insts frame, m.world.Occurs name args m.store moment →
    moment.place = .within block (i :: insts) frame → ¬program moment.id i →
      ∀ base offset, moment.activation.function.kind i = .ok (.gep base offset) →
        ∀ index s, m.world.eval moment.activation frame offset moment.store = .ok index s →
          index.toNat < size

section

variable {start m : Machine} {l : CoverageLayout}

theorem memory_exec {α : Type} {inv : Memory → Prop} {steps : Exec α}
    (h : steps.Leaves inv m.store) : inv (m.exec steps).2.store.memory := by
  unfold exec
  cases hsteps : steps m.store with
  | ok a s => exact h.of_ok hsteps
  | error cause s => exact h.of_error hsteps

theorem world_exec {α : Type} (steps : Exec α) : (m.exec steps).2.world = m.world := by
  unfold exec
  cases steps m.store <;> rfl

theorem coverage_exec {α : Type} (steps : Exec α) : (m.exec steps).2.coverage = m.coverage := by
  unfold exec
  cases steps m.store <;> rfl

variable {hooks : Hooks} {previous : GlobalId} {base : FuncId → Nat} {bits : Nat}

/-- The machine knows the words and the map of a layout, and what probes rely on holds in it. -/
structure Prepared (m : Machine) (hooks : Hooks) (previous : GlobalId) (l : CoverageLayout)
    (base : FuncId → Nat) (bits : Nat) : Prop where
  counts : m.world.Counts hooks previous l base bits
  area : m.globalAddr? Symbol.areaPointer = some l.area
  previous : m.globalAddr? Symbol.previousLocation = some l.previous
  coverage : m.coverage = some (l.map, l.size)
  ready : l.Ready (2 ^ bits) m.store.memory

namespace Prepared

variable (h : m.Prepared hooks previous l base bits)
include h

theorem spares {before after : Memory} (hspares : m.SparesWords before after) :
    l.Spares before after :=
  ⟨hspares.1 l.area h.area, hspares.2 l.previous h.previous⟩

/-- Only what memory holds can get lost. -/
theorem of_world {m' : Machine} (hworld : m'.world = m.world) (hcoverage : m'.coverage = m.coverage)
    (hready : l.Ready (2 ^ bits) m'.store.memory) : m'.Prepared hooks previous l base bits where
  counts := hworld ▸ h.counts
  area := by
    rw [globalAddr?, hworld]
    exact h.area
  previous := by
    rw [globalAddr?, hworld]
    exact h.previous
  coverage := hcoverage.trans h.coverage
  ready := hready

theorem register (name : String) (handler : Handler) :
    (m.register name handler).Prepared hooks previous l base bits where
  counts := { h.counts with }
  area := h.area
  previous := h.previous
  coverage := h.coverage
  ready := h.ready

theorem resetCoverage : m.resetCoverage.Prepared hooks previous l base bits := by
  have hreset : m.resetCoverage = { m with store := { m.store with
      memory := m.store.memory.after (Memory.write l.map (List.replicate l.size 0)) } } := by
    rw [Machine.resetCoverage, h.coverage]
  rw [hreset]
  refine h.of_world rfl rfl ?_
  dsimp only [Memory.after]
  cases hwrite : Memory.write l.map (List.replicate l.size 0) m.store.memory with
  | ok u after => exact h.ready.of_spares (h.counts.apart.write_map le_rfl hwrite)
  | error cause after => exact Memory.write_error hwrite ▸ h.ready

/-- A call that spares the words leaves them as they are to be. -/
theorem call {name : String} {args : List UInt64}
    (hspares : m.CallSpares (fun id i => i.index < base id) name args) :
    (m.call name args).2.Prepared hooks previous l base bits := by
  refine h.of_world (world_exec _) (coverage_exec _) (memory_exec ?_)
  refine h.counts.sustained.calls (fun moment hmoment =>
    (hspares.moments moment hmoment).mono fun _ _ => h.spares) h.ready fun id f hid hf hentry => ?_
  exact (hspares.declared id f hid hf hentry).mono fun after hafter =>
    h.ready.of_spares (h.spares hafter)

end Prepared

/-- A session keeps what probes rely on. -/
theorem Session.prepared (h : Session (fun id i => i.index < base id) start m)
    (hstart : start.Prepared hooks previous l base bits) : m.Prepared hooks previous l base bits := by
  induction h with
  | start => exact hstart
  | register _ name handler ih => exact ih.register name handler
  | setStepBudget _ steps ih => exact ih.of_world rfl rfl ih.ready
  | clearTrace _ ih => exact ih.of_world rfl rfl ih.ready
  | resetCoverage _ ih => exact ih.resetCoverage
  | access _ work hspares ih =>
    exact ih.of_world (world_exec _) (coverage_exec _) (ih.ready.of_spares (ih.spares hspares))
  | call _ hspares ih => exact ih.call hspares

/-- The index of each probe is below the size of the map. -/
theorem Prepared.countsInside (h : m.Prepared hooks previous l base bits) {name : String}
    {args : List UInt64} (hspares : m.CallSpares (fun id i => i.index < base id) name args) :
    m.CountsInside (fun id i => i.index < base id) l.size name args := by
  intro moment block i insts frame hmoment hplace hadded base' offset hkind index s hindex
  obtain ⟨⟨hid, hgood⟩, hready⟩ := h.counts.sustained.occurs
    (fun later hlater => (hspares.moments later hlater).mono fun _ _ => h.spares) h.ready hmoment
  obtain hpad | ⟨number, hmem⟩ | ⟨first, slot, k, -, hslot, hcounts, hk, rfl⟩ :=
    h.counts.probed moment.id _ hid i _ hkind (Nat.not_lt.mp hadded) rfl
  · cases hpad
  · obtain ⟨trace, -, hcall⟩ := Hooks.eq_of_mem_traceCode hmem
    cases hcall
  · obtain rfl := Hooks.offset_countCode h.counts.hasPrevious (List.mem_of_getElem? hk)
    obtain ⟨hvalue, -⟩ := World.eval_inst_eq_ok hindex
    rw [hplace] at hgood
    have hfits : index.toNat < 2 ^ bits := hgood first slot hslot hcounts 3 index hvalue
    exact hfits.trans_le h.counts.le_size

end

end Machine

namespace Module

variable {m : Module} {config : Config} {drawn : UInt64} {report : InstrumentReport} {s : PassState}
  {fresh before mapped machine : Machine}

/-- A fresh machine with a coverage map knows all that classic probes rely on. -/
theorem WithoutSymbols.prepared (hm : m.WithoutSymbols) (hclassic : config.denseIds = false)
    (h : (Pass.instrumentEdges config drawn).runOn m = .ok (.ok report, s))
    (hfresh : Machine.ofModule s.module = .ok fresh)
    (hbefore : fresh.SetUp before) (hmapped : before.withCoverageMap report.areaSize = .ok mapped) :
    ∃ hooks previous l bits, mapped.Prepared hooks previous l m.instCount bits ∧
      l.size = report.areaSize := by
  obtain ⟨i, hi⟩ := Pass.instrumentEdges_does (s := { module := m }) h
  obtain ⟨hdeclared, hhooks⟩ := hi.declared_eq hm
  have hold := hi.withoutSymbols hm
  have hsize : report.areaSize = i.mapSize := by
    rw [hi.reportedSize, Pass.Instrumentation.areaSize, hclassic, if_neg Bool.false_ne_true]
  have hglobals : s.module.globals = i.split.globals ++
      #[{ name := Symbol.areaPointer }, { name := Symbol.previousLocation, threadLocal := true }] := by
    have hresult := congrArg Module.globals (hi.result_eq hm)
    simp only [addFunction, hi.placed.globals, hdeclared, hookGlobals, hclassic] at hresult
    exact hresult
  obtain ⟨l, hapart, hlsize, hmodule, harea, hprevious, hareaName, hpreviousName, hcoverage, hready⟩ :=
    Machine.exists_layout hglobals rfl rfl (fun g hg =>
      ⟨hold.global_ne (by decide) g hg, hold.global_ne (by decide) g hg⟩) rfl rfl hfresh
      hbefore.module hbefore.globals hbefore.words.1 hbefore.words.2 hmapped
  have haddr : ∀ {id : GlobalId} {addr : UInt64}, mapped.world.globals[id.index]? = some addr →
      mapped.world.globalAddr id = .ok addr := by
    intro id addr hfound
    rw [World.globalAddr, hfound]
  refine ⟨i.hooks, ⟨i.split.globals.size + 1⟩, l, Nat.log2 i.mapSize, {
    counts := {
      hasPrevious := by rw [hhooks, hclassic]; rfl
      area := by rw [hhooks]; exact haddr harea
      previous := haddr hprevious
      apart := hapart
      le_size := by
        rw [hlsize, hsize]
        exact Nat.log2_self_le (Config.mapSize_bounds hi.mapSize).1.ne'
      probed := fun id f hid => hi.probed hm hclassic (hmodule ▸ hid)
      trace := fun id hid => hmodule ▸ hi.traceHook hm hid }
    area := hareaName
    previous := hpreviousName
    coverage := hlsize ▸ hcoverage
    ready := hready _ (Nat.two_pow_pos _) }, hlsize⟩

/-- The indexes of classic probes are below the size of the map, whatever the program is, however
often and in which order it is run, and whatever slots have been drawn. -/
theorem WithoutSymbols.counts_inside (hm : m.WithoutSymbols) (hfuzzing : config.buildType = .fuzzing)
    (hclassic : config.counter = .classic)
    (h : (Pass.instrumentEdges config drawn).runOn m = .ok (.ok report, s))
    (hfresh : Machine.ofModule s.module = .ok fresh)
    (hbefore : fresh.SetUp before) (hmapped : before.withCoverageMap report.areaSize = .ok mapped)
    (hsession : mapped.Session (fun id i => i.index < m.instCount id) machine) {name : String}
    {args : List UInt64}
    (hspares : machine.CallSpares (fun id i => i.index < m.instCount id) name args) :
    machine.CountsInside (fun id i => i.index < m.instCount id) report.areaSize name args := by
  have hdense : config.denseIds = false := by
    simp [Config.denseIds, Config.isCoverage, hfuzzing, hclassic]
  obtain ⟨hooks, previous, l, bits, hprepared, hsize⟩ := hm.prepared hdense h hfresh hbefore hmapped
  exact hsize ▸ (hsession.prepared hprepared).countsInside hspares

/-- Every function has a body, and no block ends in a call. -/
def isQuiet (m : Module) : Bool :=
  m.functions.all fun f => !f.isDeclaration && f.blocks.all fun b => !b.term.calls

/-- A program without instructions that does not call leaves the words of probes alone. -/
theorem callSpares_of_isQuiet {program : FuncId → InstId → Prop} (hprogram : ∀ id i, ¬program id i)
    (hquiet : machine.world.module.isQuiet = true) (name : String) (args : List UInt64) :
    machine.CallSpares program name args where
  moments moment hmoment := by
    have hknown := hmoment.sound.known
    obtain ⟨id, a, n, es, place, s⟩ := moment
    cases place with
    | arriving c => trivial
    | within block insts frame =>
      cases insts with
      | cons i rest => exact fun hi => absurd hi (hprogram id i)
      | nil =>
        intro b s₁ hb htick
        have hmem := Array.mem_of_getElem? (Module.function_eq_ok.mp hknown)
        have hbmem := Array.mem_of_getElem? (Function.block_eq_ok.mp hb)
        simp only [isQuiet, Array.all_eq_true_iff_forall_mem, Bool.and_eq_true,
          Bool.not_eq_true'] at hquiet
        refine (World.still_runTerminator ((hquiet _ hmem).2 b hbmem)).leaves ?_
        exact ⟨fun _ _ => .refl _ _ _, fun _ _ => .refl _ _ _⟩
  declared id f hfind hid hentry := by
    have hmem := Array.mem_of_getElem? (Module.function_eq_ok.mp hid)
    simp only [isQuiet, Array.all_eq_true_iff_forall_mem, Bool.and_eq_true,
      Bool.not_eq_true'] at hquiet
    have hbody := (hquiet f hmem).1
    rw [Function.isDeclaration, List.isEmpty_eq_false_iff] at hbody
    exact absurd (List.head?_eq_none_iff.mp hentry) hbody

/-- The settings of a classic build with the smallest map. -/
def smallMap : Config :=
  { Config.fuzzing .normal .all with mapSizeKib := some 1 }

/-- A function without instructions goes around in circles, in a machine that has a map. -/
def circlingRun : Option (PassState × Machine × Machine × InstrumentReport) := do
  let (report, s) ← Pass.completed? ((Pass.instrumentEdges smallMap 0).runOn (circling ⟨1⟩))
  let fresh ← (Machine.ofModule s.module).toOption
  let mapped ← (fresh.withCoverageMap report.areaSize).toOption
  return (s, fresh, mapped, report)

theorem eq_ok_of_toOption {ε α : Type} {x : Except ε α} {a : α} (h : x.toOption = some a) :
    x = .ok a := by
  cases x with
  | ok b => rw [Option.some.inj h]
  | error e => cases h

theorem circlingRun_eq_some {s : PassState} {fresh mapped : Machine} {report : InstrumentReport}
    (h : circlingRun = some (s, fresh, mapped, report)) :
    (Pass.instrumentEdges smallMap 0).runOn (circling ⟨1⟩) = .ok (.ok report, s) ∧
      Machine.ofModule s.module = .ok fresh ∧
      fresh.withCoverageMap report.areaSize = .ok mapped := by
  simp only [circlingRun, bind, Option.bind_eq_some_iff, pure, Option.some.injEq] at h
  obtain ⟨⟨report, s⟩, hrun, fresh, hfresh, mapped, hmapped, hall⟩ := h
  cases hall
  exact ⟨Pass.completed?_eq_some hrun, eq_ok_of_toOption hfresh, eq_ok_of_toOption hmapped⟩

/-- The four probes of the function index the map within its bounds. -/
theorem circling_counts_inside : ∃ s fresh mapped report,
    circlingRun = some (s, fresh, mapped, report) ∧ report.probes = 4 ∧
    mapped.CountsInside (fun id i => i.index < (circling ⟨1⟩).instCount id) report.areaSize
      "circle" [0] := by
  have hrun : (circlingRun.filter fun r => r.2.2.2.probes == 4 && r.2.2.1.world.module.isQuiet).isSome
      = true := by
    decide +kernel
  obtain ⟨⟨s, fresh, mapped, report⟩, hfound⟩ := Option.isSome_iff_exists.mp hrun
  obtain ⟨hcircling, hfacts⟩ := Option.filter_eq_some_iff.mp hfound
  obtain ⟨hprobes, hquiet⟩ := (Bool.and_eq_true _ _).mp hfacts
  obtain ⟨h, hfresh, hmapped⟩ := circlingRun_eq_some hcircling
  have hprogram : ∀ (id : FuncId) (i : InstId), ¬i.index < (circling ⟨1⟩).instCount id := by
    intro id i
    have hnone : (circling ⟨1⟩).instCount id = 0 := by
      obtain ⟨n⟩ := id
      cases n <;> rfl
    omega
  have hsetup : fresh.SetUp fresh :=
    ⟨rfl, rfl, fun _ _ => .refl _ _ _, fun _ _ => .refl _ _ _⟩
  exact ⟨s, fresh, mapped, report, hcircling, beq_iff_eq.mp hprobes,
    WithoutSymbols.counts_inside ⟨by decide, by decide⟩ rfl rfl h hfresh hsetup hmapped .start
      (callSpares_of_isQuiet hprogram hquiet "circle" [0])⟩

end Module

end EdgeProbe
