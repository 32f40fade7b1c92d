import EdgeProbe.Proofs.Lowering.Chain
import EdgeProbe.Proofs.Code.Does

/-!
# Modules that are rewritten function by function

A module is refined by another one if calls end in the other one as they do in the first. Replacing
one function by one that simulates it refines a module, and so does any number of such steps, in
any order, which is what a pass over all functions makes of it.
-/

namespace EdgeProbe

variable {g : Guard} {kept : Stop → Prop} {id : FuncId} {f f₁ f' : Function} {m m₁ m' : Module}

/-- As the function of this index, in any world, the second one does what the first one did. -/
def Function.SimulatedUnder (g : Guard) (kept : Stop → Prop) (id : FuncId) (f f' : Function) :
    Prop :=
  ∀ w w' : World, w'.globals = w.globals →
    w'.module.functions.size = w.module.functions.size →
      ∃ rename, FunctionSim f f' (w.Swaps w' g g kept id f f') rename

theorem Function.Simulated.under (h : f.Simulated f') : f.SimulatedUnder g kept id f' :=
  fun w w' => h w w' g g kept id

theorem Function.Tidy.simulated (hf : f.Tidy) (annotations : Annotations) :
    f.Simulated { f with annotations } :=
  fun _ _ _ _ _ _ _ _ => ⟨_, hf.functionSim annotations⟩

theorem Function.SimulatedUnder.name (h : f.SimulatedUnder g kept id f') : f'.name = f.name := by
  obtain ⟨_, hsim⟩ := h ⟨default, #[], []⟩ ⟨default, #[], []⟩ rfl rfl
  exact hsim.name

namespace Module

/-- Whatever a call of the first module ends in under a guard, if it is kept, a call of the second
one, which is tidy, ends in too, given enough fuel and steps. -/
structure RefinedBy (g : Guard) (kept : Stop → Prop) (m m' : Module) : Prop where
  tidy : m'.Tidy
  globals : m'.globals = m.globals
  names : ∀ name, m'.findFunction? name = m.findFunction? name
  calls : ∀ globals handlers id args s r,
    World.CallYields ⟨m, globals, handlers⟩ g id args s r →
    (∀ cause s₁, r = .error cause s₁ → kept cause) →
      World.CallYields ⟨m', globals, handlers⟩ g id args s r

theorem RefinedBy.refl (hm : m.Tidy) : m.RefinedBy g kept m :=
  ⟨hm, rfl, fun _ => rfl, fun _ _ _ _ _ _ h _ => h⟩

theorem RefinedBy.trans (h : m.RefinedBy g kept m₁) (h' : m₁.RefinedBy g kept m') :
    m.RefinedBy g kept m' where
  tidy := h'.tidy
  globals := h'.globals.trans h.globals
  names := fun name => (h'.names name).trans (h.names name)
  calls := fun globals handlers id args s r hr hkept =>
    h'.calls globals handlers id args s r (h.calls globals handlers id args s r hr hkept) hkept

/-- Replacing a function by one that simulates it in the worlds of the module refines the module. -/
theorem RefinedBy.of_functionSim (hkept : Exec.Keeps kept) (hm : m.Tidy)
    (hid : m.function id = .ok f) (hf' : f'.Tidy) (hname : f'.name = f.name)
    (hf : ∀ globals handlers, ∃ rename, FunctionSim f f'
      (World.Swaps ⟨m, globals, handlers⟩ ⟨m.setFunction id f', globals, handlers⟩ g g kept id f f')
      rename) :
    m.RefinedBy g kept (m.setFunction id f') where
  tidy := hm.setFunction hid hf'
  globals := rfl
  names := findFunction?_setFunction hid hname
  calls := by
    intro globals handlers i args s r hr hended
    refine World.CallYields.simulated ?_ hr hended
    have hsize : (m.setFunction id f').functions.size = m.functions.size := by
      simp [Module.setFunction]
    refine ⟨rfl, rfl, hsize, hkept, fun _ _ _ _ h => h, fun i f₁ hi => ?_⟩
    by_cases heq : i = id
    · subst heq
      obtain rfl := Except.ok.inj (hid.symm.trans hi)
      obtain ⟨rename, hsim⟩ := hf globals handlers
      refine ⟨f', rename, ?_, hsim⟩
      change (m.setFunction i f').function i = _
      rw [function_setFunction (index_lt_of_function hid), if_pos rfl]
    · refine ⟨f₁, _, ?_, (hm i f₁ hi).functionSim f₁.annotations⟩
      change (m.setFunction id f').function i = _
      rw [function_setFunction (index_lt_of_function hid), if_neg heq]
      exact hi

/-- Replacing a function by one that simulates it in all worlds refines the module. -/
theorem RefinedBy.setFunction (hkept : Exec.Keeps kept) (hm : m.Tidy) (hid : m.function id = .ok f)
    (hf' : f'.Tidy) (hf : f.SimulatedUnder g kept id f') :
    m.RefinedBy g kept (m.setFunction id f') :=
  .of_functionSim hkept hm hid hf' hf.name fun globals handlers =>
    hf ⟨m, globals, handlers⟩ ⟨m.setFunction id f', globals, handlers⟩ rfl
      (by simp [Module.setFunction])

end Module

namespace Function

theorem Extended.trans (h : f.Extended f₁) (h' : f₁.Extended f') : f.Extended f' where
  tidy := h'.tidy
  name := h'.name.trans h.name
  types := h.types.trans h'.types
  size := h.size.trans h'.size
  listed := by
    intro id b pos hid
    obtain ⟨b₁, pos₁, hid₁⟩ := h.listed id b pos hid
    exact h'.listed id b₁ pos₁ hid₁
  kinds := fun id kind hlt hkind hphi =>
    h.kinds id kind hlt (h'.kinds id kind (hlt.trans_le h.size) hkind hphi) hphi

end Function

namespace Module

/-- A tidy module simulates itself under a guard that allows no less: its runs do not depend on the
budget once that is large enough. -/
theorem Tidy.moduleSim {g' : Guard} (hkept : Exec.Keeps kept) (hm : m.Tidy)
    (hg : ∀ id i values memory, g id i values memory → g' id i values memory)
    (globals : Array UInt64) (handlers : List (String × Handler)) :
    World.ModuleSim ⟨m, globals, handlers⟩ ⟨m, globals, handlers⟩ g g' kept :=
  ⟨rfl, rfl, rfl, hkept, hg, fun i f hi =>
    ⟨f, _, hi, (hm i f hi).functionSim f.annotations⟩⟩

/-! ## Steps -/

/-- One function has been changed in a way that is allowed. -/
def Step (allowed : FuncId → Function → Function → Prop) (m m' : Module) : Prop :=
  ∃ id f f', m.function id = .ok f ∧ allowed id f f' ∧ m' = m.setFunction id f'

/-- Functions have been changed one after another, each time in a way that is allowed. -/
def Steps (allowed : FuncId → Function → Function → Prop) : Module → Module → Prop :=
  Relation.ReflTransGen (Step allowed)

variable {allowed : FuncId → Function → Function → Prop}

/-- Changes of one function are steps of the module. -/
theorem Steps.of_function (hid : m.function id = .ok f)
    (h : Relation.ReflTransGen (allowed id) f f') : Steps allowed m (m.setFunction id f') := by
  induction h with
  | refl =>
    rw [setFunction_self hid]
    exact .refl
  | @tail f₂ f₃ _ hlast ih =>
    refine ih.tail ⟨id, f₂, f₃, ?_, hlast, (setFunction_setFunction m id f₂ f₃).symm⟩
    rw [function_setFunction (index_lt_of_function hid), if_pos rfl]

theorem Steps.inFunction {α : Type} {edit : Edit α} {a : α} {s s' : PassState}
    (hdoes : (Pass.inFunction id edit).Does s a s')
    (hedit : ∀ f f', s.module.function id = .ok f → edit.Does f a f' →
      Relation.ReflTransGen (allowed id) f f') : Steps allowed s.module s'.module := by
  obtain ⟨f, f', hid, hedit', rfl⟩ := Pass.does_inFunction.mp hdoes
  exact .of_function hid (hedit f f' hid hedit')

/-- What holds of a module and is kept by each step holds after any number of them. -/
theorem Steps.keeps (holds : Module → Prop) (h : Steps allowed m m')
    (hstep : ∀ m id f f', holds m → m.function id = .ok f → allowed id f f' →
      holds (m.setFunction id f')) (hm : holds m) : holds m' := by
  induction h with
  | refl => exact hm
  | tail _ hlast ih =>
    obtain ⟨id, f, f', hid, hallowed, rfl⟩ := hlast
    exact hstep _ id f f' ih hid hallowed

/-- Steps keep the number of functions. -/
theorem Steps.size_functions (h : Steps allowed m m') :
    m'.functions.size = m.functions.size := by
  refine h.keeps (fun m' => m'.functions.size = m.functions.size) (fun m' id f f' hm _ _ => ?_) rfl
  simpa [setFunction] using hm

/-- Steps that keep functions tidy and simulate them refine a module. -/
theorem Steps.refinedBy (hkept : Exec.Keeps kept) (hm : m.Tidy) (h : Steps allowed m m')
    (hstep : ∀ id f f', f.Tidy → allowed id f f' → f'.Tidy ∧ f.SimulatedUnder g kept id f') :
    m.RefinedBy g kept m' := by
  refine h.keeps (m.RefinedBy g kept) ?_ (.refl hm)
  intro m₁ id f f' hm₁ hid hallowed
  obtain ⟨htidy, hsim⟩ := hstep id f f' (hm₁.tidy id f hid) hallowed
  exact hm₁.trans (.setFunction hkept hm₁.tidy hid htidy hsim)

end Module

/-! ## Calls -/

namespace Machine

/-- A result that is neither for want of steps nor for a lookup that fails. -/
def Finished (result : Except Stop UInt64) : Prop :=
  result ≠ .error (.trap .stepBudget) ∧ ∀ fault, result ≠ .error (.fault fault)

/-- With a step budget that is large enough a call of the other module has the same result and
leaves the same memory and the same trace. -/
def RepeatedBy (machine : Machine) (m' : Module) (name : String) (args : List UInt64) : Prop :=
  ∃ enough, ∀ steps, enough ≤ steps →
    let repeated := ((machine.withModule m').setStepBudget steps).call name args
    repeated.1 = (machine.call name args).1 ∧
      repeated.2.store.memory = (machine.call name args).2.store.memory ∧
      repeated.2.trace = (machine.call name args).2.trace

end Machine

/-- What ends a run for good: a trap other than the one for want of steps. -/
theorem Exec.keeps_finished :
    Exec.Keeps fun cause => Machine.Finished (.error cause) where
  stepBudget := fun h => h.1 rfl
  fault := fun fault h => h.2 fault rfl

/-- All calls are allowed. -/
def Guard.free : Guard := fun _ _ _ _ => True

theorem World.enterIf_free (w : World) (n : Nat) : w.enterIf (w.runIf .free n) = w.enter (w.run n) :=
  enterIf_eq_enter fun id a c => runIf_eq_run (fun _ _ _ _ => trivial) n id a c

/-- A call that ends under the guard as it does without it is repeated by a module that refines the
one of the machine. -/
theorem Module.RefinedBy.repeatedBy (hkept : Exec.Keeps kept) {machine : Machine}
    (h : machine.world.module.RefinedBy g kept m') {name : String} {args : List UInt64}
    (hm : machine.world.module.Tidy)
    (hguard : ∀ id n, machine.world.module.findFunction? name = some id →
      n = machine.store.stepsLeft + 1 →
      machine.world.enterIf (machine.world.runIf g n) id args machine.store =
        machine.world.enter (machine.world.run n) id args machine.store)
    (hended : ∀ cause, (machine.call name args).1 = .error cause → kept cause) :
    machine.RepeatedBy m' name args := by
  have hnames := h.names name
  obtain ⟨⟨m, globals, handlers⟩, store, coverage⟩ := machine
  unfold Machine.RepeatedBy
  unfold Machine.call Machine.exec at hended ⊢
  dsimp only [Machine.withModule, Machine.setStepBudget] at h hm hguard hended hnames ⊢
  cases hid : m.findFunction? name with
  | none =>
    have hnone : ∀ m₁ : Module, m₁.findFunction? name = none → ∀ s,
        World.call ⟨m₁, globals, handlers⟩ name args s = .error (.trap (.noSuchFunction name)) s := by
      intro m₁ hm₁ s
      rw [World.call, hm₁]
      rfl
    exact ⟨0, fun steps _ => by simp [hnone m hid, hnone m' (hnames.trans hid), Machine.trace]⟩
  | some id =>
    rw [World.call_of_found hid] at hended
    simp only [World.call_of_found (w := ⟨m, globals, handlers⟩) hid,
      World.call_of_found (w := ⟨m', globals, handlers⟩) (hnames.trans hid)]
    generalize hr : World.enter ⟨m, globals, handlers⟩ _ id args store = r at hended ⊢
    have hkeptr : ∀ cause s₁, r = .error cause s₁ → kept cause :=
      fun cause s₁ hcause => hended cause (by rw [hcause])
    have hyields : World.CallYields ⟨m', globals, handlers⟩ .free id args store r := by
      have hguarded := World.callYields_of_eq
        (hm.moduleSim hkept (fun _ _ _ _ h => h) globals handlers)
        ((hguard id _ hid rfl).trans hr) hkeptr
      refine World.CallYields.simulated ?_
        (h.calls globals handlers id args store r hguarded hkeptr) hkeptr
      exact h.tidy.moduleSim hkept (fun _ _ _ _ _ => trivial) globals handlers
    obtain ⟨enough, cost, hyields⟩ := hyields
    refine ⟨enough + cost, fun steps hsteps => ?_⟩
    have hrun : World.enterIf _ _ id args _ = _ := hyields (steps + 1) (by omega) (steps - cost)
    rw [World.enterIf_free, Nat.add_sub_cancel' (by omega)] at hrun
    change World.enter _ _ id args { store with stepsLeft := steps } = _ at hrun
    rw [hrun]
    cases r <;> exact ⟨rfl, rfl, rfl⟩

end EdgeProbe
