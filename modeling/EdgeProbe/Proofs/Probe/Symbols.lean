import EdgeProbe.Machine.Run
import EdgeProbe.Proofs.Probe.Passes
import EdgeProbe.Proofs.Probe.Stepwise

/-!
# Names that are kept for probes

In a module that has no use for the names of what probes refer to, all of it is new: the globals and
the trace hook come after everything else, and so do the accessors in the end. Main statements:
`Module.withHooks_eq`, `Module.withAccessor_eq` and `World.call_returning`.
-/

namespace EdgeProbe

namespace Module

/-- Nothing in the module is named like what probes refer to. -/
structure WithoutSymbols (m : Module) : Prop where
  globals : ∀ g ∈ m.globals, Text.startsWith g.name Symbol.start = false
  functions : ∀ f ∈ m.functions, Text.startsWith f.name Symbol.start = false

/-- The globals that probes refer to. -/
def hookGlobals (config : Config) : Array Global :=
  if config.denseIds then #[{ name := Symbol.areaPointer }]
  else #[{ name := Symbol.areaPointer }, { name := Symbol.previousLocation, threadLocal := true }]

/-- The functions that probes call. -/
def hookFunctions (config : Config) : Array Function :=
  if config.tracesIds then #[.declare Symbol.traceHook [.i32] .void] else #[]

variable {m m' : Module} {name : String}

theorem findGlobal?_eq_none (h : ∀ g ∈ m.globals, g.name ≠ name) : m.findGlobal? name = none := by
  simpa [findGlobal?] using h

theorem findFunction?_eq_none (h : ∀ f ∈ m.functions, f.name ≠ name) :
    m.findFunction? name = none := by
  simpa [findFunction?] using h

theorem WithoutSymbols.global_ne (hm : m.WithoutSymbols)
    (hname : Text.startsWith name Symbol.start = true) : ∀ g ∈ m.globals, g.name ≠ name := by
  rintro g hg rfl
  exact absurd (hm.globals g hg) (by rw [hname]; exact nofun)

theorem WithoutSymbols.function_ne (hm : m.WithoutSymbols)
    (hname : Text.startsWith name Symbol.start = true) : ∀ f ∈ m.functions, f.name ≠ name := by
  rintro f hf rfl
  exact absurd (hm.functions f hf) (by rw [hname]; exact nofun)

/-- What probes refer to comes after everything else. -/
theorem withHooks_eq (hm : m.WithoutSymbols) (config : Config) : m.withHooks config =
    ({ m with
        globals := m.globals ++ hookGlobals config
        functions := m.functions ++ hookFunctions config },
      { area := ⟨m.globals.size⟩
        previous := if config.denseIds then none else some ⟨m.globals.size + 1⟩
        trace := if config.tracesIds then some ⟨m.functions.size⟩ else none }) := by
  have harea : m.findGlobal? Symbol.areaPointer = none :=
    findGlobal?_eq_none (hm.global_ne (by decide))
  have hprevious : ∀ g : Global, g.name = Symbol.areaPointer →
      { m with globals := m.globals.push g }.findGlobal? Symbol.previousLocation = none := by
    intro g hg
    refine findGlobal?_eq_none fun g' hg' => ?_
    obtain hold | rfl := Array.mem_push.mp hg'
    · exact hm.global_ne (by decide) g' hold
    · rw [hg]
      decide
  have htrace : ∀ globals, { m with globals }.findFunction? Symbol.traceHook = none :=
    fun globals => findFunction?_eq_none (hm.function_ne (by decide))
  unfold withHooks getOrInsertGlobal
  rw [harea]
  unfold withPrevious withTrace getOrInsertGlobal getOrInsertFunction hookGlobals hookFunctions
  dsimp only [addGlobal]
  cases config.denseIds with
  | true =>
    simp only [if_true, htrace]
    split <;> simp [addFunction]
  | false =>
    have hpush : ∀ g g' : Global, (m.globals.push g).push g' = m.globals ++ #[g, g'] :=
      fun g g' => Array.ext' (by simp)
    rw [if_neg Bool.false_ne_true, if_neg Bool.false_ne_true, hprevious _ rfl]
    simp only [htrace]
    split <;> simp [addFunction, hpush]

/-- What returns a number comes after everything else too. -/
theorem withAccessor_eq (h : ∀ f ∈ m.functions, f.name ≠ name) (value : Nat) :
    m.withAccessor name value = (m.addFunction (.returning name value)).1 := by
  rw [withAccessor, findFunction?_eq_none h]

section

variable (m) (f : Function)

theorem function_addFunction_self : (m.addFunction f).1.function ⟨m.functions.size⟩ = .ok f := by
  rw [function_eq_ok]
  simp [addFunction]

variable {m f}

theorem function_addFunction_cases {id : FuncId} {f' : Function}
    (h : (m.addFunction f).1.function id = .ok f') : m.function id = .ok f' ∨ f' = f := by
  rw [function_eq_ok, addFunction, Array.getElem?_push] at h
  split at h
  · exact .inr (Option.some.inj h).symm
  · exact .inl (function_eq_ok.mpr h)

/-- A function is found by a name that none before it has. -/
theorem findFunction?_addFunction (h : ∀ g ∈ m.functions, g.name ≠ name) (hname : f.name = name) :
    (m.addFunction f).1.findFunction? name = some ⟨m.functions.size⟩ := by
  have hnone : m.functions.findIdx? (fun g => g.name == name) = none := by simpa using h
  simp [addFunction, findFunction?, Array.findIdx?_push, hnone, hname]

/-- It is still found when there is one more. -/
theorem findFunction?_addFunction_of_some {id : FuncId} (h : m.findFunction? name = some id) :
    (m.addFunction f).1.findFunction? name = some id := by
  obtain ⟨index, hindex, rfl⟩ := Option.map_eq_some_iff.mp h
  simp [addFunction, findFunction?, Array.findIdx?_push, hindex]

end

/-- What holds of all names holds of them where functions become others of the same names. -/
theorem EachBecomes.forall_name {by' : FuncId → Function → Function → Prop} (h : m.EachBecomes by' m')
    (hname : ∀ id f f', m.function id = .ok f → m'.function id = .ok f' → by' id f f' →
      f'.name = f.name)
    {P : String → Prop} (hm : ∀ f ∈ m.functions, P f.name) : ∀ f ∈ m'.functions, P f.name := by
  intro f' hf'
  obtain ⟨index, hlt, rfl⟩ := Array.mem_iff_getElem.mp hf'
  have hget : m'.function ⟨index⟩ = .ok m'.functions[index] :=
    function_eq_ok.mpr (Array.getElem?_eq_getElem hlt)
  obtain ⟨f, hid, hby⟩ := h.exists_function hget
  rw [hname _ _ _ hid hget hby]
  exact hm f (Array.mem_of_getElem? (function_eq_ok.mp hid))

end Module

/-- The call of a function that returns a number. -/
theorem World.call_returning {w : World} {name : String} {value : Nat} {id : FuncId}
    (hfind : w.module.findFunction? name = some id)
    (hid : w.module.function id = .ok (.returning name value)) (args : List UInt64) {s : Store}
    {left : Nat} (hleft : s.stepsLeft = left + 1) :
    w.call name args s = .ok (mask 32 (UInt64.ofNat value)) { s with stepsLeft := left } := by
  obtain ⟨memory, trace, stepsLeft⟩ := s
  dsimp only at hleft
  subst hleft
  have hcall : w.call name args = w.callId id args := by rw [call, hfind]
  have henter : w.enter (w.run (left + 1 + 1)) id args =
      w.run (left + 1 + 1) ⟨.returning name value, args⟩ ⟨∅, none, ⟨0⟩⟩ := by
    rw [enter, hid]
    rfl
  rw [hcall]
  change w.enter (w.run (left + 1 + 1)) id args ⟨memory, trace, left + 1⟩ = _
  rw [henter]
  rfl

end EdgeProbe

/-!
## Instrumenting keeps names

Neither splitting landing pads nor placing probes renames a function, whatever the module is like.
So what probes refer to, and the accessors, come after everything else in each module that has no
use for their names. Main statement: `Pass.Instrumentation.Valid.result_eq`.
-/

namespace EdgeProbe

instance : Function.OfSteps Function.SameHeader where
  refl := .refl
  trans := .trans
  block _ h := (Function.sameRest_modifyBlock h).sameHeader
  inst _ h := (Function.sameRest_modifyInst h).sameHeader
  addBlockBefore f name before := (f.sameRest_addBlockBefore name before).sameHeader
  insertInst h := (Function.sameRest_insertInst h).sameHeader
  splitBlock h := (Function.sameRest_splitBlock h).sameHeader

/-- Nothing is placed where there is no code. -/
theorem Edit.placePlanned_bodiless {hooks : Hooks} {planned : PlannedProbe} {f f' : Function}
    {u : Unit} (hlayout : f.layout = []) (hblocks : f.blocks = #[])
    (h : (placePlanned hooks planned).Does f u f') : f' = f := by
  obtain ⟨site, id, slot⟩ := planned
  cases site with
  | entry function =>
    obtain ⟨g, f₁, hget, h⟩ := does_bind.mp h
    obtain ⟨rfl, rfl⟩ := does_get.mp hget
    have hentry : f.entryBlock? = none := by rw [Function.entryBlock?, hlayout]; rfl
    rw [hentry] at h
    exact (does_pure.mp h).2.symm
  | edge function block index =>
    obtain ⟨succs, f₁, hquery, -⟩ := does_bind.mp h
    obtain ⟨blk, hblk, -⟩ := Checked.map_eq_ok.mp (does_query.mp hquery).1
    have hlt := Function.index_lt_of_block hblk
    simp [hblocks] at hlt

theorem Edit.placeAll_declaration {hooks : Hooks} {plan : List PlannedProbe} {name : String}
    {params : List Ty} {ret : Ty} {f' : Function}
    (h : InTurn (fun planned f f' => (placePlanned hooks planned).Does f () f') plan
      (.declare name params ret) f') : f' = .declare name params ret :=
  h.keeps (· = .declare name params ret) (fun _ _ _ _ hf hplaced =>
    (placePlanned_bodiless (hf ▸ rfl) (hf ▸ rfl) hplaced).trans hf) rfl

namespace Pass

theorem PadsSplit.sameHeader {f f' : Function} (h : PadsSplit f f') : f.SameHeader f' := by
  obtain ⟨-, rfl⟩ | ⟨-, count, h⟩ := h
  · exact .refl f'
  · exact Edit.respects_splitSharedLandingPads f _ f' h

namespace Instrumentation

variable {config : Config} {drawn : UInt64} {m m' : Module} {report : InstrumentReport}
  {i : Instrumentation config drawn m report m'} {id : FuncId} {f f' : Function}

theorem Valid.withoutSymbols (hi : i.Valid) (hsymbols : m.WithoutSymbols) :
    i.split.WithoutSymbols where
  globals := hi.split.globals ▸ hsymbols.globals
  functions := hi.split.forall_name (fun _ _ _ _ _ hsplit => hsplit.sameHeader.name)
    (P := fun name => Text.startsWith name Symbol.start = false) hsymbols.functions

theorem Valid.declared_eq (hi : i.Valid) (hsymbols : m.WithoutSymbols) :
    i.declared = { i.split with
      globals := i.split.globals ++ Module.hookGlobals config
      functions := i.split.functions ++ Module.hookFunctions config } ∧
    i.hooks = {
      area := ⟨i.split.globals.size⟩
      previous := if config.denseIds then none else some ⟨i.split.globals.size + 1⟩
      trace := if config.tracesIds then some ⟨i.split.functions.size⟩ else none } := by
  have h := Module.withHooks_eq (hi.withoutSymbols hsymbols) config
  rw [hi.declared] at h
  exact Prod.mk.inj h

theorem Valid.placed_sameHeader (hi : i.Valid) (hid : i.declared.function id = .ok f)
    (hid' : i.placed.function id = .ok f') : f.SameHeader f' := by
  obtain ⟨f₁, hid₁, hturns⟩ := hi.placed.functions id f hid
  obtain rfl := Except.ok.inj (hid'.symm.trans hid₁)
  refine hturns.keeps f.SameHeader (fun planned _ f₁ f₂ hf₁ hplaced => hf₁.trans ?_) (.refl f)
  exact Edit.respects_placePlanned i.hooks planned f₁ _ f₂ hplaced

/-- No function is named like an accessor before these come. -/
theorem Valid.placed_name (hi : i.Valid) (hsymbols : m.WithoutSymbols)
    {name : String} (hname : Text.startsWith name Symbol.start = true)
    (hne : Symbol.traceHook ≠ name) : ∀ f ∈ i.placed.functions, f.name ≠ name := by
  refine hi.placed.forall_name (fun id f f' hid hid' _ => (hi.placed_sameHeader hid hid').name)
    (P := fun name' => name' ≠ name) ?_
  rw [(hi.declared_eq hsymbols).1]
  intro f hf
  obtain hold | hhook := Array.mem_append.mp hf
  · exact (hi.withoutSymbols hsymbols).function_ne hname f hold
  · unfold Module.hookFunctions at hhook
    split at hhook
    · obtain rfl := Array.mem_singleton.mp hhook
      exact hne
    · simp at hhook

theorem Valid.placed_name_area (hi : i.Valid) (hsymbols : m.WithoutSymbols) :
    ∀ f ∈ i.placed.functions, f.name ≠ Symbol.areaSize :=
  hi.placed_name hsymbols (by decide) (by decide)

/-- And none but the first is named like the second of them. -/
theorem Valid.withArea_name (hi : i.Valid) (hsymbols : m.WithoutSymbols) (value : Nat) :
    ∀ f ∈ (i.placed.addFunction (.returning Symbol.areaSize value)).1.functions,
      f.name ≠ Symbol.blockCount := by
  intro f hf
  obtain hold | rfl := Array.mem_push.mp hf
  · exact hi.placed_name hsymbols (by decide) (by decide) f hold
  · change Symbol.areaSize ≠ Symbol.blockCount
    decide

/-- The accessors come after everything else. -/
theorem Valid.result_eq (hi : i.Valid) (hsymbols : m.WithoutSymbols) :
    m' = ((i.placed.addFunction (.returning Symbol.areaSize i.areaSize)).1.addFunction
      (.returning Symbol.blockCount (i.plan.length + 1))).1 := by
  refine hi.accessors.trans ?_
  rw [Module.withAccessor_eq (hi.placed_name_area hsymbols),
    Module.withAccessor_eq (hi.withArea_name hsymbols i.areaSize)]

/-- A function stays what placing probes has made of it. -/
theorem Valid.function_eq (hi : i.Valid) (hsymbols : m.WithoutSymbols)
    (hid : i.placed.function id = .ok f') : m'.function id = .ok f' := by
  rw [hi.result_eq hsymbols]
  exact Module.function_addFunction (Module.function_addFunction hid _) _

/-- The functions of the instrumented module are those from before, the trace hook and the
accessors. -/
theorem Valid.function_cases (hi : i.Valid) (hsymbols : m.WithoutSymbols)
    (hid : m'.function id = .ok f') :
    (∃ f, i.split.function id = .ok f ∧ i.placed.function id = .ok f') ∨
      f' = .declare Symbol.traceHook [.i32] .void ∨ ∃ name value, f' = .returning name value := by
  rw [hi.result_eq hsymbols] at hid
  obtain hid | rfl := Module.function_addFunction_cases hid
  swap
  · exact .inr (.inr ⟨_, _, rfl⟩)
  obtain hplaced | rfl := Module.function_addFunction_cases hid
  swap
  · exact .inr (.inr ⟨_, _, rfl⟩)
  obtain ⟨f, hdeclared, hturns⟩ := hi.placed.exists_function hplaced
  rw [(hi.declared_eq hsymbols).1, Module.function_eq_ok, Array.getElem?_append] at hdeclared
  split at hdeclared
  · exact .inl ⟨f, Module.function_eq_ok.mpr hdeclared, hplaced⟩
  · have hmem := Array.mem_of_getElem? hdeclared
    unfold Module.hookFunctions at hmem
    split at hmem
    · obtain rfl := Array.mem_singleton.mp hmem
      exact .inr (.inl (Edit.placeAll_declaration hturns))
    · simp at hmem

/-- The trace hook stays a declaration. -/
theorem Valid.traceHook (hi : i.Valid) (hsymbols : m.WithoutSymbols)
    (htraces : i.hooks.trace = some id) :
    m'.function id = .ok (.declare Symbol.traceHook [.i32] .void) := by
  rw [(hi.declared_eq hsymbols).2] at htraces
  dsimp only at htraces
  split at htraces
  swap
  · cases htraces
  next hconfig =>
  obtain rfl := Option.some.inj htraces
  have hdeclared : i.declared.function ⟨i.split.functions.size⟩ =
      .ok (.declare Symbol.traceHook [.i32] .void) := by
    rw [(hi.declared_eq hsymbols).1, Module.function_eq_ok]
    simp [Module.hookFunctions, hconfig]
  obtain ⟨f', hid', hturns⟩ := hi.placed.functions _ _ hdeclared
  rw [hi.function_eq hsymbols hid', Edit.placeAll_declaration hturns]

end Instrumentation

end Pass

end EdgeProbe
