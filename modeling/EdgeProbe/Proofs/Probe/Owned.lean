import EdgeProbe.Proofs.Probe.Stepwise
import EdgeProbe.Proofs.Probe.Symbols

/-!
# Passes and who owns an instruction

All passes that change code leave every function well-owned and drop no live instruction, whatever
they come to. Instrumentation redefines two functions, which a module has no use for that keeps
clear of the names of probes. Main statement: `Module.ownership_kept`.
-/

namespace EdgeProbe

namespace Module

variable {m m₁ m' : Module} {own : String → Prop}

def WellOwned (m : Module) : Prop :=
  ∀ f ∈ m.functions, f.WellOwned

/-- The later module is well-owned if the earlier one is, and its functions list all that was live
in them, apart from functions with certain names. -/
structure RetainsBut (own : String → Prop) (m m' : Module) : Prop where
  owned : m.WellOwned → m'.WellOwned
  functions : ∀ id f, m.function id = .ok f → ¬own f.name → ∃ f', m'.function id = .ok f' ∧
    f'.name = f.name ∧ ∀ inst, f.Live inst → f'.Live inst

/-- The later module is well-owned if the earlier one is, and drops no live instruction. -/
def Retains (m m' : Module) : Prop :=
  m.RetainsBut (fun _ => False) m'

theorem RetainsBut.refl (m : Module) : m.RetainsBut own m :=
  ⟨id, fun _ f hf _ => ⟨f, hf, rfl, fun _ => id⟩⟩

theorem RetainsBut.trans (h : m.RetainsBut own m₁) (h' : m₁.RetainsBut own m') :
    m.RetainsBut own m' := by
  refine ⟨h'.owned ∘ h.owned, fun id f hf hname => ?_⟩
  obtain ⟨f₁, hf₁, hname₁, hlive₁⟩ := h.functions id f hf hname
  obtain ⟨f', hf', hname', hlive'⟩ := h'.functions id f₁ hf₁ (hname₁ ▸ hname)
  exact ⟨f', hf', hname'.trans hname₁, fun inst hinst => hlive' inst (hlive₁ inst hinst)⟩

theorem RetainsBut.of_names (h : m.RetainsBut own m') (hnames : ∀ f ∈ m.functions, ¬own f.name) :
    m.Retains m' :=
  ⟨h.owned, fun id f hf _ =>
    h.functions id f hf (hnames f (Array.mem_of_getElem? (function_eq_ok.mp hf)))⟩

theorem retainsBut_setFunction {id : FuncId} {f f' : Function} (hid : m.function id = .ok f)
    (hf : f.Retains f') : m.RetainsBut own (m.setFunction id f') := by
  have hmem : f ∈ m.functions := Array.mem_of_getElem? (function_eq_ok.mp hid)
  refine ⟨fun hm g hg => ?_, fun i g hg _ => ?_⟩
  · obtain hg | rfl := Array.mem_or_eq_of_mem_setIfInBounds hg
    · exact hm g hg
    · exact hf.owned (hm f hmem)
  · rw [function_setFunction (index_lt_of_function hid)]
    split
    · next heq =>
      subst heq
      obtain rfl := Except.ok.inj (hid.symm.trans hg)
      exact ⟨f', rfl, hf.name, hf.live⟩
    · exact ⟨g, hg, rfl, fun _ h => h⟩

theorem retainsBut_addFunction {f : Function} (hf : f.WellOwned) :
    m.RetainsBut own (m.addFunction f).1 := by
  refine ⟨fun hm g hg => ?_, fun id g hg _ => ⟨g, ?_, rfl, fun _ h => h⟩⟩
  · obtain hg | rfl := Array.mem_push.mp hg
    · exact hm g hg
    · exact hf
  · rw [function_eq_ok, addFunction, Array.getElem?_push, if_neg (index_lt_of_function hg).ne]
    exact function_eq_ok.mp hg

/-- A function that may be redefined is. -/
theorem retainsBut_redefine {id : FuncId} {f : Function} (hf : f.WellOwned)
    (hid : ∀ g, m.function id = .ok g → own g.name) : m.RetainsBut own (m.setFunction id f) := by
  refine ⟨fun hm g hg => ?_, fun i g hg hname => ⟨g, ?_, rfl, fun _ h => h⟩⟩
  · obtain hg | rfl := Array.mem_or_eq_of_mem_setIfInBounds hg
    · exact hm g hg
    · exact hf
  · have hne : i ≠ id := by
      rintro rfl
      exact hname (hid g hg)
    by_cases hlt : id.index < m.functions.size
    · rw [function_setFunction hlt, if_neg hne, hg]
    · rw [setFunction, Array.setIfInBounds_eq_of_size_le (Nat.le_of_not_lt hlt)]
      exact hg

theorem retainsBut_globals (globals : Array Global) : m.RetainsBut own { m with globals } :=
  ⟨id, fun _ f hf _ => ⟨f, hf, rfl, fun _ => id⟩⟩

/-- A finished function takes the place of a declaration, if there is one. -/
theorem wellOwned_finishIn {b : FunctionBuilder} (hm : m.WellOwned)
    (hb : b.function.WellOwned) : (b.finishIn m).1.WellOwned := by
  have hadd : m.Retains (m.addFunction b.function).1 := retainsBut_addFunction hb
  have hadd := hadd.owned hm
  unfold FunctionBuilder.finishIn
  split
  · exact hadd
  · split
    · split
      · intro g hg
        obtain hg | rfl := Array.mem_or_eq_of_mem_setIfInBounds hg
        · exact hm g hg
        · exact hb
      · exact hadd
    · exact hadd

end Module

instance (own : String → Prop) : Module.OfSteps Function.Retains (Module.RetainsBut own) where
  refl := .refl
  trans := .trans
  setFunction := Module.retainsBut_setFunction
  globals m globals := m.retainsBut_globals globals
  declared _ _ _ _ :=
    Module.retainsBut_addFunction (Function.wellOwned_of_nil fun _ _ h => by cases h)

instance : Module.OfSteps Function.Retains Module.Retains :=
  inferInstanceAs (Module.OfSteps Function.Retains (Module.RetainsBut fun _ => False))

namespace Function

theorem wellOwned_returning (name : String) (value : Nat) : (returning name value).WellOwned := by
  refine wellOwned_of_nil fun b blk h => ?_
  obtain ⟨hlt, rfl⟩ := Array.getElem?_eq_some_iff.mp (block_eq_ok.mp h)
  obtain hzero : b.index = 0 := by simpa [returning] using hlt
  simp [returning, hzero]

end Function

/-- Redefining a function is all right where its name is not one of the module's own. -/
theorem Pass.retains_defineAccessor {own : String → Prop} {name : String} (hname : own name)
    (value : Nat) : (Pass.defineAccessor name value).Respects (Module.RetainsBut own) := by
  refine Pass.respects_update fun m => ?_
  have hreturning := Function.wellOwned_returning name value
  dsimp only
  split
  · next id hid =>
    obtain ⟨index, hindex, rfl⟩ := Option.map_eq_some_iff.mp hid
    refine Module.retainsBut_redefine hreturning fun g hg => ?_
    obtain ⟨hlt, hfound, -⟩ := Array.findIdx?_eq_some_iff_getElem.mp hindex
    have hget := Module.function_eq_ok.mp hg
    rw [Array.getElem?_eq_getElem hlt] at hget
    rw [Option.some.inj hget] at hfound
    exact (eq_of_beq hfound) ▸ hname
  · exact Module.retainsBut_addFunction hreturning

/-- Building makes well-owned functions, each step of editing within the arenas comes to one and
drops no live instruction, and neither does a pass, whatever it comes to. -/
theorem Module.ownership_kept :
    (∀ (steps : List BuildStep) (name : String) (params : List Ty) (ret : Ty) (conv : CallConv)
        (b : FunctionBuilder), steps.forM BuildStep.run (.start name params ret conv) = .ok ((), b) →
      b.function.WellOwned ∧ ∀ m : Module, m.WellOwned → (b.finishIn m).1.WellOwned) ∧
    (∀ (f : Function) (step : EditStep), f.WellOwned → step.InRange f →
      ∃ f', step.apply f = .ok f' ∧ f.Retains f') ∧
    (∀ (f f' : Function) (r : Except Fatal Nat),
      Edit.splitSharedLandingPads f = .ok (r, f') → f.Retains f') ∧
    (∀ (m : Module) (r : Except Fatal Nat) (s : PassState),
      Pass.lowerSelects.runOn m = .ok (r, s) → m.Retains s.module) ∧
    (∀ (m : Module) (config : Config) (r : Except Fatal CompareStats) (s : PassState),
      (Pass.splitCompares config).runOn m = .ok (r, s) → m.Retains s.module) ∧
    (∀ (m : Module) (config : Config) (r : Except Fatal StringStats) (s : PassState),
      (Pass.splitStrings config).runOn m = .ok (r, s) → m.Retains s.module) ∧
    (∀ (m : Module) (config : Config) (drawn : UInt64) (r : Except Fatal InstrumentReport)
        (s : PassState), m.WithoutSymbols →
      (Pass.instrumentEdges config drawn).runOn m = .ok (r, s) → m.Retains s.module) := by
  refine ⟨?built, ?edited, ?pads, ?selects, ?compares, ?strings, ?edges⟩
  case built =>
    intro steps name params ret conv b h
    have hb := BuildStep.wellOwned_of_run h
    exact ⟨hb, fun m hm => wellOwned_finishIn hm hb⟩
  case edited => exact fun f step hf hstep => EditStep.exists_retains hf hstep
  case pads => exact fun f f' r h => Edit.respects_splitSharedLandingPads f r f' h
  case selects => exact fun m r s h => Pass.respects_lowerSelects { module := m } r s h
  case compares =>
    exact fun m config r s h => Pass.respects_splitCompares config { module := m } r s h
  case strings =>
    exact fun m config r s h => Pass.respects_splitStrings config
      (fun site => Edit.respects_unroll site config.limits) { module := m } r s h
  case edges =>
    intro m config drawn r s hm h
    set own : String → Prop := fun name => Text.startsWith name Symbol.start = true with hown
    have hpass : (Pass.instrumentEdges config drawn).Respects (Module.RetainsBut own) := by
      refine Pass.respects_instrumentEdges config drawn fun name hname => ?_
      refine Pass.retains_defineAccessor ?_
      simp only [List.mem_cons, List.not_mem_nil, or_false] at hname
      obtain rfl | rfl := hname <;> decide
    have hretains := hpass { module := m } r s h
    exact hretains.of_names fun f hf hstart => absurd (hm.functions f hf) (by rw [hstart]; decide)

/-! ### A function that is built -/

/-- Makes a number other than five of every number. -/
def avoidingSteps : List BuildStep :=
  [.createBlock "entry", .switchTo ⟨0⟩,
    .push (.icmp .eq (.arg 0) (.ofWord 32 5)) "same",
    .push (.select (.inst ⟨0⟩) (.ofWord 32 0) (.arg 0)) "chosen",
    .terminate (.ret (some (.inst ⟨1⟩)))]

def Function.avoiding : Function :=
  { name := "choose"
    params := [.i32]
    ret := .i32
    blocks := #[⟨"entry", [⟨0⟩, ⟨1⟩], .ret (some (.inst ⟨1⟩))⟩]
    layout := [⟨0⟩]
    insts := #[
      { kind := .icmp .eq (.arg 0) (.ofWord 32 5), name := "same", block := some ⟨0⟩ },
      { kind := .select (.inst ⟨0⟩) (.ofWord 32 0) (.arg 0), name := "chosen", block := some ⟨0⟩ }] }

def Module.avoiding : Module :=
  { name := "avoiding", functions := #[.avoiding] }

theorem avoiding_ownership_kept :
    Function.avoiding.WellOwned ∧
    (FunctionBuilder.finishIn ⟨.avoiding, some ⟨0⟩, none⟩ { name := "avoiding" }).1.WellOwned ∧
    (∃ f', EditStep.apply .avoiding (.splitBlock ⟨0⟩ 1 "rest") = .ok f' ∧
      Function.avoiding.Retains f') ∧
    (∃ r f', Edit.splitSharedLandingPads .avoiding = .ok (r, f') ∧ Function.avoiding.Retains f') ∧
    (∃ r s, Pass.lowerSelects.runOn .avoiding = .ok (r, s) ∧ Module.avoiding.Retains s.module) ∧
    (∃ r s, (Pass.splitCompares (.coverage .all)).runOn .avoiding = .ok (r, s) ∧
      Module.avoiding.Retains s.module) ∧
    (∃ r s, (Pass.splitStrings (.coverage .all)).runOn .avoiding = .ok (r, s) ∧
      Module.avoiding.Retains s.module) ∧
    ∃ r s, (Pass.instrumentEdges (.coverage .all) 0).runOn .avoiding = .ok (r, s) ∧
      Module.avoiding.Retains s.module := by
  obtain ⟨hbuilt, hedited, hpads, hselects, hcompares, hstrings, hedges⟩ := Module.ownership_kept
  have hrun : avoidingSteps.forM BuildStep.run (.start "choose" [.i32] .i32 .c) =
      .ok ((), ⟨.avoiding, some ⟨0⟩, none⟩) := by decide +kernel
  obtain ⟨howned, hfinished⟩ := hbuilt _ _ _ _ _ _ hrun
  have hempty : Module.WellOwned { name := "avoiding" } := fun f hf => by simp at hf
  have hrange : (EditStep.splitBlock ⟨0⟩ 1 "rest").InRange .avoiding := by
    refine ⟨by decide, fun blk hblk s hs => ?_⟩
    obtain rfl := Except.ok.inj hblk
    cases hs
  have hunshared : Edit.splitSharedLandingPads .avoiding = .ok (.ok 0, .avoiding) := by
    decide +kernel
  have hclear : Module.avoiding.WithoutSymbols := ⟨by decide, by decide⟩
  obtain ⟨_, s₁, hs₁⟩ := Pass.exists_of_completes
    (show Pass.completes (Pass.lowerSelects.runOn .avoiding) = true by decide +kernel)
  obtain ⟨_, s₂, hs₂⟩ := Pass.exists_of_completes
    (show Pass.completes ((Pass.splitCompares (.coverage .all)).runOn .avoiding) = true by
      decide +kernel)
  obtain ⟨_, s₃, hs₃⟩ := Pass.exists_of_completes
    (show Pass.completes ((Pass.splitStrings (.coverage .all)).runOn .avoiding) = true by
      decide +kernel)
  obtain ⟨_, s₄, hs₄⟩ := Pass.exists_of_completes
    (show Pass.completes ((Pass.instrumentEdges (.coverage .all) 0).runOn .avoiding) = true by
      decide +kernel)
  exact ⟨howned, hfinished _ hempty, hedited _ _ howned hrange,
    ⟨_, _, hunshared, hpads _ _ _ hunshared⟩, ⟨_, s₁, hs₁, hselects _ _ _ hs₁⟩,
    ⟨_, s₂, hs₂, hcompares _ _ _ _ hs₂⟩, ⟨_, s₃, hs₃, hstrings _ _ _ _ hs₃⟩,
    ⟨_, s₄, hs₄, hedges _ _ _ _ _ hclear hs₄⟩⟩

end EdgeProbe
