import EdgeProbe.Pipeline
import EdgeProbe.Proofs.Lowering.Stepwise

/-!
# Passes as sequences of edits

A pass edits one function after another and declares what it needs. A relation between modules that
each edit respects, and that goes along from one to the next, is respected by the whole pass,
whatever it comes to.
-/

namespace EdgeProbe

variable {α β : Type}

/-- A relation between modules that holds across changes of functions, each related to what it has
been. -/
class Module.OfEdits (R : outParam (Function → Function → Prop)) (Q : Module → Module → Prop) :
    Prop where
  refl : ∀ m, Q m m
  trans : ∀ {m m₁ m' : Module}, Q m m₁ → Q m₁ m' → Q m m'
  setFunction : ∀ {m : Module} {id : FuncId} {f f' : Function}, m.function id = .ok f → R f f' →
    Q m (m.setFunction id f')

/-- A relation between modules that holds across such changes and across declarations. -/
class Module.OfSteps (R : outParam (Function → Function → Prop)) (Q : Module → Module → Prop) :
    Prop extends Module.OfEdits R Q where
  globals : ∀ (m : Module) (globals : Array Global), Q m { m with globals }
  declared : ∀ (m : Module) (name : String) (params : List Ty) (ret : Ty),
    Q m (m.addFunction (.declare name params ret)).1

namespace Module.OfSteps

variable {R : Function → Function → Prop} {Q : Module → Module → Prop} [hQ : OfSteps R Q]
  (m : Module)
include hQ

theorem getOrInsertGlobal (name : String) (threadLocal : Bool) :
    Q m (m.getOrInsertGlobal name threadLocal).1 := by
  unfold Module.getOrInsertGlobal
  split
  · exact OfEdits.refl m
  · exact globals m _

theorem getOrInsertFunction (name : String) (params : List Ty) (ret : Ty) :
    Q m (m.getOrInsertFunction name params ret).1 := by
  unfold Module.getOrInsertFunction
  split
  · exact OfEdits.refl m
  · exact declared m name params ret

end Module.OfSteps

/-! ## Probes -/

namespace Edit

variable {R : Function → Function → Prop} [Function.OfSteps R]

/-- Nothing follows on a refusal. -/
theorem respects_throw_bind (cause : Fatal) (k : α → Edit β) :
    ((throw cause : Edit α) >>= k).Respects R := by
  intro f r f' h
  obtain ⟨-, rfl⟩ := Prod.mk.inj (Except.ok.inj h)
  exact Function.OfRuns.refl f

theorem respects_place (b : BlockId) (pos : Nat) (kind : InstKind) : (place b pos kind).Respects R :=
  .bind (respects_insertInst b pos kind "" none) fun _ => respects_pure _

theorem respects_placeTrace (hooks : Hooks) (b : BlockId) (pos id : Nat) :
    (placeTrace hooks b pos id).Respects R := by
  unfold placeTrace
  split
  · exact respects_pure pos
  · exact .bind (respects_place b pos _) fun _ => respects_pure _

theorem respects_placeIndex (hooks : Hooks) (b : BlockId) (pos slot : Nat) :
    (placeIndex hooks b pos slot).Respects R := by
  unfold placeIndex
  split
  · exact respects_pure _
  · refine .bind (respects_place b _ _) fun last => .bind (respects_place b _ _) fun mixed => ?_
    exact .bind (respects_place b _ _) fun wide => respects_pure _

theorem respects_placeProbe (hooks : Hooks) (b : BlockId) (pos id slot : Nat) :
    (placeProbe hooks b pos id slot).Respects R := by
  refine .bind (respects_placeTrace hooks b pos id) fun pos => ?_
  refine .bind (respects_place b pos _) fun base => ?_
  refine .bind (respects_placeIndex hooks b _ slot) fun index => ?_
  refine .bind (respects_place b _ _) fun counter => .bind (respects_place b _ _) fun count => ?_
  refine .bind (respects_place b _ _) fun more => .bind (respects_place b _ _) fun _ => ?_
  split
  · exact respects_pure ()
  · exact .bind (respects_place b _ _) fun _ => respects_pure ()

theorem respects_probeEntry (hooks : Hooks) (id slot : Nat) :
    (probeEntry hooks id slot).Respects R := by
  refine .bind respects_get fun f => ?_
  split
  · exact respects_pure ()
  · exact .bind (respects_query _) fun pos => respects_placeProbe hooks _ pos id slot

theorem respects_probeTarget (hooks : Hooks) (target : BlockId) (id slot : Nat) :
    (probeTarget hooks target id slot).Respects R := by
  refine .bind (respects_query _) fun blk => ?_
  dsimp only
  split
  · exact .bind respects_get fun _ => respects_throw_bind _ _
  · refine .bind (respects_modifyBlock target (by exact fun _ => rfl)) fun _ => ?_
    exact .bind (respects_query _) fun pos => respects_placeProbe hooks target pos id slot

theorem respects_probeEdge (hooks : Hooks) (block : BlockId) (index : Nat) (target : BlockId)
    (id slot : Nat) : (probeEdge hooks block index target id slot).Respects R := by
  refine .bind (respects_addBlockBefore _ target) fun probe => ?_
  refine .bind (respects_setTerminator probe _) fun _ => ?_
  refine .bind (respects_modifyBlock block (by exact fun _ => rfl)) fun _ => ?_
  refine .bind (respects_query _) fun succs => ?_
  split
  · refine .bind (respects_update fun _ _ => Function.OfSteps.changePhis) fun _ => ?_
    exact respects_placeProbe hooks probe 0 id slot
  · refine .bind (respects_update fun _ _ => Function.OfSteps.changePhis) fun _ => ?_
    exact respects_placeProbe hooks probe 0 id slot

theorem respects_placePlanned (hooks : Hooks) (planned : PlannedProbe) :
    (placePlanned hooks planned).Respects R := by
  unfold placePlanned
  split
  · exact respects_probeEntry hooks planned.id planned.slot
  · refine .bind (respects_query _) fun succs => ?_
    split
    · exact respects_pure ()
    · refine .bind (respects_query _) fun pred => ?_
      split
      · exact respects_probeTarget hooks _ planned.id planned.slot
      · exact respects_probeEdge hooks _ _ _ planned.id planned.slot

theorem respects_copyPad (pad : BlockId) (name valueName : String) (loc : Option DebugLoc) (n : Nat)
    (pred : BlockId) : (copyPad pad name valueName loc n pred).Respects R := by
  refine .bind (respects_addBlockBefore _ pad) fun copy => ?_
  refine .bind (respects_pushInst copy _ _ loc) fun value => ?_
  refine .bind (respects_setTerminator copy _) fun _ => ?_
  refine .bind (respects_modifyBlock pred (by exact fun _ => rfl)) fun _ => ?_
  exact .bind (respects_update fun _ _ => Function.OfSteps.changePhis) fun _ =>
    respects_pure _

theorem respects_splitLandingPad (pad : BlockId) : (splitLandingPad pad).Respects R := by
  refine .bind (respects_query _) fun preds => .bind (respects_query _) fun unwound => ?_
  refine .bind (respects_query _) fun landing? => ?_
  split
  · refine .bind (respects_query _) fun blk => .bind (respects_query _) fun inst => ?_
    refine .bind (.mapM (fun entry => ?_) _) fun incoming => respects_replaceKind _ _
    exact respects_copyPad pad _ _ _ _ _
  · exact .bind respects_get fun _ => respects_throw _

theorem respects_splitSharedLandingPads : splitSharedLandingPads.Respects R := by
  refine .bind (respects_query _) fun shared => ?_
  exact .bind (.forM respects_splitLandingPad shared) fun _ => respects_pure _

end Edit

/-! ## Passes -/

namespace Pass

/-- Whatever the pass comes to, the module it leaves is related to the one it began with. -/
def Respects (Q : Module → Module → Prop) (x : Pass α) : Prop :=
  ∀ s r s', x s = .ok (r, s') → Q s.module s'.module

variable {R : Function → Function → Prop} {Q : Module → Module → Prop}

section

variable [hQ : Module.OfEdits R Q]
include hQ

theorem Respects.bind {x : Pass α} {k : α → Pass β} (hx : x.Respects Q)
    (hk : ∀ a, (k a).Respects Q) : (x >>= k).Respects Q := by
  intro s r s' h
  obtain ⟨⟨first, s₁⟩, hfirst, hrest⟩ := Checked.bind_eq_ok.mp h
  cases first with
  | ok a => exact Module.OfEdits.trans (hx s _ s₁ hfirst) (hk a s₁ r s' hrest)
  | error cause =>
    obtain ⟨-, rfl⟩ := Prod.mk.inj (Checked.pure_eq_ok.mp hrest)
    exact hx s _ s₁ hfirst

theorem respects_pure (a : α) : (pure a : Pass α).Respects Q := by
  intro s r s' h
  obtain ⟨-, rfl⟩ := Prod.mk.inj (Checked.pure_eq_ok.mp h)
  exact Module.OfEdits.refl s.module

theorem respects_throw (cause : Fatal) : (throw cause : Pass α).Respects Q := by
  intro s r s' h
  obtain ⟨-, rfl⟩ := Prod.mk.inj (Except.ok.inj h)
  exact Module.OfEdits.refl s.module

/-- Nothing follows on a refusal. -/
theorem respects_throw_bind (cause : Fatal) (k : α → Pass β) :
    ((throw cause : Pass α) >>= k).Respects Q := by
  intro s r s' h
  obtain ⟨-, rfl⟩ := Prod.mk.inj (Except.ok.inj h)
  exact Module.OfEdits.refl s.module

/-- Two ways go on with the same. -/
theorem Respects.join {c : Prop} [Decidable c] {x y : Pass α} {k : α → Pass β} (hx : x.Respects Q)
    (hy : y.Respects Q) (hk : ∀ a, (k a).Respects Q) :
    (if c then x >>= k else y >>= k).Respects Q := by
  split
  · exact hx.bind hk
  · exact hy.bind hk

/-- A step that may be left out. -/
theorem Respects.optional {c : Prop} [Decidable c] {x : Pass Unit} {k : Unit → Pass β}
    (hx : x.Respects Q) (hk : ∀ a, (k a).Respects Q) :
    (if c then x >>= k else k ()).Respects Q := by
  split
  · exact hx.bind hk
  · exact hk ()

theorem respects_get : (get : Pass PassState).Respects Q := by
  intro s r s' h
  obtain ⟨-, rfl⟩ := Prod.mk.inj (Except.ok.inj h)
  exact Module.OfEdits.refl s.module

theorem respects_lift (x : Checked α) : (liftM x : Pass α).Respects Q := by
  intro s r s' h
  cases x with
  | ok a =>
    obtain ⟨-, rfl⟩ := Prod.mk.inj (Except.ok.inj h)
    exact Module.OfEdits.refl s.module
  | error fault => cases h

theorem respects_query (question : Module → Checked α) : (query question).Respects Q :=
  .bind respects_get fun _ => respects_lift _

theorem respects_report (record : Log.Record) : (report record).Respects Q := by
  intro s r s' h
  obtain ⟨-, rfl⟩ := Prod.mk.inj (Except.ok.inj h)
  exact Module.OfEdits.refl s.module

omit hQ in
theorem respects_update {change : Module → Module × α}
    (h : ∀ m : Module, Q m (change m).1) : (update change).Respects Q := by
  intro s r s' hrun
  obtain ⟨-, rfl⟩ := Prod.mk.inj (Except.ok.inj hrun)
  exact h s.module

theorem respects_inFunction (id : FuncId) {edit : Edit α} (hedit : edit.Respects R) :
    (inFunction id edit).Respects Q := by
  intro s r s' h
  obtain ⟨f, hf, h⟩ := Checked.bind_eq_ok.mp h
  obtain ⟨⟨result, f'⟩, hf', h⟩ := Checked.bind_eq_ok.mp h
  obtain ⟨-, rfl⟩ := Prod.mk.inj (Checked.pure_eq_ok.mp h)
  exact Module.OfEdits.setFunction hf (hedit f result f' hf')

theorem Respects.forM {g : α → Pass Unit} (hg : ∀ a, (g a).Respects Q) (l : List α) :
    (l.forM g).Respects Q := by
  induction l with
  | nil => exact respects_pure ()
  | cons a rest ih => exact .bind (hg a) fun _ => ih

theorem Respects.foldlM_mem {g : β → α → Pass β} {l : List α}
    (hg : ∀ b, ∀ a ∈ l, (g b a).Respects Q) (b : β) : (l.foldlM g b).Respects Q := by
  induction l generalizing b with
  | nil => exact respects_pure b
  | cons a rest ih =>
    rw [List.foldlM_cons]
    exact .bind (hg b a List.mem_cons_self) (ih fun b a ha => hg b a (List.mem_cons_of_mem _ ha))

theorem Respects.foldlM {g : β → α → Pass β} (hg : ∀ b a, (g b a).Respects Q) (l : List α)
    (b : β) : (l.foldlM g b).Respects Q :=
  .foldlM_mem (fun b a _ => hg b a) b

theorem respects_functionIds : functionIds.Respects Q :=
  .bind respects_get fun _ => respects_pure _

/-! ### What changes no code -/

theorem respects_checkWidths (id : FuncId) : (checkWidths id).Respects Q := by
  refine .bind (respects_query _) fun f => .bind (respects_query _) fun width => ?_
  cases width with
  | none => exact respects_pure ()
  | some width => exact respects_throw _

theorem respects_reportRecorded (count : Nat) (pairs : List (String × String)) :
    (reportRecorded count pairs).Respects Q := by
  unfold reportRecorded
  split <;> exact respects_report _

theorem respects_wantsUnrolling (config : Config) (function : FuncId) (site : StringSite) :
    (wantsUnrolling config function site).Respects Q := by
  unfold wantsUnrolling
  split
  · exact respects_pure false
  · exact respects_pure true
  · split
    · exact respects_pure false
    · exact .bind (respects_query _) fun _ => respects_pure _

theorem respects_sitesOf (found : List Inspection) : (sitesOf found).Respects Q := by
  induction found with
  | nil => exact respects_pure []
  | cons inspection rest ih =>
    cases inspection with
    | nothing => exact ih
    | remark record => exact .bind (respects_report record) fun _ => ih
    | site site => exact .bind ih fun _ => respects_pure _

theorem respects_reportCount (count : Nat) (what : String) : (reportCount count what).Respects Q := by
  unfold reportCount
  split <;> exact respects_report _

theorem respects_selectSites (config : Config) (pointedTo : Option (List String)) :
    (selectSites config pointedTo).Respects Q := by
  refine .bind (respects_query _) fun sites => ?_
  cases sites with
  | ok sites => exact respects_pure sites
  | error cause => exact respects_throw cause

theorem respects_reportProbes (config : Config) (probes areaSize : Nat) :
    (reportProbes config probes areaSize).Respects Q := by
  unfold reportProbes
  split <;> exact respects_report _

theorem respects_reportCompares (stats : CompareStats) : (reportCompares stats).Respects Q := by
  have hrecorded : (reportRecorded stats.recorded).Respects Q := respects_reportRecorded _ _
  unfold reportCompares
  split
  · exact .bind (respects_report _) fun _ => hrecorded
  · exact .bind (respects_report _) fun _ => hrecorded

theorem respects_recordCompared (config : Config) [Function.OfLiterals config.limits R]
    (function : FuncId) (id : InstId) (lhs rhs : Value) :
    (recordCompared config function id lhs rhs).Respects Q := by
  unfold recordCompared
  split
  · exact respects_pure false
  · refine .bind (respects_query _) fun provenance => ?_
    dsimp only
    split
    · next token htoken =>
      have hattach := Edit.respects_attach_of_literal (R := R)
        (Token.ofLiteral_of_ofBytes? htoken) id
      exact .bind (respects_inFunction function hattach) fun _ => respects_pure true
    · exact .bind (respects_report _) fun _ => respects_pure true

theorem respects_recordKeyword [Function.OfRuns R] (config : Config)
    [Function.OfLiterals config.limits R] (function : FuncId) (call : InstId)
    (keyword : List UInt8) : (recordKeyword config function call keyword).Respects Q := by
  refine .bind (respects_query _) fun provenance => ?_
  split
  · next token htoken =>
    have hattach := Edit.respects_attach_of_literal (R := R) (Token.ofLiteral_of_ofBytes? htoken)
    exact respects_inFunction function (Edit.respects_attachToResultUsers hattach call)
  · exact .bind (respects_report _) fun _ => respects_pure 0

/-! ### Lowering -/

variable [Function.OfSteps R]

theorem respects_lowerSelects : lowerSelects.Respects Q := by
  refine .bind respects_functionIds fun ids => ?_
  refine .bind (.foldlM (fun count id => ?_) ids 0) fun count => ?_
  · exact respects_inFunction id (Edit.respects_lowerSelects count)
  dsimp only
  split
  · exact .bind (respects_report _) fun _ => respects_pure count
  · exact .bind (respects_report _) fun _ => respects_pure count

theorem respects_normalizeCompares (stats : CompareStats) (id : FuncId) :
    (normalizeCompares stats id).Respects Q := by
  refine .bind (respects_inFunction id Edit.respects_simplifyAll) fun simplified => ?_
  exact .bind (respects_inFunction id Edit.respects_normalizeSigns) fun _ => respects_pure _

section

variable (config : Config) [Function.OfLiterals config.limits R]

theorem respects_halveCompare [Function.OfMarks R] [Function.OfMoves R] (function : FuncId)
    (width : Nat) (id : InstId) : (halveCompare config function width id).Respects Q := by
  refine .bind (respects_query _) fun inst => ?_
  split
  · exact respects_pure _
  · refine .join (respects_recordCompared config function id _ _) (respects_pure false)
      fun recorded => ?_
    dsimp only
    split
    · exact respects_pure _
    · split
      · exact respects_pure _
      · refine .bind (respects_query _) fun f => .bind (respects_report _) fun _ => ?_
        exact .bind (respects_inFunction function (Edit.respects_halve width id _ _ _)) fun _ =>
          respects_pure _

theorem respects_halveCompares [Function.OfMarks R] [Function.OfMoves R] (width : Nat)
    (stats : CompareStats) (function : FuncId) :
    (halveCompares config width stats function).Respects Q := by
  refine .bind (respects_query _) fun sites => .foldlM (fun stats site => ?_) _ stats
  exact .bind (respects_halveCompare config function width site.1) fun _ => respects_pure _

theorem respects_splitCompares [Function.OfMarks R] [Function.OfMoves R] :
    (splitCompares config).Respects Q := by
  refine .bind respects_functionIds fun ids => .bind (.forM respects_checkWidths ids) fun _ => ?_
  refine .join (respects_pure _) (.foldlM respects_normalizeCompares ids _) fun stats => ?_
  refine .bind (.foldlM (fun stats width => ?_) _ stats) fun stats => ?_
  · exact .foldlM (respects_halveCompares config width) ids stats
  · exact .bind (respects_reportCompares stats) fun _ => respects_pure stats

section

variable (hunroll : ∀ site, (Edit.unroll site config.limits).Respects R)
include hunroll

theorem respects_splitString (function : FuncId) (stats : StringStats) (site : StringSite) :
    (splitString config function stats site).Respects Q := by
  have hrest : ∀ stats : StringStats, (do
      if ← wantsUnrolling config function site then
        inFunction function (Edit.unroll site config.limits)
        return stats.count site
      else return stats : Pass StringStats).Respects Q := by
    intro stats
    refine .bind (respects_wantsUnrolling config function site) fun wants => ?_
    split
    · exact .bind (respects_inFunction function (hunroll site)) fun _ => respects_pure _
    · exact respects_pure _
  unfold splitString
  split
  · exact .bind (respects_recordKeyword config function site.call _) fun recorded => hrest _
  · exact .bind (respects_pure 0) fun recorded => hrest _

theorem respects_splitStringsIn (stats : StringStats) (function : FuncId) :
    (splitStringsIn config stats function).Respects Q := by
  refine .bind (respects_query _) fun found => .bind (respects_sitesOf found) fun sites => ?_
  exact .foldlM (respects_splitString config hunroll function) sites stats

theorem respects_splitStrings : (splitStrings config).Respects Q := by
  refine .bind respects_functionIds fun ids => ?_
  refine .bind (.foldlM (respects_splitStringsIn config hunroll) ids _) fun stats => ?_
  refine .bind (respects_reportCount _ _) fun _ => .bind (respects_reportCount _ _) fun _ => ?_
  refine .bind (respects_reportCount _ _) fun _ => .optional (respects_report _) fun _ => ?_
  exact .bind (respects_reportRecorded _ _) fun _ => respects_pure stats

end

end

/-! ### Instrumentation -/

theorem respects_splitPads (id : FuncId) : (splitPads id).Respects Q := by
  refine .bind (respects_query _) fun f => ?_
  split
  · exact respects_pure ()
  · refine .bind (respects_inFunction id Edit.respects_splitSharedLandingPads) fun count => ?_
    split
    · exact respects_report _
    · exact respects_pure ()

end

variable [hQ : Module.OfSteps R Q]
include hQ

theorem respects_declare (config : Config) : (Hooks.declare config).Respects Q := by
  refine .bind (respects_update fun m => Module.OfSteps.getOrInsertGlobal m _ _) fun area => ?_
  refine .bind ?_ fun previous => .bind ?_ fun trace => respects_pure _
  · unfold Hooks.declarePrevious
    split
    · exact respects_pure none
    · exact .bind (respects_update fun m => Module.OfSteps.getOrInsertGlobal m _ _) fun _ =>
        respects_pure _
  · unfold Hooks.declareTrace
    split
    · exact respects_pure none
    · exact .bind (respects_update fun m => Module.OfSteps.getOrInsertFunction m _ _ _) fun _ =>
        respects_pure _

variable [Function.OfSteps R]

theorem respects_placeProbes (config : Config)
    (hdefine : ∀ name ∈ [Symbol.areaSize, Symbol.blockCount],
      ∀ value, (defineAccessor name value).Respects Q)
    (plan : List PlannedProbe) (areaSize blockCount : Nat) {rest : Pass α} (hrest : rest.Respects Q) :
    (do
      let hooks ← Hooks.declare config
      plan.forM fun planned => inFunction planned.site.function (Edit.placePlanned hooks planned)
      defineAccessor Symbol.areaSize areaSize
      defineAccessor Symbol.blockCount blockCount
      rest).Respects Q := by
  refine .bind (respects_declare config) fun hooks => .bind (.forM (fun planned => ?_) _) fun _ => ?_
  · exact respects_inFunction _ (Edit.respects_placePlanned hooks planned)
  · refine .bind (hdefine _ (by simp) _) fun _ => ?_
    exact .bind (hdefine _ (by simp) _) fun _ => hrest

theorem respects_instrumentEdges (config : Config) (drawn : UInt64)
    (hdefine : ∀ name ∈ [Symbol.areaSize, Symbol.blockCount],
      ∀ value, (defineAccessor name value).Respects Q) :
    (instrumentEdges config drawn).Respects Q := by
  unfold instrumentEdges
  cases config.mapSize with
  | error cause => exact respects_throw_bind _ _
  | ok mapSize =>
    refine .bind (respects_pure mapSize) fun mapSize => ?_
    refine .bind respects_functionIds fun ids => .bind (.forM respects_splitPads ids) fun _ => ?_
    refine .bind (respects_query _) fun pointedTo => ?_
    refine .optional (respects_report _) fun _ => ?_
    refine .bind (respects_selectSites config _) fun sites => .bind (respects_report _) fun _ => ?_
    refine .bind (respects_query _) fun dictionary => ?_
    have hdone : ∀ (probes areaSize : Nat) (report : InstrumentReport),
        (do reportProbes config probes areaSize; return report).Respects Q :=
      fun _ _ report => .bind (respects_reportProbes config _ _) fun _ => respects_pure report
    dsimp only
    split
    · refine .bind (respects_query _) fun lines => .bind (respects_pure _) fun sourceMap => ?_
      exact respects_placeProbes config hdefine _ _ _ (hdone _ _ _)
    · refine .bind (respects_pure _) fun sourceMap => ?_
      exact respects_placeProbes config hdefine _ _ _ (hdone _ _ _)

end Pass

end EdgeProbe
