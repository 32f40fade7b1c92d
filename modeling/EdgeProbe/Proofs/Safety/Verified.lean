import EdgeProbe.Proofs.Safety.Queries
import EdgeProbe.Proofs.Validity.Local

/-!
# Checks come to a verdict

The checks of a function whose chains of types end find a flaw or none. Every index they follow has
been looked at before: the checks of names come first, and the search for dominators begins when all
edges are known to lead to live blocks. Main statements: `Function.verifyFunction_settles` for a
function, and `Module.verify_verdict` for a module, whatever is in it.
-/

namespace EdgeProbe

open Checked

namespace Function

/-- What holds of a function whose names have been checked, if the chains of its types end. -/
structure Checkable (m : Module) (f : Function) : Prop where
  layout : ∀ b ∈ f.layout, b.index < f.blocks.size
  named : f.Named m
  types : ∀ id, id.index < f.insts.size → f.Ends InstKind.typeOperand? (.inst id)

namespace Checkable

variable {m : Module} {f : Function} (hf : f.Checkable m) {b : BlockId}
include hf

theorem exists_block (hb : b ∈ f.layout) : ∃ blk, f.block b = .ok blk :=
  Function.exists_block (hf.layout b hb)

theorem exists_kind {blk : Block} (hblk : f.block b = .ok blk) {id : InstId}
    (hid : id ∈ blk.insts) : ∃ kind, f.kind id = .ok kind :=
  hf.named.exists_kind hblk id hid

/-! ## Shapes -/

theorem checkSuccessors_settles (hb : b ∈ f.layout) :
    Settles (f.checkSuccessors b) fun _ => True := by
  obtain ⟨blk, hblk⟩ := hf.exists_block hb
  refine .after hblk ?_
  dsimp only
  split
  · exact settles_throw _
  split
  · next callee args normal unwind hterm =>
    have hunwind : unwind.index < f.blocks.size :=
      hf.named.successors b _ hblk unwind (by simp [hterm, Terminator.successors])
    obtain ⟨pad, hpad⟩ := hf.named.whole.exists_isLandingPad hunwind
    refine .after hpad ?_
    split
    · exact settles_throw _
    · exact settles_pure trivial
  · exact settles_pure trivial

omit hf in
theorem allUnwindTo_yields (pad : BlockId) {preds : List BlockId}
    (hpreds : ∀ b ∈ preds, b.index < f.blocks.size) :
    Yields (f.allUnwindTo pad preds) fun _ => True := by
  induction preds with
  | nil => exact yields_pure trivial
  | cons pred rest ih =>
    obtain ⟨hpred, hrest⟩ := List.forall_mem_cons.mp hpreds
    obtain ⟨blk, hblk⟩ := Function.exists_block hpred
    have hunwinds : Yields (f.unwindsOnlyTo pad pred) fun _ => True := by
      refine .after hblk ?_
      split
      · exact yields_pure trivial
      · exact yields_pure trivial
    refine hunwinds.bind fun unwinds _ => ?_
    split
    · exact ih hrest
    · exact yields_pure trivial

/-- Asking for a type settles. -/
theorem valueType_settles {value : Value} (hvalue : m.knowsValue f value = true) :
    Settles (liftM (f.valueType value) : Check Ty) fun _ => True := by
  have hends : f.Ends InstKind.typeOperand? value := by
    cases value with
    | inst id => exact hf.types id (of_decide_eq_true hvalue)
    | _ => exact ⟨0, .other rfl⟩
  obtain ⟨ty, hty⟩ := exists_valueType hends
  exact settles_lift ⟨ty, hty, trivial⟩

theorem checkInstShape_settles {id : InstId} {kind : InstKind} (hkind : f.kind id = .ok kind)
    (name : String) (phiCount pos : Nat) {preds : List BlockId}
    (hpreds : ∀ b ∈ preds, b.index < f.blocks.size) (distinct : List BlockId) :
    Settles (m.checkInstShape f b name phiCount preds distinct pos id) fun _ => True := by
  refine .after hkind ?_
  have hoperand : ∀ value ∈ kind.operands, m.knowsValue f value = true := fun value hvalue =>
    knowsValue_of_knowsKind (hf.named.kinds id kind hkind) hvalue
  split
  · dsimp only
    split
    · exact settles_throw _
    split
    · exact settles_throw _
    · exact settles_pure trivial
  · dsimp only
    split
    · exact settles_throw _
    refine .bind (settles_lift (allUnwindTo_yields b hpreds)) fun unwound _ _ => ?_
    split
    · exact settles_throw _
    · exact settles_pure trivial
  · refine .bind (hf.valueType_settles (hoperand _ (by simp [InstKind.operands])))
      fun l _ _ => ?_
    refine .bind (hf.valueType_settles (hoperand _ (by simp [InstKind.operands])))
      fun r _ _ => ?_
    split
    · exact settles_throw _
    · exact settles_pure trivial
  · refine .bind (hf.valueType_settles (hoperand _ (by simp [InstKind.operands])))
      fun l _ _ => ?_
    refine .bind (hf.valueType_settles (hoperand _ (by simp [InstKind.operands])))
      fun r _ _ => ?_
    split
    · exact settles_throw _
    · exact settles_pure trivial
  · next target args ret =>
    have hknown := hf.named.kinds id _ hkind
    simp only [Module.knowsKind, Module.knowsCallee, Bool.and_eq_true, decide_eq_true_eq] at hknown
    have hg : m.function target = .ok m.functions[target.index] := by
      simp [Module.function, hknown.2]
    refine .after hg ?_
    split
    · exact settles_throw _
    · exact settles_pure trivial
  · exact settles_pure trivial

theorem checkBlockShape_settles (hb : b ∈ f.layout) {preds : List BlockId}
    (hpreds : ∀ b ∈ preds, b.index < f.blocks.size) :
    Settles (m.checkBlockShape f b preds) fun _ => True := by
  obtain ⟨blk, hblk⟩ := hf.exists_block hb
  obtain ⟨phis, hphis, -⟩ := hf.named.whole.exists_phis (hf.layout b hb)
  refine .after hblk ?_
  refine .after hphis ?_
  refine .bind (Settles.forM ?_) fun _ _ _ => ?_
  · rintro ⟨id, pos⟩ hmem
    have hid := List.mem_of_getElem? (List.mk_mem_zipIdx_iff_getElem?.mp hmem)
    obtain ⟨kind, hkind⟩ := hf.exists_kind hblk hid
    exact hf.checkInstShape_settles hkind _ _ _ hpreds _
  · split
    · next cond onTrue onFalse hcondBr =>
      have hcond : m.knowsValue f cond = true := by
        have hknown := hf.named.terminators b _ hblk
        rw [hcondBr] at hknown
        exact List.all_eq_true.mp (Bool.and_eq_true_iff.mp hknown).1 cond List.mem_cons_self
      refine .bind (hf.valueType_settles hcond) fun ty _ _ => ?_
      split
      · exact settles_throw _
      · exact settles_pure trivial
    · exact settles_pure trivial

/-! ## Uses -/

theorem notePositions_settles (hb : b ∈ f.layout) (positions : Positions) :
    Settles (f.notePositions positions b) fun _ => True := by
  obtain ⟨blk, hblk⟩ := hf.exists_block hb
  refine .after hblk ?_
  refine Settles.foldlM ?_
  rintro ⟨id, pos⟩ hmem positions
  have hid := List.mem_of_getElem? (List.mk_mem_zipIdx_iff_getElem?.mp hmem)
  obtain ⟨inst, hinst⟩ := Function.exists_inst (hf.named.insts b blk hblk id hid)
  refine .after hinst ?_
  split
  · exact settles_throw _
  · exact settles_pure trivial

omit hf in
theorem checkUse_settles (d : Dominators) (positions : Positions) (id : InstId)
    (hb : b.index < f.blocks.size) (pos : Option Nat) :
    Settles (f.checkUse d positions id b pos) fun _ => True := by
  obtain ⟨blk, hblk⟩ := Function.exists_block hb
  have hguard : ∀ precedes : Bool, Settles (do
      if !precedes then throw (.undominatedUse id (← f.block b).name) : Check Unit)
      fun _ => True := by
    intro precedes
    cases precedes with
    | true => exact settles_pure trivial
    | false => exact .after hblk (settles_throw _)
  unfold Function.checkUse
  split
  · exact settles_throw _
  split
  · exact hguard _
  · exact settles_pure trivial

omit hf in
theorem checkUses_settles (d : Dominators) (positions : Positions) (hb : b.index < f.blocks.size)
    (pos : Option Nat) (values : List Value) : Settles (values.forM fun value => do
      if let .inst used := value then f.checkUse d positions used b pos) fun _ => True := by
  refine Settles.forM fun value _ => ?_
  cases value with
  | inst used => exact checkUse_settles d positions used hb pos
  | _ => exact settles_pure trivial

theorem checkOperands_settles (d : Dominators) (positions : Positions) {id : InstId}
    {kind : InstKind} (hkind : f.kind id = .ok kind) (hb : b.index < f.blocks.size) (pos : Nat) :
    Settles (f.checkOperands d positions b pos id) fun _ => True := by
  refine .after hkind ?_
  split
  · have hsources := Module.knowsKind_phi.mp (hf.named.kinds id _ hkind)
    refine Settles.forM ?_
    rintro ⟨value, source⟩ hmem
    cases value with
    | inst used => exact checkUse_settles d positions used (hsources _ hmem).2 none
    | _ => exact settles_pure trivial
  · exact checkUses_settles d positions hb (some pos) _

theorem checkBlockUses_settles (d : Dominators) (positions : Positions) (hb : b ∈ f.layout) :
    Settles (f.checkBlockUses d positions b) fun _ => True := by
  obtain ⟨blk, hblk⟩ := hf.exists_block hb
  refine .after hblk ?_
  refine .bind (Settles.forM ?_) fun _ _ _ =>
    checkUses_settles d positions (hf.layout b hb) none _
  rintro ⟨id, pos⟩ hmem
  have hid := List.mem_of_getElem? (List.mk_mem_zipIdx_iff_getElem?.mp hmem)
  obtain ⟨kind, hkind⟩ := hf.exists_kind hblk hid
  exact hf.checkOperands_settles d positions hkind (hf.layout b hb) pos

/-! ## The whole function -/

/-- Where the successors of live blocks have been checked, all edges lead to live blocks. -/
theorem closed_of_checked (h : Check.Passes (f.layout.forM f.checkSuccessors) ()) : f.Closed := by
  refine ⟨hf.layout, fun a ha b hedge => ?_⟩
  obtain ⟨blk, hblk, hlive, -⟩ :=
    Function.checkSuccessors_passes (Check.passes_forM.mp h a ha)
  exact hlive b ((Function.edge_iff (Function.successors_of_block hblk)).mp hedge)

end Checkable

variable {m : Module} {f : Function}

/-- The checks of a function settle if the chains of its types end once its names are known. -/
theorem verifyFunction_settles (htypes : f.Named m → ∀ id, id.index < f.insts.size →
    f.Ends InstKind.typeOperand? (.inst id)) : Settles (m.verifyFunction f) fun _ => True := by
  refine .bind (q := fun _ => m.checkNames f = .ok ()) ⟨_, rfl, fun _ heq => heq⟩
    fun _ _ hnames => ?_
  have hnamed := named_of_checkNames hnames
  have hf : f.Checkable m :=
    ⟨fun b hb => of_decide_eq_true ((Module.checkNames_ok hnames).1 b hb), hnamed, htypes hnamed⟩
  dsimp only
  split
  · exact settles_throw _
  refine .bind (Settles.forM fun b hb => hf.checkSuccessors_settles hb) fun _ hchecked _ => ?_
  have hclosed := hf.closed_of_checked hchecked
  obtain ⟨preds, hpreds⟩ := hclosed.predecessorMap_eq_ok
  refine .after hpreds ?_
  refine .bind (Settles.forM fun b hb => ?_) fun _ _ _ => ?_
  · exact hf.checkBlockShape_settles hb fun s hs =>
      hf.layout s ((mem_getD_predecessorMap hpreds b).mp hs).1
  obtain ⟨d, hd, -⟩ := Dominators.ofPredecessors_eq_ok hclosed hpreds
  refine .after hd ?_
  refine .bind (Settles.foldlM fun b hb positions => hf.notePositions_settles hb positions)
    fun positions _ _ => ?_
  exact Settles.forM fun b hb => hf.checkBlockUses_settles d positions hb

/-- Chains that do not come back end, once it is known that they stay in the arena. -/
theorem Acyclic.verifyFunction_settles (h : f.Acyclic InstKind.typeOperand?) :
    Settles (m.verifyFunction f) fun _ => True :=
  Function.verifyFunction_settles fun hnamed _ hid => h.ends (fun i kind _ hkind hnext =>
    of_decide_eq_true (knowsValue_of_knowsKind (hnamed.kinds i kind hkind)
      (InstKind.mem_operands_of_typeOperand? hnext))) hid

end Function

namespace Module

variable {m : Module}

/-- The checks of functions come to a verdict if those of each do: it is good, or one has a flaw. -/
theorem verifyFunctions_verdict {functions : List Function}
    (h : ∀ f ∈ functions, f.isDeclaration = false → Settles (m.verifyFunction f) fun _ => True) :
    ∃ verdict, (m.verifyFunctions functions).run = .ok verdict ∧
      (verdict = .ok () ∨ ∃ f ∈ functions, ∃ flaw, verdict = .error (.verification f.name flaw)) := by
  induction functions with
  | nil => exact ⟨.ok (), rfl, .inl rfl⟩
  | cons f rest ih =>
    obtain ⟨hf, hrest⟩ := List.forall_mem_cons.mp h
    obtain ⟨verdict, hverdict, hcases⟩ := ih hrest
    have hlater : verdict = .ok () ∨
        ∃ g ∈ f :: rest, ∃ flaw, verdict = .error (.verification g.name flaw) :=
      hcases.imp_right fun ⟨g, hg, hflaw⟩ => ⟨g, List.mem_cons_of_mem _ hg, hflaw⟩
    cases hbody : f.isDeclaration with
    | true => exact ⟨verdict, by simpa [verifyFunctions, hbody] using hverdict, hlater⟩
    | false =>
      obtain ⟨found, hfound, -⟩ := hf hbody
      cases found with
      | ok u =>
        refine ⟨verdict, ?_, hlater⟩
        simp only [verifyFunctions, hbody, hfound]
        exact hverdict
      | error flaw =>
        refine ⟨.error (.verification f.name flaw), ?_, .inr ⟨f, List.mem_cons_self, flaw, rfl⟩⟩
        simp only [verifyFunctions, hbody, hfound]
        rfl

/-- Checking a module comes to a verdict, whatever indices, layouts, tokens and contents are in it,
unless a type is followed back to where it was looked for. -/
theorem verify_verdict (h : ∀ f ∈ m.functions, f.isDeclaration = false →
    f.Acyclic InstKind.typeOperand?) :
    ∃ verdict, m.verify.run = .ok verdict ∧
      (verdict = .ok () ∨ ∃ f ∈ m.functions, ∃ flaw,
        verdict = .error (.verification f.name flaw)) := by
  obtain ⟨verdict, hverdict, hcases⟩ := verifyFunctions_verdict (m := m) fun f hf hbody =>
    (h f (Array.mem_toList_iff.mp hf) hbody).verifyFunction_settles
  exact ⟨verdict, hverdict, hcases.imp_right fun ⟨f, hf, hflaw⟩ =>
    ⟨f, Array.mem_toList_iff.mp hf, hflaw⟩⟩

/-- A module in which next to no index stands for anything. -/
def dangling : Module where
  name := "dangling"
  functions := #[{
    name := "dangle"
    params := []
    ret := .void
    blocks := #[⟨"entry", [⟨1⟩, ⟨7⟩], .br ⟨9⟩⟩]
    layout := [⟨0⟩, ⟨3⟩]
    insts := #[
      { kind := .call (.direct ⟨8⟩) [.global ⟨6⟩] .i1, block := some ⟨2⟩ },
      { kind := .select (.arg 4) (.inst ⟨0⟩) (.inst ⟨5⟩), block := none }] }]

theorem dangling_verdict : ∃ verdict, dangling.verify.run = .ok verdict ∧
    (verdict = .ok () ∨ ∃ f ∈ dangling.functions, ∃ flaw,
      verdict = .error (.verification f.name flaw)) := by
  refine verify_verdict fun f hf _ => Function.acyclic_of_descending ?_
  obtain rfl := List.mem_singleton.mp (Array.mem_toList_iff.mpr hf)
  decide

end Module

end EdgeProbe
