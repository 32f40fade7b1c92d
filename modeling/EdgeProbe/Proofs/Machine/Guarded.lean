import EdgeProbe.Proofs.Machine.Exec
import EdgeProbe.Proofs.Machine.Moment

/-!
# Runs under a guard

A guard says which calls may be made: by which instruction of which function, with which arguments
and in which memory. A guarded run ends in a fault where the guard forbids a call, and is the run
itself as long as all calls are allowed (`World.runIf_eq_run`, `World.runIf_eq_ok`). What is assumed
of the calls in a run is in this way carried along while code is changed piece by piece.
-/

namespace EdgeProbe

/-- Whether an instruction of a function may make its call with these arguments in this memory. -/
abbrev Guard := FuncId → InstId → List UInt64 → Memory → Prop

namespace Exec

open Classical in
/-- Goes on if memory is as it has to be, which is assumed. -/
noncomputable def require (holds : Memory → Prop) : Exec Unit := fun s =>
  if holds s.memory then .ok () s else .error (.fault .noCurrentBlock) s

theorem require_of_holds {holds : Memory → Prop} {s : Store} (h : holds s.memory) :
    require holds s = .ok () s :=
  if_pos h

theorem require_of_not_holds {holds : Memory → Prop} {s : Store} (h : ¬holds s.memory) :
    require holds s = .error (.fault .noCurrentBlock) s :=
  if_neg h

theorem require_eq_ok {holds : Memory → Prop} {s s' : Store} (h : require holds s = .ok () s') :
    holds s.memory ∧ s' = s := by
  by_cases hs : holds s.memory
  · rw [require_of_holds hs] at h
    exact ⟨hs, (EStateM.Result.ok.inj h).2.symm⟩
  · rw [require_of_not_holds hs] at h
    cases h

theorem refines_require {kept : Stop → Prop} (hkept : Keeps kept) {holds holds' : Memory → Prop}
    (h : ∀ memory, holds memory → holds' memory) :
    Refines kept Eq (require holds) fun _ => require holds' := by
  intro s
  by_cases hs : holds s.memory
  · rw [require_of_holds hs]
    refine ⟨(), rfl, 0, 0, fun _ _ left => ?_⟩
    rw [Nat.zero_add]
    exact require_of_holds (h s.memory hs)
  · rw [require_of_not_holds hs]
    exact fun hfault => absurd hfault (hkept.fault _)

end Exec

namespace World

variable (w : World) (g : Guard)

/-- The guard allows the call that an instruction makes, if it makes one. -/
def Permits (id : FuncId) (a : Activation) (frame : Frame) (i : InstId) (memory : Memory) : Prop :=
  ∀ callee args ret values, a.function.kind i = .ok (.call callee args ret) →
    (∀ s, args.mapM (w.eval a frame) s = .ok values s) → g id i values memory

/-- Calls a function under a guard, by `runBody` if it has a body. -/
def enterIf (runBody : FuncId → Activation → Cursor → Exec UInt64) : Caller := fun id args => do
  let f ← Exec.ofChecked (w.module.function id)
  match f.entryBlock? with
  | some block => runBody id ⟨f, args⟩ ⟨∅, none, block⟩
  | none => w.callDeclared f args

/-- Executes what is left of a block under a guard, and goes on with `runBody`. -/
noncomputable def restWith (runBody : FuncId → Activation → Cursor → Exec UInt64) (id : FuncId)
    (a : Activation) (block : BlockId) (term : Terminator) : List InstId → Frame → Exec UInt64
  | [], frame => do
    Exec.tick
    match ← w.runTerminator (w.enterIf runBody) a frame block term with
    | .result value => return value
    | .jump next => runBody id a next
  | i :: insts, frame => do
    Exec.tick
    Exec.require (w.Permits g id a frame i)
    let value ← w.step (w.enterIf runBody) a frame i
    restWith runBody id a block term insts (frame.insert i value)

/-- Runs an activation under a guard. -/
noncomputable def runIf : Nat → FuncId → Activation → Cursor → Exec UInt64
  | 0, _, _, _ => Exec.stop .stepBudget
  | fuel + 1, id, a, c => do
    let b ← Exec.ofChecked (a.function.block c.block)
    let phis ← Exec.ofChecked (a.function.phis c.block)
    let entered ← w.enteredPhis a c.frame c.source phis
    w.restWith g (runIf fuel) id a c.block b.term (b.insts.drop phis.length)
      (setAll c.frame entered)

/-- Executes what is left of a block under a guard and goes on from there. -/
noncomputable def restIf (fuel : Nat) : FuncId → Activation → BlockId → Terminator →
    List InstId → Frame → Exec UInt64 :=
  w.restWith g (w.runIf g fuel)

variable {w g}

theorem restIf_nil (fuel : Nat) (id : FuncId) (a : Activation) (block : BlockId)
    (term : Terminator) (frame : Frame) :
    w.restIf g fuel id a block term [] frame = (do
      Exec.tick
      match ← w.runTerminator (w.enterIf (w.runIf g fuel)) a frame block term with
      | .result value => return value
      | .jump next => w.runIf g fuel id a next) :=
  rfl

theorem restIf_cons (fuel : Nat) (id : FuncId) (a : Activation) (block : BlockId)
    (term : Terminator) (i : InstId) (insts : List InstId) (frame : Frame) :
    w.restIf g fuel id a block term (i :: insts) frame = (do
      Exec.tick
      Exec.require (w.Permits g id a frame i)
      let value ← w.step (w.enterIf (w.runIf g fuel)) a frame i
      w.restIf g fuel id a block term insts (frame.insert i value)) :=
  rfl

theorem runIf_succ (fuel : Nat) (id : FuncId) (a : Activation) (c : Cursor) :
    w.runIf g (fuel + 1) id a c = (do
      let b ← Exec.ofChecked (a.function.block c.block)
      let phis ← Exec.ofChecked (a.function.phis c.block)
      let entered ← w.enteredPhis a c.frame c.source phis
      w.restIf g fuel id a c.block b.term (b.insts.drop phis.length) (setAll c.frame entered)) :=
  rfl

theorem enterIf_eq_enter {n : Nat} (h : ∀ id a c, w.runIf g n id a c = w.run n a c) :
    w.enterIf (w.runIf g n) = w.enter (w.run n) := by
  funext id args
  simp only [enterIf, h]
  rfl

/-- Under a guard that allows every call a run is as it is without one. -/
theorem runIf_eq_run (hg : ∀ id i values memory, g id i values memory) (n : Nat) (id : FuncId)
    (a : Activation) (c : Cursor) : w.runIf g n id a c = w.run n a c := by
  induction n generalizing id a c with
  | zero => rfl
  | succ n ih =>
    have henter := enterIf_eq_enter ih
    have hrest : ∀ block term insts frame,
        w.restIf g n id a block term insts frame = w.rest n a block term insts frame := by
      intro block term insts
      induction insts with
      | nil =>
        intro frame
        rw [restIf_nil, henter]
        simp only [ih]
        exact (w.rest_nil n a block term frame).symm
      | cons i insts ihinsts =>
        intro frame
        have hpermits : Exec.require (w.Permits g id a frame i) = pure () := by
          funext s
          exact Exec.require_of_holds fun _ _ _ values _ _ => hg id i values s.memory
        rw [restIf_cons, rest_cons, henter, hpermits]
        simp only [ihinsts, pure_bind]
    rw [runIf_succ, run_succ]
    simp only [hrest]

/-! ## From moments to guards -/

/-- The guard allows the call that is made next, if one is. -/
def Permitted (w : World) (g : Guard) (moment : Moment) : Prop :=
  ∀ block i insts frame, moment.place = .within block (i :: insts) frame →
    w.Permits g moment.id moment.activation frame i moment.store.memory

theorem performCall_eq_ok {caller caller' : Caller} {a : Activation} {frame : Frame}
    {callee : Callee} {args : List Value} {s s' : Store} {value : UInt64}
    (hcaller : ∀ id values s₁, w.target a frame callee args s = .ok (id, values) s₁ →
      caller id values s₁ = .ok value s' → caller' id values s₁ = .ok value s')
    (h : w.performCall caller a frame callee args s = .ok value s') :
    w.performCall caller' a frame callee args s = .ok value s' := by
  rw [performCall_eq] at h ⊢
  obtain ⟨⟨id, values⟩, s₁, htarget, hcall⟩ := Exec.bind_eq_ok.mp h
  exact Exec.bind_eq_ok.mpr ⟨(id, values), s₁, htarget, hcaller id values s₁ htarget hcall⟩

/-- A run of some fuel all of whose moments the guard permits is the guarded run. -/
def RunPermitted (w : World) (g : Guard) (n : Nat) : Prop :=
  ∀ id a es c s value s',
    (∀ moment, Relation.ReflTransGen w.Next ⟨id, a, n, es, .arriving c, s⟩ moment →
      w.Permitted g moment) →
    w.run n a c s = .ok value s' → w.runIf g n id a c s = .ok value s'

theorem enterIf_eq_ok {n : Nat} (ih : w.RunPermitted g n) {id : FuncId} {args : List UInt64}
    {s s' : Store} {value : UInt64}
    (hmoments : ∀ f entry, w.module.function id = .ok f → f.entryBlock? = some entry →
      ∀ moment, Relation.ReflTransGen w.Next (.start id f entry args n s) moment →
        w.Permitted g moment)
    (h : w.enter (w.run n) id args s = .ok value s') :
    w.enterIf (w.runIf g n) id args s = .ok value s' := by
  unfold enter at h
  unfold enterIf
  obtain ⟨f, hf, hgo⟩ := Exec.ofChecked_bind_eq_ok.mp h
  refine Exec.ofChecked_bind_eq_ok.mpr ⟨f, hf, ?_⟩
  cases hentry : f.entryBlock? with
  | none =>
    rw [hentry] at hgo
    exact hgo
  | some entry =>
    rw [hentry] at hgo
    exact ih id _ [] _ _ _ _ (hmoments f entry hf hentry) hgo

theorem restIf_eq_ok {n : Nat} (ih : w.RunPermitted g n) {id : FuncId} {a : Activation}
    {es : List BlockId} {block : BlockId} {b : Block} {insts : List InstId} {frame : Frame}
    {s s' : Store} {value : UInt64} (hb : a.function.block block = .ok b)
    (hmoments : ∀ moment,
      Relation.ReflTransGen w.Next ⟨id, a, n + 1, es, .within block insts frame, s⟩ moment →
        w.Permitted g moment)
    (h : w.rest n a block b.term insts frame s = .ok value s') :
    w.restIf g n id a block b.term insts frame s = .ok value s' := by
  induction insts generalizing frame s with
  | nil =>
    rw [rest_nil] at h
    rw [restIf_nil]
    obtain ⟨⟨⟩, s₁, htick, h⟩ := Exec.bind_eq_ok.mp h
    obtain ⟨outcome, s₂, hend, h⟩ := Exec.bind_eq_ok.mp h
    refine Exec.bind_eq_ok.mpr ⟨(), s₁, htick, Exec.bind_eq_ok.mpr ⟨outcome, s₂, ?_, ?_⟩⟩
    · by_cases hinvoke : ∃ callee args normal unwind, b.term = .invoke callee args normal unwind
      · obtain ⟨callee, args, normal, unwind, hterm⟩ := hinvoke
        have hperform : ∀ caller, w.runTerminator caller a frame block b.term = (do
            let _ ← w.performCall caller a frame callee args
            return .jump ⟨frame, some block, normal⟩) := by
          intro caller
          rw [hterm]
          rfl
        rw [hperform] at hend ⊢
        obtain ⟨v, s₃, hcall, hret⟩ := Exec.bind_eq_ok.mp hend
        refine Exec.bind_eq_ok.mpr ⟨v, s₃, performCall_eq_ok ?_ hcall, hret⟩
        intro callId values s₄ htarget
        refine enterIf_eq_ok ih fun f entry hf hentry moment hreach => ?_
        exact hmoments moment (.head (.invoke hb hterm htick htarget hf hentry) hreach)
      · rw [runTerminator_of_not_invoke (by simpa using hinvoke)]
        exact hend
    · cases outcome with
      | result v => exact h
      | jump c =>
        refine ih id a es c s₂ value s' (fun moment hreach => ?_) h
        exact hmoments moment (.head (.jump hb htick hend) hreach)
  | cons i insts ihinsts =>
    rw [rest_cons] at h
    rw [restIf_cons]
    obtain ⟨⟨⟩, s₁, htick, h⟩ := Exec.bind_eq_ok.mp h
    obtain ⟨v, s₂, hstep, h⟩ := Exec.bind_eq_ok.mp h
    have hmemory : s₁.memory = s.memory := by
      obtain ⟨left, rfl⟩ := Exec.tick_eq_ok htick
      rfl
    have hpermits : w.Permits g id a frame i s₁.memory := by
      rw [hmemory]
      exact hmoments _ .refl block i insts frame rfl
    refine Exec.bind_eq_ok.mpr ⟨(), s₁, htick, Exec.bind_eq_ok.mpr ⟨(), s₁, ?_, ?_⟩⟩
    · exact Exec.require_of_holds hpermits
    refine Exec.bind_eq_ok.mpr ⟨v, s₂, ?_, ihinsts (fun moment hreach => ?_) h⟩
    · cases hkind : a.function.kind i with
      | error fault =>
        rw [step, hkind] at hstep
        cases hstep
      | ok kind =>
        by_cases hcall : kind.isCall = true
        · cases kind with
          | call callee args ret =>
            have hperform : ∀ caller, w.step caller a frame i =
                w.performCall caller a frame callee args := by
              intro caller
              rw [step, hkind]
              rfl
            rw [hperform] at hstep ⊢
            refine performCall_eq_ok (fun callId values s₃ htarget => ?_) hstep
            refine enterIf_eq_ok ih fun f entry hf hentry moment hreach => ?_
            exact hmoments moment (.head (.call hkind htick htarget hf hentry) hreach)
          | _ => cases hcall
        · rw [step_of_not_call hkind (by simpa using hcall)]
          exact hstep
    · exact hmoments moment (.head (.execute htick hstep) hreach)

theorem runIf_eq_ok (n : Nat) : w.RunPermitted g n := by
  induction n with
  | zero =>
    intro id a es c s value s' hmoments h
    cases h
  | succ n ih =>
    intro id a es c s value s' hmoments h
    rw [run_succ] at h
    rw [runIf_succ]
    obtain ⟨b, hb, h⟩ := Exec.ofChecked_bind_eq_ok.mp h
    obtain ⟨phis, hphis, h⟩ := Exec.ofChecked_bind_eq_ok.mp h
    obtain ⟨values, s₁, hvalues, h⟩ := Exec.bind_eq_ok.mp h
    refine Exec.ofChecked_bind_eq_ok.mpr ⟨b, hb, Exec.ofChecked_bind_eq_ok.mpr ⟨phis, hphis,
      Exec.bind_eq_ok.mpr ⟨values, s₁, hvalues, ?_⟩⟩⟩
    have hrest : ∀ moment, Relation.ReflTransGen w.Next ⟨id, a, n + 1, c.entering es,
        .within c.block (b.insts.drop phis.length) (setAll c.frame values), s₁⟩ moment →
        w.Permitted g moment := fun moment hreach =>
      hmoments moment (.head (.enter hb hphis hvalues) hreach)
    exact restIf_eq_ok ih hb hrest h

end World

end EdgeProbe
