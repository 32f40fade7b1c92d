import EdgeProbe.Proofs.Machine.Sustained

/-!
# What does not depend on the store

Most steps of a run look up values that have been computed before: what they come to is fixed, and
they leave the store as it is. Of the others only calls of the trace hook add to the trace.
-/

namespace EdgeProbe

namespace Exec

variable {α β : Type} {x : Exec α} {s s' : Store}

/-- What the steps come to is fixed. They neither depend on the store nor change it. -/
def Fixed (x : Exec α) : Prop :=
  ∃ r : Except Stop α, x = ofStop r

theorem Fixed.eq_ok (h : x.Fixed) {a : α} (hx : x s = .ok a s') : s' = s ∧ ∀ t, x t = .ok a t := by
  obtain ⟨r, rfl⟩ := h
  cases r with
  | ok b =>
    obtain ⟨rfl, rfl⟩ := EStateM.Result.ok.inj hx
    exact ⟨rfl, fun _ => rfl⟩
  | error cause => cases hx

theorem fixed_pure (a : α) : (pure a : Exec α).Fixed :=
  ⟨.ok a, rfl⟩

theorem fixed_stop (trap : Trap) : (stop trap : Exec α).Fixed :=
  ⟨.error (.trap trap), rfl⟩

theorem fixed_ofChecked (x : Checked α) : (ofChecked x).Fixed := by
  cases x with
  | ok a => exact fixed_pure a
  | error fault => exact ⟨.error (.fault fault), rfl⟩

theorem Fixed.bind (h : x.Fixed) {k : α → Exec β} (hk : ∀ a, (k a).Fixed) : (x >>= k).Fixed := by
  obtain ⟨r, rfl⟩ := h
  cases r with
  | ok a => exact hk a
  | error cause => exact ⟨.error cause, rfl⟩

theorem fixed_mapM {g : α → Exec β} (hg : ∀ a, (g a).Fixed) (l : List α) : (l.mapM g).Fixed := by
  induction l with
  | nil => exact fixed_pure []
  | cons a rest ih =>
    rw [List.mapM_cons]
    exact (hg a).bind fun _ => ih.bind fun _ => fixed_pure _

theorem tick_eq (h : tick s = .ok () s') : s.stepsLeft = s'.stepsLeft + 1 ∧
    s' = { s with stepsLeft := s'.stepsLeft } := by
  unfold tick at h
  split at h
  · cases h
  · next left hleft =>
    obtain ⟨-, rfl⟩ := EStateM.Result.ok.inj h
    exact ⟨hleft, rfl⟩

/-- Work on memory changes nothing else. -/
theorem access_eq_ok {work : Access α} {a : α} (h : access work s = .ok a s') :
    ∃ memory, work s.memory = .ok a memory ∧ s' = { s with memory } := by
  rw [access_apply] at h
  split at h
  · next hwork =>
    obtain ⟨rfl, rfl⟩ := EStateM.Result.ok.inj h
    exact ⟨_, hwork, rfl⟩
  · cases h

end Exec

/-- The instruction reads memory. -/
def InstKind.loads : InstKind → Bool
  | .load _ _ => true
  | _ => false

namespace World

variable {w : World} {a : Activation} {frame : Frame} {s s' : Store}

theorem fixed_eval (w : World) (a : Activation) (frame : Frame) (value : Value) :
    (w.eval a frame value).Fixed := by
  unfold eval
  split
  · split
    · exact Exec.fixed_pure _
    · exact Exec.fixed_stop _
  · exact Exec.fixed_pure _
  · exact Exec.fixed_pure _
  · exact Exec.fixed_pure _
  · exact Exec.fixed_ofChecked _
  · exact Exec.fixed_pure _

theorem fixed_widthOf (a : Activation) (value : Value) : (widthOf a value).Fixed :=
  (Exec.fixed_ofChecked _).bind fun _ => Exec.fixed_pure _

theorem fixed_target (w : World) (a : Activation) (frame : Frame) (callee : Callee)
    (args : List Value) : (w.target a frame callee args).Fixed := by
  refine (Exec.fixed_mapM (w.fixed_eval a frame) args).bind fun values => ?_
  cases callee with
  | direct id => exact Exec.fixed_pure _
  | indirect value =>
    refine (w.fixed_eval a frame value).bind fun addr => ?_
    split
    · exact Exec.fixed_pure _
    · exact Exec.fixed_stop _

theorem fixed_enteredPhis (w : World) (a : Activation) (frame : Frame) (source : Option BlockId)
    (phis : List InstId) : (w.enteredPhis a frame source phis).Fixed := by
  cases source with
  | none => exact Exec.fixed_pure []
  | some source =>
    change (w.phiValues a frame source phis).Fixed
    induction phis with
    | nil => exact Exec.fixed_pure []
    | cons phi rest ih =>
      refine (Exec.fixed_ofChecked _).bind fun kind => ?_
      split
      · split
        · exact (w.fixed_eval a frame _).bind fun _ => ih.bind fun _ => Exec.fixed_pure _
        · exact Exec.fixed_stop _
      · exact ih

/-- An instruction that neither reads memory nor works on it nor calls. -/
theorem fixed_step {caller : Caller} {i : InstId} {kind : InstKind}
    (hkind : a.function.kind i = .ok kind) (htouches : kind.touches = false)
    (hloads : kind.loads = false) : (w.step caller a frame i).Fixed := by
  unfold step
  rw [hkind, Exec.ofChecked_ok, pure_bind]
  cases kind with
  | store value ptr => cases htouches
  | alloca size => cases htouches
  | call callee args ret => cases htouches
  | load ty ptr => cases hloads
  | phi ty incoming => exact Exec.fixed_stop _
  | landingPad => exact Exec.fixed_pure _
  | icmp pred lhs rhs =>
    refine (fixed_widthOf a lhs).bind fun _ => (w.fixed_eval a frame lhs).bind fun _ => ?_
    exact (w.fixed_eval a frame rhs).bind fun _ => Exec.fixed_pure _
  | binary op lhs rhs =>
    refine (fixed_widthOf a _).bind fun _ => (w.fixed_eval a frame lhs).bind fun _ => ?_
    exact (w.fixed_eval a frame rhs).bind fun _ => Exec.fixed_pure _
  | cast op value width =>
    refine (fixed_widthOf a value).bind fun _ => (w.fixed_eval a frame value).bind fun _ => ?_
    cases op <;> exact Exec.fixed_pure _
  | select cond onTrue onFalse =>
    refine (w.fixed_eval a frame cond).bind fun _ => ?_
    split <;> exact w.fixed_eval a frame _
  | gep base offset =>
    refine (fixed_widthOf a offset).bind fun _ => (w.fixed_eval a frame offset).bind fun _ => ?_
    exact (w.fixed_eval a frame base).bind fun _ => Exec.fixed_pure _

/-- Leaving a block without a call. -/
theorem fixed_runTerminator {caller : Caller} {block : BlockId} {term : Terminator}
    (h : term.calls = false) : (w.runTerminator caller a frame block term).Fixed := by
  unfold runTerminator
  cases term with
  | invoke callee args normal unwind => cases h
  | ret value =>
    cases value with
    | none => exact Exec.fixed_pure _
    | some value => exact (w.fixed_eval a frame value).bind fun _ => Exec.fixed_pure _
  | br target => exact Exec.fixed_pure _
  | condBr cond onTrue onFalse =>
    exact (w.fixed_eval a frame cond).bind fun _ => Exec.fixed_pure _
  | switch value default cases =>
    refine (fixed_widthOf a value).bind fun width => (w.fixed_eval a frame value).bind fun _ => ?_
    dsimp only
    split <;> exact Exec.fixed_pure _
  | resume value => exact Exec.fixed_stop _
  | unreachable => exact Exec.fixed_stop _

/-- A block is entered: how it ends, what there is to execute, and the values of its phis. -/
def arrival (w : World) (a : Activation) (c : Cursor) :
    Exec (Terminator × List InstId × Frame) := do
  let b ← Exec.ofChecked (a.function.block c.block)
  let phis ← Exec.ofChecked (a.function.phis c.block)
  let entered ← w.enteredPhis a c.frame c.source phis
  return (b.term, b.insts.drop phis.length, setAll c.frame entered)

theorem run_succ_of_arrival (fuel : Nat) (a : Activation) (c : Cursor) :
    w.run (fuel + 1) a c = (do
      let there ← w.arrival a c
      w.rest fuel a c.block there.1 there.2.1 there.2.2) := by
  rw [run_succ, arrival]
  simp only [bind_assoc, pure_bind]

theorem fixed_arrival (w : World) (a : Activation) (c : Cursor) : (w.arrival a c).Fixed := by
  refine (Exec.fixed_ofChecked _).bind fun b => (Exec.fixed_ofChecked _).bind fun phis => ?_
  exact (w.fixed_enteredPhis a c.frame c.source phis).bind fun _ => Exec.fixed_pure _

theorem trace_of_step {caller : Caller} {i : InstId} {kind : InstKind}
    (hkind : a.function.kind i = .ok kind) (hcall : kind.isCall = false) {value : UInt64}
    (h : w.step caller a frame i s = .ok value s') : s'.trace = s.trace := by
  by_cases hfixed : kind.touches = false ∧ kind.loads = false
  · rw [((fixed_step hkind hfixed.1 hfixed.2).eq_ok h).1]
  rw [step, hkind, Exec.ofChecked_ok, pure_bind] at h
  cases kind with
  | load ty ptr =>
    obtain ⟨addr, s₁, haddr, hread⟩ := Exec.bind_eq_ok.mp h
    obtain ⟨read, s₂, hasked, hraw⟩ := Exec.bind_eq_ok.mp hread
    obtain ⟨-, rfl⟩ := EStateM.Result.ok.inj hasked
    obtain ⟨raw, s₃, hraw, hend⟩ := Exec.bind_eq_ok.mp hraw
    have hfixed : (Exec.ofStop read).Fixed := ⟨read, rfl⟩
    have hs₃ : s₃ = s := (hfixed.eq_ok hraw).1.trans ((w.fixed_eval a frame ptr).eq_ok haddr).1
    cases ty <;> exact congrArg Store.trace ((EStateM.Result.ok.inj hend).2.symm.trans hs₃)
  | store value ptr =>
    obtain ⟨ty, hty, hbits⟩ := Exec.ofChecked_bind_eq_ok.mp h
    obtain ⟨bits, s₁, hbits, haddr⟩ := Exec.bind_eq_ok.mp hbits
    obtain ⟨addr, s₂, haddr, hwrite⟩ := Exec.bind_eq_ok.mp haddr
    obtain ⟨u, s₃, hwrite, hend⟩ := Exec.bind_eq_ok.mp hwrite
    obtain rfl := ((w.fixed_eval a frame value).eq_ok hbits).1
    obtain rfl := ((w.fixed_eval a frame ptr).eq_ok haddr).1
    obtain ⟨memory, -, hs₃⟩ := Exec.access_eq_ok hwrite
    rw [← (EStateM.Result.ok.inj hend).2, hs₃]
  | alloca size =>
    obtain ⟨memory, -, rfl⟩ := Exec.access_eq_ok h
    rfl
  | call callee args ret => cases hcall
  | _ => exact absurd ⟨rfl, rfl⟩ hfixed

end World

theorem Builtin.ofName?_eq_trace {name : String} (h : ofName? name = some .trace) :
    name = Symbol.traceHook := by
  simp only [ofName?, beq_iff_eq] at h
  repeat' split at h
  all_goals simp_all

namespace World

variable {w : World} {s s' : Store}

/-- Of the built-in functions only the trace hook adds to the trace. -/
theorem trace_of_runBuiltin {builtin : Builtin} (hne : builtin ≠ .trace) {args : List UInt64}
    {value : UInt64} (h : runBuiltin builtin args s = .ok value s') : s'.trace = s.trace := by
  unfold runBuiltin at h
  cases builtin with
  | compareStrings ignoreCase limited =>
    obtain ⟨answer, s₁, hasked, h⟩ := Exec.bind_eq_ok.mp h
    obtain ⟨-, rfl⟩ := EStateM.Result.ok.inj hasked
    cases answer with
    | ok found => exact congrArg Store.trace (EStateM.Result.ok.inj h).2.symm
    | error trap => cases h
  | compareRegions =>
    obtain ⟨answer, s₁, hasked, h⟩ := Exec.bind_eq_ok.mp h
    obtain ⟨-, rfl⟩ := EStateM.Result.ok.inj hasked
    cases answer with
    | ok found => exact congrArg Store.trace (EStateM.Result.ok.inj h).2.symm
    | error trap => cases h
  | copy =>
    obtain ⟨u, s₁, hcopy, hend⟩ := Exec.bind_eq_ok.mp h
    obtain ⟨memory, -, hs₁⟩ := Exec.access_eq_ok hcopy
    rw [← (EStateM.Result.ok.inj hend).2, hs₁]
  | trace => exact absurd rfl hne

/-- So of the functions without bodies only that one does. -/
theorem trace_of_callDeclared {f : Function} (hname : f.name ≠ Symbol.traceHook)
    {args : List UInt64} {value : UInt64} (h : w.callDeclared f args s = .ok value s') :
    s'.trace = s.trace := by
  unfold callDeclared at h
  cases hbuiltin : Builtin.ofName? f.name with
  | some builtin =>
    rw [hbuiltin] at h
    obtain ⟨result, s₁, hrun, hend⟩ := Exec.bind_eq_ok.mp h
    rw [← (EStateM.Result.ok.inj hend).2]
    refine trace_of_runBuiltin ?_ hrun
    rintro rfl
    exact hname (Builtin.ofName?_eq_trace hbuiltin)
  | none =>
    rw [hbuiltin] at h
    dsimp only at h
    cases hhandler : w.handlers.lookup f.name with
    | some handler =>
      rw [hhandler] at h
      obtain ⟨result, s₁, hrun, hend⟩ := Exec.bind_eq_ok.mp h
      obtain ⟨memory, -, hs₁⟩ := Exec.access_eq_ok hrun
      rw [← (EStateM.Result.ok.inj hend).2, hs₁]
    | none =>
      rw [hhandler] at h
      cases h

end World

end EdgeProbe
